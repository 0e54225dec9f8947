import Mathlib.Data.List.Nodup
import Xv6.Virtio.Model

/-!
The descriptors: who has them, and what `alloc3_desc` and `free_chain` do.

* `Partition`: the free descriptors and the chains of the threads partition `0..NUM-1`;
  `Partition.take` and `Partition.give` are the two ways in which it changes.
* `alloc3Desc_spec`: three free descriptors, or none and the same ones free as before.
* `freeChain_spec`: a formatted chain is freed as a whole.
-/

namespace Xv6.Virtio

open Function (update update_of_ne update_self update_apply update_eq_self update_idem update_comm)

theorem Idx.mem_list {idx : Idx} {i : ℕ} :
    i ∈ idx.list ↔ i = idx.head ∨ i = idx.middle ∨ i = idx.tail := by
  simp [list]

theorem Idx.nodup_list {idx : Idx} : idx.list.Nodup ↔
    (idx.head ≠ idx.middle ∧ idx.head ≠ idx.tail) ∧ idx.middle ≠ idx.tail := by
  simp [list]

/-! ### Ownership -/

/-- The free descriptors and the chains partition `0..NUM-1`. -/
structure Partition (free : ℕ → Bool) (chain : ℕ → List ℕ) : Prop where
  free_iff : ∀ i, i < NUM → (free i = true ↔ ∀ t, i ∉ chain t)
  lt : ∀ t i, i ∈ chain t → i < NUM
  nodup : ∀ t, (chain t).Nodup
  unique : ∀ t t' i, i ∈ chain t → i ∈ chain t' → t = t'

namespace Partition

variable {free : ℕ → Bool} {chain : ℕ → List ℕ} {t : ℕ} {l : List ℕ}

variable (h : Partition free chain)
include h

/-- Descriptors are free or in a chain, not both. -/
theorem not_free {i : ℕ} (hi : i ∈ chain t) : free i = false := by
  cases hf : free i with
  | false => rfl
  | true => exact absurd hi ((h.free_iff i (h.lt t i hi)).mp hf t)

/-- A thread without a chain takes free descriptors. -/
theorem take (ht : chain t = []) (hl : l.Nodup)
    (hfree : ∀ i ∈ l, i < NUM ∧ free i = true) :
    Partition (fun i => free i && decide (i ∉ l)) (update chain t l) := by
  have hold : ∀ t' i, i ∈ l → i ∉ chain t' := fun t' i hi =>
    (h.free_iff i (hfree i hi).1).mp (hfree i hi).2 t'
  refine ⟨?_, ?_, ?_, ?_⟩
  · intro i hi
    rw [Bool.and_eq_true, decide_eq_true_iff, h.free_iff i hi]
    constructor
    · rintro ⟨hnot, hil⟩ t'
      by_cases htt : t' = t
      · rwa [htt, update_self]
      · rw [update_of_ne htt]
        exact hnot t'
    · intro hnot
      refine ⟨fun t' => ?_, ?_⟩
      · by_cases htt : t' = t
        · rw [htt, ht]
          exact List.not_mem_nil
        · have hother := hnot t'
          rwa [update_of_ne htt] at hother
      · have hself := hnot t
        rwa [update_self] at hself
  · intro t' i hi
    by_cases htt : t' = t
    · rw [htt, update_self] at hi
      exact (hfree i hi).1
    · rw [update_of_ne htt] at hi
      exact h.lt t' i hi
  · intro t'
    by_cases htt : t' = t
    · rwa [htt, update_self]
    · rw [update_of_ne htt]
      exact h.nodup t'
  · intro t₁ t₂ i h₁ h₂
    by_cases e₁ : t₁ = t <;> by_cases e₂ : t₂ = t
    · exact e₁.trans e₂.symm
    · rw [e₁, update_self] at h₁
      rw [update_of_ne e₂] at h₂
      exact absurd h₂ (hold t₂ i h₁)
    · rw [update_of_ne e₁] at h₁
      rw [e₂, update_self] at h₂
      exact absurd h₁ (hold t₁ i h₂)
    · rw [update_of_ne e₁] at h₁
      rw [update_of_ne e₂] at h₂
      exact h.unique t₁ t₂ i h₁ h₂

/-- A thread gives its chain back. -/
theorem give (ht : chain t = l) :
    Partition (fun i => free i || decide (i ∈ l)) (update chain t []) := by
  have hmem : ∀ t' i, i ∈ update chain t [] t' → t' ≠ t ∧ i ∈ chain t' := by
    intro t' i hi
    by_cases htt : t' = t
    · rw [htt, update_self] at hi
      cases hi
    · rw [update_of_ne htt] at hi
      exact ⟨htt, hi⟩
  refine ⟨?_, ?_, ?_, ?_⟩
  · intro i hi
    rw [Bool.or_eq_true, decide_eq_true_iff, h.free_iff i hi]
    constructor
    · rintro hor t' hi'
      obtain ⟨hne, hold⟩ := hmem t' i hi'
      rcases hor with hnot | hil
      · exact hnot t' hold
      · exact hne (h.unique t' t i hold (ht ▸ hil))
    · intro hnot
      by_cases hil : i ∈ l
      · exact .inr hil
      · refine .inl fun t' hi' => ?_
        have hne : t' ≠ t := by
          rintro rfl
          exact hil (ht ▸ hi')
        have hother := hnot t'
        rw [update_of_ne hne] at hother
        exact hother hi'
  · intro t' i hi
    exact h.lt t' i (hmem t' i hi).2
  · intro t'
    by_cases htt : t' = t
    · rw [htt, update_self]
      exact List.nodup_nil
    · rw [update_of_ne htt]
      exact h.nodup t'
  · intro t₁ t₂ i h₁ h₂
    exact h.unique t₁ t₂ i (hmem t₁ i h₁).2 (hmem t₂ i h₂).2

end Partition

/-! ### `alloc3_desc` -/

variable {s s' : State}

theorem allocDesc_some {i : ℕ} (h : s.allocDesc = some (i, s')) :
    i < NUM ∧ s.free i = true ∧ s' = { s with free := update s.free i false } := by
  obtain ⟨j, hfind, heq⟩ := Option.map_eq_some_iff.mp h
  cases heq
  exact ⟨List.mem_range.mp (List.mem_of_find?_eq_some hfind), List.find?_some hfind, rfl⟩

theorem freeDesc_ok {i : ℕ} (hi : i < NUM) (hfree : s.free i = false) :
    s.freeDesc i =
      .ok ({ s with desc := update s.desc i .zero, free := update s.free i true }.wakeup .free) := by
  unfold State.freeDesc
  rw [if_neg (Nat.not_le.mpr hi), hfree]
  rfl

/-- What a change of descriptors leaves alone; threads may be woken. -/
structure Woken (s s' : State) : Prop where
  thread : ∀ t, s'.thread t = s.thread t ∨ s'.thread t = (s.thread t).wake .free
  rest : s' = { s with desc := s'.desc, free := s'.free, thread := s'.thread }

/-- What `alloc3_desc` does: three free descriptors are taken, or none. -/
inductive Alloc3 (s : State) : State → Option Idx → Prop where
  | taken (idx : Idx) : idx.list.Nodup → (∀ i ∈ idx.list, i < NUM ∧ s.free i = true) →
      Alloc3 s { s with free := fun i => s.free i && decide (i ∉ idx.list) } (some idx)
  | failed {s' : State} : s'.free = s.free → (∀ i, s.free i = false → s'.desc i = s.desc i) →
      Woken s s' → Alloc3 s s' none

theorem wake_wake (th : Thread) (chan : Chan) : (th.wake chan).wake chan = th.wake chan := by
  cases th with
  | outside => rfl
  | interrupted => rfl
  | handling => rfl
  | rw req stage =>
    cases stage with
    | starved => by_cases hc : chan = .free <;> simp only [Thread.wake, hc, if_true, if_false]
    | asleep idx =>
      by_cases hc : chan = .buf req.b <;> simp only [Thread.wake, hc, if_true, if_false]
    | _ => rfl

/-- A descriptor that was taken and is freed again. -/
theorem update_back {free : ℕ → Bool} {i : ℕ} (hi : free i = true) :
    update (update free i false) i true = free := by
  rw [update_idem, ← hi, update_eq_self]

theorem taken_eq (free : ℕ → Bool) (i₀ i₁ i₂ : ℕ) :
    update (update (update free i₀ false) i₁ false) i₂ false =
      fun i => free i && decide (i ∉ (⟨i₀, i₁, i₂⟩ : Idx).list) := by
  funext i
  simp only [update_apply, Idx.mem_list]
  by_cases h₀ : i = i₀ <;> by_cases h₁ : i = i₁ <;> by_cases h₂ : i = i₂ <;> simp [h₀, h₁, h₂]

theorem alloc3Desc_spec (s : State) : ∃ s' r, s.alloc3Desc = .ok (s', r) ∧ Alloc3 s s' r := by
  unfold State.alloc3Desc
  cases h₀ : s.allocDesc with
  | none => exact ⟨s, none, rfl, .failed rfl (fun _ _ => rfl) ⟨fun _ => .inl rfl, rfl⟩⟩
  | some r₀ =>
  obtain ⟨i₀, s₁⟩ := r₀
  obtain ⟨hi₀, hf₀, rfl⟩ := allocDesc_some h₀
  dsimp only
  have hne : ∀ {i : ℕ}, s.free i = false → i ≠ i₀ := by
    rintro i hi rfl
    cases hf₀.symm.trans hi
  cases h₁ : ({ s with free := update s.free i₀ false } : State).allocDesc with
  | none =>
    rw [freeDesc_ok hi₀ (update_self _ _ _)]
    refine ⟨_, none, rfl, .failed (update_back hf₀) ?_ ⟨fun _ => .inr rfl, rfl⟩⟩
    intro i hi
    exact update_of_ne (hne hi) _ _
  | some r₁ =>
  obtain ⟨i₁, s₂⟩ := r₁
  obtain ⟨hi₁, hf₁, rfl⟩ := allocDesc_some h₁
  have hi₁₀ : i₁ ≠ i₀ := by
    rintro rfl
    cases (update_self i₁ false s.free).symm.trans hf₁
  replace hf₁ : s.free i₁ = true := (update_of_ne hi₁₀ _ _).symm.trans hf₁
  dsimp only
  cases h₂ : ({ s with free := update (update s.free i₀ false) i₁ false } : State).allocDesc with
  | none =>
    have hnot₀ : update (update s.free i₀ false) i₁ false i₀ = false := by
      rw [update_of_ne hi₁₀.symm, update_self]
    have hnot₁ : update (update (update s.free i₀ false) i₁ false) i₀ true i₁ = false := by
      rw [update_of_ne hi₁₀, update_self]
    rw [freeDesc_ok hi₀ hnot₀, Except.bind, freeDesc_ok hi₁ hnot₁]
    refine ⟨_, none, rfl, .failed ?_ ?_ ⟨fun t => .inr ?_, rfl⟩⟩
    · show update (update (update (update s.free i₀ false) i₁ false) i₀ true) i₁ true = s.free
      rw [update_comm hi₁₀, update_back hf₀, update_back hf₁]
    · intro i hi
      have hi₁' : i ≠ i₁ := by
        rintro rfl
        cases hf₁.symm.trans hi
      show update (update s.desc i₀ .zero) i₁ .zero i = s.desc i
      rw [update_of_ne hi₁', update_of_ne (hne hi)]
    · exact wake_wake _ _
  | some r₂ =>
    obtain ⟨i₂, s₃⟩ := r₂
    obtain ⟨hi₂, hf₂, rfl⟩ := allocDesc_some h₂
    have hi₂₁ : i₂ ≠ i₁ := by
      rintro rfl
      cases (update_self i₂ false (update s.free i₀ false)).symm.trans hf₂
    replace hf₂ : update s.free i₀ false i₂ = true :=
      (update_of_ne hi₂₁ _ _).symm.trans hf₂
    have hi₂₀ : i₂ ≠ i₀ := by
      rintro rfl
      cases (update_self i₂ false s.free).symm.trans hf₂
    rw [update_of_ne hi₂₀] at hf₂
    refine ⟨_, some ⟨i₀, i₁, i₂⟩, rfl, ?_⟩
    rw [taken_eq]
    apply Alloc3.taken
    · exact Idx.nodup_list.mpr ⟨⟨hi₁₀.symm, hi₂₀.symm⟩, hi₂₁.symm⟩
    · intro i hi
      rcases Idx.mem_list.mp hi with rfl | rfl | rfl
      · exact ⟨hi₀, hf₀⟩
      · exact ⟨hi₁, hf₁⟩
      · exact ⟨hi₂, hf₂⟩

/-! ### `free_chain` -/

/-- The three descriptors are linked as `virtio_disk_rw` links them. -/
structure Linked (desc : ℕ → Desc) (idx : Idx) : Prop where
  head : (desc idx.head).hasNext = true ∧ (desc idx.head).next = idx.middle
  middle : (desc idx.middle).hasNext = true ∧ (desc idx.middle).next = idx.tail
  tail : (desc idx.tail).hasNext = false ∧ (desc idx.tail).addr = .status idx.head

theorem Linked.congr {desc desc' : ℕ → Desc} {idx : Idx} (h : Linked desc idx)
    (hsame : ∀ i ∈ idx.list, desc' i = desc i) : Linked desc' idx := by
  have hhead := hsame idx.head (by simp [Idx.list])
  have hmiddle := hsame idx.middle (by simp [Idx.list])
  have htail := hsame idx.tail (by simp [Idx.list])
  refine ⟨?_, ?_, ?_⟩
  · rw [hhead]
    exact h.head
  · rw [hmiddle]
    exact h.middle
  · rw [htail]
    exact h.tail

theorem freed_eq (free : ℕ → Bool) (i₀ i₁ i₂ : ℕ) :
    update (update (update free i₀ true) i₁ true) i₂ true =
      fun i => free i || decide (i ∈ (⟨i₀, i₁, i₂⟩ : Idx).list) := by
  funext i
  simp only [update_apply, Idx.mem_list]
  by_cases h₀ : i = i₀ <;> by_cases h₁ : i = i₁ <;> by_cases h₂ : i = i₂ <;> simp [h₀, h₁, h₂]

/-- A state with descriptor `i` freed. -/
def State.freed (s : State) (i : ℕ) : State :=
  { s with
    desc := update s.desc i .zero
    free := update s.free i true
    thread := fun t => (s.thread t).wake .free }

theorem freeLoop_next {fuel i j : ℕ} (hi : i < NUM) (hfree : s.free i = false)
    (hnext : (s.desc i).hasNext = true ∧ (s.desc i).next = j) :
    State.freeLoop (fuel + 1) s i = State.freeLoop fuel (s.freed i) j := by
  rw [State.freeLoop, freeDesc_ok hi hfree]
  dsimp only
  rw [if_pos hnext.1, hnext.2]
  rfl

theorem freeLoop_last {fuel i : ℕ} (hi : i < NUM) (hfree : s.free i = false)
    (hlast : (s.desc i).hasNext = false) : State.freeLoop (fuel + 1) s i = .ok (s.freed i) := by
  rw [State.freeLoop, freeDesc_ok hi hfree]
  rw [hlast]
  rfl

/-- A formatted chain is freed as a whole. -/
theorem freeChain_spec {idx : Idx} (hlink : Linked s.desc idx) (hnodup : idx.list.Nodup)
    (hlt : ∀ i ∈ idx.list, i < NUM) (hfree : ∀ i ∈ idx.list, s.free i = false) :
    ∃ s', s.freeChain idx.head = .ok s' ∧ s'.free = (fun i => s.free i || decide (i ∈ idx.list)) ∧
      (∀ i, i ∉ idx.list → s'.desc i = s.desc i) ∧ Woken s s' := by
  obtain ⟨i₀, i₁, i₂⟩ := idx
  obtain ⟨⟨h₀₁, h₀₂⟩, h₁₂⟩ := Idx.nodup_list.mp hnodup
  simp only [Idx.mem_list, forall_eq_or_imp, forall_eq] at hlt hfree
  obtain ⟨hlt₀, hlt₁, hlt₂⟩ := hlt
  obtain ⟨hf₀, hf₁, hf₂⟩ := hfree
  -- a descriptor that is freed is not one of those that come after it
  have hd₁ : (s.freed i₀).desc i₁ = s.desc i₁ := update_of_ne (Ne.symm h₀₁) _ _
  have hd₂ : ((s.freed i₀).freed i₁).desc i₂ = s.desc i₂ :=
    (update_of_ne (Ne.symm h₁₂) _ _).trans (update_of_ne (Ne.symm h₀₂) _ _)
  have hg₁ : (s.freed i₀).free i₁ = false := (update_of_ne (Ne.symm h₀₁) _ _).trans hf₁
  have hg₂ : ((s.freed i₀).freed i₁).free i₂ = false :=
    (update_of_ne (Ne.symm h₁₂) _ _).trans
      ((update_of_ne (Ne.symm h₀₂) _ _).trans hf₂)
  have hrun : s.freeChain i₀ = .ok (((s.freed i₀).freed i₁).freed i₂) := by
    show State.freeLoop (7 + 1) s i₀ = _
    rw [freeLoop_next hlt₀ hf₀ hlink.head]
    rw [freeLoop_next hlt₁ hg₁ (by rw [hd₁]; exact hlink.middle)]
    rw [freeLoop_last hlt₂ hg₂ (by rw [hd₂]; exact hlink.tail.1)]
  refine ⟨_, hrun, freed_eq s.free i₀ i₁ i₂, ?_, ⟨fun t => .inr ?_, rfl⟩⟩
  · intro i hi
    simp only [Idx.mem_list, not_or] at hi
    show update (update (update s.desc i₀ .zero) i₁ .zero) i₂ .zero i = s.desc i
    rw [update_of_ne hi.2.2, update_of_ne hi.2.1, update_of_ne hi.1]
  · show (((s.thread t).wake .free).wake .free).wake .free = _
    rw [wake_wake, wake_wake]

end Xv6.Virtio
