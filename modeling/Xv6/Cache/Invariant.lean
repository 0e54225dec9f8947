import Xv6.Lib.Count
import Xv6.Cache.Model

/-!
The invariant of the buffer cache.

`State.Inv` says that the links are one circular list of all buffers, that no two buffers
hold one block, that `refcnt` counts the references modulo `2^32`, and that a valid buffer
holds what was last stored in it or else what the disk holds. As long as no buffer has
`2^32` references, `refcnt` is their number, and a buffer that a process has a reference
to is not given to another block; this is what the rest depends on.
-/

namespace Xv6.Cache

open Function (update update_self update_of_ne)
open Xv6.Count (countOf countOf_update countOf_pos countOf_eq_zero)

/-! ### The list -/

namespace Links

variable {l : Links} {b : Node} {xs l₁ l₂ : List Node}

/-- The links form the circular list of `xs`. -/
def Ring (l : Links) (xs : List Node) : Prop := Circular l.next l.prev .head xs

theorem Ring.unlink (h : l.Ring (l₁ ++ b :: l₂)) : (l.unlink b).Ring (l₁ ++ l₂) := by
  have hprev : update l.prev (l.next b) (l.prev b) b = l.prev b := by
    by_cases hb : b = l.next b
    · rw [← hb, update_self]
    · exact update_of_ne hb ..
  unfold Links.unlink Ring
  simp only [hprev]
  exact Circular.unlink h

theorem Ring.push (h : l.Ring xs) (hb : b ∉ Node.head :: xs) : (l.push b).Ring (b :: xs) := by
  have hne : Node.head ≠ b := fun heq => hb (heq ▸ List.mem_cons_self)
  have hnext : update l.next b (l.next .head) .head = l.next .head := update_of_ne hne ..
  unfold Links.push Ring
  simp only [hnext]
  exact Circular.push h hb

/-- `brelse` moves a buffer to the front. -/
theorem Ring.moveToFront {xs : List Buf} {b : Buf} (h : l.Ring (xs.map .buf)) (hb : b ∈ xs) :
    ∃ ys : List Buf, ys.Perm xs ∧ ((l.unlink (.buf b)).push (.buf b)).Ring (ys.map .buf) := by
  obtain ⟨l₁, l₂, rfl⟩ := List.append_of_mem hb
  rw [List.map_append, List.map_cons] at h
  refine ⟨b :: (l₁ ++ l₂), List.perm_middle.symm, ?_⟩
  rw [List.map_cons, List.map_append]
  apply h.unlink.push
  have hnd : (Node.buf b :: (l₁.map .buf ++ l₂.map .buf)).Nodup :=
    List.perm_middle.nodup_iff.mp (List.nodup_cons.mp h.nodup).2
  simp only [List.mem_cons, reduceCtorEq, false_or]
  exact (List.nodup_cons.mp hnd).1

/-- `binit` links all buffers. -/
theorem binit_ring : Links.binit.Ring ((List.finRange NBUF).reverse.map .buf) := by
  suffices hfold : ∀ (bs done : List Buf) (l : Links), (done.reverse ++ bs).Nodup →
      l.Ring (done.map .buf) →
      (bs.foldl (fun l b => l.push (.buf b)) l).Ring ((bs.reverse ++ done).map .buf) by
    have h := hfold (List.finRange NBUF) [] ⟨fun _ => .head, fun _ => .head⟩
      (by simpa using List.nodup_finRange NBUF) (Circular.empty rfl rfl)
    exact h
  intro bs
  induction bs with
  | nil => exact fun done l _ h => by simpa using h
  | cons b bs ih =>
    intro done l hnd h
    have hnew : Node.buf b ∉ Node.head :: done.map .buf := by
      simp only [List.mem_cons, reduceCtorEq, List.mem_map, Node.buf.injEq, exists_eq_right,
        false_or]
      have hdisj := (List.nodup_append.mp hnd).2.2
      exact fun hmem => hdisj b (List.mem_reverse.mpr hmem) b List.mem_cons_self rfl
    have hrec := ih (b :: done) (l.push (.buf b)) (by simpa using hnd) (by simpa using h.push hnew)
    simpa using hrec

end Links

/-! ### References -/

/-- The buffer a process waits for. -/
def Pc.waitsFor : Pc → Option Buf
  | .wait b _ _ => some b
  | _ => none

/-- The buffer a process is releasing. -/
def Pc.releases : Pc → Option Buf
  | .release b => some b
  | _ => none

/-- The device and block of the `bread` that the process is in. -/
def Pc.reading : Pc → Option (ℕ × ℕ)
  | .wait _ dev n | .locked _ dev n => some (dev, n)
  | .idle | .release _ => none

namespace State

variable {D : Type}

/-- The processes that hold the lock of `b`. -/
def holders (s : State D) (b : Buf) : ℕ := if s.owner b = none then 0 else 1

/-- The processes that wait for `b` in `bread`. -/
def waiters (s : State D) (b : Buf) : ℕ := countOf (Pc.waitsFor ∘ s.pc) b

/-- The processes that have given up the lock of `b` in `brelse`, but not yet their
reference. -/
def releasers (s : State D) (b : Buf) : ℕ := countOf (Pc.releases ∘ s.pc) b

def refs (s : State D) (b : Buf) : ℕ := s.holders b + s.waiters b + s.releasers b + s.pins b

/-- The list, and what the buffers hold. -/
structure Content (s : State D) : Prop where
  list : ∃ xs : List Buf, xs.Perm (List.finRange NBUF) ∧ s.links.Ring (xs.map .buf)
  unique : ∀ {b b'}, s.dev b ≠ 0 → s.dev b' = s.dev b → s.blockno b' = s.blockno b → b' = b
  wait_ok : ∀ {p b dev n}, s.pc p = .wait b dev n → s.dev b = dev ∧ s.blockno b = n ∧ dev ≠ 0
  locked_ok : ∀ {p b dev n}, s.pc p = .locked b dev n →
    s.owner b = some p ∧ s.dev b = dev ∧ s.blockno b = n
  owner_ok : ∀ {p b}, s.owner b = some p →
    s.dev b ≠ 0 ∧ (s.valid b = true ∨ ∃ dev n, s.pc p = .locked b dev n)
  valid_dev : ∀ {b}, s.valid b = true → s.dev b ≠ 0
  stored_ok : ∀ {b}, s.valid b = false → s.stored b = none
  data_ok : ∀ {b}, s.valid b = true →
    s.data b = (s.stored b).getD (s.disk (s.dev b) (s.blockno b))

structure Inv (s : State D) : Prop extends s.Content where
  count : ∀ b, s.refcnt b = UInt32.ofNat (s.refs b)
  bounded : ∀ b, s.refs b < 2 ^ 32

/-! ### The loops of `bget` -/

section Loops

variable {s : State D} {xs : List Buf} {b : Buf} {dev n : ℕ}

theorem length_lt_fuel (hxs : xs.Perm (List.finRange NBUF)) :
    (xs.map Node.buf).length < fuel := by
  rw [List.length_map, hxs.length_eq, List.length_finRange]
  exact Nat.lt_succ_self _

variable (h : s.Inv)
include h

theorem Inv.lookup_eq (dev n : ℕ) : ∃ xs : List Buf, xs.Perm (List.finRange NBUF) ∧
    s.lookup dev n = some ((xs.map .buf).find? (s.holdsBlock dev n)) := by
  obtain ⟨xs, hxs, hring⟩ := h.list
  exact ⟨xs, hxs, Circular.walk_next hring (length_lt_fuel hxs)⟩

theorem Inv.victim_eq : ∃ xs : List Buf, xs.Perm (List.finRange NBUF) ∧
    s.victim = some ((xs.map .buf).reverse.find? s.unused) := by
  obtain ⟨xs, hxs, hring⟩ := h.list
  exact ⟨xs, hxs, Circular.walk_prev hring (length_lt_fuel hxs)⟩

theorem Inv.lookup_some (hl : s.lookup dev n = some (some (.buf b))) :
    s.dev b = dev ∧ s.blockno b = n := by
  obtain ⟨xs, -, heq⟩ := h.lookup_eq dev n
  rw [heq, Option.some.injEq] at hl
  simpa [holdsBlock] using List.find?_some hl

theorem Inv.lookup_none (hl : s.lookup dev n = some none) (b : Buf) :
    ¬ (s.dev b = dev ∧ s.blockno b = n) := by
  obtain ⟨xs, hxs, heq⟩ := h.lookup_eq dev n
  rw [heq, Option.some.injEq, List.find?_eq_none] at hl
  have hmem : Node.buf b ∈ xs.map Node.buf :=
    List.mem_map_of_mem (hxs.mem_iff.mpr (List.mem_finRange b))
  simpa [holdsBlock] using hl _ hmem

theorem Inv.victim_some (hv : s.victim = some (some (.buf b))) : s.refcnt b = 0 := by
  obtain ⟨xs, -, heq⟩ := h.victim_eq
  rw [heq, Option.some.injEq] at hv
  simpa [unused] using List.find?_some hv

end Loops

/-! ### Counting -/

section Counting

variable {s : State D} {p : Slot} {b : Buf}

theorem waiters_setPc (s : State D) (p : Slot) (pc : Pc) (b : Buf) :
    (s.setPc p pc).waiters b + (if (s.pc p).waitsFor = some b then 1 else 0) =
      s.waiters b + if pc.waitsFor = some b then 1 else 0 := by
  have h := countOf_update (Pc.waitsFor ∘ s.pc) p pc.waitsFor b
  rwa [← Function.comp_update] at h

theorem releasers_setPc (s : State D) (p : Slot) (pc : Pc) (b : Buf) :
    (s.setPc p pc).releasers b + (if (s.pc p).releases = some b then 1 else 0) =
      s.releasers b + if pc.releases = some b then 1 else 0 := by
  have h := countOf_update (Pc.releases ∘ s.pc) p pc.releases b
  rwa [← Function.comp_update] at h

theorem refs_setPc (s : State D) (p : Slot) (pc : Pc) (b : Buf) :
    (s.setPc p pc).refs b + (if (s.pc p).waitsFor = some b then 1 else 0) +
        (if (s.pc p).releases = some b then 1 else 0) =
      s.refs b + (if pc.waitsFor = some b then 1 else 0) +
        if pc.releases = some b then 1 else 0 := by
  have hw := waiters_setPc s p pc b
  have hr := releasers_setPc s p pc b
  have hh : (s.setPc p pc).holders b = s.holders b := rfl
  have hp : (s.setPc p pc).pins b = s.pins b := rfl
  unfold refs
  omega

/-- The owner of a lock is the one holder. -/
theorem holders_owner (h : s.owner b ≠ none) : s.holders b = 1 := if_neg h

theorem holders_free (h : s.owner b = none) : s.holders b = 0 := if_pos h

theorem waiters_pos {dev n : ℕ} (h : s.pc p = .wait b dev n) : 0 < s.waiters b :=
  countOf_pos (a := p) (by rw [Function.comp_apply, h]; rfl)

theorem Inv.refs_eq (h : s.Inv) (b : Buf) : (s.refcnt b).toNat = s.refs b := by
  rw [h.count b, UInt32.toNat_ofNat']
  exact Nat.mod_eq_of_lt (h.bounded b)

/-- A buffer with `refcnt` 0 has no owner. -/
theorem Inv.owner_of_unused (h : s.Inv) (hb : s.refcnt b = 0) : s.owner b = none := by
  by_contra hne
  have hrefs := h.refs_eq b
  have hheld := holders_owner hne
  rw [hb] at hrefs
  simp only [refs, UInt32.toNat_zero] at hrefs
  omega

/-- Nobody waits for a buffer with `refcnt` 0. -/
theorem Inv.not_wait_of_unused {dev n : ℕ} (h : s.Inv) (hb : s.refcnt b = 0) :
    s.pc p ≠ .wait b dev n := by
  intro hpc
  have hrefs := h.refs_eq b
  have hpos := waiters_pos hpc
  rw [hb] at hrefs
  simp only [refs, UInt32.toNat_zero] at hrefs
  omega

theorem Inv.count_incr (h : s.Inv) {t : State D}
    (href : ∀ b', t.refs b' = s.refs b' + if b' = b then 1 else 0) (b' : Buf) :
    update s.refcnt b (s.refcnt b + 1) b' = UInt32.ofNat (t.refs b') := by
  rw [href b']
  by_cases hb : b' = b
  · subst hb
    rw [update_self, if_pos rfl, UInt32.ofNat_add, h.count b']
    rfl
  · rw [update_of_ne hb, if_neg hb, Nat.add_zero, h.count b']

theorem Inv.count_decr (h : s.Inv) {t : State D}
    (href : ∀ b', t.refs b' + (if b' = b then 1 else 0) = s.refs b') (b' : Buf) :
    update s.refcnt b (s.refcnt b - 1) b' = UInt32.ofNat (t.refs b') := by
  have hb' := h.count b'
  rw [← href b'] at hb'
  by_cases hb : b' = b
  · subst hb
    rw [if_pos rfl, UInt32.ofNat_add] at hb'
    rw [update_self, hb']
    exact UInt32.add_sub_cancel _ _
  · rw [update_of_ne hb, hb', if_neg hb, Nat.add_zero]

end Counting

/-! ### Assignments -/

section Assignments

variable {s : State D} {p : Slot} {b : Buf} {dev n : ℕ}

/-- A process that is at `d` after `q` has gone to `c` is `q` itself, or was at `d`. -/
theorem of_setPc {q : Slot} {c d : Pc} (h : (s.setPc q c).pc p = d) :
    p = q ∧ c = d ∨ p ≠ q ∧ s.pc p = d := by
  by_cases hp : p = q
  · subst hp
    exact .inl ⟨rfl, (update_self ..).symm.trans h⟩
  · exact .inr ⟨hp, (update_of_ne hp ..).symm.trans h⟩

section

variable (h : s.Content)
include h

/-- A process goes on to `c`: if it waits there, its buffer holds its block, and if it has
read a block, the buffer is valid. -/
theorem Content.setPc {c : Pc} (hc : ∀ b dev n, c ≠ .locked b dev n)
    (hwait : ∀ {b dev n}, c = .wait b dev n → s.dev b = dev ∧ s.blockno b = n ∧ dev ≠ 0)
    (hvalid : ∀ {b dev n}, s.pc p = .locked b dev n → s.valid b = true) :
    (s.setPc p c).Content := by
  refine { h with wait_ok := ?_, locked_ok := ?_, owner_ok := ?_ }
  · intro q b dev n hq
    obtain ⟨-, hq⟩ | ⟨-, hq⟩ := of_setPc hq
    · exact hwait hq
    · exact h.wait_ok hq
  · intro q b dev n hq
    obtain ⟨-, hq⟩ | ⟨-, hq⟩ := of_setPc hq
    · exact absurd hq (hc b dev n)
    · exact h.locked_ok hq
  · intro q b hq
    obtain ⟨hdev, hv⟩ := h.owner_ok hq
    refine ⟨hdev, ?_⟩
    rcases hv with hv | ⟨dev, n, hl⟩
    · exact .inl hv
    by_cases hqp : q = p
    · subst hqp
      exact .inl (hvalid hl)
    · exact .inr ⟨dev, n, (update_of_ne hqp ..).trans hl⟩

theorem Content.setRefcnt (x : UInt32) : (s.setRefcnt b x).Content := { h with }

/-- A buffer that nobody has a reference to is given to a block that no buffer holds. -/
theorem Content.recycle (howner : s.owner b = none)
    (hwait : ∀ {p dev n}, s.pc p ≠ .wait b dev n)
    (hnone : ∀ b', ¬ (s.dev b' = dev ∧ s.blockno b' = n)) (hdev : dev ≠ 0) :
    (s.recycle b dev n).Content := by
  have hother : ∀ {b'}, b' ≠ b → (s.recycle b dev n).dev b' = s.dev b' ∧
      (s.recycle b dev n).blockno b' = s.blockno b' ∧ (s.recycle b dev n).valid b' = s.valid b' ∧
      (s.recycle b dev n).stored b' = s.stored b' := fun hb' =>
    ⟨update_of_ne hb' .., update_of_ne hb' .., update_of_ne hb' .., update_of_ne hb' ..⟩
  have hself : (s.recycle b dev n).dev b = dev ∧ (s.recycle b dev n).blockno b = n ∧
      (s.recycle b dev n).valid b = false ∧ (s.recycle b dev n).stored b = none :=
    ⟨update_self .., update_self .., update_self .., update_self ..⟩
  have howned : ∀ {p b'}, s.owner b' = some p → b' ≠ b := by
    rintro p b' hp rfl
    rw [howner] at hp
    cases hp
  refine { h with
    unique := ?_, wait_ok := ?_, locked_ok := ?_, owner_ok := ?_, valid_dev := ?_
    stored_ok := ?_, data_ok := ?_ }
  · intro b₁ b₂ hne hd hn
    by_cases h₁ : b₁ = b <;> by_cases h₂ : b₂ = b
    · rw [h₁, h₂]
    · subst h₁
      rw [(hother h₂).1, hself.1] at hd
      rw [(hother h₂).2.1, hself.2.1] at hn
      exact absurd ⟨hd, hn⟩ (hnone b₂)
    · subst h₂
      rw [(hother h₁).1, hself.1] at hd
      rw [(hother h₁).2.1, hself.2.1] at hn
      exact absurd ⟨hd.symm, hn.symm⟩ (hnone b₁)
    · rw [(hother h₁).1] at hne hd
      rw [(hother h₂).1] at hd
      rw [(hother h₁).2.1, (hother h₂).2.1] at hn
      exact h.unique hne hd hn
  · intro p b' dev' n' hp
    have hb' : b' ≠ b := by
      rintro rfl
      exact hwait hp
    rw [(hother hb').1, (hother hb').2.1]
    exact h.wait_ok hp
  · intro p b' dev' n' hp
    have hl := h.locked_ok hp
    rw [(hother (howned hl.1)).1, (hother (howned hl.1)).2.1]
    exact hl
  · intro p b' hp
    rw [(hother (howned hp)).1, (hother (howned hp)).2.2.1]
    exact h.owner_ok hp
  · intro b' hv
    by_cases hb' : b' = b
    · subst hb'
      rw [hself.1]
      exact hdev
    · rw [(hother hb').2.2.1] at hv
      rw [(hother hb').1]
      exact h.valid_dev hv
  · intro b' hv
    by_cases hb' : b' = b
    · subst hb'
      exact hself.2.2.2
    · rw [(hother hb').2.2.1] at hv
      rw [(hother hb').2.2.2]
      exact h.stored_ok hv
  · intro b' hv
    have hb' : b' ≠ b := by
      rintro rfl
      rw [hself.2.2.1] at hv
      cases hv
    rw [(hother hb').2.2.1] at hv
    rw [(hother hb').1, (hother hb').2.1, (hother hb').2.2.2]
    exact h.data_ok hv

/-- A process that waits for the lock of `b` gets it. -/
theorem Content.acquire (hpc : s.pc p = .wait b dev n) (hfree : s.owner b = none) :
    ((s.setPc p (.locked b dev n)).setOwner b (some p)).Content := by
  obtain ⟨hd, hn, hdev⟩ := h.wait_ok hpc
  refine { h with wait_ok := ?_, locked_ok := ?_, owner_ok := ?_ }
  · intro q b' dev' n' hq
    obtain ⟨-, hq⟩ | ⟨-, hq⟩ := of_setPc (s := s) hq
    · cases hq
    · exact h.wait_ok hq
  · intro q b' dev' n' hq
    obtain ⟨rfl, hc⟩ | ⟨-, hq⟩ := of_setPc (s := s) hq
    · cases hc
      exact ⟨update_self .., hd, hn⟩
    · have hl := h.locked_ok hq
      have hb' : b' ≠ b := by
        rintro rfl
        rw [hfree] at hl
        cases hl.1
      exact ⟨(update_of_ne hb' ..).trans hl.1, hl.2⟩
  · intro q b' hq
    by_cases hb' : b' = b
    · subst hb'
      have hself : update s.owner b' (some p) b' = some p := update_self ..
      cases hself.symm.trans hq
      exact ⟨hd.trans_ne hdev, .inr ⟨dev, n, update_self ..⟩⟩
    · have hq' : s.owner b' = some q := (update_of_ne hb' ..).symm.trans hq
      obtain ⟨hd', hv⟩ := h.owner_ok hq'
      refine ⟨hd', hv.imp_right ?_⟩
      rintro ⟨dev', n', hl⟩
      have hqp : q ≠ p := by
        rintro rfl
        rw [hpc] at hl
        cases hl
      exact ⟨dev', n', (update_of_ne hqp ..).trans hl⟩

theorem Content.fill (hdev : s.dev b ≠ 0) : (s.fill b).Content := by
  unfold State.fill
  by_cases hv : s.valid b = true
  · rwa [if_pos hv]
  rw [if_neg hv]
  have hstored : s.stored b = none := h.stored_ok (Bool.not_eq_true _ ▸ hv)
  have hvalid : ∀ {b'}, b' ≠ b → update s.valid b true b' = s.valid b' := fun hb' =>
    update_of_ne hb' ..
  refine { h with owner_ok := ?_, valid_dev := ?_, stored_ok := ?_, data_ok := ?_ }
  · intro q b' hq
    obtain ⟨hd, ho⟩ := h.owner_ok hq
    refine ⟨hd, ho.imp_left fun hv' => ?_⟩
    by_cases hb' : b' = b
    · subst hb'
      exact update_self ..
    · exact (hvalid hb').trans hv'
  · intro b' hv'
    by_cases hb' : b' = b
    · exact hb' ▸ hdev
    · exact h.valid_dev ((hvalid hb').symm.trans hv')
  · intro b' hv'
    have hb' : b' ≠ b := by
      rintro rfl
      cases (update_self ..).symm.trans hv'
    exact h.stored_ok ((hvalid hb').symm.trans hv')
  · intro b' hv'
    by_cases hb' : b' = b
    · subst hb'
      simp [hstored]
    · exact (update_of_ne hb' ..).trans (h.data_ok ((hvalid hb').symm.trans hv'))

end

theorem fill_valid (s : State D) (b : Buf) : (s.fill b).valid b = true := by
  unfold State.fill
  split
  · assumption
  · exact update_self ..

variable (h : s.Content)
include h

theorem Content.store (hv : s.valid b = true) (d : D) : (s.store b d).Content := by
  refine { h with stored_ok := ?_, data_ok := ?_ }
  · intro b' hv'
    have hb' : b' ≠ b := by
      rintro rfl
      cases hv.symm.trans hv'
    exact (update_of_ne hb' ..).trans (h.stored_ok hv')
  · intro b' hv'
    by_cases hb' : b' = b
    · subst hb'
      simp [State.store]
    · have hd : (s.store b d).data b' = s.data b' := update_of_ne hb' ..
      have hs : (s.store b d).stored b' = s.stored b' := update_of_ne hb' ..
      rw [hd, hs]
      exact h.data_ok hv'

theorem Content.bwrite (hv : s.valid b = true) : (s.bwrite b).Content := by
  refine { h with data_ok := ?_ }
  intro b' hv'
  have hold := h.data_ok hv'
  change s.data b' = (s.stored b').getD ((s.bwrite b).disk (s.dev b') (s.blockno b'))
  by_cases hb' : b' = b
  · subst hb'
    rw [show (s.bwrite b').disk (s.dev b') (s.blockno b') = s.data b' by simp [State.bwrite]]
    cases hs : s.stored b' with
    | none => rfl
    | some d => rwa [hs] at hold
  -- no other buffer holds the block
  · have hdisk : (s.bwrite b).disk (s.dev b') (s.blockno b') = s.disk (s.dev b') (s.blockno b') := by
      unfold State.bwrite
      by_cases hd : s.dev b' = s.dev b
      · have hn : s.blockno b' ≠ s.blockno b := fun hn => hb' (h.unique (h.valid_dev hv) hd hn)
        simp [hd, hn]
      · simp [hd]
    rw [hdisk]
    exact hold

/-- `releasesleep` by a process that has read the buffer. -/
theorem Content.release (howner : s.owner b = some p) (hpc : s.pc p = .idle) :
    (s.setOwner b none).Content := by
  refine { h with locked_ok := ?_, owner_ok := ?_ }
  · intro q b' dev' n' hq
    have hl := h.locked_ok hq
    have hb' : b' ≠ b := by
      rintro rfl
      cases hl.1.symm.trans howner
      cases hpc.symm.trans hq
    exact ⟨(update_of_ne hb' ..).trans hl.1, hl.2⟩
  · intro q b' hq
    have hb' : b' ≠ b := by
      rintro rfl
      cases (update_self ..).symm.trans hq
    exact h.owner_ok ((update_of_ne hb' ..).symm.trans hq)

theorem Content.decref (b : Buf) : (s.decref b).Content := by
  have hset : (s.setRefcnt b (s.refcnt b - 1)).Content := h.setRefcnt _
  unfold State.decref
  dsimp only
  split
  · refine { hset with list := ?_ }
    obtain ⟨xs, hxs, hring⟩ := h.list
    obtain ⟨ys, hys, hring'⟩ := hring.moveToFront (hxs.mem_iff.mpr (List.mem_finRange b))
    exact ⟨ys, hys.trans hxs, hring'⟩
  · exact hset

end Assignments

end State

end Xv6.Cache
