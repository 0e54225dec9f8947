import Mathlib.Data.List.Chain
import Mathlib.Data.List.Nodup

/-!
Circular doubly linked lists through a head.

The list is given by two pointer fields, `next` and `prev`, as functions on the nodes.
`Circular next prev head l` says that from `head` the nodes of `l` are visited in turn
by `next`, that the last one leads back to `head`, and that `prev` undoes `next`
on the way. `unlink` and `push` are the usual pointer surgery, `walk` a bounded search
along either field.
-/

namespace Xv6

open Function (update update_self update_of_ne)

variable {α : Type*}

/-- `b` comes right after `a`. -/
def Linked (next prev : α → α) (a b : α) : Prop := next a = b ∧ prev b = a

/-- The nodes reached from `head` by `next`, and back by `prev`, are those of `l`. -/
structure Circular (next prev : α → α) (head : α) (l : List α) : Prop where
  nodup : (head :: l).Nodup
  chain : List.IsChain (Linked next prev) (head :: (l ++ [head]))

namespace Circular

variable {next prev : α → α} {head a b x : α} {l l₁ l₂ : List α}

theorem empty (hnext : next head = head) (hprev : prev head = head) :
    Circular next prev head [] := by
  constructor
  · simp
  · simp [Linked, hnext, hprev]

/-- Read backwards, the list is a list too. -/
theorem reverse (h : Circular next prev head l) : Circular prev next head l.reverse := by
  constructor
  · simpa using h.nodup
  · have hrev : head :: (l.reverse ++ [head]) = (head :: (l ++ [head])).reverse := by simp
    rw [hrev, List.isChain_reverse]
    apply h.chain.imp
    intro a b hab
    exact ⟨hab.2, hab.1⟩

/-- The neighbours of a node in the middle. -/
theorem neighbours (h : Circular next prev head (l₁ ++ b :: l₂)) :
    prev b ∈ (head :: l₁).getLast? ∧ next b ∈ (l₂ ++ [head]).head? := by
  have hsplit : List.IsChain (Linked next prev) ((head :: l₁) ++ b :: (l₂ ++ [head])) := by
    simpa using h.chain
  obtain ⟨-, hright, hleft⟩ := List.isChain_append.mp hsplit
  constructor
  · obtain ⟨y, hy⟩ : ∃ y, (head :: l₁).getLast? = some y := by simp [List.getLast?_cons]
    have hyb := hleft y hy b rfl
    rw [hyb.2]
    exact hy
  · obtain ⟨y, hy⟩ : ∃ y, (l₂ ++ [head]).head? = some y := by
      cases l₂ <;> simp
    have hby := (List.isChain_cons.mp hright).1 y hy
    rw [hby.1]
    exact hy

section Surgery

variable [DecidableEq α]

/-- Take `b` out: `b->next->prev = b->prev; b->prev->next = b->next`. -/
theorem unlink (h : Circular next prev head (l₁ ++ b :: l₂)) :
    Circular (update next (prev b) (next b)) (update prev (next b) (prev b)) head (l₁ ++ l₂) := by
  obtain ⟨hprev, hnext⟩ := h.neighbours
  have hsplit : List.IsChain (Linked next prev) ((head :: l₁) ++ b :: (l₂ ++ [head])) := by
    simpa using h.chain
  obtain ⟨hleft, hright, hlast⟩ := List.isChain_append.mp hsplit
  obtain ⟨hfirst, hright⟩ := List.isChain_cons.mp hright
  have hpb : Linked next prev (prev b) b := hlast _ hprev b rfl
  have hbn : Linked next prev b (next b) := hfirst _ hnext
  have hb : b ∉ head :: l₁ ∧ b ∉ l₂ ++ [head] := by
    have hnd := h.nodup
    simp only [List.nodup_cons, List.mem_append, List.mem_cons, not_or, List.nodup_append] at hnd
    obtain ⟨⟨hh₁, hhb, hh₂⟩, hnd₁, ⟨hb₂, -⟩, hdisj⟩ := hnd
    constructor
    · simp only [List.mem_cons, not_or]
      exact ⟨fun heq => hhb heq.symm, fun hmem => hdisj b hmem b (.inl rfl) rfl⟩
    · simp only [List.mem_append, List.mem_singleton, not_or]
      exact ⟨hb₂, fun heq => hhb heq.symm⟩
  -- a link that does not touch `b` is kept
  have hkeep : ∀ x y, x ≠ b → y ≠ b → Linked next prev x y →
      Linked (update next (prev b) (next b)) (update prev (next b) (prev b)) x y := by
    rintro x y hx hy ⟨rfl, hyx⟩
    constructor
    · apply update_of_ne
      rintro rfl
      exact hy hpb.1
    · rw [update_of_ne, hyx]
      intro heq
      rw [heq, hbn.2] at hyx
      exact hx hyx.symm
  constructor
  · have hsub : (head :: (l₁ ++ l₂)).Sublist (head :: (l₁ ++ b :: l₂)) :=
      ((List.sublist_cons_self b l₂).append_left l₁).cons_cons head
    exact h.nodup.sublist hsub
  · have hnew : List.IsChain (Linked (update next (prev b) (next b)) (update prev (next b) (prev b)))
        ((head :: l₁) ++ (l₂ ++ [head])) := by
      apply List.isChain_append.mpr
      refine ⟨?_, ?_, ?_⟩
      · apply hleft.imp_of_mem_imp
        intro x y hx hy
        exact hkeep x y (fun heq => hb.1 (heq ▸ hx)) (fun heq => hb.1 (heq ▸ hy))
      · apply hright.imp_of_mem_imp
        intro x y hx hy
        exact hkeep x y (fun heq => hb.2 (heq ▸ hx)) (fun heq => hb.2 (heq ▸ hy))
      · intro x hx y hy
        rw [Option.mem_unique hx hprev, Option.mem_unique hy hnext]
        exact ⟨update_self .., update_self ..⟩
    simpa using hnew

/-- Put `b` behind the head: `b->next = head.next; b->prev = &head; head.next->prev = b;
head.next = b`. -/
theorem push (h : Circular next prev head l) (hb : b ∉ head :: l) :
    Circular (update (update next b (next head)) head b)
      (update (update prev b head) (next head) b) head (b :: l) := by
  have hbh : b ≠ head := fun heq => hb (heq ▸ List.mem_cons_self)
  have hhead : head ∉ l := (List.nodup_cons.mp h.nodup).1
  obtain ⟨hfirst, hrest⟩ := List.isChain_cons.mp h.chain
  have hnext : next head ∈ (l ++ [head]).head? := by
    obtain ⟨y, hy⟩ : ∃ y, (l ++ [head]).head? = some y := by
      cases l <;> simp
    rw [(hfirst y hy).1]
    exact hy
  have hback : prev (next head) = head := (hfirst _ hnext).2
  have hnb : next head ≠ b := by
    rintro rfl
    have hmem := List.mem_of_mem_head? hnext
    simp only [List.mem_append, List.mem_singleton] at hmem
    rcases hmem with hmem | heq
    · exact hb (List.mem_cons_of_mem _ hmem)
    · exact hbh heq
  have hnew : ∀ x, x ≠ b → x ≠ head →
      update (update next b (next head)) head b x = next x := fun x hx hxh => by
    rw [update_of_ne hxh, update_of_ne hx]
  constructor
  · simp only [List.nodup_cons, List.mem_cons, not_or] at hb ⊢
    exact ⟨⟨fun heq => hbh heq.symm, hhead⟩, hb.2, (List.nodup_cons.mp h.nodup).2⟩
  · rw [List.cons_append, List.isChain_cons_cons]
    refine ⟨⟨update_self .., ?_⟩, ?_⟩
    · rw [update_of_ne (Ne.symm hnb), update_self]
    rw [List.isChain_cons]
    constructor
    · intro y hy
      rw [Option.mem_unique hy hnext]
      exact ⟨by rw [update_of_ne hbh, update_self], update_self ..⟩
    -- inside `l` nothing changes, since its links do not start at the head
    obtain ⟨hl, -, hlast⟩ := List.isChain_append.mp hrest
    apply List.isChain_append.mpr
    refine ⟨?_, List.isChain_singleton _, ?_⟩
    · apply hl.imp_of_mem_imp
      rintro x y hx hy ⟨rfl, hyx⟩
      have hxh : x ≠ head := fun heq => hhead (heq ▸ hx)
      have hxb : x ≠ b := fun heq => hb (List.mem_cons_of_mem _ (heq ▸ hx))
      have hyb : next x ≠ b := fun heq => hb (List.mem_cons_of_mem _ (heq ▸ hy))
      refine ⟨hnew x hxb hxh, ?_⟩
      rw [update_of_ne, update_of_ne hyb, hyx]
      intro heq
      rw [heq, hback] at hyx
      exact hxh hyx.symm
    · intro x hx y hy
      have hxl := List.mem_of_getLast? hx
      have hxh : x ≠ head := fun heq => hhead (heq ▸ hxl)
      have hxb : x ≠ b := fun heq => hb (List.mem_cons_of_mem _ (heq ▸ hxl))
      obtain ⟨hxy, hyx⟩ := hlast x hx y hy
      cases hy
      refine ⟨(hnew x hxb hxh).trans hxy, ?_⟩
      rw [update_of_ne, update_of_ne (Ne.symm hbh), hyx]
      intro heq
      rw [← heq, hyx] at hback
      exact hxh hback

end Surgery

section Walk

variable [DecidableEq α] {p : α → Bool}

/-- Follow `step` until a node satisfies `p` (`some (some x)`) or the head is reached
(`some none`); `none` if neither happens within `fuel` nodes. -/
def walk (step : α → α) (head : α) (p : α → Bool) : ℕ → α → Option (Option α)
  | 0, _ => none
  | fuel + 1, x =>
    if x = head then some none else if p x then some (some x) else walk step head p fuel (step x)

theorem walk_of_chain {fuel : ℕ} (hl : List.IsChain (Linked next prev) (x :: (l ++ [head])))
    (hhead : head ∉ l) (hfuel : l.length < fuel) :
    walk next head p fuel (next x) = some (l.find? p) := by
  induction l generalizing x fuel with
  | nil =>
    obtain ⟨fuel, rfl⟩ := Nat.exists_eq_add_of_lt hfuel
    have hx : next x = head := (List.isChain_cons_cons.mp hl).1.1
    simp [walk, hx]
  | cons y l ih =>
    obtain ⟨⟨hxy, -⟩, hrest⟩ := List.isChain_cons_cons.mp hl
    simp only [List.mem_cons, not_or] at hhead
    cases fuel with
    | zero => cases hfuel
    | succ fuel =>
      have hrec := ih hrest hhead.2 (Nat.lt_of_succ_lt_succ hfuel)
      rw [walk, hxy, if_neg (Ne.symm hhead.1), List.find?_cons]
      cases hp : p y with
      | true => simp
      | false => simpa using hrec

/-- A walk with enough fuel searches the whole list, in order. -/
theorem walk_next (h : Circular next prev head l) {fuel : ℕ} (hfuel : l.length < fuel) :
    walk next head p fuel (next head) = some (l.find? p) :=
  walk_of_chain h.chain (List.nodup_cons.mp h.nodup).1 hfuel

theorem walk_prev (h : Circular next prev head l) {fuel : ℕ} (hfuel : l.length < fuel) :
    walk prev head p fuel (prev head) = some (l.reverse.find? p) :=
  h.reverse.walk_next (by simpa using hfuel)

end Walk

end Circular

end Xv6
