import Mathlib.Order.Basic

/-!
Slots that hold resources, and a table of the resources in use.

Each slot holds at most one resource. The table is right about the slots (`Owned`) when
no resource is held twice and exactly the held resources of the pool are marked as used.
Filling an empty slot with an unused resource and emptying a slot, with the mark that
goes along, keep it right.
-/

namespace Xv6.Slots

open Function (update update_of_ne update_self update_apply)

variable {α β : Type} {held held' : α → Option β} {used : β → Bool} {pool : β → Prop} {p q : α}
  {b : β}

/-- The table `used` is right about what the slots hold. -/
structure Owned (held : α → Option β) (used : β → Bool) (pool : β → Prop) : Prop where
  unique : ∀ p q b, held p = some b → held q = some b → p = q
  used_iff : ∀ b, pool b → (used b = true ↔ ∃ p, held p = some b)
  pool : ∀ p b, held p = some b → pool b

namespace Owned

theorem used_of_held (h : Owned held used pool) (hp : held p = some b) : used b = true :=
  (h.used_iff b (h.pool p b hp)).mpr ⟨p, hp⟩

/-- What is not marked is not held. -/
theorem not_held (h : Owned held used pool) (hb : used b = false) (p : α) : held p ≠ some b := by
  intro hp
  rw [h.used_of_held hp] at hb
  cases hb

end Owned

/-- What is held after a change of one slot. -/
theorem exists_update [DecidableEq α] {v : Option β} :
    (∃ q, update held p v q = some b) ↔ v = some b ∨ ∃ q, q ≠ p ∧ held q = some b := by
  constructor
  · rintro ⟨q, hq⟩
    by_cases hqp : q = p
    · subst hqp
      rw [update_self] at hq
      exact .inl hq
    · rw [update_of_ne hqp] at hq
      exact .inr ⟨q, hqp, hq⟩
  · rintro (hv | ⟨q, hqp, hq⟩)
    · exact ⟨p, by rw [update_self]; exact hv⟩
    · exact ⟨q, by rw [update_of_ne hqp]; exact hq⟩

namespace Owned

variable [DecidableEq α] [DecidableEq β]

/-- An empty slot takes an unused resource. -/
theorem fill (h : Owned held used pool) (hp : held p = none) (hb : used b = false) (hpool : pool b) :
    Owned (update held p (some b)) (update used b true) pool := by
  have hnot := h.not_held hb
  constructor
  case unique =>
    intro q r c hq hr
    have := h.unique q r c
    have := hnot q
    have := hnot r
    grind
  case used_iff =>
    intro c hc
    have hiff := h.used_iff c hc
    rw [exists_update]
    by_cases hcb : c = b
    · subst hcb
      simp
    · grind
  case pool =>
    intro q c hq
    have := h.pool q c
    grind

/-- A slot is emptied. -/
theorem clear (h : Owned held used pool) (hp : held p = some b) :
    Owned (update held p none) (update used b false) pool := by
  constructor
  case unique =>
    intro q r c hq hr
    have := h.unique q r c
    grind
  case used_iff =>
    intro c hc
    have hiff := h.used_iff c hc
    rw [exists_update]
    by_cases hcb : c = b
    · subst hcb
      have hother : ¬ ∃ q, q ≠ p ∧ held q = some c := by
        rintro ⟨q, hqp, hq⟩
        exact hqp (h.unique q p c hq hp)
      simp [hother]
    · grind
  case pool =>
    intro q c hq
    have := h.pool q c
    grind

end Owned

end Xv6.Slots
