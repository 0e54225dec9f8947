import Mathlib.Logic.Function.Basic

/-!
Functions that change at one point: the two cases for a value, and readings that do not
see the change.
-/

namespace Xv6

open Function (update update_of_ne update_self)

variable {α β γ : Type*} [DecidableEq α]

theorem update_cases (f : α → β) (a : α) (v : β) (x : α) :
    x = a ∧ update f a v x = v ∨ x ≠ a ∧ update f a v x = f x := by
  by_cases hx : x = a
  · subst hx
    exact .inl ⟨rfl, update_self ..⟩
  · exact .inr ⟨hx, update_of_ne hx ..⟩

/-- What `g` sees of the values does not change. -/
theorem update_same (g : β → γ) {f : α → β} {a : α} {v : β} (h : g v = g (f a)) (x : α) :
    g (update f a v x) = g (f x) := by
  rcases update_cases f a v x with ⟨rfl, hu⟩ | ⟨-, hu⟩
  · rw [hu, h]
  · rw [hu]

/-- What `g` sees, and does not see in the new value, was there before. -/
theorem of_update (g : β → Option γ) {f : α → β} {a x : α} {v : β} {y : γ}
    (h : g (update f a v x) = some y) (hv : g v = none) : x ≠ a ∧ g (f x) = some y := by
  rcases update_cases f a v x with ⟨rfl, hu⟩ | ⟨hx, hu⟩ <;> rw [hu] at h
  · cases hv.symm.trans h
  · exact ⟨hx, h⟩

end Xv6
