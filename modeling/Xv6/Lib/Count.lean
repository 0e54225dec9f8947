import Mathlib.Algebra.BigOperators.Group.Finset.Piecewise
import Mathlib.Data.Fintype.Card

/-!
How many entries of a finite table refer to a thing, and how one assignment changes that.
-/

namespace Xv6.Count

open Function (update update_self update_of_ne)

variable {ι κ : Type*} [Fintype ι] [DecidableEq κ]

/-- The number of entries of the table `f` that are `some k`. -/
def countOf (f : ι → Option κ) (k : κ) : ℕ := (Finset.univ.filter fun a => f a = some k).card

variable {f : ι → Option κ} {a : ι} {k : κ}

theorem countOf_pos (h : f a = some k) : 0 < countOf f k :=
  Finset.card_pos.mpr ⟨a, Finset.mem_filter.mpr ⟨Finset.mem_univ a, h⟩⟩

theorem countOf_eq_zero (h : ∀ a, f a ≠ some k) : countOf f k = 0 := by
  unfold countOf
  rw [Finset.card_eq_zero, Finset.filter_eq_empty_iff]
  exact fun a _ => h a

theorem countOf_le (f : ι → Option κ) (k : κ) : countOf f k ≤ Fintype.card ι :=
  Finset.card_le_univ _

/-- One entry is assigned: what it was counts no more, what it is does. -/
theorem countOf_update [DecidableEq ι] (f : ι → Option κ) (a : ι) (v : Option κ) (k : κ) :
    countOf (update f a v) k + (if f a = some k then 1 else 0) =
      countOf f k + if v = some k then 1 else 0 := by
  unfold countOf
  rw [Finset.card_filter, Finset.card_filter, ← Finset.add_sum_erase _ _ (Finset.mem_univ a),
    ← Finset.add_sum_erase _ _ (Finset.mem_univ a), update_self,
    Finset.sum_congr rfl fun b hb => by rw [update_of_ne (Finset.ne_of_mem_erase hb)]]
  omega

end Xv6.Count
