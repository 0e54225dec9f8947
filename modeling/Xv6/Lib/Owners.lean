import Mathlib.Data.List.Nodup
import Mathlib.Data.List.Perm.Basic

/-!
Items held by owners: every item by at most one of them, and once.

`Exclusive` is the invariant of allocators and of everything that hands items from
one owner to another. It only depends on which items an owner holds and how often, so
an owner's list may be permuted freely; `Exclusive.move` is the one rule by which
items change hands.
-/

namespace Xv6.Owners

variable {ι α : Type*} {h h' : ι → List α}

/-- No owner holds an item twice, and no two owners hold the same item. -/
structure Exclusive (h : ι → List α) : Prop where
  nodup : ∀ i, (h i).Nodup
  unique : ∀ i j x, x ∈ h i → x ∈ h j → i = j

theorem Exclusive.perm (hx : Exclusive h) (hp : ∀ i, (h' i).Perm (h i)) : Exclusive h' where
  nodup i := (hp i).nodup_iff.mpr (hx.nodup i)
  unique i j x hi hj := hx.unique i j x ((hp i).mem_iff.mp hi) ((hp j).mem_iff.mp hj)

/-- The items `moved` pass from owner `a` to owner `b`. -/
theorem Exclusive.move (hx : Exclusive h) {a b : ι} {moved rest : List α} (hab : a ≠ b)
    (ha : (h a).Perm (moved ++ rest)) (ha' : (h' a).Perm rest)
    (hb' : (h' b).Perm (moved ++ h b)) (hother : ∀ i, i ≠ a → i ≠ b → (h' i).Perm (h i)) :
    Exclusive h' := by
  obtain ⟨hmoved, hrest, hapart⟩ := List.nodup_append.mp (ha.nodup_iff.mp (hx.nodup a))
  have hmem : ∀ x ∈ moved, x ∈ h a := fun x hx' => ha.mem_iff.mpr (List.mem_append_left _ hx')
  -- Where an item is now, and where it was.
  have hfrom : ∀ i x, x ∈ h' i → i = b ∧ x ∈ moved ∨ x ∉ moved ∧ x ∈ h i := by
    intro i x hi
    by_cases hia : i = a
    · subst hia
      have hi := ha'.mem_iff.mp hi
      refine .inr ⟨fun hm => hapart x hm x hi rfl, ha.mem_iff.mpr (List.mem_append_right _ hi)⟩
    · by_cases hib : i = b
      · subst hib
        rcases List.mem_append.mp (hb'.mem_iff.mp hi) with hm | hm
        · exact .inl ⟨rfl, hm⟩
        · exact .inr ⟨fun hm' => hia (hx.unique i a x hm (hmem x hm')), hm⟩
      · have hi := (hother i hia hib).mem_iff.mp hi
        exact .inr ⟨fun hm => hia (hx.unique i a x hi (hmem x hm)), hi⟩
  refine ⟨fun i => ?_, fun i j x hi hj => ?_⟩
  · by_cases hia : i = a
    · subst hia
      exact ha'.nodup_iff.mpr hrest
    · by_cases hib : i = b
      · subst hib
        refine hb'.nodup_iff.mpr (List.nodup_append.mpr ⟨hmoved, hx.nodup i, ?_⟩)
        rintro x hm y hy rfl
        exact hab (hx.unique a i x (hmem x hm) hy)
      · exact (hother i hia hib).nodup_iff.mpr (hx.nodup i)
  · rcases hfrom i x hi with ⟨rfl, hm⟩ | ⟨hm, hi⟩ <;> rcases hfrom j x hj with ⟨hj', hm'⟩ | ⟨hm', hj⟩
    · exact hj'.symm
    · exact absurd hm hm'
    · exact absurd hm' hm
    · exact hx.unique i j x hi hj

end Xv6.Owners
