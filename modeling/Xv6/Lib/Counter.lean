import Mathlib.Algebra.Group.Nat.Defs
import Xv6.Lib.Ring

/-!
Unsigned counters that wrap, and the ring they point into.

A ring of `N` slots is filled and emptied through counters of `w` bits that only count up;
counter `i` points to slot `i % N`. When `N` divides `2 ^ w`, a counter that wraps goes on
at the next slot, and as long as two counters are at most `N` apart, the entries between
them are a queue (`between`).
-/

namespace Xv6.Ring

open Function (update)

/-- Counters of `w` bits can point into a ring of `N` slots. -/
structure Wraps (N w : ℕ) : Prop where
  pos : 0 < N
  lt : N < 2 ^ w
  dvd : N ∣ 2 ^ w

variable {α : Type*} {N w : ℕ} {i j : BitVec w}

/-! ### Distances -/

theorem dist_eq_zero : (j - i).toNat = 0 ↔ i = j := by
  constructor
  · intro h
    have hzero : j - i = 0#w := BitVec.eq_of_toNat_eq h
    rw [← BitVec.sub_add_cancel j i, hzero, BitVec.zero_add]
  · intro h
    rw [h, BitVec.sub_self]
    rfl

theorem toNat_one (h : Wraps N w) : (1#w).toNat = 1 := by
  have hpos := h.pos
  have hlt := h.lt
  exact Nat.mod_eq_of_lt (by omega)

theorem dist_succ (h : Wraps N w) (hd : (j - i).toNat < N) :
    (j + 1#w - i).toNat = (j - i).toNat + 1 := by
  have hlt := h.lt
  rw [BitVec.add_sub_comm, BitVec.toNat_add_of_lt, toNat_one h]
  rw [toNat_one h]
  omega

theorem dist_pred (h : Wraps N w) (hne : i ≠ j) :
    (j - (i + 1#w)).toNat + 1 = (j - i).toNat := by
  have hpos : (j - i).toNat ≠ 0 := fun hz => hne (dist_eq_zero.mp hz)
  have hle : 1#w ≤ j - i := by
    rw [BitVec.le_def, toNat_one h]
    omega
  rw [← BitVec.sub_sub, BitVec.toNat_sub_of_le hle, toNat_one h]
  omega

/-! ### Slots -/

/-- The slot that a counter points to. -/
def cell (N : ℕ) (i : BitVec w) : ℕ := i.toNat % N

theorem cell_lt (h : Wraps N w) (i : BitVec w) : cell N i < N := Nat.mod_lt _ h.pos

theorem cell_succ (h : Wraps N w) (i : BitVec w) : cell N (i + 1#w) = next N (cell N i) := by
  rw [← mod_eq_next (cell_lt h i)]
  unfold cell
  rw [BitVec.toNat_add, Nat.mod_mod_of_dvd _ h.dvd, toNat_one h, Nat.mod_add_mod]

theorem cell_eq_slot (h : Wraps N w) (hd : (j - i).toNat < N) :
    cell N j = slot N (cell N i) (j - i).toNat := by
  have hlt := cell_lt h i
  have hj : cell N j = (cell N i + (j - i).toNat) % N := by
    have hsum : j = i + (j - i) := by rw [BitVec.add_comm, BitVec.sub_add_cancel]
    unfold cell
    conv_lhs => rw [hsum]
    rw [BitVec.toNat_add, Nat.mod_mod_of_dvd _ h.dvd, Nat.mod_add_mod]
  rw [hj]
  unfold slot
  split
  · exact Nat.mod_eq_of_lt ‹_›
  · rw [Nat.mod_eq_sub_mod (by omega), Nat.mod_eq_of_lt (by omega)]

/-! ### The queue between two counters -/

/-- The entries from counter `i` up to, but not including, counter `j`. -/
def between (N : ℕ) (f : ℕ → α) (i j : BitVec w) : List α := window N f (cell N i) (j - i).toNat

@[simp] theorem between_self (f : ℕ → α) : between N f i i = [] := by
  rw [between, dist_eq_zero.mpr rfl, window_zero]

@[simp] theorem length_between (f : ℕ → α) : (between N f i j).length = (j - i).toNat :=
  length_window f

/-- An entry is put at the back. -/
theorem between_put (h : Wraps N w) (hd : (j - i).toNat < N) (f : ℕ → α) (x : α) :
    between N (update f (cell N j) x) i (j + 1#w) = between N f i j ++ [x] := by
  unfold between
  rw [dist_succ h hd, window_concat, cell_eq_slot h hd, window_update (Nat.le_refl _) hd,
    Function.update_self]

/-- The entry at the front. -/
theorem between_cons (h : Wraps N w) (hne : i ≠ j) (hd : (j - i).toNat ≤ N) (f : ℕ → α) :
    between N f i j = f (cell N i) :: between N f (i + 1#w) j := by
  have hpred := dist_pred h hne
  unfold between
  rw [← hpred, window_cons (cell_lt h i) (by omega), cell_succ h]

/-- The entry at the back. -/
theorem between_concat (h : Wraps N w) (hne : i ≠ j) (hd : (j - i).toNat ≤ N) (f : ℕ → α) :
    between N f i j = between N f i (j - 1#w) ++ [f (cell N (j - 1#w))] := by
  have hj : j - 1#w + 1#w = j := BitVec.sub_add_cancel j 1#w
  have hpos : (j - i).toNat ≠ 0 := fun hz => hne (dist_eq_zero.mp hz)
  have hle : 1#w ≤ j - i := by
    rw [BitVec.le_def, toNat_one h]
    omega
  have hlt : (j - 1#w - i).toNat < N := by
    rw [BitVec.sub_sub, BitVec.add_comm, ← BitVec.sub_sub, BitVec.toNat_sub_of_le hle, toNat_one h]
    omega
  have hput := between_put h hlt f (f (cell N (j - 1#w)))
  rwa [Function.update_eq_self, hj] at hput

/-- The entries up to a counter on the way. -/
theorem between_take {k : BitVec w} (hk : (k - i).toNat ≤ (j - i).toNat) (f : ℕ → α) :
    between N f i k = (between N f i j).take (k - i).toNat := by
  simp only [between, window, ← List.map_take, List.take_range, Nat.min_eq_left hk]

end Xv6.Ring
