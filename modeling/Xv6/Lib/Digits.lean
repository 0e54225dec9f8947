import Mathlib.Data.List.Range
import Mathlib.Data.Nat.Bitwise

/-!
Numbers as bytes, lowest byte first.

`number` puts a number together from its bytes and `byte` takes one out again, at any width.
Each undoes the other.
-/

namespace Xv6.Digits

/-- The number with the bytes `f 0`, `f 1`, up to `f (w - 1)`. -/
def number (f : ℕ → UInt8) (w : ℕ) : ℕ :=
  (List.range w).foldr (fun i acc => (f i).toNat + 256 * acc) 0

/-- Byte `i` of a number. -/
def byte (n i : ℕ) : UInt8 := UInt8.ofNat (n / 256 ^ i)

variable {f f' : ℕ → UInt8} {n w i : ℕ}

theorem number_succ (f : ℕ → UInt8) (w : ℕ) :
    number f (w + 1) = (f 0).toNat + 256 * number (fun i => f (i + 1)) w := by
  unfold number
  rw [List.range_succ_eq_map, List.foldr_cons, List.foldr_map]

theorem number_congr (h : ∀ i < w, f i = f' i) : number f w = number f' w := by
  apply List.foldr_ext
  intro i hi acc
  rw [h i (List.mem_range.mp hi)]

/-- A number fits into its bytes. -/
theorem number_lt (f : ℕ → UInt8) (w : ℕ) : number f w < 256 ^ w := by
  induction w generalizing f with
  | zero => exact Nat.one_pos
  | succ w ih =>
    have hbyte : (f 0).toNat < 256 := UInt8.toNat_lt _
    have hrest := ih fun i => f (i + 1)
    rw [number_succ, Nat.pow_succ']
    omega

theorem toNat_byte (n i : ℕ) : (byte n i).toNat = n / 256 ^ i % 256 := UInt8.toNat_ofNat' ..

theorem byte_succ (n i : ℕ) : byte n (i + 1) = byte (n / 256) i := by
  unfold byte
  rw [Nat.pow_succ', Nat.div_div_eq_div_mul]

/-- The bytes of a number, put together. -/
theorem number_byte (n w : ℕ) : number (byte n) w = n % 256 ^ w := by
  induction w generalizing n with
  | zero => exact (Nat.mod_one n).symm
  | succ w ih =>
    have hrest : number (fun i => byte n (i + 1)) w = number (byte (n / 256)) w :=
      number_congr fun i _ => byte_succ n i
    rw [number_succ, hrest, ih, toNat_byte, Nat.pow_zero, Nat.div_one, Nat.pow_succ', Nat.mod_mul]

/-- A byte of a number that was put together from bytes. -/
theorem byte_number (h : i < w) : byte (number f w) i = f i := by
  induction w generalizing f i with
  | zero => exact absurd h (Nat.not_lt_zero i)
  | succ w ih =>
    have hbyte : (f 0).toNat < 256 := UInt8.toNat_lt _
    rw [number_succ]
    cases i with
    | zero =>
      apply UInt8.toNat_inj.mp
      rw [toNat_byte, Nat.pow_zero, Nat.div_one]
      omega
    | succ i =>
      rw [byte_succ, Nat.add_mul_div_left _ _ (by decide), Nat.div_eq_of_lt hbyte, Nat.zero_add]
      exact ih (by omega)

end Xv6.Digits
