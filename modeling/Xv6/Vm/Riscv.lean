import Mathlib.Data.Nat.Bitwise

/-!
Sv39 addresses and page-table entries: the macros of riscv.h and their arithmetic.

Addresses and entries are `uint64` in the source. They are natural numbers here; the
places where a sum could leave 64 bits say so with an explicit `% 2 ^ 64`.

* `PA2PTE_or`, `PTE2PA_add`, `PTE_FLAGS_add`: an entry is the page number times 1024 plus
  the flags, and both can be read back from it.
* `flag_eq`: a flag bit of an entry is a bit of its flags.
* `PX_eq`: the index at a level is a digit of the page number in base 512.
-/

namespace Xv6.Vm

def PGSIZE : ℕ := 4096

def PGSHIFT : ℕ := 12

/-- Rounds up to a page boundary; the mask of the source clears the low twelve bits. -/
def PGROUNDUP (sz : ℕ) : ℕ := (sz + PGSIZE - 1) / PGSIZE * PGSIZE

def PGROUNDDOWN (a : ℕ) : ℕ := a / PGSIZE * PGSIZE

def PTE_V : ℕ := 1 <<< 0

def PTE_R : ℕ := 1 <<< 1

def PTE_W : ℕ := 1 <<< 2

def PTE_X : ℕ := 1 <<< 3

def PTE_U : ℕ := 1 <<< 4

def PA2PTE (pa : ℕ) : ℕ := (pa >>> 12) <<< 10

/-- Addresses, sizes and entries have 64 bits. -/
@[irreducible] def wrap64 (n : ℕ) : ℕ := n % 18446744073709551616

/-- The two highest bits of an entry are shifted out. -/
def PTE2PA (pte : ℕ) : ℕ := wrap64 ((pte >>> 10) <<< 12)

def PTE_FLAGS (pte : ℕ) : ℕ := pte &&& 0x3FF

def PXMASK : ℕ := 0x1FF

def PXSHIFT (level : ℕ) : ℕ := PGSHIFT + 9 * level

def PX (level va : ℕ) : ℕ := (va >>> PXSHIFT level) &&& PXMASK

def MAXVA : ℕ := 1 <<< (9 + 9 + 9 + 12 - 1)

/-- The number of pages that 64 bits can address. -/
def PAGES : ℕ := 4503599627370496

theorem wrap64_of_lt {n : ℕ} (h : n < 18446744073709551616) : wrap64 n = n := by
  unfold wrap64
  exact Nat.mod_eq_of_lt h

theorem wrap64_lt (n : ℕ) : wrap64 n < PGSIZE * PAGES := by
  unfold wrap64
  exact Nat.mod_lt n (by decide)

/-- Wrapping around keeps page boundaries. -/
theorem wrap64_page (n : ℕ) : wrap64 (PGSIZE * n) = PGSIZE * (wrap64 (PGSIZE * n) / PGSIZE) := by
  unfold wrap64 PGSIZE
  omega

/-! ### Entries -/

theorem PA2PTE_eq (pa : ℕ) : PA2PTE pa = 1024 * (pa / PGSIZE) := by
  unfold PA2PTE PGSIZE
  rw [Nat.shiftLeft_eq, Nat.shiftRight_eq_div_pow, Nat.mul_comm]

theorem PTE2PA_eq (pte : ℕ) : PTE2PA pte = PGSIZE * (pte / 1024 % PAGES) := by
  unfold PTE2PA wrap64 PGSIZE PAGES
  rw [Nat.shiftLeft_eq, Nat.shiftRight_eq_div_pow]
  omega

theorem PTE2PA_of_lt {pte : ℕ} (h : pte / 1024 < PAGES) : PTE2PA pte = PGSIZE * (pte / 1024) := by
  rw [PTE2PA_eq, Nat.mod_eq_of_lt h]

theorem PTE_FLAGS_eq (pte : ℕ) : PTE_FLAGS pte = pte % 1024 := Nat.and_two_pow_sub_one_eq_mod pte 10

theorem PA2PTE_or {pa flags : ℕ} (h : flags < 1024) :
    PA2PTE pa ||| flags = 1024 * (pa / PGSIZE) + flags := by
  have hor : (pa >>> 12) <<< 10 + flags = (pa >>> 12) <<< 10 ||| flags :=
    Nat.shiftLeft_add_eq_or_of_lt h _
  rw [← PA2PTE_eq]
  exact hor.symm

theorem PTE2PA_add {ppn flags : ℕ} (hppn : ppn < PAGES) (h : flags < 1024) :
    PTE2PA (1024 * ppn + flags) = PGSIZE * ppn := by
  have hdiv : (1024 * ppn + flags) / 1024 = ppn := by omega
  rw [PTE2PA_of_lt (hdiv.symm ▸ hppn), hdiv]

theorem PTE_FLAGS_add {ppn flags : ℕ} (h : flags < 1024) :
    PTE_FLAGS (1024 * ppn + flags) = flags := by
  rw [PTE_FLAGS_eq]
  omega

/-- A test of a flag bit looks at the flags only. -/
theorem flag_eq {pte bit : ℕ} (h : 0x3FF &&& bit = bit) : pte &&& bit = PTE_FLAGS pte &&& bit := by
  unfold PTE_FLAGS
  rw [Nat.and_assoc, h]

theorem valid_iff {pte : ℕ} : pte &&& PTE_V ≠ 0 ↔ pte % 2 = 1 := by
  have h : pte &&& PTE_V = pte % 2 := Nat.and_one_is_mod pte
  rw [h]
  omega

theorem or_lt_flags {a b : ℕ} (ha : a < 1024) (hb : b < 1024) : a ||| b < 1024 :=
  Nat.or_lt_two_pow (n := 10) ha hb

/-! ### Indices -/

/-- The page number of a virtual address without its lowest `level` digits. -/
def up : ℕ → ℕ → ℕ
  | 0, vpn => vpn
  | level + 1, vpn => up level vpn / 512

theorem up_div (level vpn : ℕ) : up level (vpn / 512) = up (level + 1) vpn := by
  induction level with
  | zero => rfl
  | succ level ih => exact congrArg (· / 512) ih

theorem up_eq (level vpn : ℕ) : up level vpn = vpn / 2 ^ (9 * level) := by
  induction level with
  | zero => exact (Nat.div_one vpn).symm
  | succ level ih =>
    have hpow : 2 ^ (9 * (level + 1)) = 2 ^ (9 * level) * 512 := Nat.pow_add 2 (9 * level) 9
    rw [up, ih, Nat.div_div_eq_div_mul, hpow]

theorem PX_eq (level va : ℕ) : PX level va = up level (va / PGSIZE) % 512 := by
  have hmask : PX level va = va >>> PXSHIFT level % 512 := Nat.and_two_pow_sub_one_eq_mod _ 9
  have hshift : 2 ^ PXSHIFT level = PGSIZE * 2 ^ (9 * level) := Nat.pow_add 2 12 (9 * level)
  rw [hmask, up_eq, Nat.shiftRight_eq_div_pow, hshift, Nat.div_div_eq_div_mul]

/-- The entry of level `level` that a walk for `vpn` reads, as a slot of its table. -/
theorem up_slot (level vpn : ℕ) :
    512 * up (level + 1) vpn + up level vpn % 512 = up level vpn :=
  Nat.div_add_mod (up level vpn) 512

end Xv6.Vm
