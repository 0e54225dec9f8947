import Xv6.Exec.Load

/-!
The stack that `exec` prepares.

The strings of `argv` are pushed from the top of the stack page down, each at a multiple of 16,
and then the array of pointers to them. `places` and `bottom` say where they come to lie.

* `wp_pushLoop`: the strings are in memory at their places, and all of them are in the stack page.
* `bottom_add_size`: how much room they take.
* `Mem.strings_byte`: the bytes of each string can be read back.
-/

namespace Xv6.Exec

open Prog (wp)
open Vm

/-- An `argv`: C strings that `strlen` can measure, fewer than `MAXARG` of them. -/
structure Admitted (argv : List (List UInt8)) : Prop where
  few : argv.length < MAXARG
  short : ∀ arg ∈ argv, arg.length + 1 < 2147483648
  noNul : ∀ arg ∈ argv, (0 : UInt8) ∉ arg

/-! ### Layout -/

/-- The next multiple of 16 that leaves `n` bytes below `sp`. -/
def down (sp n : ℕ) : ℕ := (sp - n) / 16 * 16

/-- Where the strings are. -/
def places : List (List UInt8) → ℕ → List ℕ
  | [], _ => []
  | arg :: rest, sp => down sp (arg.length + 1) :: places rest (down sp (arg.length + 1))

/-- Where the last one is. -/
def bottom : List (List UInt8) → ℕ → ℕ
  | [], sp => sp
  | arg :: rest, sp => bottom rest (down sp (arg.length + 1))

/-- The bytes up to the next multiple of 16. -/
def blocks (n : ℕ) : ℕ := (n + 15) / 16 * 16

/-- The room that strings and pointers take. -/
def room (argv : List (List UInt8)) : ℕ :=
  (argv.map fun arg => blocks (arg.length + 1)).sum + blocks ((argv.length + 1) * 8)

/-- The strings are written. -/
def Mem.strings (u : Mem) : List (List UInt8) → ℕ → Mem
  | [], _ => u
  | arg :: rest, sp =>
    (u.store (down sp (arg.length + 1)) (arg.length + 1) (cstring arg)).strings rest
      (down sp (arg.length + 1))

section Layout

variable {sp n : ℕ} {argv : List (List UInt8)}

theorem down_mod (sp n : ℕ) : down sp n % 16 = 0 := Nat.mul_mod_left _ _

theorem down_le (sp n : ℕ) : down sp n ≤ sp := by
  unfold down
  omega

theorem down_add_le (h : 0 < down sp n) : down sp n + n ≤ sp := by
  unfold down at *
  omega

theorem down_eq (h : sp % 16 = 0) : down sp n = sp - blocks n := by
  unfold down blocks
  omega

theorem push_eq (h : n ≤ sp) (hsp : sp < 18446744073709551616) : push sp n = down sp n := by
  have hadd : (addInt sp (-n) : ℤ) = sp + -n := addInt_eq (by omega) (by omega)
  unfold push down
  omega

/-- Below address 0 the stack pointer wraps around. -/
theorem MAXVA_le_push (h : sp < n) (hn : n < 2147483648) : MAXVA ≤ push sp n := by
  have hM : MAXVA = 274877906944 := rfl
  have hadd : addInt sp (-n) = 18446744073709551616 + sp - n := by
    unfold addInt
    omega
  unfold push
  omega

theorem bottom_le (argv : List (List UInt8)) (sp : ℕ) : bottom argv sp ≤ sp := by
  induction argv generalizing sp with
  | nil => exact le_rfl
  | cons arg rest ih => exact (ih _).trans (down_le _ _)

theorem bottom_mod (h : sp % 16 = 0) : bottom argv sp % 16 = 0 := by
  induction argv generalizing sp with
  | nil => exact h
  | cons arg rest ih => exact ih (down_mod _ _)

theorem length_places (argv : List (List UInt8)) (sp : ℕ) : (places argv sp).length = argv.length := by
  induction argv generalizing sp with
  | nil => rfl
  | cons arg rest ih => exact congrArg (· + 1) (ih _)

theorem bottom_eq (h : sp % 16 = 0) :
    bottom argv sp = sp - (argv.map fun arg => blocks (arg.length + 1)).sum := by
  induction argv generalizing sp with
  | nil => rfl
  | cons arg rest ih =>
    rw [bottom, ih (down_mod _ _), down_eq h, List.map_cons, List.sum_cons, Nat.sub_sub]

/-- What is left of the stack below strings and pointers. -/
theorem down_bottom (h : sp % 16 = 0) :
    down (bottom argv sp) ((argv.length + 1) * 8) = sp - room argv := by
  rw [down_eq (bottom_mod h), bottom_eq h, room, Nat.sub_sub]

/-- A string has its bytes between the bottom and the top. -/
theorem place_spec {i place : ℕ} {arg : List UInt8} (hpos : 0 < bottom argv sp)
    (harg : argv[i]? = some arg) (hplace : (places argv sp)[i]? = some place) :
    place % 16 = 0 ∧ bottom argv sp ≤ place ∧ place + (arg.length + 1) ≤ sp := by
  induction argv generalizing sp i with
  | nil => cases harg
  | cons first rest ih =>
    have hrest := bottom_le rest (down sp (first.length + 1))
    cases i with
    | zero =>
      cases harg
      cases hplace
      exact ⟨down_mod _ _, hrest, down_add_le (hpos.trans_le hrest)⟩
    | succ i =>
      obtain ⟨hmod, hge, hle⟩ := ih hpos harg hplace
      exact ⟨hmod, hge, hle.trans (down_le _ _)⟩

/-- Later strings are below earlier ones. -/
theorem places_apart {i j place place' : ℕ} {arg' : List UInt8} (hpos : 0 < bottom argv sp)
    (hij : i < j) (hplace : (places argv sp)[i]? = some place) (harg' : argv[j]? = some arg')
    (hplace' : (places argv sp)[j]? = some place') : place' + (arg'.length + 1) ≤ place := by
  induction argv generalizing sp i j with
  | nil => cases harg'
  | cons first rest ih =>
    cases j with
    | zero => exact absurd hij (Nat.not_lt_zero i)
    | succ j =>
      cases i with
      | zero =>
        cases hplace
        have hrest : 0 < bottom rest (down sp (first.length + 1)) := hpos
        exact (place_spec hrest harg' hplace').2.2
      | succ i => exact ih hpos (Nat.lt_of_succ_lt_succ hij) hplace harg' hplace'

end Layout

/-! ### What is in memory -/

namespace Mem

variable {u : Mem} {argv : List (List UInt8)} {sp : ℕ}

theorem strings_sz (u : Mem) (argv : List (List UInt8)) (sp : ℕ) : (u.strings argv sp).sz = u.sz := by
  induction argv generalizing u sp with
  | nil => rfl
  | cons arg rest ih => exact ih _ _

theorem strings_perm (u : Mem) (argv : List (List UInt8)) (sp : ℕ) :
    (u.strings argv sp).perm = u.perm := by
  induction argv generalizing u sp with
  | nil => rfl
  | cons arg rest ih => exact ih _ _

theorem store_byte_of_not {va n a : ℕ} {data : ℕ → UInt8} (h : a < va ∨ va + n ≤ a) :
    (u.store va n data).byte a = u.byte a := if_neg (by omega)

theorem store_byte_add {va n i : ℕ} {data : ℕ → UInt8} (h : i < n) :
    (u.store va n data).byte (va + i) = data i := by
  have hin : va ≤ va + i ∧ va + i < va + n := by omega
  refine (if_pos hin).trans ?_
  rw [Nat.add_sub_cancel_left]

/-- Outside the stack nothing changes. -/
theorem strings_byte_of_not {va : ℕ} (hpos : 0 < bottom argv sp) (h : va < bottom argv sp ∨ sp ≤ va) :
    (u.strings argv sp).byte va = u.byte va := by
  induction argv generalizing u sp with
  | nil => rfl
  | cons arg rest ih =>
    have hbottom := bottom_le rest (down sp (arg.length + 1))
    have hdown : down sp (arg.length + 1) + (arg.length + 1) ≤ sp :=
      down_add_le (hpos.trans_le hbottom)
    have hout : va < bottom rest (down sp (arg.length + 1)) ∨ sp ≤ va := h
    exact (ih hpos (by omega)).trans (store_byte_of_not (by omega))

theorem strings_byte {i place k : ℕ} {arg : List UInt8} (hpos : 0 < bottom argv sp)
    (harg : argv[i]? = some arg) (hplace : (places argv sp)[i]? = some place)
    (hk : k < arg.length + 1) : (u.strings argv sp).byte (place + k) = cstring arg k := by
  induction argv generalizing u sp i with
  | nil => cases harg
  | cons first rest ih =>
    cases i with
    | zero =>
      cases harg
      cases hplace
      have hrest : 0 < bottom rest (down sp (arg.length + 1)) := hpos
      exact (strings_byte_of_not hrest (.inr (Nat.le_add_right _ _))).trans (store_byte_add hk)
    | succ i => exact ih hpos harg hplace

end Mem

/-! ### Specifications -/

section Push

variable {g : Geometry} {panics : Prop} {trampoline trapframe : ℕ} {base l : Loc} {root : ℕ}
  {u : Mem} {t : Tree} {f : Fs}

/-- One item of the stack: it is in the stack page, or `sp` is below the stack page, or
`copyout` fails. -/
theorem wp_pushItem {b sp n : ℕ} {src : ℕ → UInt8}
    (h : Image g trampoline trapframe base root u t l)
    (huser : u.User b) (hsp : sp ≤ PGSIZE * (b + 1)) (hn : 0 < n) (hshort : n < 2147483648)
    (hin : ¬push sp n < PGSIZE * b) :
    wp (memRules g panics) (copyout (PGSIZE * root) (push sp n) src n)
      (fun r l' => (r < 0 ∧ Image g trampoline trapframe base root u t l') ∨
        (r = 0 ∧ push sp n = down sp n ∧ PGSIZE * b ≤ down sp n ∧ down sp n + n ≤ sp ∧
          Image g trampoline trapframe base root (u.store (down sp n) n src) t l')) l := by
  have hP : PGSIZE = 4096 := rfl
  have hb : PGSIZE * b < 2281701376 := (lt_pages.mp huser.1).trans_le (h.sz_le)
  rw [Nat.mul_succ] at hsp
  by_cases hle : n ≤ sp
  · have hpush : push sp n = down sp n := push_eq hle (by omega)
    rw [hpush] at hin ⊢
    have hadd : down sp n + n ≤ sp := by
      unfold down
      omega
    have hpage : down sp n / PGSIZE = b := by
      rw [hP] at hsp hin ⊢
      omega
    have hfit : down sp n % PGSIZE + n ≤ PGSIZE := by
      rw [hP] at hsp hin ⊢
      omega
    apply (wp_image_copyout h (hpage.symm ▸ huser) hn hfit).mono
    rintro r l' ⟨rfl, himage⟩
    exact .inr ⟨rfl, rfl, not_lt.mp hin, hadd, himage⟩
  · apply (wp_image_copyout_high h hn (MAXVA_le_push (not_le.mp hle) hshort)).mono
    exact fun r l' hr => .inl hr

theorem wp_pushLoop {b sp : ℕ} {argv : List (List UInt8)} {ustack : List ℕ}
    (h : Image g trampoline trapframe base root u t l)
    (huser : u.User b) (hsp : sp ≤ PGSIZE * (b + 1)) (hbase : PGSIZE * b ≤ sp)
    (hshort : ∀ arg ∈ argv, arg.length + 1 < 2147483648) :
    wp (execRules g panics) (pushLoop (PGSIZE * root) (PGSIZE * b) argv sp ustack)
      (fun r x => x.2 = f ∧ ∃ u', u'.sz = u.sz ∧ Image g trampoline trapframe base root u' t x.1 ∧
        ∀ y, r = some y → y = (bottom argv sp, ustack ++ places argv sp) ∧ PGSIZE * b ≤ bottom argv sp ∧
          u' = u.strings argv sp) (l, f) := by
  induction argv generalizing u l sp ustack with
  | nil =>
    refine ⟨rfl, u, rfl, h, ?_⟩
    rintro y ⟨⟩
    rw [places, List.append_nil]
    exact ⟨rfl, hbase, rfl⟩
  | cons arg rest ih =>
    have hbad : ∃ u', u'.sz = u.sz ∧ Image g trampoline trapframe base root u' t l ∧
        ∀ y, none = some y → y = (bottom (arg :: rest) sp, ustack ++ places (arg :: rest) sp) ∧
          PGSIZE * b ≤ bottom (arg :: rest) sp ∧ u' = u.strings (arg :: rest) sp :=
      ⟨u, rfl, h, fun y hy => nomatch hy⟩
    unfold pushLoop
    split
    case isTrue => exact ⟨rfl, hbad⟩
    case isFalse =>
      split
      case isTrue => exact ⟨rfl, hbad⟩
      case isFalse hin =>
        apply Prog.wp_bind.mpr
        apply wp_lift
        apply (wp_pushItem h huser hsp (Nat.succ_pos _) (hshort arg List.mem_cons_self) hin).mono
        rintro r l' (⟨hneg, himage⟩ | ⟨rfl, hpush, hge, hle, himage⟩)
        · rw [if_pos hneg]
          exact ⟨rfl, u, rfl, himage, fun y hy => nomatch hy⟩
        · rw [if_neg (lt_irrefl 0), hpush]
          apply (ih himage huser ((down_le _ _).trans hsp) hge fun a ha =>
            hshort a (List.mem_cons_of_mem _ ha)).mono
          rintro r x ⟨hf, u', hsz, himage', hdone⟩
          refine ⟨hf, u', hsz, himage', fun y hy => ?_⟩
          obtain ⟨rfl, hbottom, hu'⟩ := hdone y hy
          rw [List.append_assoc]
          exact ⟨rfl, hbottom, hu'⟩

end Push

end Xv6.Exec
