import Mathlib.Data.Int.Basic
import Mathlib.Data.List.GetD
import Xv6.Param

/-!
Names in memory and on disk (`kernel/string.c` and `skipelem` in `kernel/fs.c`).

A name is given by its bytes, none of which is NUL. It occurs in memory as a string that
ends with a NUL, in the buffer of `DIRSIZ` bytes that `skipelem` fills, and in the field
of a directory entry that `strncpy` fills; in the last two a name of `DIRSIZ` bytes or more
has no NUL. All three stand for the first `DIRSIZ` bytes: `namecmp` of such a buffer and such
a field compares these (`namecmp_eq_zero_iff`).
-/

namespace Xv6.Fs.Names

/-- Memory from some address on. -/
abbrev Mem := ℕ → UInt8

/-- The string with the given bytes. -/
def cstr (l : List UInt8) : Mem := fun i => l.getD i 0

/-! ### `string.c` -/

/-- The loop of `strncmp(p, q, n)` from position `i` on. -/
def strncmp (p q : Mem) : ℕ → ℕ → ℤ
  | 0, _ => 0
  | n + 1, i =>
    if p i ≠ 0 ∧ p i = q i then strncmp p q n (i + 1) else (p i).toNat - (q i).toNat

/-- What `strncpy(s, t, n)` writes, from position `i` of `t` on. -/
def strncpy (t : Mem) : ℕ → ℕ → List UInt8
  | 0, _ => []
  | n + 1, i => if t i = 0 then List.replicate (n + 1) 0 else t i :: strncpy t n (i + 1)

/-! ### Paths -/

/-- The character that separates path elements. -/
def slash : UInt8 := 0x2F

/-- The next path element, and the rest of the path after it. -/
def skipelem (path : List UInt8) : Option (List UInt8 × List UInt8) :=
  let path := path.dropWhile (· = slash)
  if path = [] then none
  else some (path.takeWhile (· ≠ slash), (path.dropWhile (· ≠ slash)).dropWhile (· = slash))

/-- What `skipelem` does to the buffer `name`: at most `DIRSIZ` bytes, and a NUL if there is
room for it. -/
def setName (name : Mem) (elem : List UInt8) : Mem := fun i =>
  if i < elem.length ∧ i < DIRSIZ then elem.getD i 0
  else if i = elem.length ∧ elem.length < DIRSIZ then 0
  else name i

def namecmp (s t : Mem) : ℤ := strncmp s t DIRSIZ 0

/-! ### Comparing -/

variable {p p' q q' : Mem} {n i : ℕ} {s t : List UInt8}

/-- UInt8s after a NUL or beyond `n` do not matter. -/
theorem strncmp_congr (hp : ∀ k, i ≤ k → k < i + n → (∀ l, i ≤ l → l < k → p l ≠ 0) → p' k = p k)
    (hq : ∀ k, i ≤ k → k < i + n → q' k = q k) : strncmp p' q' n i = strncmp p q n i := by
  induction n generalizing i with
  | zero => rfl
  | succ n ih =>
    have hp0 : p' i = p i := hp i (Nat.le_refl i) (by omega) fun l h h' => absurd h (by omega)
    have hq0 : q' i = q i := hq i (Nat.le_refl i) (by omega)
    rw [strncmp, strncmp, hp0, hq0]
    by_cases hi : p i ≠ 0 ∧ p i = q i
    · rw [if_pos hi, if_pos hi]
      apply ih
      · intro k hk hk' hnul
        apply hp k (by omega) (by omega)
        intro l hl hlk
        rcases Nat.eq_or_lt_of_le hl with rfl | hlt
        · exact hi.1
        · exact hnul l hlt hlk
      · intro k hk hk'
        exact hq k (by omega) (by omega)
    · rw [if_neg hi, if_neg hi]

theorem strncmp_succ_eq_zero :
    strncmp p q (n + 1) i = 0 ↔ p i = q i ∧ (p i ≠ 0 → strncmp p q n (i + 1) = 0) := by
  rw [strncmp]
  by_cases heq : p i = q i
  · by_cases h0 : p i = 0
    · rw [if_neg fun h => h.1 h0]
      simp only [heq, Int.sub_self, true_and, true_iff]
      intro h
      exact absurd (heq ▸ h0) h
    · rw [if_pos ⟨h0, heq⟩]
      simp only [heq, true_and]
      constructor
      · intro h _
        exact h
      · intro h
        exact h (heq ▸ h0)
  · have hne : (p i).toNat ≠ (q i).toNat := fun h => heq (UInt8.toNat_inj.mp h)
    rw [if_neg fun h => heq h.2]
    simp only [heq, false_and, iff_false]
    omega

theorem cstr_of_lt (h : i < s.length) : cstr s i = s[i] := List.getD_eq_getElem _ _ h

theorem cstr_of_le (h : s.length ≤ i) : cstr s i = 0 := List.getD_eq_default _ _ h

theorem cstr_ne_zero (hs : 0 ∉ s) (h : i < s.length) : cstr s i ≠ 0 := by
  rw [cstr_of_lt h]
  intro h0
  exact hs (h0 ▸ List.getElem_mem h)

/-- `strncmp` of two strings compares their first `n` bytes. -/
theorem strncmp_cstr (hs : 0 ∉ s) (ht : 0 ∉ t) :
    strncmp (cstr s) (cstr t) n i = 0 ↔ (s.drop i).take n = (t.drop i).take n := by
  induction n generalizing i with
  | zero => simp [strncmp]
  | succ n ih =>
    rw [strncmp_succ_eq_zero, ih]
    rcases Nat.lt_or_ge i s.length with hsi | hsi <;> rcases Nat.lt_or_ge i t.length with hti | hti
    · have h0 := cstr_ne_zero hs hsi
      rw [List.drop_eq_getElem_cons hsi, List.drop_eq_getElem_cons hti, List.take_succ_cons,
        List.take_succ_cons, List.cons.injEq, ← cstr_of_lt hsi, ← cstr_of_lt hti]
      simp only [h0, ne_eq, not_false_eq_true, true_implies]
    · -- `t` ends here.
      rw [cstr_of_le hti, List.drop_eq_nil_of_le hti, List.drop_eq_getElem_cons hsi]
      simp [cstr_ne_zero hs hsi, hsi]
    · -- `s` ends here.
      rw [cstr_of_le hsi, List.drop_eq_nil_of_le hsi, List.drop_eq_getElem_cons hti]
      simp [(cstr_ne_zero ht hti).symm, hti]
    · rw [cstr_of_le hsi, cstr_of_le hti, List.drop_eq_nil_of_le hsi, List.drop_eq_nil_of_le hti]
      simp

/-! ### Copying -/

/-- `strncpy` copies a string and fills up with NULs. -/
theorem strncpy_cstr (hs : 0 ∉ s) :
    strncpy (cstr s) n i = (s.drop i).take n ++ List.replicate (n - (s.length - i)) 0 := by
  induction n generalizing i with
  | zero => simp [strncpy]
  | succ n ih =>
    rw [strncpy]
    by_cases hi : i < s.length
    · rw [if_neg (cstr_ne_zero hs hi), ih, List.drop_eq_getElem_cons hi, List.take_succ_cons,
        List.cons_append]
      have hrest : n + 1 - (s.length - i) = n - (s.length - (i + 1)) := by omega
      rw [hrest, cstr_of_lt hi]
    · have hle := Nat.le_of_not_lt hi
      rw [if_pos (cstr_of_le hle), List.drop_eq_nil_of_le hle, Nat.sub_eq_zero_of_le hle]
      rfl

/-- In the buffer that `skipelem` fills, a comparison finds the element. -/
theorem strncmp_setName (name q : Mem) (s : List UInt8) :
    strncmp (setName name s) q DIRSIZ 0 = strncmp (cstr s) q DIRSIZ 0 := by
  apply strncmp_congr
  · intro k _ hk hnul
    unfold setName cstr
    by_cases hks : k < s.length
    · rw [if_pos ⟨hks, hk⟩]
    · -- A string has nothing after its NUL.
      have hkl : k = s.length := by
        by_contra hne
        exact hnul s.length (Nat.zero_le _) (by omega) (cstr_of_le (Nat.le_refl _))
      rw [if_neg (by omega), if_pos (by omega), List.getD_eq_default _ _ (by omega)]
  · intro k _ _
    rfl

/-- The field that `strncpy` fills has the bytes of the string. -/
theorem cstr_strncpy (hs : 0 ∉ s) {k : ℕ} (hk : k < n) : cstr (strncpy (cstr s) n 0) k = cstr s k := by
  rw [strncpy_cstr hs, List.drop_zero, Nat.sub_zero]
  unfold cstr
  by_cases hks : k < s.length
  · rw [List.getD_append _ _ _ _ (by simp; omega)]
    simp [List.getD_eq_getElem?_getD, hk]
  · rw [List.getD_append_right _ _ _ _ (by simp; omega), List.getD_eq_default s _ (by omega)]
    rw [List.getD_eq_getElem?_getD, List.getElem?_replicate]
    split <;> rfl

/-- **Comparing a path element with a directory entry.** -/
theorem namecmp_eq_zero_iff (name field : Mem) (hs : 0 ∉ s) (ht : 0 ∉ t)
    (hfield : ∀ k < DIRSIZ, field k = cstr (strncpy (cstr t) DIRSIZ 0) k) :
    namecmp (setName name s) field = 0 ↔ s.take DIRSIZ = t.take DIRSIZ := by
  have hcopy : strncmp (cstr s) field DIRSIZ 0 = strncmp (cstr s) (cstr t) DIRSIZ 0 := by
    apply strncmp_congr
    · intro k _ _ _
      rfl
    · intro k _ hk
      rw [hfield k (by omega), cstr_strncpy ht (by omega)]
  rw [namecmp, strncmp_setName, hcopy, strncmp_cstr hs ht, List.drop_zero, List.drop_zero]

end Xv6.Fs.Names
