import Mathlib.Data.List.Basic

/-!
The matcher of `grep` (`user/grep.c`).

A string is the list of its bytes before the NUL. `matchhere` and `matchstar` call each other,
and with every call the pattern gets shorter, or it stays and the text does. The meaning of a
pattern is a list of items, each a byte or a starred byte, between two anchors (`Pattern`).

* `match_iff`: `match` finds a substring in the language of the pattern.
-/

namespace Xv6.Grep

abbrev Str := List UInt8

def caret : UInt8 := 0x5E

def dollar : UInt8 := 0x24

def star : UInt8 := 0x2A

def dot : UInt8 := 0x2E

mutual

/-- Search for `re` at the beginning of the text. -/
def matchhere (re text : Str) : Bool :=
  match re with
  | [] => true
  | c :: re =>
    if re.head? = some star then matchstar c re.tail text
    else if c = dollar ∧ re = [] then text = []
    else
      match text with
      | [] => false
      | t :: text => if c = dot ∨ c = t then matchhere re text else false
termination_by (re.length, text.length)
decreasing_by
  · rename_i h
    cases re with
    | nil => cases h
    | cons => exact Prod.Lex.left _ _ (Nat.lt_succ_self _)
  · exact Prod.Lex.left _ _ (Nat.lt_succ_self _)

/-- Search for `c*re` at the beginning of the text. -/
def matchstar (c : UInt8) (re text : Str) : Bool :=
  if matchhere re text then true
  else
    match text with
    | [] => false
    | t :: text => if t = c ∨ c = dot then matchstar c re text else false
termination_by (re.length + 1, text.length)

end

/-- The loop of `match`, which looks at the empty string as well. -/
def search (re : Str) : Str → Bool
  | [] => matchhere re []
  | t :: text => if matchhere re (t :: text) then true else search re text

def match_ (re text : Str) : Bool :=
  if re.head? = some caret then matchhere re.tail text else search re text

/-! ### The meaning of a pattern -/

inductive Item where
  | one (c : UInt8)
  | many (c : UInt8)

/-- `c` in a pattern stands for the byte `t`. -/
def Fits (c t : UInt8) : Prop := c = dot ∨ c = t

/-- The words that items stand for. -/
inductive Lang : List Item → Str → Prop
  | nil : Lang [] []
  | one {c t : UInt8} {items : List Item} {w : Str} :
      Fits c t → Lang items w → Lang (.one c :: items) (t :: w)
  | many {c : UInt8} {items : List Item} {u w : Str} :
      (∀ t ∈ u, Fits c t) → Lang items w → Lang (.many c :: items) (u ++ w)

structure Pattern where
  items : List Item
  /-- It ends with a `$` that is not starred. -/
  stop : Bool

/-- An item is a byte together with a star that follows it. -/
def read : Str → Pattern
  | [] => ⟨[], false⟩
  | [c] => if c = dollar then ⟨[], true⟩ else ⟨[.one c], false⟩
  | c :: d :: re =>
    if d = star then { read re with items := .many c :: (read re).items }
    else { read (d :: re) with items := .one c :: (read (d :: re)).items }

/-- A `^` at the start is not an item. -/
def pattern (re : Str) : Pattern := read (if re.head? = some caret then re.tail else re)

/-- The items match at the beginning of the text, and up to its end if there is a `$`. -/
def Pattern.Here (r : Pattern) (text : Str) : Prop :=
  ∃ w v, text = w ++ v ∧ Lang r.items w ∧ (r.stop = true → v = [])

/-! ### The matcher -/

variable {c t : UInt8} {re text : Str} {items : List Item} {stop : Bool}

theorem here_one : Pattern.Here ⟨.one c :: items, stop⟩ text ↔
    ∃ t rest, text = t :: rest ∧ Fits c t ∧ Pattern.Here ⟨items, stop⟩ rest := by
  constructor
  · rintro ⟨_, v, rfl, _ | ⟨hc, hw⟩, hv⟩
    exact ⟨_, _, rfl, hc, _, v, rfl, hw, hv⟩
  · rintro ⟨t, _, rfl, hc, w, v, rfl, hw, hv⟩
    exact ⟨t :: w, v, rfl, .one hc hw, hv⟩

theorem here_many : Pattern.Here ⟨.many c :: items, stop⟩ text ↔
    ∃ u rest, text = u ++ rest ∧ (∀ t ∈ u, Fits c t) ∧ Pattern.Here ⟨items, stop⟩ rest := by
  constructor
  · rintro ⟨_, v, rfl, _ | _ | ⟨hu, hw⟩, hv⟩
    exact ⟨_, _, List.append_assoc .., hu, _, v, rfl, hw, hv⟩
  · rintro ⟨u, _, rfl, hu, w, v, rfl, hw, hv⟩
    exact ⟨u ++ w, v, (List.append_assoc ..).symm, .many hu hw, hv⟩

/-- `matchstar` tries what follows after every number of bytes that fit. -/
theorem matchstar_iff : matchstar c re text = true ↔
    ∃ u rest, text = u ++ rest ∧ (∀ t ∈ u, Fits c t) ∧ matchhere re rest = true := by
  induction text with
  | nil =>
    rw [matchstar]
    constructor
    · intro h
      exact ⟨[], [], rfl, by simp, by simpa using h⟩
    · rintro ⟨u, rest, hnil, -, h⟩
      obtain ⟨rfl, rfl⟩ := List.append_eq_nil_iff.mp hnil.symm
      rw [if_pos h]
  | cons t text ih =>
    rw [matchstar]
    split
    next h => exact iff_of_true rfl ⟨[], _, rfl, by simp, h⟩
    next h =>
      split
      next hfit =>
        rw [ih]
        constructor
        · rintro ⟨u, rest, rfl, hu, hrest⟩
          exact ⟨t :: u, rest, rfl, List.forall_mem_cons.mpr ⟨hfit.symm.imp_right Eq.symm, hu⟩, hrest⟩
        · rintro ⟨_ | ⟨t', u⟩, rest, heq, hu, hrest⟩
          · exact absurd (heq ▸ hrest) h
          · obtain ⟨rfl, rfl⟩ := List.cons.inj heq
            exact ⟨u, rest, rfl, (List.forall_mem_cons.mp hu).2, hrest⟩
      next hfit =>
        refine iff_of_false (by simp) ?_
        rintro ⟨_ | ⟨t', u⟩, rest, heq, hu, hrest⟩
        · exact h (heq ▸ hrest)
        · obtain ⟨rfl, rfl⟩ := List.cons.inj heq
          exact hfit ((List.forall_mem_cons.mp hu).1.symm.imp_left Eq.symm)

/-- A byte that is neither starred nor the last `$` has to fit. -/
theorem matchhere_one (hstar : re.head? ≠ some star) (hlast : ¬(c = dollar ∧ re = [])) :
    matchhere (c :: re) text = true ↔
      ∃ t rest, text = t :: rest ∧ Fits c t ∧ matchhere re rest = true := by
  rw [matchhere.eq_def]
  dsimp only
  rw [if_neg hstar, if_neg hlast]
  cases text with
  | nil => simp
  | cons t rest => simp [Fits]

/-- `matchhere` finds the items at the beginning of the text. -/
theorem matchhere_iff : matchhere re text = true ↔ (read re).Here text := by
  -- The cases are those of `read`; a star takes two bytes of the pattern at once.
  induction re using read.induct generalizing text with
  | case1 =>
    rw [matchhere.eq_def, read]
    exact iff_of_true rfl ⟨[], text, rfl, .nil, by simp⟩
  | case2 =>
    rw [matchhere.eq_def, read, if_pos rfl]
    constructor
    · intro h
      exact ⟨[], [], by simpa using h, .nil, by simp⟩
    · rintro ⟨_, v, rfl, ⟨⟩, hv⟩
      simp [hv rfl]
  | case3 c hc =>
    rw [matchhere_one (by simp) (by simp [hc]), read, if_neg hc, here_one]
    simp only [matchhere.eq_def]
    have hnil : ∀ rest, Pattern.Here ⟨[], false⟩ rest := fun rest =>
      ⟨[], rest, rfl, .nil, by simp⟩
    simp [hnil]
  | case4 c re ih =>
    rw [read, if_pos rfl, here_many, matchhere.eq_def]
    simp only [List.head?_cons, if_true, List.tail_cons, matchstar_iff, ih]
  | case5 c d re hd ih =>
    rw [read, if_neg hd, here_one, matchhere_one (by simpa using hd) (by simp)]
    simp only [ih]

/-- `match` skips any bytes, as `.*` does. -/
theorem search_eq : search re text = matchstar dot re text := by
  induction text with
  | nil =>
    rw [matchstar, search]
    simp
  | cons t text ih =>
    rw [matchstar, search, ih]
    simp

/-- **`match`** returns 1 exactly if a substring of the text is in the language of the pattern,
one at the beginning of the text after a `^` and one at its end before a `$`. -/
theorem match_iff (re text : Str) : match_ re text = true ↔
    ∃ u w v, text = u ++ w ++ v ∧ Lang (pattern re).items w ∧
      (re.head? = some caret → u = []) ∧ ((pattern re).stop = true → v = []) := by
  unfold match_ pattern
  split
  next hcaret =>
    rw [matchhere_iff]
    constructor
    · rintro ⟨w, v, rfl, hw, hv⟩
      exact ⟨[], w, v, rfl, hw, fun _ => rfl, hv⟩
    · rintro ⟨u, w, v, rfl, hw, hu, hv⟩
      exact ⟨w, v, by rw [hu hcaret]; rfl, hw, hv⟩
  next hcaret =>
    rw [search_eq, matchstar_iff]
    simp only [matchhere_iff]
    constructor
    · rintro ⟨u, _, rfl, -, w, v, rfl, hw, hv⟩
      exact ⟨u, w, v, (List.append_assoc ..).symm, hw, fun h => absurd h hcaret, hv⟩
    · rintro ⟨u, w, v, rfl, hw, -, hv⟩
      exact ⟨u, w ++ v, List.append_assoc .., fun _ _ => .inl rfl, w, v, rfl, hw, hv⟩

end Xv6.Grep
