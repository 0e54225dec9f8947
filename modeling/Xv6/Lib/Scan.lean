import Mathlib.Data.List.Basic

/-!
A scan for the first least element.

The scan visits `0, 1, ...` and keeps a candidate, which it replaces by every later element
that comes before it. When `before` is a strict weak order it ends with the least of the
elements in `P`, the first one among equals.
-/

namespace Xv6.Scan

/-- The elements below `n`, split at one of them. -/
theorem range_eq_append {k n : ℕ} (h : k < n) :
    ∃ after, List.range n = List.range k ++ k :: after := by
  obtain ⟨m, rfl⟩ := Nat.exists_eq_add_of_lt h
  refine ⟨(List.range m).map (k + 1 + ·), ?_⟩
  rw [Nat.add_assoc, List.range_add, List.range_succ_eq_map]
  simp only [List.map_cons, List.map_map, Nat.add_zero]
  refine congrArg _ (congrArg _ (List.map_congr_left fun x _ => ?_))
  simp only [Function.comp_apply, Nat.succ_eq_add_one]
  omega

variable (P : ℕ → Prop) (before : ℕ → ℕ → Prop)

/-- `p` is the first of the least elements of `P` below `n`. -/
structure First (n p : ℕ) : Prop where
  lt : p < n
  mem : P p
  least : ∀ q < n, P q → ¬ before q p
  first : ∀ q < p, P q → before p q

/-- What a scan of the elements below `n` has found. -/
def Finds (n : ℕ) : Option ℕ → Prop
  | none => ∀ q < n, ¬ P q
  | some p => First P before n p

variable [DecidablePred P] [DecidableRel before]

/-- The candidate after `p` has been visited. -/
def visit (best : Option ℕ) (p : ℕ) : Option ℕ :=
  if P p then
    match best with
    | none => some p
    | some q => if before p q then some p else some q
  else best

variable {P before}

section Order

variable (asymm : ∀ ⦃a b⦄, before a b → ¬ before b a)
  (trans_not : ∀ ⦃a b c⦄, before a b → ¬ before c b → before a c)
include asymm trans_not

theorem finds_visit {n : ℕ} {best : Option ℕ} (h : Finds P before n best) :
    Finds P before (n + 1) (visit P before best n) := by
  have irrefl : ¬ before n n := fun hn => asymm hn hn
  unfold visit
  split
  · next hn =>
    cases best with
    | none =>
      exact ⟨Nat.lt_succ_self n, hn, Nat.forall_lt_succ_right.mpr
        ⟨fun q hq hP => absurd hP (h q hq), fun _ => irrefl⟩, fun q hq hP => absurd hP (h q hq)⟩
    | some p =>
      dsimp only
      split
      · next hbefore =>
        have hall : ∀ q < n, P q → before n q := fun q hq hP =>
          trans_not hbefore (h.least q hq hP)
        exact ⟨Nat.lt_succ_self n, hn, Nat.forall_lt_succ_right.mpr
          ⟨fun q hq hP => asymm (hall q hq hP), fun _ => irrefl⟩, hall⟩
      · next hbefore =>
        exact ⟨Nat.lt_succ_of_lt h.lt, h.mem,
          Nat.forall_lt_succ_right.mpr ⟨h.least, fun _ => hbefore⟩, h.first⟩
  · next hn =>
    cases best with
    | none => exact Nat.forall_lt_succ_right.mpr ⟨h, hn⟩
    | some p =>
      exact ⟨Nat.lt_succ_of_lt h.lt, h.mem,
        Nat.forall_lt_succ_right.mpr ⟨h.least, fun hP => absurd hP hn⟩, h.first⟩

theorem finds_scan (n : ℕ) : Finds P before n ((List.range n).foldl (visit P before) none) := by
  induction n with
  | zero => exact fun q hq => absurd hq (Nat.not_lt_zero q)
  | succ n ih =>
    rw [List.range_succ, List.foldl_append]
    exact finds_visit asymm trans_not ih

end Order

end Xv6.Scan
