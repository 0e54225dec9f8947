import Mathlib.Logic.Basic

/-!
Weakest preconditions for programs with a state and panics.

A program is a computation of `StateT σ (Except ε)`. `wp x Q E s` says that `x`
started in `s` either returns a value and a state in `Q` or panics with an error in
`E`; a program that is shown to satisfy `wp` for an `E` never panics outside `E`. The
equations below are the semantics of the constructs the programs are written with, and
`wp.mono` is the rule of consequence.
-/

namespace Xv6.Wp

variable {σ ε α β : Type}

/-- `x`, started in `s`, returns in `Q` or panics in `E`. -/
def wp (x : StateT σ (Except ε) α) (Q : α → σ → Prop) (E : ε → Prop) (s : σ) : Prop :=
  match x s with
  | .ok (a, t) => Q a t
  | .error e => E e

variable {Q Q' : α → σ → Prop} {E E' : ε → Prop} {s : σ}

/-- **Consequence.** -/
theorem wp.mono {x : StateT σ (Except ε) α} (h : wp x Q E s) (hQ : ∀ a t, Q a t → Q' a t)
    (hE : ∀ e, E e → E' e) : wp x Q' E' s := by
  unfold wp at h ⊢
  cases hx : x s with
  | ok r => exact hQ _ _ (by simpa only [hx] using h)
  | error e => exact hE _ (by simpa only [hx] using h)

theorem wp.post {x : StateT σ (Except ε) α} (h : wp x Q E s) (hQ : ∀ a t, Q a t → Q' a t) :
    wp x Q' E s := h.mono hQ fun _ he => he

@[simp] theorem wp_pure (a : α) : wp (pure a) Q E s ↔ Q a s := Iff.rfl

@[simp] theorem wp_get {Q : σ → σ → Prop} : wp get Q E s ↔ Q s s := Iff.rfl

@[simp] theorem wp_modify {Q : PUnit → σ → Prop} (f : σ → σ) :
    wp (modify f) Q E s ↔ Q ⟨⟩ (f s) := Iff.rfl

theorem wp_bind (x : StateT σ (Except ε) β) (f : β → StateT σ (Except ε) α) :
    wp (x >>= f) Q E s ↔ wp x (fun b t => wp (f b) Q E t) E s := by
  have hrun : (x >>= f) s = (x s).bind fun r => f r.1 r.2 := rfl
  unfold wp
  rw [hrun]
  cases x s <;> rfl

/-- **Sequence.** -/
theorem wp.bind {x : StateT σ (Except ε) β} {f : β → StateT σ (Except ε) α} {Q' : β → σ → Prop}
    (h : wp x Q' E s) (hf : ∀ b t, Q' b t → wp (f b) Q E t) : wp (x >>= f) Q E s :=
  (wp_bind x f).mpr (h.post hf)

theorem wp_ite (c : Prop) [Decidable c] (x y : StateT σ (Except ε) α) :
    wp (if c then x else y) Q E s ↔ if c then wp x Q E s else wp y Q E s := by
  split <;> rfl

variable {x : StateT σ (Except ε) α}

/-- What `wp` says of a run that returned. -/
theorem wp.of_ok {a : α} {t : σ} (h : wp x Q E s)
    (hx : x s = .ok (a, t)) : Q a t := by
  simpa only [wp, hx] using h

/-- A program that may not panic returns. -/
theorem wp.exists_ok (h : wp x Q (fun _ => False) s) :
    ∃ a t, x s = .ok (a, t) ∧ Q a t := by
  unfold wp at h
  cases hx : x s with
  | ok r => exact ⟨r.1, r.2, rfl, by simpa only [hx] using h⟩
  | error e => exact absurd h (by simp only [hx, not_false_eq_true])

/-- What `wp` says of a run that panicked. -/
theorem wp.of_error {e : ε} (h : wp x Q E s)
    (hx : x s = .error e) : E e := by
  simpa only [wp, hx] using h

end Xv6.Wp
