import Mathlib.Logic.Function.Basic

/-!
Programs as trees of operations, and what one process may rely on in them.

`Prog Resp α` is a program that issues operations, gets for each a response, and returns a
value; it does not say what an operation does, so that the operations of several
processes can interleave. A `Rules` gives each operation a predicate transformer over
what the process knows (its local state), and `wp` extends it to whole programs. That
the rules are right for a system is shown there, one operation at a time: if every process
has a program that satisfies `wp` before a step, so it does after it.
-/

namespace Xv6

/-- Programs over the operations `Op`; operation `o` gives a response in `Resp o`. -/
inductive Prog {Op : Type} (Resp : Op → Type) (α : Type) where
  | ret (a : α)
  | op (o : Op) (k : Resp o → Prog Resp α)

namespace Prog

variable {Op : Type} {Resp : Op → Type} {α β L : Type}

def bind : Prog Resp α → (α → Prog Resp β) → Prog Resp β
  | .ret a, f => f a
  | .op o k, f => .op o fun r => (k r).bind f

instance : Monad (Prog Resp) where
  pure := .ret
  bind := bind

/-- The program of one operation. -/
def call (o : Op) : Prog Resp (Resp o) := .op o .ret

/-- What each operation needs and gives, as predicate transformers over the local states. -/
structure Rules (Resp : Op → Type) (L : Type) where
  pre : (o : Op) → (Resp o → L → Prop) → L → Prop
  mono : ∀ {o : Op} {Q Q' : Resp o → L → Prop} {l : L}, (∀ r l', Q r l' → Q' r l') →
    pre o Q l → pre o Q' l

variable {R : Rules Resp L}

/-- From the local state `l`, the program meets what its operations need, and if it
returns, then in `Q`. -/
def wp (R : Rules Resp L) : Prog Resp α → (α → L → Prop) → L → Prop
  | .ret a, Q, l => Q a l
  | .op o k, Q, l => R.pre o (fun r l' => wp R (k r) Q l') l

variable {Q Q' : α → L → Prop} {l : L}

theorem wp.mono {x : Prog Resp α} (h : wp R x Q l) (hQ : ∀ a l', Q a l' → Q' a l') :
    wp R x Q' l := by
  induction x generalizing l with
  | ret a => exact hQ a l h
  | op o k ih => exact R.mono (fun r l' hr => ih r hr) h

variable {f : β → Prog Resp α} {x : Prog Resp β}

theorem wp_bind :
    wp R (x >>= f) Q l ↔ wp R x (fun b l' => wp R (f b) Q l') l := by
  induction x generalizing l with
  | ret b => exact Iff.rfl
  | op o k ih =>
    constructor
    · exact R.mono fun r l' hr => (ih r).mp hr
    · exact R.mono fun r l' hr => (ih r).mpr hr

/-- **Sequence.** -/
theorem wp.bind {Q' : β → L → Prop} (h : wp R x Q' l)
    (hf : ∀ b l', Q' b l' → wp R (f b) Q l') : wp R (x >>= f) Q l :=
  wp_bind.mpr (h.mono hf)

/-- The program leaves the local state as it found it. -/
def Restores (R : Rules Resp L) (x : Prog Resp α) (l : L) : Prop := wp R x (fun _ l' => l' = l) l

theorem Restores.pure (a : α) : Restores R (Pure.pure a) l := rfl

theorem Restores.bind (hx : Restores R x l)
    (hf : ∀ b, Restores R (f b) l) : Restores R (x >>= f) l := by
  apply wp.bind hx
  rintro b l' rfl
  exact hf b

/-- A program that restores the local state may come before anything. -/
theorem Restores.wp_bind (hx : Restores R x l) (hf : ∀ b, wp R (f b) Q l) : wp R (x >>= f) Q l := by
  apply wp.bind hx
  rintro b l' rfl
  exact hf b

end Prog

end Xv6
