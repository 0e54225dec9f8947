import Mathlib.Data.List.Basic

/-!
Runs of a labelled transition system and the invariant rule for them.

A system is a set of start states and a labelled step relation. A run may be
constrained by a condition on each step, read in the state before the step:
`ReachableUnder` collects the states of the runs whose steps all meet it, and
`Reachable` those of the unconstrained runs. `execAll` replays a list of labels
for systems whose step is a partial function, so that a concrete run is a
computation.
-/

namespace Xv6.Run

variable {State Action : Type*}

/-- The states of the runs from `init` whose steps all satisfy `cond`, a
condition on the state before the step and the step's label. -/
inductive ReachableUnder (init : State → Prop) (step : State → Action → State → Prop)
    (cond : State → Action → Prop) : State → Prop where
  | start {s : State} : init s → ReachableUnder init step cond s
  | next {s t : State} {a : Action} : ReachableUnder init step cond s → cond s a →
      step s a t → ReachableUnder init step cond t

/-- The states of all runs from `init`. -/
def Reachable (init : State → Prop) (step : State → Action → State → Prop) : State → Prop :=
  ReachableUnder init step fun _ _ => True

variable {init : State → Prop} {step : State → Action → State → Prop}
  {cond : State → Action → Prop}

/-- **The invariant rule.** What holds initially and is preserved by every step
that meets the condition holds in every state of a run under that condition. -/
theorem ReachableUnder.invariant (inv : State → Prop) (start : ∀ s, init s → inv s)
    (preserved : ∀ s a t, inv s → cond s a → step s a t → inv t) {s : State}
    (h : ReachableUnder init step cond s) : inv s := by
  induction h with
  | start hs => exact start _ hs
  | next _ hc hstep ih => exact preserved _ _ _ ih hc hstep

/-- A run under a condition is a run under any weaker one. -/
theorem ReachableUnder.mono {cond' : State → Action → Prop}
    (weaker : ∀ s a, cond s a → cond' s a) {s : State}
    (h : ReachableUnder init step cond s) : ReachableUnder init step cond' s := by
  induction h with
  | start hs => exact .start hs
  | next _ hc hstep ih => exact .next ih (weaker _ _ hc) hstep

/-- Every constrained run is a run. -/
theorem ReachableUnder.reachable {s : State} (h : ReachableUnder init step cond s) :
    Reachable init step s :=
  h.mono fun _ _ _ => trivial

/-- A guarded step that was taken: the guard held. -/
theorem of_guard {c : Prop} [Decidable c] {s t : State} (h : (if c then some s else none) = some t) :
    c ∧ s = t := by
  rwa [Option.ite_none_right_eq_some, Option.some_inj] at h

/-- The step relation of a partial step function. -/
def relOf (exec : State → Action → Option State) (s : State) (a : Action) (t : State) : Prop :=
  exec s a = some t

/-- Replay a list of labels; `none` when a label is not enabled in turn. -/
def execAll (exec : State → Action → Option State) : State → List Action → Option State
  | s, [] => some s
  | s, a :: rest => (exec s a).bind fun t => execAll exec t rest

/-- Replay a list of labels, checking the condition before each step. -/
def execAllUnder (exec : State → Action → Option State) (cond : State → Action → Bool) :
    State → List Action → Option State
  | s, [] => some s
  | s, a :: rest =>
    if cond s a then (exec s a).bind fun t => execAllUnder exec cond t rest else none

/-- What a successful checked replay reaches is reachable under the condition. -/
theorem reachableUnder_of_execAllUnder {exec : State → Action → Option State}
    {check : State → Action → Bool} {s t : State} {run : List Action}
    (hs : ReachableUnder init (relOf exec) (fun s a => check s a = true) s)
    (h : execAllUnder exec check s run = some t) :
    ReachableUnder init (relOf exec) (fun s a => check s a = true) t := by
  induction run generalizing s with
  | nil =>
    cases h
    exact hs
  | cons a rest ih =>
    simp only [execAllUnder] at h
    split at h
    · rename_i hc
      obtain ⟨u, hu, hrest⟩ := Option.bind_eq_some_iff.mp h
      exact ih (.next hs hc hu) hrest
    · cases h

/-- What a successful replay reaches is reachable. -/
theorem reachable_of_execAll {exec : State → Action → Option State} {s t : State}
    {run : List Action} (hs : Reachable init (relOf exec) s)
    (h : execAll exec s run = some t) : Reachable init (relOf exec) t := by
  induction run generalizing s with
  | nil =>
    cases h
    exact hs
  | cons a rest ih =>
    obtain ⟨u, hu, hrest⟩ := Option.bind_eq_some_iff.mp h
    exact ih (.next hs trivial hu) hrest

section Replay

variable {exec : State → Action → Option State} {s : State} {P : State → Prop} [DecidablePred P]

/-- A replay ends, in a state of which what has been computed holds. -/
theorem exists_some {o : Option State} (ran : o.any (P ·) = true) : ∃ t, o = some t ∧ P t := by
  obtain ⟨t, ht, hP⟩ := (Option.any_eq_true _ _).mp ran
  exact ⟨t, ht, of_decide_eq_true hP⟩

theorem exists_reachable (run : List Action) (hs : init s)
    (ran : (execAll exec s run).any (P ·) = true) : ∃ t, Reachable init (relOf exec) t ∧ P t := by
  obtain ⟨t, ht, hP⟩ := exists_some ran
  exact ⟨t, reachable_of_execAll (.start hs) ht, hP⟩

theorem exists_reachableUnder [∀ s a, Decidable (cond s a)] (run : List Action) (hs : init s)
    (ran : (execAllUnder exec (cond · ·) s run).any (P ·) = true) :
    ∃ t, ReachableUnder init (relOf exec) cond t ∧ P t := by
  obtain ⟨t, ht, hP⟩ := exists_some ran
  have hreach := reachableUnder_of_execAllUnder (.start hs) ht
  exact ⟨t, hreach.mono fun _ _ => of_decide_eq_true, hP⟩

end Replay

end Xv6.Run
