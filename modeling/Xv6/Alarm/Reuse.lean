import Mathlib.Data.List.Find
import Xv6.Proc
import Xv6.Lib.Run
import Xv6.Lib.Update

/-!
What a process finds in a slot of the process table that was used before.

The resets are split between `freeproc`, `allocproc` and `fork`. None of them touches
the alarm fields (`interval`, `ticks_left`, `sig_handler`, `sigalarm_tf`) or
`total_run_time`, and `killed` is cleared by `freeproc` only, while `kill` takes any
slot whose `pid` matches, an UNUSED one (whose `pid` is 0) included. These fields are
the slot's `Leftover`; everything else about a child's alarms and scheduling is its own
(`slot_reuse`).

The model has every function that writes those fields. Memory, files and the trapframe
play no part in them: whether the allocations of `fork` succeed is up to the step, and
so is the page that `usertrap` gets from `kalloc`. The MLFQ queues and the sleep
channels' users are left out, so that a slot may be dequeued or woken at any moment.
-/

namespace Xv6.Reuse

open Function (update update_self update_of_ne)
open Run (relOf)

/-- `struct proc` with its alarm fields. -/
structure Slot extends Proc where
  xstate : ℤ
  parent : Option ℕ
  traceFlag : ℤ
  interval : ℤ
  ticksLeft : ℤ
  sigHandler : ℕ
  sigalarmTf : ℕ
  startTimePbs : ℤ
  nicenessVar : ℤ
  totalRunTime : ℤ
deriving DecidableEq, Repr

namespace Slot

/-- An entry of the zero-initialised table. -/
def zero : Slot := ⟨.zero, 0, none, 0, 0, 0, 0, 0, 0, 0, 0⟩

/-! ### `allocproc`, `freeproc` and `fork` -/

def allocproc (ticks : ℕ) (pid : ℤ) (r : Slot) : Slot :=
  { r with toProc := r.toProc.allocproc ticks pid, nicenessVar := 5, startTimePbs := int32 ticks }

def freeproc (r : Slot) : Slot :=
  { r with toProc := r.toProc.freeproc, parent := none, xstate := 0 }

/-- The rest of `fork` in the child's slot. -/
def forked (parent : ℕ) (p r : Slot) : Slot :=
  { r with traceFlag := p.traceFlag, parent := some parent, state := .runnable }

/-! ### Alarms -/

/-- `sys_sigalarm`. -/
def sigalarm (interval : ℤ) (handler : ℕ) (r : Slot) : Slot :=
  { r with interval := interval, sigHandler := handler, ticksLeft := interval }

/-- `sys_sigreturn`. -/
def sigreturn (r : Slot) : Slot := { r with ticksLeft := r.interval }

/-- The alarm part of `usertrap` on a timer interrupt; `page` is what `kalloc` returns. -/
def usertrap (page : ℕ) (r : Slot) : Slot :=
  if r.interval ≠ 0 then
    if int32 (r.ticksLeft - 1) = 0 then { r with ticksLeft := 0, sigalarmTf := page }
    else { r with ticksLeft := int32 (r.ticksLeft - 1) }
  else r

/-- The handler that a timer interrupt starts. -/
def delivered (r : Slot) : Option ℕ :=
  if r.interval ≠ 0 ∧ int32 (r.ticksLeft - 1) = 0 then some r.sigHandler else none

/-- The handlers that the timer interrupts of a process start, if `kalloc` returns the
given pages. -/
def onTicks : Slot → List ℕ → List (Option ℕ)
  | _, [] => []
  | r, page :: rest => r.delivered :: (r.usertrap page).onTicks rest

/-! ### Scheduling -/

/-- A change of the fields that scheduling is about. -/
def onProc (f : Proc → Proc) (r : Slot) : Slot := { r with toProc := f r.toProc }

/-- One slot of `update_time`. -/
def updateTime (v : Policy) (r : Slot) : Slot :=
  { r.onProc (Proc.updateTime v) with
    totalRunTime :=
      if v = .pbs ∧ r.state = .running then int32 (r.totalRunTime + 1) else r.totalRunTime }

def wakeup (chan : ℕ) (r : Slot) : Slot :=
  if r.state = .sleeping ∧ r.chan = chan then { r with state := .runnable } else r

def exit (ticks : ℕ) (status : ℤ) (r : Slot) : Slot :=
  { r with toProc := r.toProc.exit ticks, xstate := status }

end Slot

structure State where
  proc : ℕ → Slot
  ticks : ℕ
  nextpid : ℤ

namespace State

def modify (s : State) (p : ℕ) (f : Slot → Slot) : State :=
  { s with proc := update s.proc p (f (s.proc p)) }

/-- The slot `allocproc` finds. -/
def freeSlot (s : State) : Option ℕ :=
  (List.range NPROC).find? fun p => (s.proc p).state = .unused

/-- The slot `kill` and `setpriority` find. -/
def slotOf (s : State) (pid : ℤ) : Option ℕ :=
  (List.range NPROC).find? fun p => (s.proc p).pid = pid

/-- The children of `p` get the first process as their parent. -/
def reparent (s : State) (p : ℕ) : State :=
  { s with
    proc := fun q =>
      if (s.proc q).parent = some p then { s.proc q with parent := some 0 } else s.proc q }

/-- `fork`; with `ok = false` one of its allocations fails. -/
def fork (s : State) (p : ℕ) (ok : Bool) : State :=
  match s.freeSlot with
  | none => s
  | some q =>
    let t := { s.modify q (Slot.allocproc s.ticks s.nextpid) with nextpid := int32 (s.nextpid + 1) }
    if ok then t.modify q (Slot.forked p (s.proc p)) else t.modify q Slot.freeproc

end State

inductive Action where
  | fork (p : ℕ) (ok : Bool)
  | exit (p : ℕ) (status : ℤ)
  /-- `wait` or `waitx` of `p` has found the zombie `q`. -/
  | reap (p q : ℕ)
  | kill (pid : ℤ)
  | setkilled (p : ℕ)
  | sigalarm (p : ℕ) (interval : ℤ) (handler : ℕ)
  | sigreturn (p : ℕ)
  /-- A timer interrupt in user mode. -/
  | usertrap (p page : ℕ)
  | trace (p : ℕ) (mask : ℤ)
  | settickets (p : ℕ) (tickets : ℤ)
  | setpriority (priority pid : ℤ)
  | sleep (p chan : ℕ)
  /-- `wakeup(chan)` at slot `q`. -/
  | wakeup (chan q : ℕ)
  | yield (p : ℕ)
  | dispatch (q : ℕ)
  /-- `clockintr` counts a tick. -/
  | tick
  /-- `update_time` at slot `q`. -/
  | updateTime (q : ℕ)
  | enqueue (q : ℕ)
  | dequeue (q : ℕ)
  | demote (p : ℕ) (user : Bool)

/-- A step of slot `p`, which has to be in the given state. -/
def State.inState (s : State) (st : ProcState) (p : ℕ) (f : Slot → Slot) : Option State :=
  if p < NPROC ∧ (s.proc p).state = st then some (s.modify p f) else none

/-- The system's step function; `none` when the action is not enabled. -/
def exec (v : Policy) (s : State) : Action → Option State
  | .fork p ok => if p < NPROC ∧ (s.proc p).state = .running then some (s.fork p ok) else none
  | .exit p status =>
    -- slot 0 is `initproc`, whose exit is a panic
    if p = 0 then none else (s.reparent p).inState .running p (Slot.exit s.ticks status)
  | .reap p q =>
    if p < NPROC ∧ (s.proc p).state = .running ∧ (s.proc q).parent = some p then
      s.inState .zombie q Slot.freeproc
    else none
  | .kill pid => some (match s.slotOf pid with | some q => s.modify q (.onProc Proc.kill) | none => s)
  | .setkilled p => s.inState .running p fun r => { r with killed := true }
  | .sigalarm p interval handler => s.inState .running p (Slot.sigalarm interval handler)
  | .sigreturn p => s.inState .running p Slot.sigreturn
  | .usertrap p page => s.inState .running p (Slot.usertrap page)
  | .trace p mask => s.inState .running p fun r => { r with traceFlag := mask }
  | .settickets p tickets => s.inState .running p fun r => { r with tickets := tickets }
  | .setpriority priority pid =>
    some (match s.slotOf pid with
      | some q => s.modify q fun r => { r with priorityPbs := priority }
      | none => s)
  | .sleep p chan => s.inState .running p fun r => { r with chan := chan, state := .sleeping }
  | .wakeup chan q => if q < NPROC then some (s.modify q (Slot.wakeup chan)) else none
  | .yield p => s.inState .running p fun r => { r with state := .runnable }
  | .dispatch q => s.inState .runnable q (.onProc (.dispatch v))
  | .tick => some { s with ticks := (s.ticks + 1) % 2 ^ 32 }
  | .updateTime q => if q < NPROC then some (s.modify q (Slot.updateTime v)) else none
  | .enqueue q => s.inState .runnable q (.onProc .enqueue)
  | .dequeue q => if q < NPROC then some (s.modify q fun r => { r with inQueue := false }) else none
  | .demote p user => s.inState .running p (.onProc (.demote user))

/-- The table after `userinit`: the first process, RUNNABLE, in slot 0. -/
def boot : State :=
  ⟨update (fun _ => .zero) 0 { Slot.allocproc 0 1 .zero with state := .runnable }, 0, 2⟩

/-! ### What a new process inherits from its slot -/

/-- The fields that no step resets between two owners of a slot. -/
structure Leftover where
  killed : Bool
  interval : ℤ
  ticksLeft : ℤ
  sigHandler : ℕ
  sigalarmTf : ℕ
  totalRunTime : ℤ
deriving DecidableEq, Repr

namespace Slot

def leftover (r : Slot) : Leftover :=
  ⟨r.killed, r.interval, r.ticksLeft, r.sigHandler, r.sigalarmTf, r.totalRunTime⟩

/-- The fields that only `freeproc` resets. -/
def Blank (r : Slot) : Prop := r.chan = 0 ∧ r.xstate = 0 ∧ r.etime = 0

/-- No alarm was ever set in the slot. -/
def NoAlarm (r : Slot) : Prop :=
  r.interval = 0 ∧ r.ticksLeft = 0 ∧ r.sigHandler = 0 ∧ r.sigalarmTf = 0

instance (r : Slot) : Decidable r.NoAlarm := inferInstanceAs (Decidable (_ ∧ _))

/-- The child that `fork` makes of a blank slot with the given leftovers. -/
def born (ticks : ℕ) (pid : ℤ) (p : ℕ) (parent : Slot) (l : Leftover) : Slot :=
  forked p parent <| allocproc ticks pid
    { zero with
      killed := l.killed
      interval := l.interval
      ticksLeft := l.ticksLeft
      sigHandler := l.sigHandler
      sigalarmTf := l.sigalarmTf
      totalRunTime := l.totalRunTime }

theorem forked_allocproc_eq_born {r parent : Slot} {ticks p : ℕ} {pid : ℤ} (h : r.Blank) :
    forked p parent (allocproc ticks pid r) = born ticks pid p parent r.leftover := by
  obtain ⟨hchan, hxstate, hetime⟩ := h
  simp [forked, allocproc, Proc.allocproc, born, leftover, hchan, hxstate, hetime, zero, Proc.zero]

theorem leftover_born (ticks : ℕ) (pid : ℤ) (p : ℕ) (parent : Slot) (l : Leftover) :
    (born ticks pid p parent l).leftover = l := rfl

/-- A process without an alarm is not interrupted. -/
theorem onTicks_of_interval_eq_zero {r : Slot} (h : r.interval = 0) (pages : List ℕ) :
    r.onTicks pages = pages.map fun _ => none := by
  induction pages with
  | nil => rfl
  | cons page rest ih => simp [onTicks, delivered, usertrap, h, ih]

end Slot

namespace State

/-- The slot of the child of a successful `fork`. -/
def child (s : State) (p : ℕ) : Option Slot :=
  s.freeSlot.map fun q => (s.fork p true).proc q

/-- The two tables differ only in what is left in UNUSED slots. -/
def SameUpToLeftovers (s₁ s₂ : State) : Prop :=
  s₁.ticks = s₂.ticks ∧ s₁.nextpid = s₂.nextpid ∧
    ∀ q < NPROC, s₁.proc q = s₂.proc q ∨
      (s₁.proc q).state = .unused ∧ (s₂.proc q).state = .unused

instance (s₁ s₂ : State) : Decidable (s₁.SameUpToLeftovers s₂) :=
  inferInstanceAs (Decidable (_ ∧ _))

theorem freeSlot_unused {s : State} {q : ℕ} (h : s.freeSlot = some q) :
    q < NPROC ∧ (s.proc q).state = .unused :=
  ⟨List.mem_range.mp (List.mem_of_find?_eq_some h), by simpa using List.find?_some h⟩

theorem child_eq_born {s : State} {p q : ℕ} (h : s.freeSlot = some q)
    (hq : (s.proc q).Blank) :
    s.child p = some (.born s.ticks s.nextpid p (s.proc p) (s.proc q).leftover) := by
  rw [← Slot.forked_allocproc_eq_born hq]
  simp [child, h, fork, modify]

namespace SameUpToLeftovers

variable {s₁ s₂ : State}

theorem freeSlot_eq (h : s₁.SameUpToLeftovers s₂) : s₁.freeSlot = s₂.freeSlot := by
  apply List.find?_congr
  intro q hq
  rcases h.2.2 q (List.mem_range.mp hq) with heq | ⟨h₁, h₂⟩
  · rw [heq]
  · rw [h₁, h₂]

/-- A process that is not UNUSED is the same in both tables. -/
theorem proc_eq (h : s₁.SameUpToLeftovers s₂) {p : ℕ} (hp : p < NPROC)
    (hrun : (s₁.proc p).state = .running) : s₁.proc p = s₂.proc p := by
  rcases h.2.2 p hp with heq | ⟨h₁, -⟩
  · exact heq
  · rw [hrun] at h₁
    cases h₁

end SameUpToLeftovers

end State

/-! ### What a step leaves in an UNUSED slot -/

namespace Slot

/-- The two slots agree in all that is left of an UNUSED one. -/
def Leaves (r r' : Slot) : Prop :=
  r.state = .unused ∧ r'.leftover = r.leftover ∧ (r.Blank → r'.Blank)

theorem Leaves.of_eq {r r' : Slot} (h : r' = r) (hr : r'.state = .unused) : Leaves r r' := by
  subst h
  exact ⟨hr, rfl, id⟩

theorem wakeup_leaves {r : Slot} {chan : ℕ} (h : (r.wakeup chan).state = .unused) :
    Leaves r (r.wakeup chan) := by
  unfold wakeup at h ⊢
  split at h
  · cases h
  · rename_i hr
    rw [if_neg hr]
    exact ⟨h, rfl, id⟩

theorem updateTime_leaves {v : Policy} {r : Slot} (h : (r.updateTime v).state = .unused) :
    Leaves r (r.updateTime v) := by
  have hst : r.state = .unused := (Proc.updateTime_state v r.toProc).symm.trans h
  have heq : r.updateTime v = r := by
    cases v <;> simp [updateTime, onProc, Proc.updateTime, Proc.ticked, hst]
  exact .of_eq heq (by rw [heq, hst])

theorem freeproc_blank (r : Slot) : r.freeproc.Blank := ⟨rfl, rfl, rfl⟩

end Slot

section Step

variable {v : Policy} {s t : State} {a : Action} {p q : ℕ} {f : Slot → Slot}

/-- Nothing but `freeproc` makes a slot UNUSED. -/
theorem State.inState_leaves {st : ProcState}
    (hf : ∀ r : Slot, r.state = st → (f r).state ≠ .unused)
    (h : s.inState st p f = some t) (hq : (t.proc q).state = .unused) :
    (s.proc q).Leaves (t.proc q) := by
  obtain ⟨hp, rfl⟩ := Run.of_guard h
  by_cases hqp : q = p
  · subst hqp
    simp only [State.modify, update_self] at hq
    exact absurd hq (hf _ hp.2)
  · exact .of_eq (by simp [State.modify, update_of_ne hqp]) hq

theorem State.modify_leaves (hf : ∀ r : Slot, (f r).state = .unused → r.Leaves (f r))
    (hq : ((s.modify p f).proc q).state = .unused) :
    (s.proc q).Leaves ((s.modify p f).proc q) := by
  by_cases hqp : q = p
  · subst hqp
    simp only [State.modify, update_self] at hq ⊢
    exact hf _ hq
  · exact .of_eq (by simp [State.modify, update_of_ne hqp]) hq

/-- A slot that is UNUSED after a step was UNUSED before and kept what was left in it,
or was killed as the owner of pid 0, or was freed. -/
inductive Left (s : State) (a : Action) (q : ℕ) (r' : Slot) : Prop where
  | kept : (s.proc q).Leaves r' → Left s a q r'
  | killed (pid : ℤ) : a = .kill pid → s.slotOf pid = some q → (s.proc q).state = .unused →
      r' = (s.proc q).onProc .kill → Left s a q r'
  | failed : (s.proc q).state = .unused →
      r' = ((s.proc q).allocproc s.ticks s.nextpid).freeproc → Left s a q r'
  | reaped (p : ℕ) : a = .reap p q → r' = (s.proc q).freeproc → Left s a q r'

theorem left_fork {ok : Bool} (hq : ((s.fork p ok).proc q).state = .unused) :
    Left s (.fork p ok) q ((s.fork p ok).proc q) := by
  unfold State.fork at hq ⊢
  split
  next hfree =>
    rw [hfree] at hq
    exact .kept (.of_eq rfl hq)
  next x hfree =>
    have hx := (State.freeSlot_unused hfree).2
    rw [hfree] at hq
    by_cases hqx : q = x
    · subst hqx
      cases ok with
      | true =>
        simp only [if_true, State.modify, update_self] at hq
        cases hq
      | false => exact .failed hx (by simp [State.modify])
    · refine .kept (.of_eq ?_ hq)
      cases ok <;> simp [State.modify, update_of_ne hqx]

theorem left_of_exec (h : exec v s a = some t) (hq : (t.proc q).state = .unused) :
    Left s a q (t.proc q) := by
  cases a with
  | fork p ok =>
    obtain ⟨-, rfl⟩ := Run.of_guard h
    exact left_fork hq
  | exit p status =>
    obtain ⟨-, h⟩ := Option.ite_none_left_eq_some.mp h
    obtain ⟨hst, hleft, hblank⟩ := State.inState_leaves (by simp [Slot.exit, Proc.exit]) h hq
    refine .kept ⟨?_, hleft.trans ?_, fun hs => hblank ?_⟩ <;>
      grind [State.reparent, Slot.leftover, Slot.Blank]
  | reap p x =>
    obtain ⟨-, h⟩ := Option.ite_none_right_eq_some.mp h
    obtain ⟨-, rfl⟩ := Run.of_guard h
    by_cases hqx : q = x
    · subst hqx
      exact .reaped p rfl (by simp [State.modify])
    · exact .kept (.of_eq (by simp [State.modify, update_of_ne hqx]) hq)
  | kill pid =>
    simp only [exec, Option.some.injEq] at h
    subst h
    split at hq
    next x hx =>
      by_cases hqx : q = x
      · subst hqx
        simp only [State.modify, update_self, Slot.onProc, Proc.kill] at hq ⊢
        refine .killed pid rfl hx ?_ rfl
        split at hq
        · cases hq
        · exact hq
      · exact .kept (.of_eq (by simp [State.modify, update_of_ne hqx]) hq)
    next =>
      exact .kept (.of_eq rfl hq)
  | setpriority priority pid =>
    simp only [exec, Option.some.injEq] at h
    subst h
    refine .kept ?_
    split at hq
    next =>
      exact State.modify_leaves (fun r hr => ⟨hr, rfl, id⟩) hq
    next =>
      exact .of_eq rfl hq
  | tick =>
    cases h
    exact .kept (.of_eq rfl hq)
  | wakeup chan x =>
    obtain ⟨-, rfl⟩ := Run.of_guard h
    exact .kept (State.modify_leaves (fun r => Slot.wakeup_leaves) hq)
  | updateTime x =>
    obtain ⟨-, rfl⟩ := Run.of_guard h
    exact .kept (State.modify_leaves (fun r => Slot.updateTime_leaves) hq)
  | dequeue x =>
    obtain ⟨-, rfl⟩ := Run.of_guard h
    exact .kept (State.modify_leaves (fun r hr => ⟨hr, rfl, id⟩) hq)
  | setkilled | sigalarm | sigreturn | usertrap | trace | settickets | sleep | yield | dispatch
  | enqueue | demote =>
    refine .kept (State.inState_leaves ?_ h hq)
    intro r hr
    grind [Slot.sigalarm, Slot.sigreturn, Slot.usertrap, Slot.onProc, Proc.dispatch, Proc.enqueue,
      Proc.demote]

theorem State.modify_totalRunTime (hf : ∀ r : Slot, (f r).totalRunTime = r.totalRunTime) (q : ℕ) :
    ((s.modify p f).proc q).totalRunTime = (s.proc q).totalRunTime :=
  update_same Slot.totalRunTime (hf _) q

theorem State.inState_totalRunTime {st : ProcState}
    (hf : ∀ r : Slot, (f r).totalRunTime = r.totalRunTime) (h : s.inState st p f = some t) (q : ℕ) :
    (t.proc q).totalRunTime = (s.proc q).totalRunTime := by
  obtain ⟨-, rfl⟩ := Run.of_guard h
  exact State.modify_totalRunTime hf q

/-- `total_run_time` is counted under the PBS scheduler only. -/
theorem exec_totalRunTime (hv : v ≠ .pbs) (h : exec v s a = some t) (q : ℕ) :
    (t.proc q).totalRunTime = (s.proc q).totalRunTime := by
  cases a with
  | fork p ok =>
    obtain ⟨-, rfl⟩ := Run.of_guard h
    unfold State.fork
    split
    · rfl
    next x _ =>
      have halloc := State.modify_totalRunTime (s := s) (p := x)
        (f := Slot.allocproc s.ticks s.nextpid) (by intro r; rfl) q
      cases ok <;> exact (State.modify_totalRunTime (by intro r; rfl) q).trans halloc
  | exit p status =>
    obtain ⟨-, h⟩ := Option.ite_none_left_eq_some.mp h
    refine (State.inState_totalRunTime (by intro r; rfl) h q).trans ?_
    grind [State.reparent]
  | reap p x =>
    obtain ⟨-, h⟩ := Option.ite_none_right_eq_some.mp h
    exact State.inState_totalRunTime (by intro r; rfl) h q
  | kill | setpriority =>
    simp only [exec, Option.some.injEq] at h
    subst h
    split
    · exact State.modify_totalRunTime (by intro r; rfl) q
    · rfl
  | tick =>
    cases h
    rfl
  | wakeup | updateTime | dequeue =>
    obtain ⟨-, rfl⟩ := Run.of_guard h
    refine State.modify_totalRunTime (fun r => ?_) q
    grind [Slot.wakeup, Slot.updateTime, Slot.onProc]
  | setkilled | sigalarm | sigreturn | usertrap | trace | settickets | sleep | yield | dispatch
  | enqueue | demote =>
    refine State.inState_totalRunTime (fun r => ?_) h q
    grind [Slot.sigalarm, Slot.sigreturn, Slot.usertrap, Slot.onProc]

end Step

/-! ### Runs -/

/-- `kill` takes no UNUSED slot, and a process that is reaped has never set an alarm. -/
def tidy (s : State) : Action → Bool
  | .kill pid => (s.slotOf pid).all fun q => (s.proc q).state ≠ .unused
  | .reap _ q => (s.proc q).NoAlarm
  | _ => true

/-- What an UNUSED slot holds in every run. -/
def State.Blank (s : State) : Prop := ∀ q, (s.proc q).state = .unused → (s.proc q).Blank

/-- What it holds when every step is tidy. -/
def State.Pristine (s : State) : Prop :=
  ∀ q, (s.proc q).state = .unused → (s.proc q).killed = false ∧ (s.proc q).NoAlarm

section Runs

variable {v : Policy} {s t : State} {a : Action}

theorem boot_blank : boot.Blank := by
  intro q hq
  by_cases h0 : q = 0
  · subst h0
    cases hq
  · simp [boot, update_of_ne h0, Slot.Blank, Slot.zero, Proc.zero]

theorem boot_pristine : boot.Pristine := by
  intro q hq
  by_cases h0 : q = 0
  · subst h0
    cases hq
  · simp [boot, update_of_ne h0, Slot.NoAlarm, Slot.zero, Proc.zero]

theorem boot_totalRunTime (q : ℕ) : (boot.proc q).totalRunTime = 0 := by
  by_cases h0 : q = 0
  · subst h0
    rfl
  · simp [boot, update_of_ne h0, Slot.zero]

theorem State.Blank.step (hs : s.Blank) (h : exec v s a = some t) : t.Blank := by
  intro q hq
  cases left_of_exec h hq with
  | kept hk => exact hk.2.2 (hs q hk.1)
  | killed pid _ _ hst heq =>
    rw [heq]
    exact hs q hst
  | failed _ heq | reaped p _ heq =>
    rw [heq]
    exact Slot.freeproc_blank _

theorem Slot.NoAlarm.of_leftover {r r' : Slot} (h : r'.leftover = r.leftover)
    (hr : r.killed = false ∧ r.NoAlarm) : r'.killed = false ∧ r'.NoAlarm := by
  simp only [Slot.leftover, Leftover.mk.injEq] at h
  obtain ⟨hk, hi, hl, hh, hf, -⟩ := h
  simp only [Slot.NoAlarm, hk, hi, hl, hh, hf]
  exact hr

theorem State.Pristine.step (hs : s.Pristine) (ha : tidy s a = true) (h : exec v s a = some t) :
    t.Pristine := by
  intro q hq
  cases left_of_exec h hq with
  | kept hk => exact Slot.NoAlarm.of_leftover hk.2.1 (hs q hk.1)
  | killed pid hpid hslot hst heq =>
    subst hpid
    simp [tidy, hslot, hst] at ha
  | failed hst heq =>
    rw [heq]
    exact ⟨rfl, (hs q hst).2⟩
  | reaped p hreap heq =>
    subst hreap
    rw [heq]
    exact ⟨rfl, of_decide_eq_true ha⟩

theorem blank_of_reachable (h : Run.Reachable (· = boot) (relOf (exec v)) s) : s.Blank :=
  h.invariant _ (fun _ hs => hs ▸ boot_blank) fun _ _ _ hs _ hstep => hs.step hstep

theorem pristine_of_tidy
    (h : Run.ReachableUnder (· = boot) (relOf (exec v)) (fun s a => tidy s a = true) s) :
    s.Pristine :=
  h.invariant _ (fun _ hs => hs ▸ boot_pristine) fun _ _ _ hs ha hstep => hs.step ha hstep

theorem totalRunTime_of_reachable (hv : v ≠ .pbs)
    (h : Run.Reachable (· = boot) (relOf (exec v)) s) (q : ℕ) :
    (s.proc q).totalRunTime = 0 :=
  h.invariant (fun s => ∀ q, (s.proc q).totalRunTime = 0) (fun _ hs => hs ▸ boot_totalRunTime)
    (fun _ _ _ hs _ hstep q => (exec_totalRunTime hv hstep q).trans (hs q)) q

/-- Two children of one parent are the same process iff their slots had the same
leftovers. -/
theorem child_eq_iff {s₁ s₂ : State} (h₁ : s₁.Blank) (h₂ : s₂.Blank)
    (h : s₁.SameUpToLeftovers s₂) {p q : ℕ} (hp : p < NPROC)
    (hrun : (s₁.proc p).state = .running) (hq : s₁.freeSlot = some q) :
    s₁.child p = s₂.child p ↔ (s₁.proc q).leftover = (s₂.proc q).leftover := by
  have hq₂ : s₂.freeSlot = some q := h.freeSlot_eq ▸ hq
  rw [State.child_eq_born hq (h₁ q (State.freeSlot_unused hq).2),
    State.child_eq_born hq₂ (h₂ q (State.freeSlot_unused hq₂).2), h.1, h.2.1, h.proc_eq hp hrun]
  constructor
  · intro heq
    simpa only [Slot.leftover_born] using congrArg Slot.leftover (Option.some.inj heq)
  · intro heq
    rw [heq]

/-- **What a child owes to its slot.** In every run, two tables that differ only in
UNUSED slots give a parent the same child exactly if the slot it gets has the same
`killed` flag, alarm fields and `total_run_time` left in it. If no process that set an
alarm is reaped and `kill` never names the pid 0 of an UNUSED slot, the children are
the same, and so are the handlers their timer ticks start; under PBS they may still
differ in `total_run_time`, which nothing reads. -/
theorem slot_reuse (v : Policy) :
    (∀ s₁ s₂, Run.Reachable (· = boot) (relOf (exec v)) s₁ →
      Run.Reachable (· = boot) (relOf (exec v)) s₂ → s₁.SameUpToLeftovers s₂ →
      ∀ p < NPROC, (s₁.proc p).state = .running → ∀ q, s₁.freeSlot = some q →
        (s₁.child p = s₂.child p ↔ (s₁.proc q).leftover = (s₂.proc q).leftover)) ∧
    (∀ s₁ s₂,
      Run.ReachableUnder (· = boot) (relOf (exec v)) (fun s a => tidy s a = true) s₁ →
      Run.ReachableUnder (· = boot) (relOf (exec v)) (fun s a => tidy s a = true) s₂ →
      s₁.SameUpToLeftovers s₂ → ∀ p < NPROC, (s₁.proc p).state = .running →
        (v ≠ .pbs → s₁.child p = s₂.child p) ∧
        (s₁.child p).map (fun c => { c with totalRunTime := 0 }) =
          (s₂.child p).map (fun c => { c with totalRunTime := 0 }) ∧
        (s₁.child p).map Slot.onTicks = (s₂.child p).map Slot.onTicks) := by
  constructor
  · intro s₁ s₂ h₁ h₂ h p hp hrun q hq
    exact child_eq_iff (blank_of_reachable h₁) (blank_of_reachable h₂) h hp hrun hq
  · intro s₁ s₂ h₁ h₂ h p hp hrun
    have hb₁ := blank_of_reachable h₁.reachable
    have hb₂ := blank_of_reachable h₂.reachable
    cases hq : s₁.freeSlot with
    | none =>
      have hq₂ : s₂.freeSlot = none := h.freeSlot_eq ▸ hq
      simp [State.child, hq, hq₂]
    | some q =>
      have hq₂ : s₂.freeSlot = some q := h.freeSlot_eq ▸ hq
      have hu₁ := (State.freeSlot_unused hq).2
      have hu₂ := (State.freeSlot_unused hq₂).2
      obtain ⟨hk₁, hi₁, hl₁, hh₁, hf₁⟩ := pristine_of_tidy h₁ q hu₁
      obtain ⟨hk₂, hi₂, hl₂, hh₂, hf₂⟩ := pristine_of_tidy h₂ q hu₂
      refine ⟨fun hv => ?_, ?_, ?_⟩
      · rw [child_eq_iff hb₁ hb₂ h hp hrun hq]
        simp only [Slot.leftover, hk₁, hi₁, hl₁, hh₁, hf₁, hk₂, hi₂, hl₂, hh₂, hf₂,
          totalRunTime_of_reachable hv h₁.reachable, totalRunTime_of_reachable hv h₂.reachable]
      · rw [State.child_eq_born hq (hb₁ q hu₁), State.child_eq_born hq₂ (hb₂ q hu₂), h.1, h.2.1,
          h.proc_eq hp hrun]
        simp [Slot.born, Slot.forked, Slot.allocproc, Proc.allocproc, Slot.leftover, hk₁, hi₁, hl₁, hh₁, hf₁, hk₂,
          hi₂, hl₂, hh₂, hf₂]
      · rw [State.child_eq_born hq (hb₁ q hu₁), State.child_eq_born hq₂ (hb₂ q hu₂)]
        simp only [Option.map_some, Option.some.injEq]
        funext pages
        exact (Slot.onTicks_of_interval_eq_zero (by exact hi₁) pages).trans
          (Slot.onTicks_of_interval_eq_zero (by exact hi₂) pages).symm

end Runs

/-! ### Two runs -/

/-- The first process forks, and the child does `during` before it exits and is reaped. -/
def childRun (during : List Action) : List Action :=
  [.dispatch 0, .fork 0 true, .dispatch 1] ++ during ++ [.exit 1 0, .reap 0 1]

/-- The state a run reaches from the start. -/
def after (v : Policy) (run : List Action) : State := (Run.execAll (exec v) boot run).getD boot

theorem reachable_after {v : Policy} {run : List Action}
    (h : (Run.execAll (exec v) boot run).isSome = true) :
    Run.Reachable (· = boot) (relOf (exec v)) (after v run) := by
  obtain ⟨t, ht⟩ := Option.isSome_iff_exists.mp h
  rw [after, ht]
  exact Run.reachable_of_execAll (.start rfl) ht

/-- A child that set an alarm leaves it to the next process of its slot: the handler is
started in a process that has set no alarm. After `kill(0)` the next process is born
killed. -/
theorem child_inherits_alarm_and_killed :
    (∃ s₁ s₂, Run.Reachable (· = boot) (relOf (exec .rr)) s₁ ∧
      Run.Reachable (· = boot) (relOf (exec .rr)) s₂ ∧ s₁.SameUpToLeftovers s₂ ∧
      (s₁.proc 0).state = .running ∧
      (s₁.child 0).map (Slot.onTicks · [0, 0]) = some [none, some 64] ∧
      (s₂.child 0).map (Slot.onTicks · [0, 0]) = some [none, none]) ∧
    (∃ s₁ s₂, Run.Reachable (· = boot) (relOf (exec .rr)) s₁ ∧
      Run.Reachable (· = boot) (relOf (exec .rr)) s₂ ∧ s₁.SameUpToLeftovers s₂ ∧
      (s₁.proc 0).state = .running ∧
      (s₁.child 0).map (·.killed) = some true ∧ (s₂.child 0).map (·.killed) = some false) := by
  constructor
  · refine ⟨after .rr (childRun [.sigalarm 1 2 64]), after .rr (childRun []),
      reachable_after (by decide +kernel), reachable_after (by decide +kernel), ?_⟩
    decide +kernel
  · refine ⟨after .rr [.dispatch 0, .kill 0], after .rr [.dispatch 0],
      reachable_after (by decide +kernel), reachable_after (by decide +kernel), ?_⟩
    decide +kernel

/-- The child of a process whose slot was left with other tickets. -/
theorem slot_reuse_tickets :
    ∃ s₁ s₂ : State, s₁.SameUpToLeftovers s₂ ∧ s₁.proc 1 ≠ s₂.proc 1 ∧ s₁.child 0 = s₂.child 0 := by
  have hrun : ∀ run, (Run.execAllUnder (exec .rr) tidy boot run).isSome = true →
      Run.ReachableUnder (· = boot) (relOf (exec .rr)) (fun s a => tidy s a = true)
        ((Run.execAllUnder (exec .rr) tidy boot run).getD boot) := by
    intro run h
    obtain ⟨t, ht⟩ := Option.isSome_iff_exists.mp h
    rw [ht]
    exact Run.reachableUnder_of_execAllUnder (.start rfl) ht
  have h₁ := hrun (childRun [.settickets 1 9]) (by decide +kernel)
  have h₂ := hrun (childRun []) (by decide +kernel)
  refine ⟨_, _, ?_, ?_, ((slot_reuse .rr).2 _ _ h₁ h₂ ?_ 0 (by decide) ?_).1 (by decide)⟩ <;>
    decide +kernel

end Xv6.Reuse
