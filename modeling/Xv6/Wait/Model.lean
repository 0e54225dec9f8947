import Mathlib.Logic.Function.Basic
import Xv6.Proc

/-!
`fork`, `exit`, `wait`, `waitx` and `kill`, with the locks they use.

`wait_lock` is modelled as a lock that a process holds; what happens under a single
`p->lock` is one step. So the loops of `exit` (`reparent` and the two calls of `wakeup`)
and the scan of `wait` take a step per slot, and the steps of other processes come in
between. `sleep(p, &wait_lock)` and the end of `exit` release `wait_lock` under
`p->lock`, which is one step.

`waitx` differs from `wait` in the times it also reports, which play no part here: a call
carries which of the two it is. The counter `nextid` and the list `reports` are not in the
kernel: they name the processes of a whole run, whose pids are reused once `nextpid`
wraps, and record which were reported to whom.
-/

namespace Xv6.Wait

open Function (update update_self)

/-- A slot of the process table. -/
abbrev Slot := Fin NPROC

/-- The slot of `initproc`: `userinit` makes the first process. -/
def initproc : Slot := ⟨0, Nat.zero_lt_succ _⟩

/-- A sleep channel: the parent's `struct proc` in `wait`, anything else elsewhere. -/
inductive Chan where
  | proc (p : Slot)
  | other (n : ℕ)
deriving DecidableEq, Repr

/-- Where a process is in `fork`, after `allocproc`. -/
inductive Fork where
  /-- About to set the child's parent under `wait_lock`. -/
  | link (q : Slot)
  /-- About to make the child RUNNABLE. -/
  | run (q : Slot)
deriving DecidableEq, Repr

/-- Where a process is in `exit`, after its files are closed. -/
inductive Exit where
  | acquire
  /-- `reparent` is at slot `i`. -/
  | reparent (i : ℕ)
  /-- `wakeup(initproc)` for the child in slot `i` is at slot `j`. -/
  | wakeInit (i j : ℕ)
  /-- `wakeup(p->parent)` is at slot `j`. -/
  | wakeParent (parent : Option Slot) (j : ℕ)
  /-- About to become ZOMBIE. -/
  | zombie (parent : Option Slot)
deriving DecidableEq, Repr

/-- Where a process is in `wait` or `waitx`. -/
inductive WaitAt where
  | acquire
  /-- The scan is at slot `i`. -/
  | scan (i : ℕ) (havekids : Bool)
  /-- In `sleep`. -/
  | asleep
deriving DecidableEq, Repr

/-- What a process is doing. -/
inductive Pc where
  | free
  | fork (stage : Fork)
  | exit (status : ℤ) (stage : Exit)
  | wait (x : Bool) (stage : WaitAt)
  /-- After `exit`. -/
  | dead
deriving DecidableEq, Repr

/-- A successful `wait` (or, with `x`, `waitx`). -/
structure Report where
  parent : Slot
  id : ℕ
  status : ℤ
  x : Bool
deriving DecidableEq, Repr

structure State where
  waitLock : Option Slot
  state : Slot → ProcState
  parent : Slot → Option Slot
  chan : Slot → Option Chan
  killed : Slot → Bool
  pid : Slot → ℤ
  xstate : Slot → ℤ
  pc : Slot → Pc
  nextpid : ℤ
  id : Slot → ℕ
  nextid : ℕ
  reports : List Report

namespace State

def setPc (s : State) (p : Slot) (pc : Pc) : State := { s with pc := update s.pc p pc }

def setState (s : State) (p : Slot) (st : ProcState) : State :=
  { s with state := update s.state p st }

def setParent (s : State) (q : Slot) (r : Option Slot) : State :=
  { s with parent := update s.parent q r }

def setChan (s : State) (p : Slot) (chan : Option Chan) : State :=
  { s with chan := update s.chan p chan }

def acquire (s : State) (p : Slot) : State := { s with waitLock := some p }

def release (s : State) : State := { s with waitLock := none }

/-- `wakeup(chan)`, called by `me`, at slot `q`. -/
def wakeupAt (s : State) (me : Slot) (chan : Option Chan) (q : Slot) : State :=
  if q ≠ me ∧ s.state q = .sleeping ∧ s.chan q = chan then s.setState q .runnable else s

/-- `allocproc` takes the UNUSED slot `q`. -/
def allocproc (s : State) (q : Slot) : State :=
  { s.setState q .used with
    pid := update s.pid q s.nextpid
    nextpid := int32 (s.nextpid + 1)
    pc := update s.pc q .free
    id := update s.id q s.nextid
    nextid := s.nextid + 1 }

def freeproc (s : State) (q : Slot) : State :=
  { ((s.setState q .unused).setParent q none).setChan q none with
    pid := update s.pid q 0
    killed := update s.killed q false
    xstate := update s.xstate q 0 }

/-- The next step of `fork`. -/
def runFork (s : State) (p : Slot) : Fork → Option State
  | .link q =>
    if s.waitLock = none then some ((s.setParent q (some p)).setPc p (.fork (.run q))) else none
  | .run q => some ((s.setState q .runnable).setPc p .free)

/-- The next step of `exit`. -/
def runExit (s : State) (p : Slot) (status : ℤ) : Exit → Option State
  | .acquire =>
    if s.waitLock = none then some ((s.acquire p).setPc p (.exit status (.reparent 0))) else none
  | .reparent i =>
    if h : i < NPROC then
      if s.parent ⟨i, h⟩ = some p then
        some ((s.setParent ⟨i, h⟩ (some initproc)).setPc p (.exit status (.wakeInit i 0)))
      else some (s.setPc p (.exit status (.reparent (i + 1))))
    else some (s.setPc p (.exit status (.wakeParent (s.parent p) 0)))
  | .wakeInit i j =>
    if h : j < NPROC then
      some ((s.wakeupAt p (some (.proc initproc)) ⟨j, h⟩).setPc p
        (.exit status (.wakeInit i (j + 1))))
    else some (s.setPc p (.exit status (.reparent (i + 1))))
  | .wakeParent r j =>
    if h : j < NPROC then
      some ((s.wakeupAt p (r.map .proc) ⟨j, h⟩).setPc p (.exit status (.wakeParent r (j + 1))))
    else some (s.setPc p (.exit status (.zombie r)))
  | .zombie _ =>
    some { (s.setState p .zombie).release.setPc p .dead with xstate := update s.xstate p status }

/-- The next step of `wait` or `waitx`; `copied` says whether `copyout` succeeds. -/
def runWait (s : State) (p : Slot) (x copied : Bool) : WaitAt → Option State
  | .acquire =>
    if s.waitLock = none then some ((s.acquire p).setPc p (.wait x (.scan 0 false))) else none
  | .scan i havekids =>
    if h : i < NPROC then
      let q : Slot := ⟨i, h⟩
      if s.parent q = some p then
        if s.state q = .zombie then
          if copied then
            some { (s.freeproc q).release.setPc p .free with
              reports := s.reports ++ [⟨p, s.id q, s.xstate q, x⟩] }
          else some (s.release.setPc p .free)
        else some (s.setPc p (.wait x (.scan (i + 1) true)))
      else some (s.setPc p (.wait x (.scan (i + 1) havekids)))
    else if havekids = false ∨ s.killed p then some (s.release.setPc p .free)
    else
      some (((s.setState p .sleeping).setChan p (some (.proc p))).release.setPc p (.wait x .asleep))
  | .asleep => some (s.setPc p (.wait x .acquire))

end State

inductive Action where
  /-- `fork` of `p` gets slot `q` from `allocproc`. With `ok = false` an allocation fails
  later, under the same `p->lock`. -/
  | fork (p q : Slot) (ok : Bool)
  | exit (p : Slot) (status : ℤ)
  /-- `wait`, or `waitx` if `x`. -/
  | wait (p : Slot) (x : Bool)
  /-- The next step of the call that `p` is in. -/
  | run (p : Slot) (copied : Bool)
  /-- The scheduler switches to `q`. -/
  | dispatch (q : Slot)
  | yield (p : Slot)
  /-- `sleep` and `wakeup` in other parts of the kernel. -/
  | sleep (p : Slot) (n : ℕ)
  | wakeup (n : ℕ) (q : Slot)
  /-- `kill` finds its pid in slot `q`. -/
  | kill (q : Slot)
deriving DecidableEq, Repr

/-- The system's step function; `none` when the action is not enabled. -/
def exec (s : State) : Action → Option State
  | .fork p q ok =>
    if s.state p = .running ∧ s.pc p = .free ∧ s.state q = .unused then
      some (if ok then (s.allocproc q).setPc p (.fork (.link q))
        else (s.allocproc q).freeproc q)
    else none
  | .exit p status =>
    -- `initproc` does not exit: the kernel panics
    if s.state p = .running ∧ s.pc p = .free ∧ p ≠ initproc then
      some (s.setPc p (.exit status .acquire))
    else none
  | .wait p x =>
    if s.state p = .running ∧ s.pc p = .free then some (s.setPc p (.wait x .acquire)) else none
  | .run p copied =>
    if s.state p = .running then
      match s.pc p with
      | .fork stage => s.runFork p stage
      | .exit status stage => s.runExit p status stage
      | .wait x stage => s.runWait p x copied stage
      | _ => none
    else none
  | .dispatch q =>
    -- the process clears `p->chan` before it releases the `p->lock` that the scheduler took
    if s.state q = .runnable then some ((s.setState q .running).setChan q none) else none
  | .yield p =>
    -- interrupts are off while a lock is held
    if s.state p = .running ∧ s.waitLock ≠ some p then some (s.setState p .runnable) else none
  | .sleep p n =>
    if s.state p = .running ∧ s.pc p = .free then
      some ((s.setState p .sleeping).setChan p (some (.other n)))
    else none
  | .wakeup n q =>
    some (if s.state q = .sleeping ∧ s.chan q = some (.other n) then s.setState q .runnable else s)
  | .kill q =>
    let t := { s with killed := update s.killed q true }
    some (if s.state q = .sleeping then t.setState q .runnable else t)

/-- The table after `userinit`. -/
def boot : State where
  waitLock := none
  state := update (fun _ => .unused) initproc .runnable
  parent _ := none
  chan _ := none
  killed _ := false
  pid := update (fun _ => 0) initproc 1
  xstate _ := 0
  pc _ := .free
  nextpid := 2
  id _ := 0
  nextid := 1
  reports := []

/-! ### The records of the processes -/

/-- Slot `q` has the state, the pid and the kill flag of the record. -/
structure State.Shows (s : State) (q : Slot) (r : Proc) : Prop where
  state : s.state q = r.state
  pid : s.pid q = r.pid
  killed : s.killed q = r.killed

/-- **The steps do to a slot what the functions of `proc.c` do to its record.** -/
theorem State.Shows.step {s t : State} {q : Slot} {r : Proc} (h : s.Shows q r) (ticks : ℕ) :
    (s.allocproc q).Shows q (r.allocproc ticks s.nextpid) ∧ (s.freeproc q).Shows q r.freeproc ∧
    (exec s (.kill q) = some t → t.Shows q r.kill) ∧
    ∀ status par, s.runExit q status (.zombie par) = some t → t.Shows q (r.exit ticks) := by
  refine ⟨⟨?_, ?_, h.killed⟩, ⟨?_, ?_, ?_⟩, fun ht => ?_, fun status par ht => ?_⟩
  iterate 5 exact update_self ..
  · cases ht
    rw [h.state]
    split
    · exact ⟨by simp [State.setState, *], h.pid, update_self ..⟩
    · exact ⟨by simp [*, h.state], h.pid, update_self ..⟩
  · cases ht
    exact ⟨update_self .., h.pid, h.killed⟩

end Xv6.Wait
