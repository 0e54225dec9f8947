import Mathlib.Algebra.Group.Nat.Defs
import Xv6.Param

/-!
The fields of `struct proc` that the schedulers read and write, what the functions of `proc.c`
do to these fields of one process, and the arithmetic of C's `int` where they compute with it.

A process is named by its slot in `proc[NPROC]`. Memory, files and the alarm
fields of `struct proc` play no part in scheduling and are left to the modules
that model them.
-/

namespace Xv6

/-- The scheduler the kernel is built with. -/
inductive Policy where
  | rr
  | fcfs
  | lbs
  | pbs
  | mlfq
deriving DecidableEq

/-- `enum procstate`. -/
inductive ProcState where
  | unused
  | used
  | sleeping
  | runnable
  | running
  | zombie
deriving DecidableEq, Repr

/-- `struct proc`, as far as scheduling is concerned. -/
structure Proc where
  state : ProcState
  chan : ℕ
  killed : Bool
  pid : ℤ
  rtime : ℕ
  ctime : ℕ
  etime : ℕ
  tickCreationTime : ℤ
  tickets : ℤ
  numberTimes : ℤ
  priorityPbs : ℤ
  lastSleepTime : ℤ
  lastRunTime : ℤ
  priority : ℕ
  inQueue : Bool
  currRtime : ℕ
  currWtime : ℕ
deriving DecidableEq, Repr

/-- An entry of the zero-initialised table. -/
def Proc.zero : Proc where
  state := .unused
  chan := 0
  killed := false
  pid := 0
  rtime := 0
  ctime := 0
  etime := 0
  tickCreationTime := 0
  tickets := 0
  numberTimes := 0
  priorityPbs := 0
  lastSleepTime := 0
  lastRunTime := 0
  priority := 0
  inQueue := false
  currRtime := 0
  currWtime := 0

/-! ### `int` arithmetic -/

/-- The value an `int` keeps of `x`: the 32-bit instructions of the target wrap. -/
def int32 (x : ℤ) : ℤ := x.bmod (2 ^ 32)

/-- The target's `divw`: division by zero gives `-1`. -/
def divw (a b : ℤ) : ℤ := if b = 0 then -1 else int32 (a.tdiv b)

/-- `dynamic_priority` of the PBS scheduler. -/
def dynamicPriority (p : Proc) : ℤ :=
  if p.numberTimes = 0 then p.priorityPbs
  else
    let numerator := p.lastSleepTime
    let denominator := int32 (p.lastRunTime + p.lastSleepTime)
    let noiceness := int32 (divw numerator denominator * 10)
    let sum := int32 (int32 (p.priorityPbs + noiceness) - 5)
    let min := if sum ≤ 100 then sum else 100
    if min > 0 then min else 0

/-! ### What the kernel does to a process -/

namespace Proc

/-- The fields `allocproc` sets in the slot it found. -/
@[simp] def allocproc (ticks : ℕ) (pid : ℤ) (r : Proc) : Proc :=
  { r with
    pid := pid
    state := .used
    tickCreationTime := int32 ticks
    tickets := 1
    priorityPbs := 60
    numberTimes := 0
    lastRunTime := 0
    lastSleepTime := 0
    priority := 0
    inQueue := false
    currRtime := 0
    currWtime := 0
    rtime := 0
    ctime := ticks }

@[simp] def freeproc (r : Proc) : Proc :=
  { r with
    pid := 0
    chan := 0
    killed := false
    state := .unused
    etime := 0
    rtime := 0
    ctime := 0 }

/-- What `exit` does to the exiting process, up to its call of `sched`. -/
@[simp] def exit (ticks : ℕ) (r : Proc) : Proc := { r with state := .zombie, etime := ticks }

/-- What `kill` does to the process it found. -/
@[simp] def kill (r : Proc) : Proc :=
  { r with killed := true, state := if r.state = .sleeping then .runnable else r.state }

/-- What `enqueue` does to the process it adds. -/
@[simp] def enqueue (r : Proc) : Proc := { r with currRtime := 0, currWtime := 0, inQueue := true }

/-- The change before the `yield` of a process whose MLFQ slice is used up. Only
`usertrap` clears the counters. -/
@[simp] def demote (user : Bool) (r : Proc) : Proc :=
  let r := { r with priority := if r.priority ≠ 4 then r.priority + 1 else r.priority }
  if user then { r with currRtime := 0, currWtime := 0 } else r

/-- The scheduler switches to the process. -/
@[simp] def dispatch (v : Policy) (r : Proc) : Proc :=
  { r with
    state := .running
    lastRunTime := if v = .pbs then 0 else r.lastRunTime
    lastSleepTime := if v = .pbs then 0 else r.lastSleepTime }

/-- One slot of `update_time` under MLFQ. A process that has waited 30 ticks leaves its queue
and moves up. -/
def ticked (r : Proc) : Proc :=
  match r.state with
  | .running => { r with currRtime := r.currRtime + 1, rtime := (r.rtime + 1) % 2 ^ 32 }
  | .runnable =>
    if 30 ≤ r.currWtime + 1 then
      { r with
        currWtime := if r.inQueue then 0 else r.currWtime + 1
        inQueue := false
        priority := r.priority - 1 }
    else { r with currWtime := r.currWtime + 1 }
  | _ => r

/-- One slot of `update_time`. -/
def updateTime (v : Policy) (r : Proc) : Proc :=
  match v, r.state with
  | .mlfq, _ => r.ticked
  | _, .running =>
    { r with
      currRtime := r.currRtime + 1
      rtime := (r.rtime + 1) % 2 ^ 32
      lastRunTime := if v = .pbs then int32 (r.lastRunTime + 1) else r.lastRunTime }
  | .pbs, .sleeping => { r with lastSleepTime := int32 (r.lastSleepTime + 1) }
  | _, _ => r

theorem ticked_state (r : Proc) : (ticked r).state = r.state := by
  unfold ticked
  split
  · rfl
  · split <;> rfl
  · rfl

theorem ticked_pid (r : Proc) : (ticked r).pid = r.pid := by
  unfold ticked
  split
  · rfl
  · split <;> rfl
  · rfl

theorem ticked_priority_le (r : Proc) : (ticked r).priority ≤ r.priority := by
  unfold ticked
  split
  · exact Nat.le_refl _
  · split
    · exact Nat.sub_le _ _
    · exact Nat.le_refl _
  · exact Nat.le_refl _

theorem updateTime_state (v : Policy) (r : Proc) : (r.updateTime v).state = r.state := by
  unfold updateTime
  split
  · exact ticked_state r
  all_goals rfl

end Proc

end Xv6
