import Xv6.Proc
import Xv6.Sched.Queue

/-!
The MLFQ scheduler of `kernel/proc.c` and `kernel/trap.c`: the queue operations on
processes, one slot of `update_time`, the MLFQ check of the trap handlers, the
scheduler round, and the process table operations that change a state.

A `Table` is the kernel data they share. Every function that holds one `p->lock`
from start to end is a function on tables, so that a caller may run a whole loop
of them at once or let other CPUs act between any two.
-/

namespace Xv6.Sched

open Function (update)

/-- Number of MLFQ levels, the size of `queues` and `priority_levels`. -/
def NQUEUE : ℕ := 5

/-- `priority_levels`: the time slice of a level in ticks. -/
def priorityLevels (k : ℕ) : ℕ := [1, 2, 4, 8, 16].getD k 0

inductive Panic where
  | fullQueue
  | emptyQueue
deriving DecidableEq, Repr

structure Table where
  proc : ℕ → Proc
  queues : ℕ → Queue
  ticks : ℕ
  nextpid : ℤ

namespace Table

/-- The table the kernel starts with, before `userinit`. -/
def zero : Table := ⟨fun _ => .zero, fun _ => .zero, 0, 1⟩

/-- Change the record of one process. -/
def modify (t : Table) (p : ℕ) (f : Proc → Proc) : Table :=
  { t with proc := update t.proc p (f (t.proc p)) }

/-- Change one queue. -/
def setQueue (t : Table) (k : ℕ) (q : Queue) : Table :=
  { t with queues := update t.queues k q }

section Update

variable (t : Table) (p : ℕ) (f : Proc → Proc) (k : ℕ) (q : Queue)

@[simp] theorem modify_proc_self : (t.modify p f).proc p = f (t.proc p) := by simp [modify]

theorem modify_proc : (t.modify p f).proc k = if k = p then f (t.proc p) else t.proc k := by
  simp [modify, Function.update_apply]

theorem modify_modify (g : Proc → Proc) : (t.modify p f).modify p g = t.modify p (g ∘ f) := by
  simp [modify]

@[simp] theorem modify_queues : (t.modify p f).queues = t.queues := rfl

@[simp] theorem setQueue_proc : (t.setQueue k q).proc = t.proc := rfl

@[simp] theorem setQueue_queues : (t.setQueue k q).queues = update t.queues k q := rfl

end Update

/-! ### Queue operations -/

def enqueue (t : Table) (p : ℕ) : Except Panic Table :=
  let idx := (t.proc p).priority
  if (t.queues idx).length = NPROC then .error .fullQueue
  else .ok ((t.setQueue idx ((t.queues idx).push p)).modify p Proc.enqueue)

def dequeue (t : Table) (p : ℕ) : Except Panic Table :=
  let idx := (t.proc p).priority
  if (t.queues idx).length = 0 then .error .emptyQueue
  else .ok ((t.setQueue idx (t.queues idx).pop).modify p fun r => { r with inQueue := false })

theorem dequeue_eq_ok {t t' : Table} {p : ℕ} : t.dequeue p = .ok t' ↔
    (t.queues (t.proc p).priority).length ≠ 0 ∧
      t' = (t.setQueue (t.proc p).priority (t.queues (t.proc p).priority).pop).modify p
        fun r => { r with inQueue := false } := by
  by_cases h : (t.queues (t.proc p).priority).length = 0 <;> simp [dequeue, h, eq_comm]

def delqueue (t : Table) (p : ℕ) : Table :=
  let idx := (t.proc p).priority
  (t.setQueue idx ((t.queues idx).remove (fun r => (t.proc r).pid) (t.proc p).pid)).modify p
    fun r => { r with currWtime := 0 }

/-! ### Clock ticks -/

/-- The counters `update_time` advances for one slot. -/
def countTick (t : Table) (p : ℕ) : Table :=
  match (t.proc p).state with
  | .running => t.modify p fun r =>
    { r with currRtime := r.currRtime + 1, rtime := (r.rtime + 1) % 2 ^ 32 }
  | .runnable => t.modify p fun r => { r with currWtime := r.currWtime + 1 }
  | _ => t

/-- Aging: a process that has waited 30 ticks leaves its queue and moves up. -/
def age (t : Table) (p : ℕ) : Table :=
  if 30 ≤ (t.proc p).currWtime ∧ (t.proc p).state = .runnable then
    let t := if (t.proc p).inQueue then
        (t.delqueue p).modify p fun r => { r with inQueue := false }
      else t
    t.modify p fun r => { r with priority := if r.priority ≠ 0 then r.priority - 1 else r.priority }
  else t

/-- One slot of `update_time`. -/
def updateTimeAt (t : Table) (p : ℕ) : Table := (t.countTick p).age p

/-- `update_time`. -/
def updateTime (t : Table) : Table := (List.range NPROC).foldl updateTimeAt t

/-! ### The trap handlers' MLFQ check -/

/-- The time slice of a running process is used up. -/
def sliceUsed (t : Table) (p : ℕ) : Prop :=
  priorityLevels (t.proc p).priority ≤ (t.proc p).currRtime

instance (t : Table) (p : ℕ) : Decidable (t.sliceUsed p) := by
  unfold sliceUsed; infer_instance

/-- The handler's change before it yields. -/
def demote (t : Table) (user : Bool) (p : ℕ) : Table := t.modify p (Proc.demote user)

/-- Some level below that of `p` has a queued process. -/
def higherQueued (t : Table) (p : ℕ) : Prop :=
  ∃ i < (t.proc p).priority, 0 < (t.queues i).length

instance (t : Table) (p : ℕ) : Decidable (t.higherQueued p) := by
  unfold higherQueued; infer_instance

/-! ### Process states -/

def setState (t : Table) (p : ℕ) (st : ProcState) : Table :=
  t.modify p fun r => { r with state := st }

/-- `sleep`, up to its call of `sched`. -/
def sleep (t : Table) (p chan : ℕ) : Table :=
  t.modify p fun r => { r with chan := chan, state := .sleeping }

/-- `wakeup`'s test of one slot. -/
def wakeupAt (t : Table) (chan p : ℕ) : Table :=
  if (t.proc p).state = .sleeping ∧ (t.proc p).chan = chan then t.setState p .runnable else t

/-- `wakeup`, called while `me` runs. -/
def wakeup (t : Table) (me : Option ℕ) (chan : ℕ) : Table :=
  ((List.range NPROC).filter fun p => some p ≠ me).foldl (wakeupAt · chan) t

def killAt (t : Table) (p : ℕ) : Table := t.modify p Proc.kill

/-- `kill`: the first slot with the given pid. -/
def kill (t : Table) (pid : ℤ) : Table :=
  match (List.range NPROC).find? fun p => (t.proc p).pid = pid with
  | some p => t.killAt p
  | none => t

/-- `allocproc` in the slot it found, with `allocpid`. -/
def allocprocAt (t : Table) (p : ℕ) : Table :=
  { t.modify p (Proc.allocproc t.ticks t.nextpid) with nextpid := int32 (t.nextpid + 1) }

/-- The slot `allocproc` finds. -/
def freeSlot (t : Table) : Option ℕ :=
  (List.range NPROC).find? fun p => (t.proc p).state = .unused

def freeproc (t : Table) (p : ℕ) : Table := t.modify p Proc.freeproc

def exitAt (t : Table) (p : ℕ) : Table := t.modify p (Proc.exit t.ticks)

/-! ### The scheduler round -/

/-- The body of the scheduler's enqueue loop. -/
def enqueueAt (t : Table) (p : ℕ) : Except Panic Table :=
  if (t.proc p).state = .runnable ∧ (t.proc p).inQueue = false then t.enqueue p else .ok t

def enqueueLoop (t : Table) : Except Panic Table := (List.range NPROC).foldlM enqueueAt t

/-- The inner selection loop at level `i`, from iteration `j` on. The process
found is returned with its lock held. A level has no more iterations than
entries, which bounds the recursion. -/
def selectLevel (i : ℕ) : ℕ → ℕ → Table → Except Panic (Table × Option ℕ)
  | 0, _, t => .ok (t, none)
  | fuel + 1, j, t =>
    if (j : ℤ) < (t.queues i).length then
      let p := (t.queues i).head
      match t.dequeue p with
      | .error e => .error e
      | .ok t =>
        if (t.proc p).state = .runnable then .ok (t, some p)
        else selectLevel i fuel (j + 1) t
    else .ok (t, none)

/-- The outer selection loop over the given levels. -/
def selectFrom : List ℕ → Table → Except Panic (Table × Option ℕ)
  | [], t => .ok (t, none)
  | i :: is, t =>
    match selectLevel i (t.queues i).length.toNat 0 t with
    | .error e => .error e
    | .ok (t, some p) => .ok (t, some p)
    | .ok (t, none) => selectFrom is t

/-- One round of the scheduler: fill the queues, select, set the process found
RUNNING. The process returned is the one switched to. -/
def schedule (t : Table) : Except Panic (Table × Option ℕ) :=
  match t.enqueueLoop with
  | .error e => .error e
  | .ok t =>
    match t.selectFrom (List.range NQUEUE) with
    | .error e => .error e
    | .ok (t, none) => .ok (t, none)
    | .ok (t, some p) => .ok (t.setState p .running, some p)

end Table

end Xv6.Sched
