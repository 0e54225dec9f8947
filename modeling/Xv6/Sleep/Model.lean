import Xv6.Lib.Update
import Xv6.Proc

/-!
`sleep`, `wakeup` and the way the kernel uses them, one acquire, release or assignment at
a time.

Every channel `k` has a lock `lk` and a condition that the lock protects. A CPU that
holds the lock may test the condition and `sleep` if it is false, may change it, and may
call `wakeup`. Having made the condition true it has to call `wakeup` before it gives the
lock up. These sections are entered by processes and by interrupt handlers alike. A
handler runs in the context of whatever its CPU was doing with interrupts on, that is
without a lock.

A lock belongs to a CPU, as `lk->cpu` says. So `p->lock` needs no handing over when
`sched` switches to the scheduler of the same CPU or the scheduler to a process. The
schedulers differ in the `p->lock`s they take before they choose a process: `Mode.sched`
may hold any of them.
-/

namespace Xv6.Sleep

open Function (update)

/-- A slot of the process table. -/
abbrev Slot := Fin NPROC

/-- Where a CPU is inside a section of a lock `lk`. -/
inductive Work where
  /-- Between two calls. `owes` after the condition became true, until `wakeup`. -/
  | free (owes : Bool)
  /-- `wakeup` is about to look at slot `i`. -/
  | scan (i : ℕ)
  /-- `wakeup` has acquired `p->lock`. -/
  | test (p : Slot)
  /-- `wakeup` is about to set `p->state = RUNNABLE`. -/
  | wake (p : Slot)
  /-- `wakeup` is about to release `p->lock`. -/
  | unlock (p : Slot)
  /-- `sleep` of process `p` is about to acquire `p->lock`. -/
  | sleepAcquire (p : Slot)
  /-- `sleep` of process `p` is about to release `lk`. -/
  | sleepRelease (p : Slot)
deriving DecidableEq, Repr

/-- Where a process is outside of the sections. The argument of the last five is what it
goes back to: `some k` if it is about to reacquire the lock of `k` at the end of `sleep`. -/
inductive Pc where
  /-- `sleep` is about to set `p->chan`. -/
  | setChan (k : ℕ)
  /-- `sleep` is about to set `p->state = SLEEPING`. -/
  | setState (k : ℕ)
  /-- `sleep` is about to call `sched`. -/
  | sleepSched (k : ℕ)
  /-- Switched out by the `sched` of `sleep`. -/
  | asleep (k : ℕ)
  /-- `sleep` is about to clear `p->chan`. -/
  | clearChan (k : ℕ)
  /-- `sleep` is about to release `p->lock`. -/
  | sleepDone (k : ℕ)
  /-- No lock held, interrupts on. -/
  | idle (back : Option ℕ)
  /-- `yield` is about to set `p->state = RUNNABLE`. -/
  | yieldState (back : Option ℕ)
  /-- `yield` is about to call `sched`. -/
  | yieldSched (back : Option ℕ)
  /-- Switched out by the `sched` of `yield`, or never run. -/
  | yielded (back : Option ℕ)
  /-- `yield`, or `forkret`, is about to release `p->lock`. -/
  | yieldDone (back : Option ℕ)
deriving DecidableEq, Repr

/-- What a CPU runs. -/
inductive Mode where
  /-- The scheduler, with the `p->lock`s of the slots in `held`. -/
  | sched (held : List Slot)
  /-- The scheduler has set `p->state = RUNNING` and is about to switch. -/
  | enter (p : Slot)
  /-- A process, `c->proc`. -/
  | run (p : Slot)
deriving DecidableEq, Repr

structure State where
  /-- The CPU that holds the lock of a channel. -/
  lk : ℕ → Option ℕ
  cond : ℕ → Bool
  /-- The CPU that holds `p->lock`. -/
  plock : Slot → Option ℕ
  state : Slot → ProcState
  chan : Slot → Option ℕ
  pc : Slot → Pc
  mode : ℕ → Mode
  /-- The section a CPU is in: its channel and where it is. -/
  sect : ℕ → Option (ℕ × Work)

/-- The next step of a CPU. -/
inductive Action where
  /-- A process or an interrupt handler acquires the lock of `k`. -/
  | acquire (k : ℕ)
  /-- `sleep` acquires its lock again. -/
  | reacquire
  /-- Set the condition. -/
  | change (b : Bool)
  /-- Test the condition and call `sleep` if it is false. -/
  | test
  /-- Call `wakeup`. -/
  | wakeup
  | release
  /-- The next statement of `wakeup`, `sleep`, `yield` or the switch to a process. -/
  | next
  | yield
  /-- The scheduler acquires `p->lock`. -/
  | look (p : Slot)
  /-- The scheduler releases `p->lock`. -/
  | drop (p : Slot)
  /-- The scheduler chooses `p`. -/
  | dispatch (p : Slot)
  /-- `kill` of process `p`. -/
  | kill (p : Slot)
deriving DecidableEq, Repr

/-- `myproc()`. -/
def Mode.myproc : Mode → Option Slot
  | .run p => some p
  | _ => none

namespace State

/-- CPU `c` is at `w` in the section of `k`. -/
def goto (s : State) (c k : ℕ) (w : Work) : State :=
  { s with sect := update s.sect c (some (k, w)) }

def setPc (s : State) (p : Slot) (pc : Pc) : State := { s with pc := update s.pc p pc }

def lock (s : State) (p : Slot) (c : ℕ) : State := { s with plock := update s.plock p (some c) }

def unlock (s : State) (p : Slot) : State := { s with plock := update s.plock p none }

def setState (s : State) (p : Slot) (st : ProcState) : State :=
  { s with state := update s.state p st }

/-- Interrupts are on: the CPU holds no lock. -/
def interruptible (s : State) (c : ℕ) : Bool :=
  match s.sect c, s.mode c with
  | none, .sched held => held = []
  | none, .run p => match s.pc p with
      | .idle _ => true
      | _ => false
  | _, _ => false

/-- The next statement of `wakeup`, or of `sleep` before it releases `lk`. -/
def nextWork (s : State) (c k : ℕ) : Work → Option State
  | .free _ => none
  | .scan i =>
    if h : i < NPROC then
      if (s.mode c).myproc = some ⟨i, h⟩ then some (s.goto c k (.scan (i + 1)))
      else if s.plock ⟨i, h⟩ = none then
        some ((s.lock ⟨i, h⟩ c).goto c k (.test ⟨i, h⟩))
      else none
    else some (s.goto c k (.free false))
  | .test p =>
    if s.state p = .sleeping ∧ s.chan p = some k then some (s.goto c k (.wake p))
    else some (s.goto c k (.unlock p))
  | .wake p => some ((s.setState p .runnable).goto c k (.unlock p))
  | .unlock p => some ((s.unlock p).goto c k (.scan (p + 1)))
  | .sleepAcquire p =>
    if s.plock p = none then some ((s.lock p c).goto c k (.sleepRelease p)) else none
  | .sleepRelease p =>
    some { s.setPc p (.setChan k) with
      lk := update s.lk k none
      sect := update s.sect c none }

/-- The next statement of process `p` outside of the sections. -/
def nextPc (s : State) (c : ℕ) (p : Slot) : Pc → Option State
  | .setChan k => some { s.setPc p (.setState k) with chan := update s.chan p (some k) }
  | .setState k => some ((s.setState p .sleeping).setPc p (.sleepSched k))
  | .sleepSched k => some { s.setPc p (.asleep k) with mode := update s.mode c (.sched [p]) }
  | .clearChan k => some { s.setPc p (.sleepDone k) with chan := update s.chan p none }
  | .sleepDone k => some ((s.unlock p).setPc p (.idle (some k)))
  | .yieldState back => some ((s.setState p .runnable).setPc p (.yieldSched back))
  | .yieldSched back => some { s.setPc p (.yielded back) with mode := update s.mode c (.sched [p]) }
  | .yieldDone back => some ((s.unlock p).setPc p (.idle back))
  | .asleep _ | .yielded _ | .idle _ => none

end State

/-- Where a process goes on when the scheduler switches to it. -/
def Pc.resumed : Pc → Pc
  | .asleep k => .clearChan k
  | .yielded back => .yieldDone back
  | pc => pc

/-- The steps of CPU `c`; `none` when it cannot take the step now. -/
def exec (s : State) (c : ℕ) : Action → Option State
  | .acquire k =>
    if s.interruptible c ∧ s.lk k = none then
      some { s.goto c k (.free false) with lk := update s.lk k (some c) }
    else none
  | .reacquire =>
    match s.sect c, s.mode c with
    | none, .run p => match s.pc p with
        | .idle (some k) =>
          if s.lk k = none then
            some { (s.setPc p (.idle none)).goto c k (.free false) with
              lk := update s.lk k (some c) }
          else none
        | _ => none
    | _, _ => none
  | .change b => match s.sect c with
      | some (k, .free _) => some { s.goto c k (.free b) with cond := update s.cond k b }
      | _ => none
  | .test => match s.sect c, s.mode c with
      | some (k, .free false), .run p =>
        if s.pc p = .idle none then
          some (if s.cond k then s else s.goto c k (.sleepAcquire p))
        else none
      | _, _ => none
  | .wakeup => match s.sect c with
      | some (k, .free _) => some (s.goto c k (.scan 0))
      | _ => none
  | .release => match s.sect c with
      | some (k, .free false) =>
        some { s with lk := update s.lk k none, sect := update s.sect c none }
      | _ => none
  | .next => match s.sect c, s.mode c with
      | some (k, w), _ => s.nextWork c k w
      | none, .run p => s.nextPc c p (s.pc p)
      | none, .enter p =>
        some { s.setPc p (s.pc p).resumed with mode := update s.mode c (.run p) }
      | none, .sched _ => none
  | .yield => match s.sect c, s.mode c with
      | none, .run p => match s.pc p with
          | .idle back =>
            if s.plock p = none then some ((s.lock p c).setPc p (.yieldState back)) else none
          | _ => none
      | _, _ => none
  | .look p => match s.sect c, s.mode c with
      | none, .sched held =>
        if s.plock p = none then
          some { s.lock p c with mode := update s.mode c (.sched (p :: held)) }
        else none
      | _, _ => none
  | .drop p => match s.sect c, s.mode c with
      | none, .sched held =>
        if p ∈ held then
          some { s.unlock p with mode := update s.mode c (.sched (held.filter (· ≠ p))) }
        else none
      | _, _ => none
  | .dispatch p => match s.sect c, s.mode c with
      | none, .sched held =>
        if held = [p] ∧ s.state p = .runnable then
          some { s.setState p .running with mode := update s.mode c (.enter p) }
        else none
      | _, _ => none
  | .kill p =>
    if s.interruptible c ∧ s.plock p = none then
      some (if s.state p = .sleeping then s.setState p .runnable else s)
    else none

/-- No process has run yet: the live ones are RUNNABLE, and all CPUs are in the scheduler. -/
def Init (s : State) : Prop :=
  (∀ k, s.lk k = none) ∧ (∀ p, s.plock p = none) ∧ (∀ p, s.state p = .unused ∨ s.state p = .runnable) ∧
    (∀ p, s.pc p = .yielded none) ∧ (∀ c, s.mode c = .sched []) ∧ ∀ c, s.sect c = none

end Xv6.Sleep
