import Xv6.Lib.Run
import Xv6.Proc

/-!
Spinlocks, the interrupt flag and context switches: spinlock.c, and `sched`, `scheduler`,
`yield`, `sleep` and `exit` of proc.c.

Each CPU has its interrupt flag and the two fields `noff` and `intena` of `struct cpu`. A
CPU runs its scheduler thread or a process. What a thread still has to do of a call is a
list of instructions (`acquire`, `release`, a change of `p->state`, `sched`), and `Micro`
is where it stands inside one: `push_off` reads the flag, then turns interrupts off and
counts; the lock word is taken; `release` clears the lock word, then `pop_off` counts down.
`sched` keeps `intena` in a local variable across `swtch`.

While the flag is on, an interrupt can come between any two steps. Its handler is another
activation on the same thread (`Frame`), runs with interrupts off, may itself take locks
and `yield`, and ends by going back to what it interrupted with the flag on.

Which calls a thread makes is left open, with what every caller of the kernel keeps to: it
calls `yield` without spinlocks and `sleep(chan, lk)` with `lk` only, `exit` is at its end
with `wait_lock` only (what `reparent` and `wakeup` take before is released), a handler has
released its locks when it ends, and `intr_on` and `intr_off` are called outside of critical
sections.
-/

namespace Xv6.Intr

open Function (update)

/-- Spinlocks: `p->lock` of a process and all others. -/
inductive Lock where
  | proc (p : ℕ)
  | other (n : ℕ)
deriving DecidableEq

/-- `wait_lock`, which `exit` holds when it takes `p->lock`. -/
def waitLock : Lock := .other 0

/-- Kernel threads: one scheduler for each CPU, and the processes. -/
inductive Thread where
  | scheduler (c : ℕ)
  | proc (p : ℕ)
deriving DecidableEq

/-- The lock that a thread hands over when it switches. -/
def Thread.lock : Thread → Option Lock
  | .scheduler _ => none
  | .proc p => some (.proc p)

inductive Instr where
  | acquire (lk : Lock)
  | release (lk : Lock)
  | setState (st : ProcState)
  | sched

/-- Where a thread is inside an instruction. -/
inductive Micro where
  /-- between instructions -/
  | next
  /-- in `acquire`, before `push_off` reads the flag -/
  | reading (lk : Lock)
  /-- the flag was `old`; `intr_off` comes next -/
  | masking (lk : Lock) (old : Bool)
  /-- `push_off` is done; the lock word comes next -/
  | taking (lk : Lock)
  /-- in `release`: the lock word is clear, `pop_off` comes next -/
  | popping
  /-- in `sched`, inside `swtch`, with the saved `intena` -/
  | switched (intena : Bool)
  /-- back from `swtch`; `intena` is to be restored -/
  | restoring (intena : Bool)
deriving DecidableEq

/-- One activation: a thread's own code, or an interrupt handler on top of it. `before` is
what the flag was just before the activation's latest outermost `acquire`; a new process
starts inside a critical section that the scheduler has entered, and has none. -/
structure Frame where
  micro : Micro
  todo : List Instr
  before : Option Bool

/-- The frame with which a process comes back from `swtch`. -/
def Frame.resume (f : Frame) : Frame :=
  { f with
    micro := match f.micro with
      | .switched intena => .restoring intena
      | m => m }

structure ThreadState where
  top : Frame
  below : List Frame
  held : List Lock

/-- How often the thread is inside `push_off`. -/
def ThreadState.depth (ts : ThreadState) : ℕ :=
  match ts.top.micro with
  | .taking _ => ts.held.length + 1
  | .popping => ts.held.length + 1
  | _ => ts.held.length

/-- `intr_get()` and the fields of `struct cpu`. -/
structure Regs where
  intr : Bool
  noff : ℕ
  intena : Bool

structure State where
  regs : ℕ → Regs
  current : ℕ → Thread
  panicked : ℕ → Option String
  /-- `lk->cpu` of a locked lock -/
  owner : Lock → Option ℕ
  pstate : ℕ → ProcState
  thread : Thread → ThreadState

/-! ### Calls -/

inductive Call where
  | acquire (lk : Lock)
  | release (lk : Lock)
  | yield
  | sleep (lk : Lock)
  /-- the end of `exit`, from `acquire(&p->lock)` on -/
  | exit

def Call.code : Thread → Call → Option (List Instr)
  | _, .acquire lk => some [.acquire lk]
  | _, .release lk => some [.release lk]
  | .proc p, .yield =>
    some [.acquire (.proc p), .setState .runnable, .sched, .release (.proc p)]
  | .proc p, .sleep lk =>
    some [.acquire (.proc p), .release lk, .setState .sleeping, .sched, .release (.proc p),
      .acquire lk]
  | .proc p, .exit =>
    some [.acquire (.proc p), .setState .zombie, .release waitLock, .sched]
  | .scheduler _, _ => none

/-- The locks that a thread may hold when it makes a call. -/
def Call.Holding (x : Thread) (held : List Lock) : Call → Prop
  | .acquire _ => True
  | .release _ => True
  | .yield => held = []
  | .sleep lk => held = [lk] ∧ some lk ≠ x.lock
  | .exit => held = [waitLock]

instance (x : Thread) (held : List Lock) : (call : Call) → Decidable (call.Holding x held)
  | .acquire _ => inferInstanceAs (Decidable True)
  | .release _ => inferInstanceAs (Decidable True)
  | .yield => inferInstanceAs (Decidable (held = []))
  | .sleep lk => inferInstanceAs (Decidable (held = [lk] ∧ some lk ≠ x.lock))
  | .exit => inferInstanceAs (Decidable (held = [waitLock]))

/-- What another thread does to a process under its `p->lock`: `allocproc`, `fork`, a
failed `fork`, `wakeup` or `kill`, and `wait`. -/
def mayChange : ProcState → ProcState → Bool
  | .unused, .used => true
  | .used, .runnable => true
  | .used, .unused => true
  | .sleeping, .runnable => true
  | .zombie, .unused => true
  | _, _ => false

/-- The context `allocproc` sets up: the process begins in `forkret`, which releases the
lock that the scheduler has taken. -/
def forkret (p : ℕ) : ThreadState where
  top := { micro := .next, todo := [.release (.proc p)], before := none }
  below := []
  held := [.proc p]

/-! ### Steps -/

namespace State

def setRegs (s : State) (c : ℕ) (r : Regs) : State := { s with regs := update s.regs c r }

def setThread (s : State) (x : Thread) (ts : ThreadState) : State :=
  { s with thread := update s.thread x ts }

def setTop (s : State) (x : Thread) (f : Frame) : State :=
  s.setThread x { s.thread x with top := f }

def panic (s : State) (c : ℕ) (msg : String) : State :=
  { s with panicked := update s.panicked c (some msg) }

/-- The next step of the thread on CPU `c`, whose current activation is `f`. -/
def instr (s : State) (c : ℕ) (f : Frame) : Option State :=
  let x := s.current c
  let r := s.regs c
  match f.todo with
  | [] => none
  | .acquire lk :: rest =>
    some (s.setTop x
      { micro := .reading lk, todo := rest,
        before := if (s.thread x).held = [] then some r.intr else f.before })
  | .release lk :: rest =>
    if s.owner lk = some c then
      some { s.setThread x { s.thread x with
              top := { f with micro := .popping, todo := rest }
              held := (s.thread x).held.erase lk } with
            owner := update s.owner lk none }
    else
      some (s.panic c "release")
  | .setState st :: rest =>
    match x with
    | .scheduler _ => none
    | .proc p =>
      some { s.setTop x { f with todo := rest } with pstate := update s.pstate p st }
  | .sched :: rest =>
    match x with
    | .scheduler _ => none
    | .proc p =>
      if s.owner (.proc p) ≠ some c then some (s.panic c "sched p->lock")
      else if r.noff ≠ 1 then some (s.panic c "sched locks")
      else if s.pstate p = .running then some (s.panic c "sched running")
      else if r.intr then some (s.panic c "sched interruptible")
      else some { s.setTop x { f with micro := .switched r.intena, todo := rest } with
                  current := update s.current c (.scheduler c) }

def micro (s : State) (c : ℕ) : Option State :=
  let x := s.current c
  let ts := s.thread x
  let f := ts.top
  let r := s.regs c
  match f.micro with
  | .next => s.instr c f
  | .reading lk => some (s.setTop x { f with micro := .masking lk r.intr })
  | .masking lk old =>
    some ((s.setTop x { f with micro := .taking lk }).setRegs c
      { intr := false, noff := r.noff + 1, intena := if r.noff = 0 then old else r.intena })
  | .taking lk =>
    match s.owner lk with
    | some c' => if c' = c then some (s.panic c "acquire") else none
    | none =>
      some { s.setThread x { ts with top := { f with micro := .next }, held := lk :: ts.held } with
            owner := update s.owner lk (some c) }
  | .popping =>
    if r.intr then some (s.panic c "pop_off - interruptible")
    else if r.noff < 1 then some (s.panic c "pop_off")
    else
      some ((s.setTop x { f with micro := .next }).setRegs c
        { r with noff := r.noff - 1, intr := if r.noff - 1 = 0 then r.intena else false })
  | .switched _ => none
  | .restoring intena =>
    some ((s.setTop x { f with micro := .next }).setRegs c { r with intena := intena })

/-- The thread on CPU `c` is between two calls. -/
def Idle (s : State) (c : ℕ) : Prop :=
  (s.thread (s.current c)).top.micro = .next ∧ (s.thread (s.current c)).top.todo.isEmpty

instance (s : State) (c : ℕ) : Decidable (s.Idle c) :=
  inferInstanceAs (Decidable (_ ∧ _))

end State

inductive Action where
  /-- the thread on CPU `c` makes a call -/
  | call (c : ℕ) (call : Call)
  /-- the thread on CPU `c` goes on with its call -/
  | step (c : ℕ)
  /-- `intr_on()` or `intr_off()` -/
  | setIntr (c : ℕ) (on : Bool)
  | interrupt (c : ℕ)
  /-- the end of `kerneltrap` -/
  | sret (c : ℕ)
  /-- the scheduler of CPU `c` found `p` RUNNABLE and switches to it -/
  | switch (c p : ℕ)
  /-- a PBS round that ends with no lock held: the process switched to panics in its
  `release` -/
  | badSwitch (c p : ℕ)
  /-- the thread on CPU `c` changes the state of another process -/
  | change (c q : ℕ) (st : ProcState)

open State in
def exec (s : State) : Action → Option State
  | .call c call =>
    let x := s.current c
    let ts := s.thread x
    if s.panicked c = none ∧ s.Idle c ∧ call.Holding x ts.held then
      (call.code x).map fun code => s.setTop x { ts.top with todo := code }
    else none
  | .step c => if s.panicked c = none then s.micro c else none
  | .setIntr c on =>
    if s.panicked c = none ∧ s.Idle c ∧ (s.thread (s.current c)).held = [] then
      some (s.setRegs c { s.regs c with intr := on })
    else none
  | .interrupt c =>
    let x := s.current c
    let ts := s.thread x
    if s.panicked c = none ∧ (s.regs c).intr then
      some ((s.setThread x { ts with
              top := { micro := .next, todo := [], before := none }
              below := ts.top :: ts.below }).setRegs c { s.regs c with intr := false })
    else none
  | .sret c =>
    let x := s.current c
    let ts := s.thread x
    match ts.below with
    | [] => none
    | f :: below =>
      if s.panicked c = none ∧ s.Idle c ∧ ts.held = [] then
        some ((s.setThread x { ts with top := f, below := below }).setRegs c
          { s.regs c with intr := true })
      else none
  | .switch c p =>
    if s.panicked c = none ∧ s.current c = .scheduler c ∧ s.Idle c ∧
        (s.thread (.scheduler c)).below = [] ∧
        (s.thread (.scheduler c)).held = [.proc p] ∧ s.pstate p = .runnable then
      some { s.setTop (.proc p) (s.thread (.proc p)).top.resume with
            pstate := update s.pstate p .running
            current := update s.current c (.proc p) }
    else none
  | .badSwitch c p =>
    if s.panicked c = none ∧ s.current c = .scheduler c ∧ s.Idle c ∧
        (s.thread (.scheduler c)).held = [] then
      some { s.panic c "release" with pstate := update s.pstate p .running }
    else none
  | .change c q st =>
    let x := s.current c
    if s.panicked c = none ∧ s.Idle c ∧ .proc q ∈ (s.thread x).held ∧ x ≠ .proc q ∧
        mayChange (s.pstate q) st then
      let t := { s with pstate := update s.pstate q st }
      if st = .used then some (t.setThread (.proc q) (forkret q)) else some t
    else none

/-- All CPUs are about to enter `scheduler`, and there is no process. -/
structure Init (s : State) : Prop where
  current : ∀ c, s.current c = .scheduler c
  noff : ∀ c, (s.regs c).noff = 0
  owner : ∀ lk, s.owner lk = none
  panicked : ∀ c, s.panicked c = none
  pstate : ∀ p, s.pstate p = .unused
  thread : ∀ c, (s.thread (.scheduler c)).top.micro = .next ∧
    (s.thread (.scheduler c)).top.todo = [] ∧ (s.thread (.scheduler c)).below = [] ∧
    (s.thread (.scheduler c)).held = []

end Xv6.Intr
