import Xv6.Lib.Run
import Xv6.Lib.Counter
import Xv6.Lib.Update

/-!
The pipes of `kernel/pipe.c`, with any number of processes at either end.

A step is one iteration of a loop of `pipewrite` or `piperead`, or one whole
`pipeclose`, made with `pi->lock` held; `kill` needs no `pi->lock` and falls between
any two of them. `sleep(chan, &pi->lock)` gives up the lock and marks the caller
SLEEPING at once, and a woken process is back in `acquire(&pi->lock)`.

* `copyin` and `copyout` move one byte of the user page at `addr + i`. Which byte is
  there, and whether the page is mapped, is up to the step (`Action.run`).
* The second `pipeclose` frees the pipe, and nothing is done with it afterwards.

`accepted` and `reads` are read by no kernel function: the bytes `pipewrite` has stored,
and for each returned `piperead` the bytes it reports, in order.
-/

namespace Xv6.Pipes

open Function (update)

def PIPESIZE : ℕ := 512

/-- `struct pipe` without its lock. -/
structure Pipe where
  data : ℕ → UInt8
  nread : BitVec 32
  nwrite : BitVec 32
  readopen : Bool
  writeopen : Bool

namespace Pipe

/-- The pipe of `pipealloc`; `data` is whatever the page held. -/
def alloc (data : ℕ → UInt8) : Pipe := ⟨data, 0, 0, true, true⟩

def empty (p : Pipe) : Prop := p.nread = p.nwrite

def full (p : Pipe) : Prop := p.nwrite = p.nread + BitVec.ofNat 32 PIPESIZE

instance (p : Pipe) : Decidable p.empty := inferInstanceAs (Decidable (_ = _))

instance (p : Pipe) : Decidable p.full := inferInstanceAs (Decidable (_ = _))

/-- `pi->data[pi->nwrite++ % PIPESIZE] = ch`. -/
def put (p : Pipe) (ch : UInt8) : Pipe :=
  { p with data := update p.data (p.nwrite.toNat % PIPESIZE) ch, nwrite := p.nwrite + 1 }

/-- The byte that `pi->data[pi->nread++ % PIPESIZE]` takes. -/
def front (p : Pipe) : UInt8 := p.data (p.nread.toNat % PIPESIZE)

def drop (p : Pipe) : Pipe := { p with nread := p.nread + 1 }

/-- Both ends are closed, and the page is on the free list. -/
def freed (p : Pipe) : Bool := !p.readopen && !p.writeopen

end Pipe

/-- How far a call is in its waiting loop. -/
inductive Stage where
  /-- In `acquire(&pi->lock)`, at the start or after a wakeup. -/
  | acquiring
  /-- At the head of the loop, with the lock. -/
  | looping
  | sleeping
deriving DecidableEq, Repr

inductive Thread where
  /-- In neither call; the latest one returned `ret`. -/
  | outside (ret : ℤ)
  /-- `pipewrite(pi, addr, n)` has stored `i` bytes. -/
  | write (n : ℤ) (i : ℕ) (stage : Stage)
  /-- `piperead(pi, addr, n)` waits for bytes. -/
  | read (n : ℤ) (stage : Stage)
  /-- The copy loop of `piperead(pi, addr, n)`, with the lock; `i` is the number of bytes in `got`. -/
  | copy (n : ℤ) (got : List UInt8)
deriving DecidableEq, Repr

/-- What processes sleep on: readers on `&pi->nread`, writers on `&pi->nwrite`. -/
inductive Chan where
  | nread
  | nwrite
deriving DecidableEq, Repr

namespace Thread

/-- The channel a sleeping process sleeps on. -/
def sleepsOn : Thread → Option Chan
  | .read _ .sleeping => some .nread
  | .write _ _ .sleeping => some .nwrite
  | _ => none

/-- A sleeping process becomes RUNNABLE and goes on to reacquire the lock. -/
def wake : Thread → Thread
  | .read n .sleeping => .read n .acquiring
  | .write n i .sleeping => .write n i .acquiring
  | th => th

end Thread

structure State where
  pipe : Pipe
  /-- The process that holds `pi->lock`. -/
  lock : Option ℕ
  thread : ℕ → Thread
  killed : ℕ → Bool
  accepted : List UInt8
  reads : List (List UInt8)

namespace State

def setThread (s : State) (t : ℕ) (th : Thread) : State := { s with thread := update s.thread t th }

def wakeup (s : State) (chan : Chan) : State :=
  { s with thread := fun t =>
      if (s.thread t).sleepsOn = some chan then (s.thread t).wake else s.thread t }

/-- Process `t` goes on at `th` and gives up the lock. -/
def release (s : State) (t : ℕ) (th : Thread) : State := { s.setThread t th with lock := none }

/-! ### `pipewrite` and `piperead` -/

/-- The last lines of `pipewrite`. -/
def finishWrite (s : State) (t i : ℕ) : State := (s.wakeup .nread).release t (.outside i)

/-- One iteration of the loop of `pipewrite`; `user` is the byte at `addr + i`, if mapped. -/
def writeLoop (s : State) (t : ℕ) (n : ℤ) (i : ℕ) (user : Option UInt8) : State :=
  if i < n then
    if s.pipe.readopen = false ∨ s.killed t then s.release t (.outside (-1))
    else if s.pipe.full then (s.wakeup .nread).release t (.write n i .sleeping)
    else
      match user with
      | none => s.finishWrite t i
      | some ch =>
        { s.setThread t (.write n (i + 1) .looping) with
          pipe := s.pipe.put ch
          accepted := s.accepted ++ [ch] }
  else s.finishWrite t i

/-- One iteration of the waiting loop of `piperead`. -/
def readLoop (s : State) (t : ℕ) (n : ℤ) : State :=
  if s.pipe.empty ∧ s.pipe.writeopen then
    if s.killed t then s.release t (.outside (-1)) else s.release t (.read n .sleeping)
  else s.setThread t (.copy n [])

/-- The last lines of `piperead`. -/
def finishRead (s : State) (t : ℕ) (got : List UInt8) : State :=
  { (s.wakeup .nwrite).release t (.outside got.length) with reads := s.reads ++ [got] }

/-- One iteration of the copy loop of `piperead`. The byte is taken from the ring before
`copyout` is tried. -/
def copyLoop (s : State) (t : ℕ) (n : ℤ) (got : List UInt8) (mapped : Bool) : State :=
  if got.length < n ∧ ¬ s.pipe.empty then
    let s' := { s with pipe := s.pipe.drop }
    if mapped then s'.setThread t (.copy n (got ++ [s.pipe.front])) else s'.finishRead t got
  else s.finishRead t got

/-- The next step of process `t`; `none` while it sleeps or spins. -/
def run (s : State) (t : ℕ) (user : Option UInt8) : Option State :=
  match s.thread t with
  | .write n i .acquiring =>
    if s.lock = none then some { s.setThread t (.write n i .looping) with lock := some t } else none
  | .read n .acquiring =>
    if s.lock = none then some { s.setThread t (.read n .looping) with lock := some t } else none
  | .write n i .looping => some (s.writeLoop t n i user)
  | .read n .looping => some (s.readLoop t n)
  | .copy n got => some (s.copyLoop t n got user.isSome)
  | _ => none

/-! ### `pipeclose` and `kill` -/

def pipeclose (s : State) (writable : Bool) : State :=
  if writable then { s with pipe := { s.pipe with writeopen := false } }.wakeup .nread
  else { s with pipe := { s.pipe with readopen := false } }.wakeup .nwrite

def kill (s : State) (t : ℕ) : State :=
  { s.setThread t (s.thread t).wake with killed := update s.killed t true }

/-- Process `t` enters a call. -/
def call (s : State) (t : ℕ) (th : Thread) : Option State :=
  match s.thread t with
  | .outside _ => some (s.setThread t th)
  | _ => none

end State

inductive Action where
  | pipewrite (t : ℕ) (n : ℤ)
  | piperead (t : ℕ) (n : ℤ)
  /-- The next step of the call process `t` is in. -/
  | run (t : ℕ) (user : Option UInt8)
  | pipeclose (writable : Bool)
  | kill (t : ℕ)

/-- The system's step function; `none` when the action is not enabled. -/
def exec (s : State) (a : Action) : Option State :=
  if s.pipe.freed then none
  else
    match a with
    | .pipewrite t n => s.call t (.write n 0 .acquiring)
    | .piperead t n => s.call t (.read n .acquiring)
    | .run t user => s.run t user
    | .pipeclose writable => if s.lock = none then some (s.pipeclose writable) else none
    | .kill t => some (s.kill t)

/-- A fresh pipe, and no process in a call. -/
def Init (s : State) : Prop :=
  (∃ data, s.pipe = .alloc data) ∧ s.lock = none ∧ (∀ t, ∃ ret, s.thread t = .outside ret) ∧
    s.accepted = [] ∧ s.reads = []

end Xv6.Pipes
