import Xv6.Lib.Counter
import Xv6.Lib.Run
import Xv6.Lib.Update

/-!
The console input of `kernel/console.c`, with any number of readers.

`consoleintr` runs from `acquire(&cons.lock)` to its `release` as one step. A step of
`consoleread` is one iteration of its loop, made with the lock held; `sleep(&cons.r,
&cons.lock)` gives up the lock and marks the caller SLEEPING at once, and a woken reader is
back in `acquire`. `either_copyout` moves one byte; whether the page at `dst` is mapped is up
to the step (`Action.run`).

`history` is read by no kernel function: the characters that came in, and what was taken
out of the buffer for which call, in order.
-/

namespace Xv6.Console

open Function (update)

def INPUT_BUF_SIZE : ℕ := 128

/-- `C(x)`: Control-x. -/
def C (x : Char) : UInt8 := x.toUInt8 - '@'.toUInt8

def newline : UInt8 := '\n'.toUInt8

def delete : UInt8 := '\x7f'.toUInt8

/-- `(c == '\r') ? '\n' : c`. -/
def cook (c : UInt8) : UInt8 := if c = '\r'.toUInt8 then newline else c

/-- `cons` without its lock. -/
structure Cons where
  buf : ℕ → UInt8
  r : BitVec 32
  w : BitVec 32
  e : BitVec 32

namespace Cons

/-- `cons.e - cons.r`. -/
def used (s : Cons) : ℕ := (s.e - s.r).toNat

/-- `cons.buf[cons.e++ % INPUT_BUF_SIZE] = c`. -/
def put (s : Cons) (c : UInt8) : Cons :=
  { s with buf := update s.buf (Ring.cell INPUT_BUF_SIZE s.e) c, e := s.e + 1#32 }

def commit (s : Cons) : Cons := { s with w := s.e }

/-- `cons.e--`. -/
def erase (s : Cons) : Cons := { s with e := s.e - 1#32 }

/-- `cons.buf[(cons.e-1) % INPUT_BUF_SIZE]`. -/
def last (s : Cons) : UInt8 := s.buf (Ring.cell INPUT_BUF_SIZE (s.e - 1#32))

/-- The loop of the kill-line case. -/
def killLoop : ℕ → Cons → Cons
  | 0, s => s
  | fuel + 1, s => if s.e ≠ s.w ∧ s.last ≠ newline then killLoop fuel s.erase else s

/-- Every iteration brings `e` closer to `w`, so there are at most `e - w`. -/
def killLine (s : Cons) : Cons := killLoop (s.e - s.w).toNat s

/-- The character that `cons.buf[cons.r++ % INPUT_BUF_SIZE]` takes. -/
def front (s : Cons) : UInt8 := s.buf (Ring.cell INPUT_BUF_SIZE s.r)

def take (s : Cons) : Cons := { s with r := s.r + 1#32 }

/-- `cons.r--`. -/
def untake (s : Cons) : Cons := { s with r := s.r - 1#32 }

end Cons

/-- How far a call is in its waiting loop. -/
inductive Stage where
  /-- in `acquire(&cons.lock)`, at the start or after a wakeup -/
  | acquiring
  /-- at the head of the loop, with the lock -/
  | looping
  | sleeping
deriving DecidableEq

/-- A call of `consoleread`. -/
inductive Call where
  /-- not made yet -/
  | future
  /-- `n` bytes of `target` are still to come -/
  | reading (target n : ℤ) (stage : Stage)
  | returned (target ret : ℤ)
deriving DecidableEq

def Call.wake : Call → Call
  | .reading target n .sleeping => .reading target n .acquiring
  | call => call

inductive Event where
  /-- `consoleintr(c)` -/
  | input (c : UInt8)
  /-- call `k` gets a byte -/
  | byte (k : ℕ) (c : UInt8)
  /-- call `k` takes a ^D and gets nothing -/
  | eof (k : ℕ)
deriving DecidableEq

structure State where
  cons : Cons
  /-- the call that holds `cons.lock` -/
  lock : Option ℕ
  call : ℕ → Call
  killed : ℕ → Bool
  history : List Event

namespace State

def setCall (s : State) (k : ℕ) (call : Call) : State := { s with call := update s.call k call }

def log (s : State) (event : Event) : State := { s with history := s.history ++ [event] }

/-- `wakeup(&cons.r)`. -/
def wakeup (s : State) : State := { s with call := fun k => (s.call k).wake }

def release (s : State) (k : ℕ) (call : Call) : State := { s.setCall k call with lock := none }

/-- The default case of `consoleintr`. -/
def store (s : State) (c : UInt8) : State :=
  let cons := s.cons.put c
  if c = newline ∨ c = C 'D' ∨ cons.used = INPUT_BUF_SIZE then
    { s with cons := cons.commit }.wakeup
  else { s with cons := cons }

def consoleintr (s : State) (c : UInt8) : State :=
  if c = C 'P' then s
  else if c = C 'U' then { s with cons := s.cons.killLine }
  else if c = C 'H' ∨ c = delete then
    if s.cons.e ≠ s.cons.w then { s with cons := s.cons.erase } else s
  else if c ≠ 0 ∧ s.cons.used < INPUT_BUF_SIZE then
    s.store (cook c)
  else s

/-- One iteration of the loop of `consoleread`, of call `k` with `n` bytes still to come. -/
def readLoop (s : State) (k : ℕ) (target n : ℤ) (mapped : Bool) : State :=
  if 0 < n then
    if s.cons.r = s.cons.w then
      if s.killed k then s.release k (.returned target (-1))
      else s.release k (.reading target n .sleeping)
    else
      let c := s.cons.front
      let s' := { s with cons := s.cons.take }
      if c = C 'D' then
        if n < target then { s' with cons := s'.cons.untake }.release k (.returned target (target - n))
        else (s'.log (.eof k)).release k (.returned target (target - n))
      else if mapped then
        if c = newline then (s'.log (.byte k c)).release k (.returned target (target - (n - 1)))
        else (s'.log (.byte k c)).setCall k (.reading target (n - 1) .looping)
      else s'.release k (.returned target (target - n))
  else s.release k (.returned target (target - n))

/-- The next step of call `k`; `none` while it sleeps or spins. -/
def run (s : State) (k : ℕ) (mapped : Bool) : Option State :=
  match s.call k with
  | .reading target n .acquiring =>
    if s.lock = none then some { s.setCall k (.reading target n .looping) with lock := some k }
    else none
  | .reading target n .looping => some (s.readLoop k target n mapped)
  | _ => none

end State

inductive Action where
  | consoleintr (c : UInt8)
  | consoleread (k : ℕ) (n : ℤ)
  | run (k : ℕ) (mapped : Bool)
  /-- the process that makes call `k` is killed, and woken if it sleeps -/
  | kill (k : ℕ)

/-- The system's step function; `none` when the action is not enabled. -/
def exec (s : State) : Action → Option State
  | .consoleintr c => if s.lock = none then some ((s.consoleintr c).log (.input c)) else none
  | .consoleread k n =>
    if s.call k = .future then some (s.setCall k (.reading n n .acquiring)) else none
  | .run k mapped => s.run k mapped
  | .kill k => some { s.setCall k (s.call k).wake with killed := update s.killed k true }

/-- Nothing has come in yet. The indices are 0 at boot; any other value will do. -/
structure Init (s : State) : Prop where
  w : s.cons.w = s.cons.r
  e : s.cons.e = s.cons.r
  lock : s.lock = none
  call : ∀ k, s.call k = .future
  history : s.history = []

def Action.mapped : Action → Bool
  | .run _ mapped => mapped
  | _ => true

/-- The destinations of the calls are valid. -/
def CopyoutOk (_ : State) (a : Action) : Prop := a.mapped = true

end Xv6.Console
