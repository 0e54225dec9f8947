import Mathlib.Data.List.FinRange
import Xv6.Lib.Circular
import Xv6.Param

/-!
The buffer cache of `kernel/bio.c`: the LRU list as its pointers, reference counts, sleep
locks, and any number of processes inside `bread` and `brelse`.

A section of `bcache.lock` is one step, and so are taking and giving up the sleep lock of
a buffer and a transfer from or to the disk, which happens under that lock. `bread` is
therefore three steps (`bget`'s section, `acquiresleep`, the read if the buffer is not
valid) and `brelse` two (`releasesleep` and its section).

Two fields are not in the kernel: `pins` counts the `bpin`s of a buffer without a
`bunpin` yet, and `stored` is the data last stored in it since it was given its block.
-/

namespace Xv6.Cache

open Function (update)

/-- Size of the disk block cache. -/
def NBUF : ℕ := MAXOPBLOCKS * 3

abbrev Buf := Fin NBUF

/-- A process. -/
abbrev Slot := Fin NPROC

/-! ### The list -/

/-- An end of a link: `bcache.head` or a buffer. -/
inductive Node where
  | head
  | buf (b : Buf)
deriving DecidableEq, Repr

/-- The `next` and `prev` fields. -/
structure Links where
  next : Node → Node
  prev : Node → Node

namespace Links

/-- `b->next->prev = b->prev; b->prev->next = b->next;` -/
def unlink (l : Links) (b : Node) : Links :=
  let l := { l with prev := update l.prev (l.next b) (l.prev b) }
  { l with next := update l.next (l.prev b) (l.next b) }

/-- `b->next = head.next; b->prev = &head; head.next->prev = b; head.next = b;` -/
def push (l : Links) (b : Node) : Links :=
  let l := { l with next := update l.next b (l.next .head) }
  let l := { l with prev := update l.prev b .head }
  let l := { l with prev := update l.prev (l.next .head) b }
  { l with next := update l.next .head b }

/-- `binit` -/
def binit : Links :=
  (List.finRange NBUF).foldl (fun l b => l.push (.buf b)) ⟨fun _ => .head, fun _ => .head⟩

end Links

/-! ### Buffers and processes -/

/-- Where a process is in `bread` or `brelse`. -/
inductive Pc where
  | idle
  /-- In `bread(dev, n)`, with a reference to `b`, waiting for its lock. -/
  | wait (b : Buf) (dev n : ℕ)
  /-- In `bread(dev, n)`, with the lock of `b`. -/
  | locked (b : Buf) (dev n : ℕ)
  /-- In `brelse(b)`, after `releasesleep`. -/
  | release (b : Buf)
deriving DecidableEq, Repr

/-- `bcache`, the disk and the processes; `D` is the contents of a block. -/
structure State (D : Type) where
  links : Links
  dev : Buf → ℕ
  blockno : Buf → ℕ
  valid : Buf → Bool
  refcnt : Buf → UInt32
  data : Buf → D
  /-- The process that holds `b->lock`. -/
  owner : Buf → Option Slot
  pc : Slot → Pc
  disk : ℕ → ℕ → D
  pins : Buf → ℕ
  stored : Buf → Option D

namespace State

variable {D : Type}

def setPc (s : State D) (p : Slot) (pc : Pc) : State D := { s with pc := update s.pc p pc }

def setRefcnt (s : State D) (b : Buf) (n : UInt32) : State D :=
  { s with refcnt := update s.refcnt b n }

def setOwner (s : State D) (b : Buf) (o : Option Slot) : State D :=
  { s with owner := update s.owner b o }

/-- The test of the first loop of `bget`. -/
def holdsBlock (s : State D) (dev n : ℕ) : Node → Bool
  | .head => false
  | .buf b => s.dev b = dev ∧ s.blockno b = n

/-- The test of the second loop of `bget`. -/
def unused (s : State D) : Node → Bool
  | .head => false
  | .buf b => s.refcnt b = 0

/-- The nodes that a loop of `bget` may visit. -/
def fuel : ℕ := NBUF + 1

/-- The first loop of `bget`. -/
def lookup (s : State D) (dev n : ℕ) : Option (Option Node) :=
  Circular.walk s.links.next .head (s.holdsBlock dev n) fuel (s.links.next .head)

/-- The second loop of `bget`. -/
def victim (s : State D) : Option (Option Node) :=
  Circular.walk s.links.prev .head s.unused fuel (s.links.prev .head)

/-- Give the buffer to another block. -/
def recycle (s : State D) (b : Buf) (dev n : ℕ) : State D :=
  { s.setRefcnt b 1 with
    dev := update s.dev b dev
    blockno := update s.blockno b n
    valid := update s.valid b false
    stored := update s.stored b none }

/-- The section of `bget`; `none` is `panic("bget: no buffers")`, or a loop that does not
end. -/
def bget (s : State D) (p : Slot) (dev n : ℕ) : Option (State D) :=
  match s.lookup dev n with
  | some (some (.buf b)) =>
    some ((s.setRefcnt b (s.refcnt b + 1)).setPc p (.wait b dev n))
  | some none => match s.victim with
      | some (some (.buf b)) => some ((s.recycle b dev n).setPc p (.wait b dev n))
      | _ => none
  | _ => none

/-- The end of `bread`, under the lock of the buffer. -/
def fill (s : State D) (b : Buf) : State D :=
  if s.valid b then s
  else
    { s with
      data := update s.data b (s.disk (s.dev b) (s.blockno b))
      valid := update s.valid b true }

/-- The process changes `b->data`. -/
def store (s : State D) (b : Buf) (d : D) : State D :=
  { s with data := update s.data b d, stored := update s.stored b (some d) }

/-- `virtio_disk_rw(b, 1)` -/
def bwrite (s : State D) (b : Buf) : State D :=
  { s with disk := update s.disk (s.dev b) (update (s.disk (s.dev b)) (s.blockno b) (s.data b)) }

/-- The section of `brelse`. -/
def decref (s : State D) (b : Buf) : State D :=
  let s := s.setRefcnt b (s.refcnt b - 1)
  if s.refcnt b = 0 then { s with links := (s.links.unlink (.buf b)).push (.buf b) } else s

def bpin (s : State D) (b : Buf) : State D :=
  { s.setRefcnt b (s.refcnt b + 1) with pins := update s.pins b (s.pins b + 1) }

def bunpin (s : State D) (b : Buf) : State D :=
  { s.setRefcnt b (s.refcnt b - 1) with pins := update s.pins b (s.pins b - 1) }

end State

/-! ### Runs -/

inductive Action (D : Type) where
  | bread (p : Slot) (dev n : ℕ)
  | acquiresleep (p : Slot)
  | fill (p : Slot)
  | store (p : Slot) (b : Buf) (d : D)
  | bwrite (p : Slot) (b : Buf)
  | brelse (p : Slot) (b : Buf)
  | decref (p : Slot)
  | bpin (b : Buf)
  | bunpin (b : Buf)

/-- The system's step function; `none` when the action is not enabled. Buffers are used
by those who have read them and released once, and a `bunpin` follows a `bpin`. -/
def exec {D : Type} (s : State D) : Action D → Option (State D)
  | .bread p dev n => if s.pc p = .idle ∧ dev ≠ 0 then s.bget p dev n else none
  | .acquiresleep p => match s.pc p with
      | .wait b dev n =>
        if s.owner b = none then some ((s.setPc p (.locked b dev n)).setOwner b (some p)) else none
      | _ => none
  | .fill p => match s.pc p with
      | .locked b _ _ => some ((s.fill b).setPc p .idle)
      | _ => none
  | .store p b d => if s.pc p = .idle ∧ s.owner b = some p then some (s.store b d) else none
  | .bwrite p b => if s.pc p = .idle ∧ s.owner b = some p then some (s.bwrite b) else none
  | .brelse p b =>
    if s.pc p = .idle ∧ s.owner b = some p then
      some ((s.setPc p (.release b)).setOwner b none)
    else none
  | .decref p => match s.pc p with
      | .release b => some ((s.decref b).setPc p .idle)
      | _ => none
  | .bpin b => some (s.bpin b)
  | .bunpin b => if 0 < s.pins b then some (s.bunpin b) else none

/-- The cache after `binit`: `bcache` is zeroed, the disk holds anything. -/
def Init {D : Type} (s : State D) : Prop :=
  s.links = .binit ∧ (∀ b, s.dev b = 0 ∧ s.blockno b = 0) ∧ (∀ b, s.valid b = false) ∧
    (∀ b, s.refcnt b = 0) ∧ (∀ b, s.owner b = none) ∧ (∀ p, s.pc p = .idle) ∧
    (∀ b, s.pins b = 0) ∧ ∀ b, s.stored b = none

end Xv6.Cache
