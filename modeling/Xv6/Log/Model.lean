import Xv6.Param
import Xv6.Lib.Run
import Xv6.Lib.Writes

/-!
The redo log of `kernel/log.c` over the buffer cache of `kernel/bio.c`.

A `Machine` is the disk, the cached buffers and `struct log`. The C functions
are Lean functions on machines; `exec` cuts them at every single-block disk
write, so that operations, evictions and crashes fall between any two writes.

* A cached buffer is the data `bread` returns; a block that is not cached is
  read from disk. `bpin` keeps a buffer from being recycled, and any other
  cached block may be recycled at any moment (`Action.evict`).
* `bread`, the change of `b->data`, `log_write` and `brelse` of one logged write
  are one step: the buffer's sleep-lock is held throughout, and a commit cannot
  start while the calling operation is outstanding.
* A crash keeps the disk and loses everything else; the next boot runs
  `recover_from_log`, again one disk write at a time.

`History` records what a run did and is read by no kernel function: the logged
writes by operation, and the groups whose non-zero header reached the disk.
-/

namespace Xv6.Log

open Function (update)

/-! ### Blocks, buffers and the on-disk header -/

/-- The contents of a block, as its 32-bit words. In the header block word `0`
is `n` and word `i + 1` is `block[i]` of `struct logheader`. -/
abbrev Data := ℕ → ℕ

abbrev Disk := ℕ → Data

/-- `log.start` and `log.size`, read from the superblock by `initlog`. The log
area holds at least its header block. -/
structure Geometry where
  start : ℕ
  size : ℕ
  pos : 0 < size

/-- The geometry `mkfs` writes. -/
def mkfsGeometry : Geometry := ⟨logstart, nlog, by decide⟩

/-- A home block: one outside the log area. File system code logs inode, bitmap
and data blocks only, which the disk layout keeps apart from the log. -/
def Geometry.Home (g : Geometry) (b : ℕ) : Prop := b < g.start ∨ g.start + g.size ≤ b

instance (g : Geometry) (b : ℕ) : Decidable (g.Home b) := by
  unfold Geometry.Home; infer_instance

/-- The block numbers a header block lists: `lh->block[0 .. lh->n - 1]`. -/
def headBlocks (d : Data) : List ℕ := (List.range (d 0)).map fun i => d (i + 1)

/-- `write_head`'s change of the header buffer: `n` and the first `n` entries are
stored, the other words stay. -/
def setHead (d : Data) (lh : List ℕ) : Data := fun w =>
  if w = 0 then lh.length else (lh[w - 1]?).getD (d w)

/-- The reasons for which `log.c` halts the kernel. -/
inductive Panic where
  | tooBigATransaction
  | logWriteOutsideOfTrans
  | logCommitting
deriving DecidableEq, Repr

/-- Where the process that runs `commit` or `recover_from_log` stands; its next
step performs at most one disk write. -/
inductive Phase where
  | running
  | writeLog (tail : ℕ)
  | writeHead
  | install (tail : ℕ)
  | clearHead
  | finish
  | readHead
  | reinstall (tail : ℕ)
  | reclear
  | panicked (reason : Panic)
deriving DecidableEq, Repr

structure Machine where
  disk : Disk
  cache : ℕ → Option Data
  pin : ℕ → ℕ
  lh : List ℕ
  outstanding : ℕ
  committing : Bool
  phase : Phase

namespace Machine

/-- The data of the buffer `bread(dev, b)` returns. -/
def bread (m : Machine) (b : ℕ) : Data := (m.cache b).getD (m.disk b)

/-- `bread` leaves the block cached. -/
def fetch (m : Machine) (b : ℕ) : Machine := { m with cache := update m.cache b (some (m.bread b)) }

/-- Change the data of a buffer. -/
def setData (m : Machine) (b : ℕ) (d : Data) : Machine :=
  { m with cache := update m.cache b (some d) }

def bwrite (m : Machine) (b : ℕ) : Machine := { m with disk := update m.disk b (m.bread b) }

def bpin (m : Machine) (b : ℕ) : Machine := { m with pin := update m.pin b (m.pin b + 1) }

def bunpin (m : Machine) (b : ℕ) : Machine := { m with pin := update m.pin b (m.pin b - 1) }

/-- `bread` both blocks, `memmove` from one to the other and `bwrite` it: the
loop body that `write_log` and `install_trans` share. -/
def copyBlock (m : Machine) (src dst : ℕ) : Machine :=
  let m := (m.fetch src).fetch dst
  (m.setData dst (m.bread src)).bwrite dst

/-! ### `log.c` -/

/-- One iteration of `write_log`: cache block `lh.block[tail]` to its log block. -/
def writeLogAt (g : Geometry) (m : Machine) (tail b : ℕ) : Machine :=
  m.copyBlock b (g.start + tail + 1)

/-- One iteration of `install_trans`: a log block to its home location. -/
def installAt (g : Geometry) (m : Machine) (recovering : Bool) (tail b : ℕ) : Machine :=
  let m := m.copyBlock (g.start + tail + 1) b
  if recovering then m else m.bunpin b

def readHead (g : Geometry) (m : Machine) : Machine :=
  { m.fetch g.start with lh := headBlocks (m.bread g.start) }

def writeHead (g : Geometry) (m : Machine) : Machine :=
  let m := m.fetch g.start
  (m.setData g.start (setHead (m.bread g.start) m.lh)).bwrite g.start

/-- The loop of `install_trans`, from `tail` on. -/
def installFrom (g : Geometry) (recovering : Bool) : ℕ → List ℕ → Machine → Machine
  | _, [], m => m
  | tail, b :: rest, m => installFrom g recovering (tail + 1) rest (m.installAt g recovering tail b)

def installTrans (g : Geometry) (recovering : Bool) (m : Machine) : Machine :=
  installFrom g recovering 0 m.lh m

def recoverFromLog (g : Geometry) (m : Machine) : Machine :=
  let m := (m.readHead g).installTrans g true
  { m with lh := [] }.writeHead g

/-- `begin_op` goes on sleeping unless this holds. -/
def mayBegin (m : Machine) : Bool :=
  !m.committing && decide (m.lh.length + (m.outstanding + 1) * MAXOPBLOCKS ≤ LOGSIZE)

def beginOp (m : Machine) : Machine := { m with outstanding := m.outstanding + 1 }

/-- `log_write(b)`: the size check, the transaction check, then absorption. -/
def logWrite (g : Geometry) (m : Machine) (b : ℕ) : Except Panic Machine :=
  if LOGSIZE ≤ m.lh.length ∨ g.size - 1 ≤ m.lh.length then .error .tooBigATransaction
  else if m.outstanding < 1 then .error .logWriteOutsideOfTrans
  else if b ∈ m.lh then .ok m
  else .ok { m.bpin b with lh := m.lh ++ [b] }

/-- `end_op` up to the call of `commit`. The last operation to end sets
`committing`; `commit` does nothing when no block was logged. -/
def endOp (m : Machine) : Except Panic Machine :=
  let m := { m with outstanding := m.outstanding - 1 }
  if m.committing then .error .logCommitting
  else if m.outstanding = 0 then
    .ok { m with committing := true, phase := if m.lh = [] then .finish else .writeLog 0 }
  else .ok m

/-- The kernel stops at a panic. -/
def halt (m : Machine) (reason : Panic) : Machine := { m with phase := .panicked reason }

/-- The next phase of a loop over `lh` that has finished iteration `tail`. -/
def nextTail (m : Machine) (tail : ℕ) (again : ℕ → Phase) (done : Phase) : Phase :=
  if tail + 1 < m.lh.length then again (tail + 1) else done

/-- The next step of the process that commits or recovers. -/
def advance (g : Geometry) (m : Machine) : Option Machine :=
  match m.phase with
  | .running | .panicked _ => none
  | .writeLog tail => m.lh[tail]?.map fun b =>
    { m.writeLogAt g tail b with phase := m.nextTail tail .writeLog .writeHead }
  | .writeHead => some { m.writeHead g with phase := .install 0 }
  | .install tail => m.lh[tail]?.map fun b =>
    { m.installAt g false tail b with phase := m.nextTail tail .install .clearHead }
  | .clearHead => some { { m with lh := [] }.writeHead g with phase := .finish }
  | .finish => some { m with committing := false, phase := .running }
  | .readHead =>
    let m := m.readHead g
    some { m with phase := if m.lh = [] then .reclear else .reinstall 0 }
  | .reinstall tail => m.lh[tail]?.map fun b =>
    { m.installAt g true tail b with phase := m.nextTail tail .reinstall .reclear }
  | .reclear => some { { m with lh := [] }.writeHead g with phase := .running }

/-- File system calls are served: recovery is over and the kernel has not halted. -/
def up (m : Machine) : Bool :=
  match m.phase with
  | .readHead | .reinstall _ | .reclear | .panicked _ => false
  | _ => true

/-- The machine at power-on: the disk as it is, memory cleared, recovery next. -/
def boot (d : Disk) : Machine :=
  { disk := d, cache := fun _ => none, pin := fun _ => 0, lh := [], outstanding := 0,
    committing := false, phase := .readHead }

end Machine

/-- The disk that `recover_from_log` leaves, run from power-on without a crash. -/
def recovered (g : Geometry) (d : Disk) : Disk := ((Machine.boot d).recoverFromLog g).disk

/-! ### Histories -/

/-- One logged write: the operation that made it, its block and the data. -/
structure Write where
  op : ℕ
  block : ℕ
  data : Data

structure History where
  /-- Operations between their `begin_op` and their `end_op`. -/
  active : List ℕ
  /-- Identifier the next `begin_op` takes. -/
  nextOp : ℕ
  /-- Every completed `log_write`, in order. -/
  issued : List Write
  /-- The completed `log_write`s of the group that is open or being committed. -/
  group : List Write
  /-- The groups whose non-zero header reached the disk, in commit order. -/
  committed : List (List Write)

def History.start : History := ⟨[], 0, [], [], []⟩

namespace History

def begin (h : History) : History := { h with active := h.active ++ [h.nextOp], nextOp := h.nextOp + 1 }

def write (h : History) (w : Write) : History :=
  { h with issued := h.issued ++ [w], group := h.group ++ [w] }

def finish (h : History) (op : ℕ) : History := { h with active := h.active.erase op }

/-- The header is on disk: the open group is now a committed one. -/
def commit (h : History) : History :=
  { h with group := [], committed := h.committed ++ [h.group] }

/-- A crash ends the operations in progress and loses the open group. -/
def crash (h : History) : History := { h with active := [], group := [] }

end History

/-- The home contents after the groups of `gs`, from contents `base`. -/
def replay (base : Disk) (gs : List (List Write)) : Disk :=
  Writes.applyAll base (gs.flatten.map fun w => (w.block, w.data))

/-! ### The system -/

structure State where
  machine : Machine
  hist : History

inductive Action where
  | beginOp
  | write (op b : ℕ) (d : Data)
  | endOp (op : ℕ)
  | advance
  | read (b : ℕ)
  | evict (b : ℕ)
  | crash

/-- One logged write: `bread`, the change of the data, `log_write`, `brelse`. -/
def execWrite (g : Geometry) (s : State) (w : Write) : State :=
  let m := (s.machine.fetch w.block).setData w.block w.data
  match m.logWrite g w.block with
  | .error reason => ⟨m.halt reason, s.hist⟩
  | .ok m => ⟨m, s.hist.write w⟩

def execEnd (s : State) (op : ℕ) : State :=
  match s.machine.endOp with
  | .error reason => ⟨s.machine.halt reason, s.hist⟩
  | .ok m => ⟨m, s.hist.finish op⟩

/-- The system's step function; `none` when the action is not enabled. -/
def exec (g : Geometry) (s : State) : Action → Option State
  | .beginOp =>
    if s.machine.up ∧ s.machine.mayBegin then
      some ⟨s.machine.beginOp, s.hist.begin⟩
    else none
  | .write op b d =>
    if s.machine.up ∧ op ∈ s.hist.active ∧ g.Home b then
      some (execWrite g s ⟨op, b, d⟩)
    else none
  | .endOp op =>
    if s.machine.up ∧ op ∈ s.hist.active then some (execEnd s op) else none
  | .advance => (s.machine.advance g).map fun m =>
    ⟨m, if s.machine.phase = .writeHead then s.hist.commit else s.hist⟩
  | .read b => some { s with machine := s.machine.fetch b }
  | .evict b =>
    if s.machine.pin b = 0 then
      some { s with machine := { s.machine with cache := update s.machine.cache b none } }
    else none
  | .crash => some ⟨.boot s.machine.disk, s.hist.crash⟩

/-- The on-disk header lists home blocks, and no more than the log area holds.
The empty header `mkfs` writes does. -/
def HeadOk (g : Geometry) (d : Disk) : Prop :=
  (headBlocks (d g.start)).length ≤ g.size - 1 ∧ ∀ b ∈ headBlocks (d g.start), g.Home b

/-- Power-on with disk `d`. -/
def Init (d : Disk) (s : State) : Prop := s = ⟨.boot d, .start⟩

/-- The states of the runs that start by booting from `d`. -/
def Reachable (g : Geometry) (d : Disk) : State → Prop :=
  Run.Reachable (Init d) (Run.relOf (exec g))

end Xv6.Log
