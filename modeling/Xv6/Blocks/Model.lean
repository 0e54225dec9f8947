import Mathlib.Algebra.Group.Nat.Defs
import Xv6.Fs.Inode
import Xv6.Lib.Update

/-!
Disk blocks: the bitmap, the block addresses of the inodes, and the operations of
`kernel/fs.c` on them.

The state has the inodes twice, as the kernel has them: on disk (`dinode`) and in the
inode table (`inode`, with `ref` and `valid`). `bmap` changes the copy in the table, and
only `iupdate` writes it back. A block is an array of `uint`, as an indirect block is
read; what a file's blocks hold matters only in that they are not indirect blocks, so a
copy from user or kernel memory may change a block in any way, also when it fails half
way.

The calls of `kernel/sysfile.c` and `kernel/file.c` reach blocks only through the
operations collected in `Op`, each on an inode they hold, and most of them between
`begin_op` and `end_op`; of the log only `outstanding` matters, since `log_write` panics
outside of a transaction. A run of calls, by one process or by many, is therefore a run of
these operations; the limit on the number of entries of the inode table plays no role here.
-/

namespace Xv6.Blocks

open Function (update)
open Fs (FileType)

/-- `struct dinode`, and the copy of it in `struct inode`. -/
structure Dinode where
  type : FileType
  nlink : ℤ
  size : ℕ
  addrs : Fin (NDIRECT + 1) → ℕ

/-- `ip->addrs[k] = b` -/
def Dinode.setAddr (d : Dinode) (k : Fin (NDIRECT + 1)) (b : ℕ) : Dinode :=
  { d with addrs := update d.addrs k b }

@[simp] theorem Dinode.setAddr_self (d : Dinode) (k : Fin (NDIRECT + 1)) (b : ℕ) :
    (d.setAddr k b).addrs k = b := Function.update_self ..

theorem Dinode.setAddr_of_ne (d : Dinode) {k l : Fin (NDIRECT + 1)} (h : l ≠ k) (b : ℕ) :
    (d.setAddr k b).addrs l = d.addrs l := Function.update_of_ne h ..

abbrev Block := Fin NINDIRECT → ℕ

structure State where
  /-- `sb.size` -/
  size : ℕ
  /-- `sb.ninodes` -/
  ninodes : ℕ
  /-- The blocks before the first data block: boot block, superblock, log, inodes and
  bitmap. -/
  nmeta : ℕ
  bitmap : ℕ → Bool
  block : ℕ → Block
  dinode : ℕ → Dinode
  inode : ℕ → Dinode
  ref : ℕ → ℕ
  valid : ℕ → Bool
  /-- `log.outstanding` -/
  outstanding : ℕ

inductive Panic where
  /-- `panic("freeing free block")` -/
  | bfree
  /-- `panic("bmap: out of range")` -/
  | bmap
  /-- `panic("ilock: no type")` -/
  | noType
  /-- `panic("log_write outside of trans")` -/
  | outsideOfTrans
deriving DecidableEq

abbrev M := StateT State (Except Panic)

def modifyInode (i : ℕ) (f : Dinode → Dinode) : M Unit :=
  modify fun s => { s with inode := update s.inode i (f (s.inode i)) }

def modifyBlock (b : ℕ) (f : Block → Block) : M Unit :=
  modify fun s => { s with block := update s.block b (f (s.block b)) }

def logWrite : M Unit := do
  let s ← get
  if s.outstanding < 1 then throw .outsideOfTrans else pure ()

/-! ### Blocks -/

/-- Allocate a zeroed disk block; 0 if the disk is full. The two loops of the source
visit the bits in this order. -/
def balloc : M ℕ := do
  let s ← get
  match (List.range s.size).find? fun b => s.bitmap b = false with
  | none => return 0
  | some b => do
      modify fun s => { s with bitmap := update s.bitmap b true }
      logWrite
      modifyBlock b fun _ _ => 0
      logWrite
      return b

def bfree (b : ℕ) : M Unit := do
  let s ← get
  if s.bitmap b = false then throw .bfree
  else do
    modify fun s => { s with bitmap := update s.bitmap b false }
    logWrite

/-! ### Inode contents -/

/-- Copy a modified in-memory inode to disk. -/
def iupdate (i : ℕ) : M Unit := do
  modify fun s => { s with dinode := update s.dinode i (s.inode i) }
  logWrite

/-- The address `ip->addrs[k]`, with a new block if there is none; 0 if the disk is full. -/
def addrOf (i : ℕ) (k : Fin (NDIRECT + 1)) : M ℕ := do
  let s ← get
  if (s.inode i).addrs k ≠ 0 then return (s.inode i).addrs k
  else do
    let b ← balloc
    if b = 0 then return 0
    else do
      modifyInode i fun d => d.setAddr k b
      return b

/-- `bmap` past the direct blocks. When the disk fills up after the indirect block has
been allocated, the inode keeps the indirect block. -/
def bmapIndirect (i : ℕ) (j : Fin NINDIRECT) : M ℕ := do
  let a ← addrOf i (Fin.last NDIRECT)
  if a = 0 then return 0
  else do
    let s ← get
    if s.block a j ≠ 0 then return s.block a j
    else do
      let b ← balloc
      if b = 0 then return 0
      else do
        modifyBlock a fun w => update w j b
        logWrite
        return b

/-- The disk block address of the block `bn` of an inode, allocating it if there is none;
0 if the disk is full. -/
def bmap (i bn : ℕ) : M ℕ :=
  if h : bn < NDIRECT then addrOf i (Fin.castSucc ⟨bn, h⟩)
  else if h : bn - NDIRECT < NINDIRECT then bmapIndirect i ⟨bn - NDIRECT, h⟩
  else throw .bmap

/-- The loop of `itrunc` over the direct blocks. -/
def truncDirect (i : ℕ) : List (Fin NDIRECT) → M Unit
  | [] => pure ()
  | k :: rest => do
      let s ← get
      if (s.inode i).addrs k.castSucc ≠ 0 then do
        bfree ((s.inode i).addrs k.castSucc)
        modifyInode i fun d => d.setAddr k.castSucc 0
        truncDirect i rest
      else truncDirect i rest

/-- The loop of `itrunc` over the entries of the indirect block `a`. -/
def truncEntries (a : Block) : List (Fin NINDIRECT) → M Unit
  | [] => pure ()
  | j :: rest =>
    if a j ≠ 0 then do
      bfree (a j)
      truncEntries a rest
    else truncEntries a rest

def truncIndirect (i : ℕ) : M Unit := do
  let s ← get
  if (s.inode i).addrs (Fin.last NDIRECT) ≠ 0 then do
    truncEntries (s.block ((s.inode i).addrs (Fin.last NDIRECT))) (List.finRange NINDIRECT)
    bfree ((s.inode i).addrs (Fin.last NDIRECT))
    modifyInode i fun d => d.setAddr (Fin.last NDIRECT) 0
  else pure ()

/-- Truncate an inode (discard contents). -/
def itrunc (i : ℕ) : M Unit := do
  truncDirect i (List.finRange NDIRECT)
  truncIndirect i
  modifyInode i fun d => { d with size := 0 }
  iupdate i

/-- What `either_copyin` does to a block, and whether it succeeds. -/
structure Copyin where
  change : Block → Block
  ok : Bool

/-- The loop of `writei`; it returns `tot` and `off`. The copy that starts at byte `tot`
of the source is `src tot`. -/
def writeLoop (i n : ℕ) (src : ℕ → Copyin) : ℕ → ℕ → ℕ → M (ℕ × ℕ)
  | 0, tot, off => return (tot, off)
  | fuel + 1, tot, off =>
    if tot < n then do
      let addr ← bmap i (off / BSIZE)
      if addr = 0 then return (tot, off)
      else do
        modifyBlock addr (src tot).change
        if (src tot).ok = false then return (tot, off)
        else do
          logWrite
          writeLoop i n src fuel (tot + min (n - tot) (BSIZE - off % BSIZE))
            (off + min (n - tot) (BSIZE - off % BSIZE))
    else return (tot, off)

/-- Each turn of the loop writes at least one byte, so `n` turns are enough. -/
theorem writeLoop_fuel (i n : ℕ) (src : ℕ → Copyin) (k fuel tot off : ℕ) (h : n - tot ≤ fuel) :
    writeLoop i n src (fuel + k) tot off = writeLoop i n src fuel tot off := by
  induction fuel generalizing tot off with
  | zero =>
    cases k with
    | zero => rfl
    | succ k =>
      rw [Nat.zero_add, writeLoop, writeLoop, if_neg (by omega)]
  | succ fuel ih =>
    have hrest : n - (tot + min (n - tot) (BSIZE - off % BSIZE)) ≤ fuel := by
      have : off % BSIZE < BSIZE := Nat.mod_lt _ (by decide)
      omega
    rw [Nat.add_right_comm, writeLoop, writeLoop]
    simp only [ih _ _ hrest]

/-- Write `n` bytes at `off`. -/
def writei (i : ℕ) (src : ℕ → Copyin) (off n : ℕ) : M ℤ := do
  let s ← get
  if (s.inode i).size < off ∨ (off + n) % 2 ^ 32 < off then return -1
  else if MAXFILE * BSIZE < off + n then return -1
  else do
    let r ← writeLoop i n src n 0 off
    modifyInode i fun d => { d with size := if d.size < r.2 then r.2 else d.size }
    iupdate i
    return r.1

/-- The loop of `readi`. The copy that starts at byte `tot` succeeds if `dst tot`. -/
def readLoop (i n : ℕ) (dst : ℕ → Bool) : ℕ → ℕ → ℕ → M ℤ
  | 0, tot, _ => return tot
  | fuel + 1, tot, off =>
    if tot < n then do
      let addr ← bmap i (off / BSIZE)
      if addr = 0 then return tot
      else if dst tot = false then return -1
      else
        readLoop i n dst fuel (tot + min (n - tot) (BSIZE - off % BSIZE))
          (off + min (n - tot) (BSIZE - off % BSIZE))
    else return tot

theorem readLoop_fuel (i n : ℕ) (dst : ℕ → Bool) (k fuel tot off : ℕ) (h : n - tot ≤ fuel) :
    readLoop i n dst (fuel + k) tot off = readLoop i n dst fuel tot off := by
  induction fuel generalizing tot off with
  | zero =>
    cases k with
    | zero => rfl
    | succ k =>
      rw [Nat.zero_add, readLoop, readLoop, if_neg (by omega)]
  | succ fuel ih =>
    have hrest : n - (tot + min (n - tot) (BSIZE - off % BSIZE)) ≤ fuel := by
      have : off % BSIZE < BSIZE := Nat.mod_lt _ (by decide)
      omega
    rw [Nat.add_right_comm, readLoop, readLoop]
    simp only [ih _ _ hrest]

/-- Read `n` bytes at `off`. -/
def readi (i : ℕ) (dst : ℕ → Bool) (off n : ℕ) : M ℤ := do
  let s ← get
  if (s.inode i).size < off ∨ (off + n) % 2 ^ 32 < off then return 0
  else if (s.inode i).size < off + n then
    readLoop i ((s.inode i).size - off) dst ((s.inode i).size - off) 0 off
  else readLoop i n dst n 0 off

/-! ### Inodes -/

/-- A table entry without references is taken over, to be read again. -/
def iget (i : ℕ) : M Unit :=
  modify fun s =>
    { s with
      ref := update s.ref i (s.ref i + 1)
      valid := if s.ref i = 0 then update s.valid i false else s.valid }

/-- Read the inode from disk if necessary. -/
def ilock (i : ℕ) : M Unit := do
  let s ← get
  if s.valid i = false then
    if (s.dinode i).type = .free then throw .noType
    else modify fun s => { s with inode := update s.inode i (s.dinode i), valid := update s.valid i true }
  else pure ()

/-- Allocate an inode; 0 if there is none. -/
def ialloc (type : FileType) : M ℕ := do
  let s ← get
  match (List.range' 1 (s.ninodes - 1)).find? fun i => (s.dinode i).type = .free with
  | none => return 0
  | some i => do
      modify fun s => { s with dinode := update s.dinode i ⟨type, 0, 0, fun _ => 0⟩ }
      logWrite
      iget i
      return i

/-- `ip->nlink = nlink; iupdate(ip);` -/
def setNlink (i : ℕ) (nlink : ℤ) : M Unit := do
  modifyInode i fun d => { d with nlink := nlink }
  iupdate i

/-- The inode has no links and no other references: truncate and free. -/
def freeInode (i : ℕ) : M Unit := do
  let s ← get
  if s.ref i = 1 ∧ s.valid i = true ∧ (s.inode i).nlink = 0 then do
    itrunc i
    modifyInode i fun d => { d with type := .free }
    iupdate i
    modify fun s => { s with valid := update s.valid i false }
  else pure ()

/-- Drop a reference. -/
def iput (i : ℕ) : M Unit := do
  freeInode i
  modify fun s => { s with ref := update s.ref i (s.ref i - 1) }

/-! ### Runs -/

inductive Op where
  | beginOp
  | endOp
  | iget (i : ℕ)
  | ilock (i : ℕ)
  | iput (i : ℕ)
  | ialloc (type : FileType)
  | setNlink (i : ℕ) (nlink : ℤ)
  | readi (i : ℕ) (dst : ℕ → Bool) (off n : ℕ)
  | writei (i : ℕ) (src : ℕ → Copyin) (off n : ℕ)
  | itrunc (i : ℕ)

def exec : Op → M Unit
  | .beginOp => modify fun s => { s with outstanding := s.outstanding + 1 }
  | .endOp => modify fun s => { s with outstanding := s.outstanding - 1 }
  | .iget i => iget i
  | .ilock i => ilock i
  | .iput i => iput i
  | .ialloc type => do let _ ← ialloc type
  | .setNlink i nlink => setNlink i nlink
  | .readi i dst off n => do let _ ← readi i dst off n
  | .writei i src off n => do let _ ← writei i src off n
  | .itrunc i => itrunc i

/-- The inode is in the table and has been read. -/
def State.Locked (s : State) (i : ℕ) : Prop := 0 < s.ref i ∧ s.valid i = true

instance (s : State) (i : ℕ) : Decidable (s.Locked i) := inferInstanceAs (Decidable (_ ∧ _))

/-- Transactions end that have begun. Inodes are locked and put by those who have a reference,
and used by those who have locked them. -/
def Enabled (s : State) : Op → Prop
  | .endOp => 1 ≤ s.outstanding
  | .beginOp | .iget _ => True
  | .ilock i | .iput i => 0 < s.ref i
  | .ialloc type => type ≠ .free
  | .setNlink i _ | .readi i _ _ _ | .writei i _ _ _ | .itrunc i => s.Locked i

instance (s : State) (a : Op) : Decidable (Enabled s a) := by
  cases a <;> unfold Enabled <;> infer_instance

/-- A completed operation. -/
def step (s : State) (a : Op) : Option State :=
  if Enabled s a then
    match exec a s with
    | .ok (_, t) => some t
    | .error _ => none
  else none

/-- An operation panics. -/
def Panics (s : State) (a : Op) (e : Panic) : Prop := Enabled s a ∧ exec a s = .error e

end Xv6.Blocks
