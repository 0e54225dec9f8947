import Mathlib.Algebra.Group.Nat.Defs
import Xv6.Cache.Model
import Xv6.Lib.Prog

/-!
The kernel's use of buffers: `kernel/log.c` and the functions of `kernel/fs.c` that read
and change blocks, as programs over the buffer cache of `Xv6.Cache.Model`.

A program issues one operation at a time (`Op`): a step of the cache, an access to the
data of a buffer it has read, a section of `log.lock`. The operations of the processes
interleave in any order. All blocks are on the root device.
-/

namespace Xv6.Buffers

open Cache (Buf Slot)
open Function (update)

/-- The device of the file system. -/
def ROOTDEV : ℕ := 1

/-! ### Blocks -/

/-- The bytes of a block. -/
abbrev Block := Fin BSIZE → UInt8

namespace Block

def byte (d : Block) (i : ℕ) : UInt8 := if h : i < BSIZE then d ⟨i, h⟩ else 0

/-- `memmove(d + off, bytes, ...)` -/
def splice (d : Block) (off : ℕ) (bytes : List UInt8) : Block := fun i =>
  if off ≤ i.val ∧ i.val < off + bytes.length then bytes.getD (i.val - off) 0 else d i

/-- The number that the `w` bytes from `off` represent. -/
def number (d : Block) (off w : ℕ) : ℕ :=
  (List.range w).foldr (fun i acc => (d.byte (off + i)).toNat + 256 * acc) 0

/-- Store a number in `w` bytes. -/
def setNumber (d : Block) (off w n : ℕ) : Block :=
  d.splice off ((List.range w).map fun i => UInt8.ofNat (n / 256 ^ i))

/-- Entry `i` of an array of `uint`s. -/
def entry (d : Block) (i : ℕ) : ℕ := d.number (4 * i) 4

def setEntry (d : Block) (i n : ℕ) : Block := d.setNumber (4 * i) 4 n

/-- `bp->data[bi/8] & (1 << (bi % 8))` -/
def bit (d : Block) (bi : ℕ) : Bool := (d.byte (bi / 8)).toNat.testBit (bi % 8)

def setBit (d : Block) (bi : ℕ) : Block :=
  d.splice (bi / 8) [d.byte (bi / 8) ||| UInt8.ofNat (2 ^ (bi % 8))]

def clearBit (d : Block) (bi : ℕ) : Block :=
  d.splice (bi / 8) [d.byte (bi / 8) &&& ~~~ UInt8.ofNat (2 ^ (bi % 8))]

def zero : Block := fun _ => 0

end Block

/-- `struct superblock` -/
structure Superblock where
  size : ℕ
  ninodes : ℕ
  nlog : ℕ
  logstart : ℕ
  inodestart : ℕ
  bmapstart : ℕ
deriving Repr

/-! ### Operations -/

inductive Op where
  | bread (n : ℕ)
  /-- The section of `brelse`, after `releasesleep`. -/
  | decref
  | brelse (b : Buf)
  | bwrite (b : Buf)
  | bunpin (b : Buf)
  /-- Read `b->data`. -/
  | data (b : Buf)
  /-- Change `b->data`. -/
  | store (b : Buf) (f : Block → Block)
  /-- `either_copyin` to `b->data + off`: the bytes it has copied when it ends, and whether
  these are all. -/
  | copyin (b : Buf) (off : ℕ) (bytes : List UInt8) (ok : Bool)
  | logWrite (b : Buf)
  | beginOp
  /-- The first section of `end_op`; the answer is `do_commit`. -/
  | endOp
  /-- The second section of `end_op`. -/
  | commitDone
  /-- Read `log.lh`. -/
  | lh
  /-- `log.lh.n = 0` -/
  | clearLh
  | panic (msg : String)
  /-- The bound of a loop is used up. -/
  | outOfFuel

def Resp : Op → Type
  | .bread _ => Buf
  | .data _ => Block
  | .endOp => Bool
  | .lh => List ℕ
  | .panic _ | .outOfFuel => Empty
  | _ => Unit

/-- Kernel code of a process. -/
abbrev Code := Prog Resp

def op (o : Op) : Code (Resp o) := Prog.call o

def bread (n : ℕ) : Code Buf := op (.bread n)
def brelse (b : Buf) : Code Unit := op (.brelse b)
def bwrite (b : Buf) : Code Unit := op (.bwrite b)
def bunpin (b : Buf) : Code Unit := op (.bunpin b)
def data (b : Buf) : Code Block := op (.data b)
def store (b : Buf) (f : Block → Block) : Code Unit := op (.store b f)
def copyin (b : Buf) (off : ℕ) (bytes : List UInt8) (ok : Bool) : Code Unit :=
  op (.copyin b off bytes ok)
def logWrite (b : Buf) : Code Unit := op (.logWrite b)
def lh : Code (List ℕ) := op .lh
def leaveOp : Code Bool := op .endOp
def clearLh : Code Unit := op .clearLh
def commitDone : Code Unit := op .commitDone
def panic {α : Type} (msg : String) : Code α := .op (.panic msg) Empty.elim
def outOfFuel {α : Type} : Code α := .op .outOfFuel Empty.elim

/-! ### `kernel/log.c` -/

section Log

variable (sb : Superblock)

/-- The loop of `write_log`, from `tail` on. -/
def writeLog : ℕ → ℕ → Code Unit
  | 0, _ => outOfFuel
  | fuel + 1, tail => do
      let blocks ← lh
      if h : tail < blocks.length then do
        let toBuf ← bread (sb.logstart + tail + 1)
        let fromBuf ← bread blocks[tail]
        let d ← data fromBuf
        store toBuf fun _ => d
        bwrite toBuf
        brelse fromBuf
        brelse toBuf
        writeLog fuel (tail + 1)
      else pure ()

/-- The loop of `install_trans(0)`, from `tail` on. -/
def installTrans : ℕ → ℕ → Code Unit
  | 0, _ => outOfFuel
  | fuel + 1, tail => do
      let blocks ← lh
      if h : tail < blocks.length then do
        let lbuf ← bread (sb.logstart + tail + 1)
        let dbuf ← bread blocks[tail]
        let d ← data lbuf
        store dbuf fun _ => d
        bwrite dbuf
        bunpin dbuf
        brelse lbuf
        brelse dbuf
        installTrans fuel (tail + 1)
      else pure ()

/-- The header: `n`, then the block numbers. -/
def encodeHead (blocks : List ℕ) (d : Block) : Block :=
  (blocks.zipIdx 1).foldl (fun d x => d.setEntry x.2 x.1) (d.setEntry 0 blocks.length)

def writeHead : Code Unit := do
  let buf ← bread sb.logstart
  let blocks ← lh
  store buf (encodeHead blocks)
  bwrite buf
  brelse buf

def commit : Code Unit := do
  let blocks ← lh
  if 0 < blocks.length then do
    writeLog sb (LOGSIZE + 1) 0
    writeHead sb
    installTrans sb (LOGSIZE + 1) 0
    clearLh
    writeHead sb
  else pure ()

def beginOp : Code Unit := op .beginOp

def endOp : Code Unit := do
  let doCommit ← leaveOp
  if doCommit then do
    commit sb
    commitDone
  else pure ()

end Log

/-! ### User memory -/

/-- Bytes per page. -/
def PGSIZE : ℕ := 4096

/-- What a page table maps: the contents of each user page that `walkaddr` finds. -/
abbrev UserMem := ℕ → Option (ℕ → UInt8)

/-- The loop of `copyin`: the bytes copied before it returns, and whether it returns 0. A
turn copies at least one byte, so a `fuel` of more than `len` is enough. -/
def copyinLoop (mem : UserMem) : ℕ → ℕ → ℕ → List UInt8 × Bool
  | 0, _, len => ([], len = 0)
  | fuel + 1, srcva, len =>
    if len = 0 then ([], true)
    else
      let va0 := srcva / PGSIZE * PGSIZE
      match mem (srcva / PGSIZE) with
      | none => ([], false)
      | some page =>
        let n := min (PGSIZE - (srcva - va0)) len
        let rest := copyinLoop mem fuel (va0 + PGSIZE) (len - n)
        ((List.range n).map (fun i => page (srcva - va0 + i)) ++ rest.1, rest.2)

/-- Where `writei` copies from and `readi` to. -/
inductive Memory where
  | user (mem : UserMem) (va : ℕ)
  | kernel (mem : ℕ → UInt8) (addr : ℕ)

namespace Memory

/-- `either_copyin` of `m` bytes. -/
def eitherCopyin (src : Memory) (m : ℕ) : List UInt8 × Bool :=
  match src with
  | .user mem va => copyinLoop mem (m + 1) va m
  | .kernel mem addr => ((List.range m).map fun i => mem (addr + i), true)

/-- Whether `either_copyout` of `m` bytes succeeds: `copyout` has the loop of `copyin`. -/
def eitherCopyout (dst : Memory) (m : ℕ) : Bool := (dst.eitherCopyin m).2

def advance (m : ℕ) : Memory → Memory
  | .user mem va => .user mem (va + m)
  | .kernel mem addr => .kernel mem (addr + m)

end Memory

/-! ### `kernel/fs.c` -/

/-- `struct inode`, as much as is kept on disk. -/
structure Inode where
  inum : ℕ
  type : ℕ
  major : ℕ
  minor : ℕ
  nlink : ℕ
  size : ℕ
  addrs : ℕ → ℕ

/-- Bytes of a `struct dinode`. -/
def DINODE : ℕ := 64

/-- Inodes per block. -/
def IPB : ℕ := BSIZE / DINODE

/-- Bits per block. -/
def BPB : ℕ := BSIZE * 8

/-- Where `dip` points to in the block. -/
def dip (inum : ℕ) : ℕ := DINODE * (inum % IPB)

/-- `iupdate`: the dinode at `off` becomes the inode. -/
def encodeInode (ip : Inode) (off : ℕ) (d : Block) : Block :=
  let d := d.setNumber off 2 ip.type
  let d := d.setNumber (off + 2) 2 ip.major
  let d := d.setNumber (off + 4) 2 ip.minor
  let d := d.setNumber (off + 6) 2 ip.nlink
  let d := d.setNumber (off + 8) 4 ip.size
  (List.range (NDIRECT + 1)).foldl (fun d i => d.setNumber (off + 12 + 4 * i) 4 (ip.addrs i)) d

/-- `ilock`: the inode becomes the dinode at `off`. -/
def decodeInode (inum off : ℕ) (d : Block) : Inode where
  inum := inum
  type := d.number off 2
  major := d.number (off + 2) 2
  minor := d.number (off + 4) 2
  nlink := d.number (off + 6) 2
  size := d.number (off + 8) 4
  addrs i := d.number (off + 12 + 4 * i) 4

section Fs

variable (sb : Superblock)

def bzero (bno : ℕ) : Code Unit := do
  let bp ← bread bno
  store bp fun _ => Block.zero
  logWrite bp
  brelse bp

/-- The inner loop of `balloc`: the first bit that is 0, in the bitmap block from `b` on. -/
@[irreducible] def freeBit (b : ℕ) (d : Block) : Option ℕ :=
  (List.range BPB).find? fun bi => b + bi < sb.size ∧ d.bit bi = false

/-- The loop of `balloc` over the bitmap blocks; `b` is the first block each stands for. -/
def ballocLoop : List ℕ → Code ℕ
  | [] => pure 0
  | b :: rest => do
      let bp ← bread (b / BPB + sb.bmapstart)
      let d ← data bp
      match freeBit sb b d with
      | some bi => do
          store bp fun d => d.setBit bi
          logWrite bp
          brelse bp
          bzero (b + bi)
          pure (b + bi)
      | none => do
          brelse bp
          ballocLoop rest

def balloc : Code ℕ :=
  ballocLoop sb ((List.range ((sb.size + BPB - 1) / BPB)).map fun i => BPB * i)

def bfree (b : ℕ) : Code Unit := do
  let bp ← bread (b / BPB + sb.bmapstart)
  let d ← data bp
  if d.bit (b % BPB) = false then panic "freeing free block"
  else do
    store bp fun d => d.clearBit (b % BPB)
    logWrite bp
    brelse bp

/-- The loop of `ialloc`; it returns the number of the inode, or 0. -/
def iallocLoop (type : ℕ) : List ℕ → Code ℕ
  | [] => pure 0
  | inum :: rest => do
      let bp ← bread (inum / IPB + sb.inodestart)
      let d ← data bp
      if d.number (dip inum) 2 = 0 then do
        store bp fun d =>
          (d.splice (dip inum) (List.replicate DINODE 0)).setNumber (dip inum) 2 type
        logWrite bp
        brelse bp
        pure inum
      else do
        brelse bp
        iallocLoop type rest

def ialloc (type : ℕ) : Code ℕ := iallocLoop sb type (List.range' 1 (sb.ninodes - 1))

def iupdate (ip : Inode) : Code Unit := do
  let bp ← bread (ip.inum / IPB + sb.inodestart)
  store bp (encodeInode ip (dip ip.inum))
  logWrite bp
  brelse bp

/-- `ilock` of an inode that is not valid yet. -/
def ilock (inum : ℕ) : Code Inode := do
  let bp ← bread (inum / IPB + sb.inodestart)
  let d ← data bp
  brelse bp
  if (decodeInode inum (dip inum) d).type = 0 then panic "ilock: no type"
  else pure (decodeInode inum (dip inum) d)

/-- The address in `ip->addrs[k]`, allocated if it is 0. -/
def addrOf (ip : Inode) (k : ℕ) : Code (Inode × ℕ) :=
  if ip.addrs k = 0 then do
    let addr ← balloc sb
    if addr = 0 then pure (ip, 0) else pure ({ ip with addrs := update ip.addrs k addr }, addr)
  else pure (ip, ip.addrs k)

/-- `bmap` below an indirect block that exists. -/
def bmapEntry (ip : Inode) (block bn : ℕ) : Code (Inode × ℕ) := do
  let bp ← bread block
  let d ← data bp
  if d.entry bn = 0 then do
    let addr ← balloc sb
    if addr = 0 then do
      brelse bp
      pure (ip, 0)
    else do
      store bp fun d => d.setEntry bn addr
      logWrite bp
      brelse bp
      pure (ip, addr)
  else do
    brelse bp
    pure (ip, d.entry bn)

def bmap (ip : Inode) (bn : ℕ) : Code (Inode × ℕ) :=
  if bn < NDIRECT then addrOf sb ip bn
  else if bn - NDIRECT < NINDIRECT then do
    let r ← addrOf sb ip NDIRECT
    if r.2 = 0 then pure r else bmapEntry sb r.1 r.2 (bn - NDIRECT)
  else panic "bmap: out of range"

/-- Free the blocks of a list of addresses that are not 0. -/
def bfreeAll : List ℕ → Code Unit
  | [] => pure ()
  | addr :: rest => do
      if addr = 0 then pure () else bfree sb addr
      bfreeAll rest

/-- The part of `itrunc` for the indirect block. -/
def truncIndirect (ip : Inode) : Code Unit :=
  if ip.addrs NDIRECT = 0 then pure ()
  else do
    let bp ← bread (ip.addrs NDIRECT)
    let d ← data bp
    bfreeAll sb ((List.range NINDIRECT).map d.entry)
    brelse bp
    bfree sb (ip.addrs NDIRECT)

def itrunc (ip : Inode) : Code Unit := do
  bfreeAll sb ((List.range NDIRECT).map ip.addrs)
  truncIndirect sb ip
  iupdate sb { ip with size := 0, addrs := fun i => if i ≤ NDIRECT then 0 else ip.addrs i }

/-- The loop of `readi`. -/
def readLoop (n : ℕ) : ℕ → Inode → Memory → ℕ → ℕ → Code ℤ
  | 0, _, _, _, _ => outOfFuel
  | fuel + 1, ip, dst, tot, off =>
    if tot < n then do
      let r ← bmap sb ip (off / BSIZE)
      if r.2 = 0 then pure tot
      else do
        let bp ← bread r.2
        let m := min (n - tot) (BSIZE - off % BSIZE)
        if dst.eitherCopyout m = false then do
          brelse bp
          pure (-1)
        else do
          brelse bp
          readLoop n fuel r.1 (dst.advance m) (tot + m) (off + m)
    else pure tot

def readi (ip : Inode) (dst : Memory) (off n : ℕ) : Code ℤ :=
  if ip.size < off ∨ (off + n) % 2 ^ 32 < off then pure 0
  else
    let n := if ip.size < off + n then ip.size - off else n
    readLoop sb n (n + 1) ip dst 0 off

/-- The loop of `writei`; it returns the inode, `tot` and `off`. -/
def writeLoop (n : ℕ) : ℕ → Inode → Memory → ℕ → ℕ → Code (Inode × ℕ × ℕ)
  | 0, _, _, _, _ => outOfFuel
  | fuel + 1, ip, src, tot, off =>
    if tot < n then do
      let r ← bmap sb ip (off / BSIZE)
      if r.2 = 0 then pure (r.1, tot, off)
      else do
        let bp ← bread r.2
        let m := min (n - tot) (BSIZE - off % BSIZE)
        let copied := src.eitherCopyin m
        copyin bp (off % BSIZE) copied.1 copied.2
        if copied.2 = false then do
          brelse bp
          pure (r.1, tot, off)
        else do
          logWrite bp
          brelse bp
          writeLoop n fuel r.1 (src.advance m) (tot + m) (off + m)
    else pure (ip, tot, off)

def writei (ip : Inode) (src : Memory) (off n : ℕ) : Code ℤ :=
  if ip.size < off ∨ (off + n) % 2 ^ 32 < off then pure (-1)
  else if MAXFILE * BSIZE < off + n then pure (-1)
  else do
    let r ← writeLoop sb n (n + 1) ip src 0 off
    iupdate sb { r.1 with size := if r.1.size < r.2.2 then r.2.2 else r.1.size }
    pure r.2.1

end Fs

/-! ### Runs -/

/-- What the system calls are made of. An inode that is passed here is one that the caller
has locked, with whatever it holds. -/
inductive Call where
  | beginOp
  | endOp
  | ilock (inum : ℕ)
  | readi (ip : Inode) (dst : Memory) (off n : ℕ)
  | ialloc (type : ℕ)
  | iupdate (ip : Inode)
  | itrunc (ip : Inode)
  | writei (ip : Inode) (src : Memory) (off n : ℕ)

namespace Call

def code (sb : Superblock) : Call → Code Unit
  | .beginOp => Buffers.beginOp
  | .endOp => Buffers.endOp sb
  | .ilock inum => Buffers.ilock sb inum >>= fun _ => pure ()
  | .readi ip dst off n => Buffers.readi sb ip dst off n >>= fun _ => pure ()
  | .ialloc type => Buffers.ialloc sb type >>= fun _ => pure ()
  | .iupdate ip => Buffers.iupdate sb ip
  | .itrunc ip => Buffers.itrunc sb ip
  | .writei ip src off n => Buffers.writei sb ip src off n >>= fun _ => pure ()

/-- Whether the call is made inside a transaction, outside one, or in either place. -/
def allowed (inTx : Bool) : Call → Bool
  | .beginOp => !inTx
  | .endOp | .ialloc _ | .iupdate _ | .itrunc _ | .writei .. => inTx
  | .ilock _ | .readi .. => true

end Call

/-- `struct log` -/
structure Log where
  /-- `lh.block[0 .. lh.n)` -/
  lh : List ℕ
  outstanding : ℤ
  committing : Bool
  /-- The processes between `begin_op` and `end_op`. -/
  inTx : Slot → Bool

namespace Log

/-- The section of `begin_op` that does not sleep. -/
def beginOp (log : Log) (p : Slot) : Log :=
  { log with outstanding := log.outstanding + 1, inTx := update log.inTx p true }

/-- The section of `end_op`, as far as the test of `committing`. -/
def endOp (log : Log) (p : Slot) : Log :=
  { log with outstanding := log.outstanding - 1, inTx := update log.inTx p false }

end Log

structure Sys where
  cache : Cache.State Block
  log : Log
  code : Slot → Code Unit

namespace Sys

def setCode (s : Sys) (p : Slot) (x : Code Unit) : Sys := { s with code := update s.code p x }

/-- A step of the cache, after which process `p` goes on with `x`. -/
def cacheStep (s : Sys) (a : Cache.Action Block) (p : Slot) (x : Code Unit) : Option Sys :=
  (Cache.exec s.cache a).map fun cache => { s with cache := cache }.setCode p x

/-- The section of `log_write`. -/
def logWrite (sb : Superblock) (s : Sys) (p : Slot) (b : Buf) (x : Code Unit) : Option Sys :=
  if LOGSIZE ≤ s.log.lh.length ∨ sb.nlog ≤ s.log.lh.length + 1 then
    some (s.setCode p (panic "too big a transaction"))
  else if s.log.outstanding < 1 then some (s.setCode p (panic "log_write outside of trans"))
  else if s.cache.blockno b ∈ s.log.lh then some (s.setCode p x)
  else { s with log.lh := s.log.lh ++ [s.cache.blockno b] }.cacheStep (.bpin b) p x

/-- The first section of `end_op`. -/
def endOp (s : Sys) (p : Slot) (k : Bool → Code Unit) : Sys :=
  let log := s.log.endOp p
  if log.committing then { s with log := log }.setCode p (panic "log.committing")
  else if log.outstanding = 0 then
    { s with log := { log with committing := true } }.setCode p (k true)
  else { s with log := log }.setCode p (k false)

/-- The next step of process `p`. -/
def step (sb : Superblock) (s : Sys) (p : Slot) : Option Sys :=
  match s.code p with
  | .ret _ => none
  | .op (.bread n) k => match s.cache.pc p with
      | .idle => s.cacheStep (.bread p ROOTDEV n) p (s.code p)
      | .wait .. => s.cacheStep (.acquiresleep p) p (s.code p)
      | .locked b _ _ => s.cacheStep (.fill p) p (k b)
      | .release _ => none
  | .op (.brelse b) k => s.cacheStep (.brelse p b) p (.op .decref k)
  | .op .decref k => s.cacheStep (.decref p) p (k ())
  | .op (.bwrite b) k => s.cacheStep (.bwrite p b) p (k ())
  | .op (.bunpin b) k => s.cacheStep (.bunpin b) p (k ())
  | .op (.data b) k => some (s.setCode p (k (s.cache.data b)))
  | .op (.store b f) k => s.cacheStep (.store p b (f (s.cache.data b))) p (k ())
  | .op (.copyin b off bytes _) k =>
    s.cacheStep (.store p b ((s.cache.data b).splice off bytes)) p (k ())
  | .op (.logWrite b) k => s.logWrite sb p b (k ())
  | .op .beginOp k =>
    if s.log.committing = false ∧
        s.log.lh.length + (s.log.outstanding + 1) * MAXOPBLOCKS ≤ LOGSIZE then
      some ({ s with log := s.log.beginOp p }.setCode p (k ()))
    else none
  | .op .endOp k => some (s.endOp p k)
  | .op .commitDone k => some ({ s with log.committing := false }.setCode p (k ()))
  | .op .lh k => some (s.setCode p (k s.log.lh))
  | .op .clearLh k => some ({ s with log.lh := [] }.setCode p (k ()))
  | .op (.panic _) _ => none
  | .op .outOfFuel _ => none

end Sys

inductive Action where
  | call (p : Slot) (c : Call)
  | step (p : Slot)

/-- The process is in user code, or between two of its calls. -/
def Sys.idle (s : Sys) (p : Slot) : Bool :=
  match s.code p with
  | .ret _ => true
  | .op .. => false

def exec (sb : Superblock) (s : Sys) : Action → Option Sys
  | .call p c => if s.idle p ∧ c.allowed (s.log.inTx p) then some (s.setCode p (c.code sb)) else none
  | .step p => s.step sb p

/-- After the log is recovered: nothing is cached and no call has been made. -/
def Init (s : Sys) : Prop :=
  Cache.Init s.cache ∧ s.log = ⟨[], 0, false, fun _ => false⟩ ∧ ∀ p, s.code p = pure ()

end Xv6.Buffers
