import Xv6.Buffers.Model
import Xv6.Fs.Names

/-!
`mkfs/mkfs.c`, which makes the image of a file system, and how the kernel reads one.

`mkfs` is modelled with the image as a sequence of sectors; where the program gives up, in
an `assert` or with `die`, it fails here. An input file is its path and what the successive
calls of `read` return. The structures of `kernel/fs.h` are kept as bytes, in the order
that `xshort` and `xint` give them.

The second part has the functions of `kernel/fs.c` that look up and read a file, on an
image that does not change meanwhile. Where the kernel would have to allocate a block in
order to go on, or panics, the reader fails. `wp_bmap` compares it with the kernel's program.
-/

namespace Xv6.Mkfs

open Buffers (Block Inode Superblock IPB dip encodeInode decodeInode)
open Fs.Names (Mem cstr strncmp strncpy slash skipelem setName namecmp)
open Function (update update_self)
open Prog (wp wp_bind)

def T_DIR : ℕ := 1

def T_FILE : ℕ := 2

/-! ### Layout -/

def nbitmap : ℕ := FSSIZE / (BSIZE * 8) + 1

def ninodeblocks : ℕ := NINODES / IPB + 1

/-- Number of meta blocks (boot, sb, nlog, inode, bitmap). -/
def nmeta : ℕ := 2 + nlog + ninodeblocks + nbitmap

/-- Number of data blocks. -/
def nblocks : ℕ := FSSIZE - nmeta

def inodestart : ℕ := 2 + nlog

def bmapstart : ℕ := 2 + nlog + ninodeblocks

/-- The sector of the superblock. -/
def superblock : Block :=
  let d := Block.zero
  let d := d.setNumber 0 4 FSMAGIC
  let d := d.setNumber 4 4 FSSIZE
  let d := d.setNumber 8 4 nblocks
  let d := d.setNumber 12 4 NINODES
  let d := d.setNumber 16 4 nlog
  let d := d.setNumber 20 4 logstart
  let d := d.setNumber 24 4 inodestart
  d.setNumber 28 4 bmapstart

/-! ### Making an image -/

structure State where
  img : ℕ → Block
  /-- Length of the image file, in sectors. -/
  nsect : ℕ
  freeinode : ℕ
  freeblock : ℕ

inductive Failure where
  | assertion
  | die
deriving DecidableEq

abbrev M := StateT State (Except Failure)

def assert (c : Prop) [Decidable c] : M Unit := if c then pure () else throw .assertion

def wsect (sec : ℕ) (buf : Block) : M Unit :=
  modify fun s => { s with img := update s.img sec buf, nsect := max s.nsect (sec + 1) }

def rsect (sec : ℕ) : M Block := do
  let s ← get
  if sec < s.nsect then return s.img sec else throw .die

/-- `IBLOCK(inum, sb)` -/
def iblock (inum : ℕ) : ℕ := inum / IPB + inodestart

def winode (inum : ℕ) (ip : Inode) : M Unit := do
  let buf ← rsect (iblock inum)
  wsect (iblock inum) (encodeInode ip (dip inum) buf)

def rinode (inum : ℕ) : M Inode := do
  let buf ← rsect (iblock inum)
  return decodeInode inum (dip inum) buf

/-- `freeblock++` -/
def nextblock : M ℕ := do
  let s ← get
  modify fun s => { s with freeblock := s.freeblock + 1 }
  return s.freeblock

/-- An inode without contents. -/
def newInode (inum type : ℕ) : Inode where
  inum := inum
  type := type
  major := 0
  minor := 0
  nlink := 1
  size := 0
  addrs _ := 0

def ialloc (type : ℕ) : M ℕ := do
  let s ← get
  let inum := s.freeinode
  modify fun s => { s with freeinode := s.freeinode + 1 }
  winode inum (newInode inum type)
  return inum

/-- The loop of `balloc`. -/
def markUsed : ℕ → Block
  | 0 => Block.zero
  | i + 1 => (markUsed i).setBit i

def balloc (used : ℕ) : M Unit := do
  assert (used < BSIZE * 8)
  wsect bmapstart (markUsed used)

/-- The address `din.addrs[k]`, with a new block if there is none. -/
def addrOf (din : Inode) (k : ℕ) : M (Inode × ℕ) :=
  if din.addrs k = 0 then do
    let b ← nextblock
    return ({ din with addrs := update din.addrs k b }, b)
  else return (din, din.addrs k)

/-- The entry `j` of the indirect block `a`, with a new block if there is none. -/
def entryOf (a j : ℕ) : M ℕ := do
  let indirect ← rsect a
  if indirect.entry j = 0 then do
    let b ← nextblock
    wsect a (indirect.setEntry j b)
    return b
  else return indirect.entry j

/-- The sector for the block `fbn` of a file. -/
def sectorOf (din : Inode) (fbn : ℕ) : M (Inode × ℕ) :=
  if fbn < NDIRECT then addrOf din fbn
  else do
    let r ← addrOf din NDIRECT
    let x ← entryOf r.2 (fbn - NDIRECT)
    return (r.1, x)

/-- The loop of `iappend`; it returns the inode and `off`. Each turn writes at least one
byte. -/
def appendLoop : ℕ → Inode → ℕ → List UInt8 → M (Inode × ℕ)
  | 0, din, off, _ => return (din, off)
  | fuel + 1, din, off, p =>
    if 0 < p.length then do
      let fbn := off / BSIZE
      assert (fbn < MAXFILE)
      let r ← sectorOf din fbn
      let n1 := min p.length ((fbn + 1) * BSIZE - off)
      let buf ← rsect r.2
      wsect r.2 (buf.splice (off - fbn * BSIZE) (p.take n1))
      appendLoop fuel r.1 (off + n1) (p.drop n1)
    else return (din, off)

def iappend (inum : ℕ) (p : List UInt8) : M Unit := do
  let din ← rinode inum
  let r ← appendLoop p.length din din.size p
  winode inum { r.1 with size := r.2 }

/-- The bytes of a `struct dirent`. -/
def dirent (inum : ℕ) (name : List UInt8) : List UInt8 :=
  UInt8.ofNat inum :: UInt8.ofNat (inum / 256) :: strncpy (cstr name) DIRSIZ 0

/-- `"user/"` -/
def user : List UInt8 := [0x75, 0x73, 0x65, 0x72, 0x2F]

def underscore : UInt8 := 0x5F

def dot : UInt8 := 0x2E

structure File where
  /-- `argv[i]` -/
  path : List UInt8
  /-- What the calls of `read` return, up to the end of the file. -/
  reads : List (List UInt8)

namespace File

/-- The path without `user/`. -/
def shortname (f : File) : List UInt8 :=
  if strncmp (cstr f.path) (cstr user) 5 0 = 0 then f.path.drop 5 else f.path

/-- The name in the file system. -/
def name (f : File) : List UInt8 :=
  if f.shortname.head? = some underscore then f.shortname.tail else f.shortname

def contents (f : File) : List UInt8 := f.reads.flatten

end File

/-- The loop over the calls of `read`. -/
def appendAll (inum : ℕ) : List (List UInt8) → M Unit
  | [] => pure ()
  | buf :: rest => do
      iappend inum buf
      appendAll inum rest

def addFile (rootino : ℕ) (f : File) : M Unit := do
  assert (slash ∉ f.shortname)
  let inum ← ialloc T_FILE
  iappend rootino (dirent inum f.name)
  appendAll inum f.reads

/-- The loop over the arguments. -/
def addFiles (rootino : ℕ) : List File → M Unit
  | [] => pure ()
  | f :: rest => do
      addFile rootino f
      addFiles rootino rest

/-- The first loop: all sectors are zeroed. -/
def zeroes : ℕ → M Unit
  | 0 => pure ()
  | n + 1 => do
      zeroes n
      wsect n Block.zero

theorem zeroes_zero : zeroes 0 = pure () := rfl

theorem zeroes_succ (n : ℕ) : zeroes (n + 1) = zeroes n >>= fun _ => wsect n Block.zero := rfl

-- So that `zeroes FSSIZE` is not evaluated in proofs.
attribute [irreducible] zeroes

/-- Fix the size of the root directory. -/
def fixRoot (rootino : ℕ) : M Unit := do
  let din ← rinode rootino
  winode rootino { din with size := (din.size / BSIZE + 1) * BSIZE }

def main (files : List File) : M Unit := do
  zeroes FSSIZE
  wsect 1 superblock
  let rootino ← ialloc T_DIR
  assert (rootino = ROOTINO)
  iappend rootino (dirent rootino [dot])
  iappend rootino (dirent rootino [dot, dot])
  addFiles rootino files
  fixRoot rootino
  let s ← get
  balloc s.freeblock

/-- An empty file, and `freeblock` set to the first block after the meta blocks. -/
def start : State where
  img _ := Block.zero
  nsect := 0
  freeinode := 1
  freeblock := nmeta

/-- The image for a list of files. -/
def mkfs (files : List File) : Except Failure (ℕ → Block) :=
  (main files start).map fun r => r.2.img

/-! ### Reading an image -/

inductive Trouble where
  /-- `bmap` finds no block, and would allocate one. -/
  | hole
  /-- `panic("bmap: out of range")` -/
  | range
  /-- `panic("ilock: no type")` -/
  | noType
  /-- `panic("dirlookup not DIR")` -/
  | notDir
  /-- `panic("dirlookup read")` -/
  | dirlookupRead
deriving DecidableEq

section Reader

variable (img : ℕ → Block)

def readsb : Superblock where
  size := (img 1).number 4 4
  ninodes := (img 1).number 12 4
  nlog := (img 1).number 16 4
  logstart := (img 1).number 20 4
  inodestart := (img 1).number 24 4
  bmapstart := (img 1).number 28 4

/-- The inode on disk. -/
def dinode (inum : ℕ) : Inode :=
  decodeInode inum (dip inum) (img (inum / IPB + (readsb img).inodestart))

def ilock (inum : ℕ) : Except Trouble Inode :=
  if (dinode img inum).type = 0 then .error .noType else .ok (dinode img inum)

/-- The bit of block `b` in the free map. -/
def used (b : ℕ) : Bool := (img (b / Buffers.BPB + (readsb img).bmapstart)).bit (b % Buffers.BPB)

/-- An address that is there. -/
def present (addr : ℕ) : Except Trouble ℕ := if addr = 0 then .error .hole else .ok addr

def bmap (ip : Inode) (bn : ℕ) : Except Trouble ℕ :=
  if bn < NDIRECT then present (ip.addrs bn)
  else if bn - NDIRECT < NINDIRECT then do
    let a ← present (ip.addrs NDIRECT)
    present ((img a).entry (bn - NDIRECT))
  else .error .range

/-- The `m` bytes of a block from `off` on. -/
def bytesOf (d : Block) (off m : ℕ) : List UInt8 := (List.range m).map fun k => d.byte (off + k)

/-- The loop of `readi`, with `n` bytes left to read. -/
def readLoop (ip : Inode) : ℕ → ℕ → ℕ → Except Trouble (List UInt8)
  | 0, _, _ => .ok []
  | fuel + 1, n, off =>
    if 0 < n then do
      let addr ← bmap img ip (off / BSIZE)
      let m := min n (BSIZE - off % BSIZE)
      let rest ← readLoop ip fuel (n - m) (off + m)
      .ok (bytesOf (img addr) (off % BSIZE) m ++ rest)
    else .ok []

def readi (ip : Inode) (off n : ℕ) : Except Trouble (List UInt8) :=
  if ip.size < off ∨ (off + n) % 2 ^ 32 < off then .ok []
  else
    let n := if ip.size < off + n then ip.size - off else n
    readLoop img ip n n off

/-- `de.inum` -/
def direntInum (de : List UInt8) : ℕ := (cstr de 0).toNat + 256 * (cstr de 1).toNat

/-- `de.name` -/
def direntName (de : List UInt8) : Mem := fun i => cstr de (2 + i)

/-- The loop of `dirlookup`. -/
def dirlookupLoop (dp : Inode) (name : Mem) : ℕ → ℕ → Except Trouble (Option ℕ)
  | 0, _ => .ok none
  | fuel + 1, off =>
    if off < dp.size then do
      let de ← readi img dp off direntSize
      if de.length ≠ direntSize then .error .dirlookupRead
      else if direntInum de ≠ 0 ∧ namecmp name (direntName de) = 0 then .ok (some (direntInum de))
      else dirlookupLoop dp name fuel (off + direntSize)
    else .ok none

/-- Each turn of the loop passes an entry. -/
def dirlookup (dp : Inode) (name : Mem) : Except Trouble (Option ℕ) :=
  if dp.type ≠ T_DIR then .error .notDir else dirlookupLoop img dp name dp.size 0

/-- The loop of `namex` from inode `ip` on; every element takes a character of the path. -/
def namexLoop : ℕ → ℕ → Mem → List UInt8 → Except Trouble (Option ℕ)
  | 0, ip, _, _ => .ok (some ip)
  | fuel + 1, ip, name, path =>
    match skipelem path with
    | none => .ok (some ip)
    | some (elem, rest) => do
        let dp ← ilock img ip
        if dp.type ≠ T_DIR then .ok none
        else
          match ← dirlookup img dp (setName name elem) with
          | none => .ok none
          | some next => namexLoop fuel next (setName name elem) rest

/-- `namei`, where `name` is what its buffer holds at first. -/
def namei (cwd : ℕ) (name : Mem) (path : List UInt8) : Except Trouble (Option ℕ) :=
  namexLoop img path.length (if path.head? = some slash then ROOTINO else cwd) name path

end Reader

/-! ### The kernel's programs on an image -/

/-- What programs of the kernel find in an image that they only read; the local state is the
block in each buffer. -/
def readRules (img : ℕ → Block) : Prog.Rules Buffers.Resp (Cache.Buf → ℕ) where
  pre
    | .bread n, Q, l => ∀ b, Q b (update l b n)
    | .data b, Q, l => Q (img (l b)) l
    | .brelse _, Q, l => Q () l
    | _, _, _ => False
  mono {o} _ _ _ hQ h := by
    cases o <;> first | exact hQ _ _ h | exact fun b => hQ _ _ (h b) | exact h

theorem present_eq_ok {addr a : ℕ} : present addr = .ok a ↔ addr ≠ 0 ∧ addr = a := by
  unfold present
  split <;> simp [*]

section

variable {img : ℕ → Block} {l : Cache.Buf → ℕ} {n : ℕ} {b : Cache.Buf}

theorem wp_bread {Q : Cache.Buf → (Cache.Buf → ℕ) → Prop} :
    wp (readRules img) (Buffers.bread n) Q l ↔ ∀ b, Q b (update l b n) := Iff.rfl

theorem wp_data {Q : Block → (Cache.Buf → ℕ) → Prop} :
    wp (readRules img) (Buffers.data b) Q l ↔ Q (img (l b)) l := Iff.rfl

/-- **`bmap` on an image** is the kernel's, which finds the address there and writes nothing. -/
theorem wp_bmap {ip : Inode} {bn addr : ℕ} (sb : Superblock) (h : bmap img ip bn = .ok addr) :
    wp (readRules img) (Buffers.bmap sb ip bn) (fun r _ => r = (ip, addr)) l := by
  unfold bmap at h
  unfold Buffers.bmap
  split at h
  · next hd =>
    obtain ⟨hne, rfl⟩ := present_eq_ok.mp h
    rw [if_pos hd, Buffers.addrOf, if_neg hne]
    exact rfl
  · next hd =>
    split at h
    · next hi =>
      cases ha : present (ip.addrs NDIRECT) with
      | error => simp [ha, Bind.bind, Except.bind] at h
      | ok a =>
        simp only [ha, Bind.bind, Except.bind] at h
        obtain ⟨hne, rfl⟩ := present_eq_ok.mp ha
        obtain ⟨hne', rfl⟩ := present_eq_ok.mp h
        rw [if_neg hd, if_pos hi, Buffers.addrOf, if_neg hne, wp_bind]
        change wp _ (if ip.addrs NDIRECT = 0 then _ else _) _ _
        rw [if_neg hne, Buffers.bmapEntry, wp_bind, wp_bread]
        intro b
        rw [wp_bind, wp_data, update_self, if_neg hne']
        exact rfl
    · cases h

end

end Xv6.Mkfs
