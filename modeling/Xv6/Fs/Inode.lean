import Mathlib.Data.Int.Basic
import Xv6.Param

/-!
Inodes, directories and path lookup (`kernel/fs.c`).

The file system is modelled at the level of inodes: a directory's contents are its list
of entries, empty ones included, and the contents of files, which no lookup reads, are
left out. An inode's record stands for both the disk inode and its copy in the inode
table, since every function that changes the copy writes it back before it unlocks;
`valid` says whether the table entry has been read from disk. Calls run one at a time,
so locks are left out, and `ilock` is what remains of it: reading the inode.

Growing a directory can fail for lack of disk blocks. Which attempts fail depends on
the whole disk, so it is an argument of `dirlink`, which matters only where a block is
needed.
-/

namespace Xv6.Fs

open Function (update)

/-! ### State -/

/-- `ip->type`; a type of 0 is a free inode. -/
inductive FileType where
  | free
  | dir
  | file
  | device
deriving DecidableEq, Repr

abbrev Name := List Char

/-- `struct dirent`; an inode number of 0 is an empty entry. -/
structure Dirent where
  inum : ℕ
  name : Name
deriving DecidableEq, Repr

structure Inode where
  type : FileType
  major : ℤ
  minor : ℤ
  nlink : ℤ
  entries : List Dirent
deriving DecidableEq, Repr

theorem Inode.ne_free_of_dir {r : Inode} (h : r.type = .dir) : r.type ≠ .free := by
  rw [h]
  decide

/-- `struct file`; without an inode it is `FD_NONE`. -/
structure File where
  ref : ℕ
  ip : Option ℕ
deriving DecidableEq, Repr

/-- What `struct proc` refers to; a slot without a running process has no `cwd`. -/
structure Process where
  cwd : Option ℕ
  ofile : Fin NOFILE → Option (Fin NFILE)

structure State where
  ninodes : ℕ
  inode : ℕ → Inode
  ref : ℕ → ℕ
  valid : ℕ → Bool
  file : Fin NFILE → File
  proc : Fin NPROC → Process

/-- The calls of `panic` on the modelled paths. -/
inductive Panic where
  /-- `panic("iget: no inodes")` -/
  | iget
  /-- `panic("ilock")` -/
  | ilock
  /-- `panic("ilock: no type")` -/
  | noType
  /-- `panic("dirlookup not DIR")` -/
  | dirlookup
  /-- `panic("unlink: nlink < 1")` -/
  | nlink
  /-- `panic("filedup")` -/
  | filedup
  /-- `panic("fileclose")` -/
  | fileclose
deriving DecidableEq, Repr

abbrev M := StateT State (Except Panic)

/-- Conversion to `short`. -/
def int16 (n : ℤ) : ℤ := n.bmod 65536

/-! ### Inodes -/

def modifyInode (i : ℕ) (f : Inode → Inode) : M Unit :=
  modify fun s => { s with inode := update s.inode i (f (s.inode i)) }

def setRef (i n : ℕ) : M Unit := modify fun s => { s with ref := update s.ref i n }

def setValid (i : ℕ) (b : Bool) : M Unit := modify fun s => { s with valid := update s.valid i b }

/-- Number of inode table entries in use. -/
def State.active (s : State) : ℕ := (List.range s.ninodes).countP fun i => 0 < s.ref i

def iget (i : ℕ) : M Unit := do
  let s ← get
  if 0 < s.ref i then setRef i (s.ref i + 1)
  else if NINODE ≤ s.active then throw .iget
  else do
    setRef i 1
    setValid i false

def idup (i : ℕ) : M Unit := do
  let s ← get
  setRef i (s.ref i + 1)

def ilock (i : ℕ) : M Unit := do
  let s ← get
  if s.ref i < 1 then throw .ilock
  else if s.valid i then pure ()
  else do
    setValid i true
    if (s.inode i).type = .free then throw .noType else pure ()

/-- Discard the contents. -/
def itrunc (i : ℕ) : M Unit := modifyInode i fun r => { r with entries := [] }

/-- Drop a reference, and free the inode if it was the last one and no entry names it. -/
def iput (i : ℕ) : M Unit := do
  let s ← get
  if s.ref i = 1 ∧ s.valid i ∧ (s.inode i).nlink = 0 then do
    itrunc i
    modifyInode i fun r => { r with type := .free }
    setValid i false
    setRef i (s.ref i - 1)
  else setRef i (s.ref i - 1)

/-- The first free inode. -/
def State.freeInode (s : State) : Option ℕ :=
  (List.range s.ninodes).find? fun i => 1 ≤ i ∧ (s.inode i).type = .free

def ialloc (type : FileType) : M (Option ℕ) := do
  let s ← get
  match s.freeInode with
  | none => return none
  | some i => do
      modifyInode i fun _ => ⟨type, 0, 0, 0, []⟩
      iget i
      return some i

/-! ### Directories -/

def namecmp (s t : Name) : Bool := s.take DIRSIZ = t.take DIRSIZ

/-- The scan of `dirlookup` from entry `off` on: the inode number and the position of
the first entry that matches. -/
def findEntry (name : Name) : List Dirent → ℕ → Option (ℕ × ℕ)
  | [], _ => none
  | e :: rest, off =>
    if e.inum ≠ 0 ∧ namecmp name e.name then some (e.inum, off) else findEntry name rest (off + 1)

def dirlookup (dp : ℕ) (name : Name) : M (Option (ℕ × ℕ)) := do
  let s ← get
  if (s.inode dp).type ≠ .dir then throw .dirlookup
  else
    match findEntry name (s.inode dp).entries 0 with
    | none => return none
    | some (i, off) => do
        iget i
        return some (i, off)

/-- `writei` of one entry at position `off`, which is at most the number of entries. -/
def putEntry (entries : List Dirent) (off : ℕ) (e : Dirent) : List Dirent :=
  entries.take off ++ e :: entries.drop (off + 1)

/-- Whether `writei` can write an entry at `off`: it fails beyond the maximum file size,
and where a new block is needed and the disk has no `room` for it. -/
def canPut (entries : List Dirent) (off : ℕ) (room : Bool) : Bool :=
  off < entries.length ∨
    (off + 1) * direntSize ≤ MAXFILE * BSIZE ∧ (off * direntSize % BSIZE ≠ 0 ∨ room)

def dirlink (dp : ℕ) (name : Name) (inum : ℕ) (room : Bool) : M Bool := do
  match ← dirlookup dp name with
  | some (ip, _) => do
      iput ip
      return false
  | none => do
      let s ← get
      let entries := (s.inode dp).entries
      let off := entries.findIdx fun e => e.inum = 0
      if canPut entries off room then do
        -- `de.inum` is a `ushort`.
        modifyInode dp fun r =>
          { r with entries := putEntry r.entries off ⟨inum % 65536, name.take DIRSIZ⟩ }
        return true
      else return false

/-! ### Paths -/

/-- The next path element, cut to `DIRSIZ`, and the rest of the path after it. -/
def skipelem (path : List Char) : Option (Name × List Char) :=
  let path := path.dropWhile (· = '/')
  if path = [] then none
  else some ((path.takeWhile (· ≠ '/')).take DIRSIZ,
    (path.dropWhile (· ≠ '/')).dropWhile (· = '/'))

/-- What `skipelem` yields when called again and again, at most `fuel` times. -/
def elementsFuel : ℕ → List Char → List Name
  | 0, _ => []
  | fuel + 1, path =>
    match skipelem path with
    | none => []
    | some (name, rest) => name :: elementsFuel fuel rest

/-- The elements of a path; every call of `skipelem` consumes a character. -/
def elements (path : List Char) : List Name := elementsFuel path.length path

/-- The loop of `namex` over the remaining elements. -/
def walk (nameiparent : Bool) : ℕ → List Name → M (Option (ℕ × Name))
  | ip, [] =>
    if nameiparent then do
      iput ip
      return none
    else return some (ip, [])
  | ip, name :: rest => do
      ilock ip
      let s ← get
      if (s.inode ip).type ≠ .dir then do
        iput ip
        return none
      else if nameiparent ∧ rest = [] then
        -- Stop one level early.
        return some (ip, name)
      else
        match ← dirlookup ip name with
        | none => do
            iput ip
            return none
        | some (next, _) => do
            iput ip
            walk nameiparent next rest

/-- `namex` of process `p`: absolute paths start at the root, others at `p->cwd`. -/
def namex (p : Fin NPROC) (path : List Char) (nameiparent : Bool) : M (Option (ℕ × Name)) := do
  let s ← get
  if path.head? = some '/' then do
    iget ROOTINO
    walk nameiparent ROOTINO (elements path)
  else
    match (s.proc p).cwd with
    | none => return none
    | some cwd => do
        idup cwd
        walk nameiparent cwd (elements path)

def namei (p : Fin NPROC) (path : List Char) : M (Option ℕ) := do
  let r ← namex p path false
  return r.map Prod.fst

def nameiparent (p : Fin NPROC) (path : List Char) : M (Option (ℕ × Name)) := namex p path true

end Xv6.Fs
