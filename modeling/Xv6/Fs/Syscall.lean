import Xv6.Lib.Run
import Xv6.Fs.Inode

/-!
The system calls that change names (`kernel/sysfile.c`), and what `kernel/file.c`,
`fork`, `exit` and `exec` do with inodes.

A call returns whether it succeeded, that is, did not return -1. `read`, `write` and
`fstat` reach an inode through an open file and change no directory, and pipes have no
inode; they are left out. There is one device, so the comparison of devices in
`sys_link` is left out as well.
-/

namespace Xv6.Fs

open Function (update)

def O_RDONLY : ℕ := 0x000

def O_CREATE : ℕ := 0x200

def O_TRUNC : ℕ := 0x400

/-- Which of the blocks a `create` may need the disk has: for the new directory's first
block, and for the entry in the parent. -/
structure Room where
  first : Bool
  entry : Bool

/-! ### `create` -/

/-- The `fail` path of `create`. -/
def createFail (dp ip : ℕ) : M (Option ℕ) := do
  modifyInode ip fun r => { r with nlink := 0 }
  iput ip
  iput dp
  return none

/-- The entries of a new directory; the block of "." also holds "..". -/
def createDots (dp ip : ℕ) (type : FileType) (room : Room) : M Bool := do
  if type ≠ .dir then return true
  else if ← dirlink ip ['.'] ip room.first then dirlink ip ['.', '.'] dp room.first
  else return false

/-- `create` once `dirlookup` has found no entry and `ialloc` an inode. -/
def createAt (dp ip : ℕ) (name : Name) (type : FileType) (major minor : ℤ) (room : Room) :
    M (Option ℕ) := do
  ilock ip
  modifyInode ip fun r => { r with major := int16 major, minor := int16 minor, nlink := 1 }
  if (← createDots dp ip type room) = false then createFail dp ip
  else if (← dirlink dp name ip room.entry) = false then createFail dp ip
  else do
    -- for ".."
    modifyInode dp fun r =>
      { r with nlink := if type = .dir then int16 (r.nlink + 1) else r.nlink }
    iput dp
    return some ip

def create (p : Fin NPROC) (path : List Char) (type : FileType) (major minor : ℤ) (room : Room) :
    M (Option ℕ) := do
  match ← nameiparent p path with
  | none => return none
  | some (dp, name) => do
      ilock dp
      match ← dirlookup dp name with
      | some (ip, _) => do
          iput dp
          ilock ip
          let s ← get
          if type = .file ∧ ((s.inode ip).type = .file ∨ (s.inode ip).type = .device) then
            return some ip
          else do
            iput ip
            return none
      | none =>
        match ← ialloc type with
        | none => do
            iput dp
            return none
        | some ip => createAt dp ip name type major minor room

/-! ### Open files -/

def setFile (f : Fin NFILE) (r : File) : M Unit := modify fun s => { s with file := update s.file f r }

def setOfile (p : Fin NPROC) (fd : Fin NOFILE) (f : Option (Fin NFILE)) : M Unit :=
  modify fun s =>
    { s with proc := update s.proc p { s.proc p with ofile := update (s.proc p).ofile fd f } }

def setCwd (p : Fin NPROC) (ip : Option ℕ) : M Unit :=
  modify fun s => { s with proc := update s.proc p { s.proc p with cwd := ip } }

def filealloc : M (Option (Fin NFILE)) := do
  let s ← get
  match (List.finRange NFILE).find? fun f => (s.file f).ref = 0 with
  | none => return none
  | some f => do
      setFile f { s.file f with ref := 1 }
      return some f

def filedup (f : Fin NFILE) : M Unit := do
  let s ← get
  if (s.file f).ref < 1 then throw .filedup
  else setFile f { s.file f with ref := (s.file f).ref + 1 }

def fileclose (f : Fin NFILE) : M Unit := do
  let s ← get
  if (s.file f).ref < 1 then throw .fileclose
  else if 0 < (s.file f).ref - 1 then setFile f { s.file f with ref := (s.file f).ref - 1 }
  else do
    setFile f ⟨0, none⟩
    match (s.file f).ip with
    | none => pure ()
    | some ip => iput ip

def fdalloc (p : Fin NPROC) (f : Fin NFILE) : M Bool := do
  let s ← get
  match (List.finRange NOFILE).find? fun fd => (s.proc p).ofile fd = none with
  | none => return false
  | some fd => do
      setOfile p fd (some f)
      return true

/-! ### The calls -/

/-- What `sys_open` starts with: the inode to open, locked. -/
def openInode (p : Fin NPROC) (path : List Char) (omode : ℕ) (room : Room) : M (Option ℕ) := do
  if omode &&& O_CREATE ≠ 0 then create p path .file 0 0 room
  else
    match ← namei p path with
    | none => return none
    | some ip => do
        ilock ip
        let s ← get
        if (s.inode ip).type = .dir ∧ omode ≠ O_RDONLY then do
          iput ip
          return none
        else return some ip

/-- `O_TRUNC` empties a regular file. -/
def openTrunc (ip omode : ℕ) : M Unit := do
  let s ← get
  if omode &&& O_TRUNC ≠ 0 ∧ (s.inode ip).type = .file then itrunc ip else pure ()

/-- The rest of `sys_open`. -/
def openFile (p : Fin NPROC) (ip : ℕ) (omode : ℕ) : M Bool := do
  let s ← get
  if (s.inode ip).type = .device ∧ ((s.inode ip).major < 0 ∨ NDEV ≤ (s.inode ip).major) then do
    iput ip
    return false
  else
    match ← filealloc with
    | none => do
        iput ip
        return false
    | some f =>
      if (← fdalloc p f) = false then do
        fileclose f
        iput ip
        return false
      else do
        let t ← get
        setFile f { t.file f with ip := some ip }
        openTrunc ip omode
        return true

def sysOpen (p : Fin NPROC) (path : List Char) (omode : ℕ) (room : Room) : M Bool := do
  match ← openInode p path omode room with
  | none => return false
  | some ip => openFile p ip omode

/-- What `sys_mkdir` and `sys_mknod` share: they create an inode and drop it. -/
def createPut (p : Fin NPROC) (path : List Char) (type : FileType) (major minor : ℤ)
    (room : Room) : M Bool := do
  match ← create p path type major minor room with
  | none => return false
  | some ip => do
      iput ip
      return true

def sysMkdir (p : Fin NPROC) (path : List Char) (room : Room) : M Bool :=
  createPut p path .dir 0 0 room

def sysMknod (p : Fin NPROC) (path : List Char) (major minor : ℤ) (room : Room) : M Bool :=
  createPut p path .device major minor room

/-- The `bad` path of `sys_link`. -/
def linkBad (ip : ℕ) : M Bool := do
  ilock ip
  modifyInode ip fun r => { r with nlink := int16 (r.nlink - 1) }
  iput ip
  return false

/-- `sys_link` once `old` has been found to be the file `ip`. -/
def linkAt (p : Fin NPROC) (ip : ℕ) (new : List Char) (room : Bool) : M Bool := do
  modifyInode ip fun r => { r with nlink := int16 (r.nlink + 1) }
  match ← nameiparent p new with
  | none => linkBad ip
  | some (dp, name) => do
      ilock dp
      if ← dirlink dp name ip room then do
        iput dp
        iput ip
        return true
      else do
        iput dp
        linkBad ip

def sysLink (p : Fin NPROC) (old new : List Char) (room : Bool) : M Bool := do
  match ← namei p old with
  | none => return false
  | some ip => do
      ilock ip
      let s ← get
      if (s.inode ip).type = .dir then do
        iput ip
        return false
      else linkAt p ip new room

/-- Is the directory empty except for "." and ".."? -/
def isdirempty (r : Inode) : Bool := (r.entries.drop 2).all fun e => e.inum = 0

/-- `sys_unlink` once it has found the entry at `off` of `dp` that names `ip`. -/
def unlinkAt (dp ip off : ℕ) : M Bool := do
  ilock ip
  let s ← get
  if (s.inode ip).nlink < 1 then throw .nlink
  else if (s.inode ip).type = .dir ∧ isdirempty (s.inode ip) = false then do
    iput ip
    iput dp
    return false
  else do
    modifyInode dp fun r => { r with entries := putEntry r.entries off ⟨0, []⟩ }
    modifyInode dp fun r =>
      { r with nlink := if (s.inode ip).type = .dir then int16 (r.nlink - 1) else r.nlink }
    iput dp
    modifyInode ip fun r => { r with nlink := int16 (r.nlink - 1) }
    iput ip
    return true

def sysUnlink (p : Fin NPROC) (path : List Char) : M Bool := do
  match ← nameiparent p path with
  | none => return false
  | some (dp, name) => do
      ilock dp
      if namecmp name ['.'] ∨ namecmp name ['.', '.'] then do
        iput dp
        return false
      else
        match ← dirlookup dp name with
        | none => do
            iput dp
            return false
        | some (ip, off) => unlinkAt dp ip off

def sysChdir (p : Fin NPROC) (path : List Char) : M Bool := do
  match ← namei p path with
  | none => return false
  | some ip => do
      ilock ip
      let s ← get
      if (s.inode ip).type ≠ .dir then do
        iput ip
        return false
      else
        match (s.proc p).cwd with
        | none => return false
        | some cwd => do
            iput cwd
            setCwd p (some ip)
            return true

def sysDup (p : Fin NPROC) (fd : Fin NOFILE) : M Bool := do
  let s ← get
  match (s.proc p).ofile fd with
  | none => return false
  | some f =>
    if ← fdalloc p f then do
      filedup f
      return true
    else return false

def sysClose (p : Fin NPROC) (fd : Fin NOFILE) : M Bool := do
  let s ← get
  match (s.proc p).ofile fd with
  | none => return false
  | some f => do
      setOfile p fd none
      fileclose f
      return true

/-- `exec`, as far as inodes are concerned: it looks the file up and reads it. -/
def sysExec (p : Fin NPROC) (path : List Char) : M Bool := do
  match ← namei p path with
  | none => return false
  | some ip => do
      ilock ip
      iput ip
      return true

/-- The loop of `fork` over the open files. -/
def forkFiles (p q : Fin NPROC) : List (Fin NOFILE) → M Unit
  | [] => pure ()
  | fd :: rest => do
      let s ← get
      match (s.proc p).ofile fd with
      | none => forkFiles p q rest
      | some f => do
          filedup f
          setOfile q fd (some f)
          forkFiles p q rest

/-- `fork` into the unused slot `q`. -/
def sysFork (p q : Fin NPROC) : M Bool := do
  forkFiles p q (List.finRange NOFILE)
  let s ← get
  match (s.proc p).cwd with
  | none => return false
  | some cwd => do
      idup cwd
      setCwd q (some cwd)
      return true

/-- The loop of `exit` over the open files. -/
def exitFiles (p : Fin NPROC) : List (Fin NOFILE) → M Unit
  | [] => pure ()
  | fd :: rest => do
      let s ← get
      match (s.proc p).ofile fd with
      | none => exitFiles p rest
      | some f => do
          fileclose f
          setOfile p fd none
          exitFiles p rest

def sysExit (p : Fin NPROC) : M Bool := do
  exitFiles p (List.finRange NOFILE)
  let s ← get
  match (s.proc p).cwd with
  | none => return false
  | some cwd => do
      iput cwd
      setCwd p none
      return true

/-! ### Runs -/

inductive Call where
  | open (path : List Char) (omode : ℕ) (room : Room)
  | mkdir (path : List Char) (room : Room)
  | mknod (path : List Char) (major minor : ℤ) (room : Room)
  | link (old new : List Char) (room : Bool)
  | unlink (path : List Char)
  | chdir (path : List Char)
  | dup (fd : Fin NOFILE)
  | close (fd : Fin NOFILE)
  | exec (path : List Char)
  | fork (q : Fin NPROC)
  | exit

/-- A call by a process. -/
structure Action where
  p : Fin NPROC
  call : Call

def syscall (p : Fin NPROC) : Call → M Bool
  | .open path omode room => sysOpen p path omode room
  | .mkdir path room => sysMkdir p path room
  | .mknod path major minor room => sysMknod p path major minor room
  | .link old new room => sysLink p old new room
  | .unlink path => sysUnlink p path
  | .chdir path => sysChdir p path
  | .dup fd => sysDup p fd
  | .close fd => sysClose p fd
  | .exec path => sysExec p path
  | .fork q => sysFork p q
  | .exit => sysExit p

/-- The caller is running, and `fork` takes an unused slot. -/
def Enabled (s : State) (a : Action) : Prop :=
  (s.proc a.p).cwd ≠ none ∧
    match a.call with
    | .fork q => (s.proc q).cwd = none
    | _ => True

instance (s : State) (a : Action) : Decidable (Enabled s a) := by
  unfold Enabled
  cases a.call <;> infer_instance

/-- A completed call. -/
def step (s : State) (a : Action) : Option State :=
  if Enabled s a then
    match syscall a.p a.call s with
    | .ok (_, t) => some t
    | .error _ => none
  else none

/-- A call panics. -/
def Panics (s : State) (a : Action) (e : Panic) : Prop :=
  Enabled s a ∧ syscall a.p a.call s = .error e

end Xv6.Fs
