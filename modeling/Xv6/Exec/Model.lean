import Xv6.Vm.Space

/-!
`exec`, as a program over physical memory and the file system.

The functions of vm.c and proc.c run in it as they are (`lift`). Of the file system `exec`
sees transactions, inodes with references and locks, and what `readi` delivers. `run` executes
the program; an `Env` says at which calls `kalloc` fails although there are pages, and how many
bytes `readi` delivers at most.

The strings of `argv` and the path are values here: they lie in pages that `exec` only reads.
The trapframe is a page of memory, and its registers are entries of that page.
-/

namespace Xv6.Exec

open Function (update)

open Vm (PGSIZE PTE_R PTE_W PTE_X PTE_U wrap64 addInt roundUp)

/-! ### Operations -/

inductive Op where
  | mem (o : Vm.MemOp)
  | begin_op
  | end_op
  | namei (path : List UInt8)
  | ilock (ip : ℕ)
  | iunlockput (ip : ℕ)
  | readi (ip off n : ℕ)

/-- `readi` answers with the number of bytes it has read, and the bytes. -/
def Resp : Op → Type
  | .mem o => Vm.MemResp o
  | .namei _ => Option ℕ
  | .readi _ _ _ => ℕ × (ℕ → UInt8)
  | .begin_op | .end_op | .ilock _ | .iunlockput _ => Unit

abbrev Code (α : Type) : Type := Prog Resp α

/-- A program that only works on memory. -/
def lift {α : Type} : Vm.Code α → Code α
  | .ret a => .ret a
  | .op o k => .op (.mem o) fun r => lift (k r)

def begin_op : Code Unit := .op .begin_op .ret

def end_op : Code Unit := .op .end_op .ret

def namei (path : List UInt8) : Code (Option ℕ) := .op (.namei path) .ret

def ilock (ip : ℕ) : Code Unit := .op (.ilock ip) .ret

def iunlockput (ip : ℕ) : Code Unit := .op (.iunlockput ip) .ret

def readi (ip off n : ℕ) : Code (ℕ × (ℕ → UInt8)) := .op (.readi ip off n) .ret

/-! ### elf.h -/

def ELF_MAGIC : ℕ := 0x464C457F

def ELF_PROG_LOAD : ℕ := 1

/-- The fields of `struct elfhdr` that `exec` looks at. -/
structure ElfHdr where
  magic : ℕ
  entry : ℕ
  phoff : ℕ
  phnum : ℕ

/-- `sizeof(struct elfhdr)`. -/
def ELFHDR : ℕ := 64

/-- The field of `w` bytes at `off`. -/
def field (bytes : ℕ → UInt8) (off w : ℕ) : ℕ := Digits.number (fun i => bytes (off + i)) w

def ElfHdr.decode (bytes : ℕ → UInt8) : ElfHdr where
  magic := field bytes 0 4
  entry := field bytes 24 8
  phoff := field bytes 32 8
  phnum := field bytes 56 2

/-- The fields of `struct proghdr` that `exec` looks at. -/
structure ProgHdr where
  type : ℕ
  flags : ℕ
  off : ℕ
  vaddr : ℕ
  filesz : ℕ
  memsz : ℕ

/-- `sizeof(struct proghdr)`. -/
def PROGHDR : ℕ := 56

def ProgHdr.decode (bytes : ℕ → UInt8) : ProgHdr where
  type := field bytes 0 4
  flags := field bytes 4 4
  off := field bytes 8 8
  vaddr := field bytes 16 8
  filesz := field bytes 32 8
  memsz := field bytes 40 8

/-! ### exec.c -/

/-- A `uint`. -/
@[irreducible] def uint (n : ℕ) : ℕ := n % 4294967296

def flags2perm (flags : ℕ) : ℕ :=
  let perm := if flags &&& 0x1 ≠ 0 then PTE_X else 0
  if flags &&& 0x2 ≠ 0 then perm ||| PTE_W else perm

def loadsegLoop (pagetable va ip offset sz : ℕ) : ℕ → ℕ → Code ℤ
  | 0, _ => lift Vm.outOfRounds
  | rounds + 1, i =>
    if i < sz then do
      let pa ← lift (Vm.walkaddr pagetable (wrap64 (va + i)))
      if pa = 0 then
        lift (Vm.panic "loadseg: address should exist")
      else do
        let n := if sz - i < PGSIZE then sz - i else PGSIZE
        let (tot, data) ← readi ip (uint (offset + i)) n
        lift (Vm.writePage pa fun page => page.splice 0 data tot)
        if tot ≠ n then
          pure (-1)
        else
          loadsegLoop pagetable va ip offset sz rounds (uint (i + PGSIZE))
    else
      pure 0

def loadseg (pagetable va ip offset sz : ℕ) : Code ℤ :=
  loadsegLoop pagetable va ip offset sz Vm.MAXPAGES 0

/-- The loop over the program headers, `left` of which are still to come. The result is the
size so far, with `false` for `goto bad`. -/
def loadLoop (ip pagetable : ℕ) : ℕ → ℕ → ℕ → Code (Bool × ℕ)
  | 0, _, sz => pure (true, sz)
  | left + 1, off, sz => do
    let (tot, bytes) ← readi ip off PROGHDR
    if tot ≠ PROGHDR then
      pure (false, sz)
    else
      let ph := ProgHdr.decode bytes
      if ph.type ≠ ELF_PROG_LOAD then
        loadLoop ip pagetable left (uint (off + PROGHDR)) sz
      else if ph.memsz < ph.filesz then
        pure (false, sz)
      else if wrap64 (ph.vaddr + ph.memsz) < ph.vaddr then
        pure (false, sz)
      else if ph.vaddr % PGSIZE ≠ 0 then
        pure (false, sz)
      else do
        let sz1 ← lift (Vm.uvmalloc pagetable sz (wrap64 (ph.vaddr + ph.memsz)) (flags2perm ph.flags))
        if sz1 = 0 then
          pure (false, sz)
        else do
          let r ← loadseg pagetable ph.vaddr ip (uint ph.off) (uint ph.filesz)
          if r < 0 then
            pure (false, sz1)
          else
            loadLoop ip pagetable left (uint (off + PROGHDR)) sz1

def MAXARG : ℕ := 32

/-- The bytes of a string with its NUL. -/
def cstring (arg : List UInt8) : ℕ → UInt8 := fun i => arg.getD i 0

/-- `sp -= n; sp -= sp % 16`. -/
def push (sp n : ℕ) : ℕ := addInt sp (-n) - addInt sp (-n) % 16

/-- The loop that pushes the strings; the pointers to them are collected in `ustack`. -/
def pushLoop (pagetable stackbase : ℕ) : List (List UInt8) → ℕ → List ℕ → Code (Option (ℕ × List ℕ))
  | [], sp, ustack => pure (some (sp, ustack))
  | arg :: rest, sp, ustack =>
    if ustack.length ≥ MAXARG then
      pure none
    else if push sp (arg.length + 1) < stackbase then
      pure none
    else do
      let r ← lift (Vm.copyout pagetable (push sp (arg.length + 1)) (cstring arg) (arg.length + 1))
      if r < 0 then
        pure none
      else
        pushLoop pagetable stackbase rest (push sp (arg.length + 1))
          (ustack ++ [push sp (arg.length + 1)])

/-- The bytes of the array of pointers; the last one is 0. -/
def pointers (ustack : List ℕ) : ℕ → UInt8 := fun i => Digits.byte (ustack.getD (i / 8) 0) (i % 8)

/-- The fields of `struct proc` that `exec` reads and writes. -/
structure Proc where
  space : Vm.Space
  /-- The address of the trapframe page. -/
  trapframe : ℕ
  /-- `p->name`, 16 bytes. -/
  name : ℕ → UInt8

/-- The registers in the trapframe that `exec` sets, as indices of eight bytes. -/
def TF_EPC : ℕ := 3

def TF_SP : ℕ := 6

def TF_A1 : ℕ := 15

/-- The loop that looks for the last `/`. -/
def lastFrom (last : List UInt8) : List UInt8 → List UInt8
  | [] => last
  | c :: s => lastFrom (if c = 47 then s else last) s

/-- The loop of `safestrcpy` from byte `i` on, with `n` bytes left before the last. A NUL that
has been copied is followed by a second one. -/
def copyFrom (t : List UInt8) : ℕ → ℕ → (ℕ → UInt8) → ℕ → UInt8
  | 0, i, s => update s i 0
  | n + 1, i, s =>
    if t.getD i 0 = 0 then update (update s i 0) (i + 1) 0
    else copyFrom t n (i + 1) (update s i (t.getD i 0))

/-- `safestrcpy(name, t, 16)`. -/
def safestrcpy (name : ℕ → UInt8) (t : List UInt8) : ℕ → UInt8 := copyFrom t 15 0 name

/-- The label `bad`. -/
def bad (p : Proc) (pagetable sz : ℕ) (ip : Option ℕ) : Code (ℤ × Proc) := do
  if pagetable ≠ 0 then lift (Vm.proc_freepagetable pagetable sz) else pure ()
  match ip with
  | some ip => do
    iunlockput ip
    end_op
  | none => pure ()
  pure (-1, p)

/-- The end of `exec`, when nothing can fail any more. -/
def commit (p : Proc) (path : List UInt8) (pagetable sz entry sp argc : ℕ) : Code (ℤ × Proc) := do
  lift (Vm.PteAddr.set ⟨p.trapframe, TF_A1⟩ sp)
  let name := safestrcpy p.name (lastFrom path path)
  lift (Vm.PteAddr.set ⟨p.trapframe, TF_EPC⟩ entry)
  lift (Vm.PteAddr.set ⟨p.trapframe, TF_SP⟩ sp)
  lift (Vm.proc_freepagetable p.space.pagetable p.space.sz)
  pure (argc, { p with space := ⟨pagetable, sz⟩, name := name })

/-- From the allocation of the stack on. -/
def stack (p : Proc) (path : List UInt8) (argv : List (List UInt8)) (pagetable sz entry : ℕ) :
    Code (ℤ × Proc) := do
  let sz1 ← lift (Vm.uvmalloc pagetable sz (wrap64 (sz + 2 * PGSIZE)) PTE_W)
  if sz1 = 0 then
    bad p pagetable sz none
  else do
    lift (Vm.uvmclear pagetable (sz1 - 2 * PGSIZE))
    match ← pushLoop pagetable (sz1 - PGSIZE) argv sz1 [] with
    | none => bad p pagetable sz1 none
    | some (sp, ustack) =>
      let n := (ustack.length + 1) * 8
      if push sp n < sz1 - PGSIZE then
        bad p pagetable sz1 none
      else do
        let r ← lift (Vm.copyout pagetable (push sp n) (pointers ustack) n)
        if r < 0 then
          bad p pagetable sz1 none
        else
          commit p path pagetable sz1 entry (push sp n) ustack.length

def exec (trampoline : ℕ) (p : Proc) (path : List UInt8) (argv : List (List UInt8)) :
    Code (ℤ × Proc) := do
  begin_op
  match ← namei path with
  | none => do
    end_op
    pure (-1, p)
  | some ip => do
    ilock ip
    let (tot, bytes) ← readi ip 0 ELFHDR
    let elf := ElfHdr.decode bytes
    if tot ≠ ELFHDR then
      bad p 0 0 (some ip)
    else if elf.magic ≠ ELF_MAGIC then
      bad p 0 0 (some ip)
    else do
      let pagetable ← lift (Vm.proc_pagetable trampoline p.trapframe)
      if pagetable = 0 then
        bad p 0 0 (some ip)
      else do
        let (ok, sz) ← loadLoop ip pagetable elf.phnum (uint elf.phoff) 0
        if ok then do
          iunlockput ip
          end_op
          stack p path argv pagetable (roundUp sz) elf.entry
        else
          bad p pagetable sz (some ip)

/-! ### Running it -/

/-- The file system as `exec` sees it: what `namei` finds, the contents of the inodes, their
reference counts, the inode locks that the process holds, and the number of system calls it
has open in the log. -/
structure Fs where
  names : List UInt8 → Option ℕ
  data : ℕ → List UInt8
  ref : ℕ → ℕ
  locked : ℕ → Bool
  ops : ℕ

/-- What may go wrong, by the number of the call: whether `kalloc` fails, and how many bytes
`readi` gets at most. -/
structure Env where
  kallocFails : ℕ → Bool
  readLimit : ℕ → ℕ

structure State where
  phys : Vm.Phys
  fs : Fs
  calls : ℕ

/-- The bytes of an inode of the given size that `readi` finds for a request. -/
def available (size off n : ℕ) : ℕ :=
  if off > size ∨ off + n ≥ 4294967296 then 0 else min n (size - off)

/-- One operation. A panic has no outcome, and neither has a lock that the process waits for
itself. -/
def State.exec (g : Vm.Geometry) (env : Env) : (o : Op) → State → Option (Resp o × State)
  | .mem .kalloc, s =>
    if env.kallocFails s.calls then
      some ((0 : ℕ), { s with calls := s.calls + 1 })
    else
      (s.phys.exec g .kalloc).map fun x => (x.1, { s with phys := x.2, calls := s.calls + 1 })
  | .mem o, s => (s.phys.exec g o).map fun x => (x.1, { s with phys := x.2 })
  | .begin_op, s => some ((), { s with fs := { s.fs with ops := s.fs.ops + 1 } })
  | .end_op, s =>
    if 0 < s.fs.ops then some ((), { s with fs := { s.fs with ops := s.fs.ops - 1 } }) else none
  | .namei path, s =>
    match s.fs.names path with
    | none => some (none, s)
    | some ip => some (some ip,
        { s with fs := { s.fs with ref := update s.fs.ref ip (s.fs.ref ip + 1) } })
  | .ilock ip, s =>
    if s.fs.locked ip then none
    else some ((), { s with fs := { s.fs with locked := update s.fs.locked ip true } })
  | .iunlockput ip, s =>
    if s.fs.locked ip ∧ 0 < s.fs.ref ip then
      some ((), { s with fs := { s.fs with
        locked := update s.fs.locked ip false
        ref := update s.fs.ref ip (s.fs.ref ip - 1) } })
    else none
  | .readi ip off n, s =>
    some ((min (env.readLimit s.calls) (available (s.fs.data ip).length off n),
      fun i => (s.fs.data ip).getD (off + i) 0), { s with calls := s.calls + 1 })

def run {α : Type} (g : Vm.Geometry) (env : Env) : Code α → State → Option (α × State)
  | .ret a, s => some (a, s)
  | .op o k, s => (s.exec g env o).bind fun r => run g env (k r.1) r.2

end Xv6.Exec
