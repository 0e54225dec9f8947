import Xv6.Lib.Prog
import Xv6.Vm.Riscv

/-!
Page tables and user memory: the functions of vm.c as programs over physical memory.

Memory is a map from page numbers to pages of 512 entries; the allocator of kalloc.c is a
list of page numbers. A program touches them by the operations of `MemOp`, one page at a
time: allocate, free, look at a page, change a page. So the same programs can be run
alone (`run`, below) or have their operations interleaved with those of other processes.

A pointer to an entry (`pte_t *`) is the address of its table and an index. Loops over
addresses take a number of rounds; the address moves up a page a round, and `walk` panics
from `MAXVA` on, so `MAXPAGES` rounds are never used up.
-/

namespace Xv6.Vm

open Function (update)

/-- What a page holds, as 512 entries. -/
abbrev Page : Type := ℕ → ℕ

/-- Operations on physical memory. `read` and `write` act on the page at address `pa`. -/
inductive MemOp where
  | kalloc
  | kfree (pa : ℕ)
  | read (pa : ℕ)
  | write (pa : ℕ) (f : Page → Page)
  | panic (msg : String)
  | outOfRounds

/-- What an operation answers; `kalloc` answers 0 when there is no page. -/
def MemResp : MemOp → Type
  | .kalloc => ℕ
  | .kfree _ => Unit
  | .read _ => Page
  | .write _ _ => Unit
  | .panic _ => Empty
  | .outOfRounds => Empty

abbrev Code (α : Type) : Type := Prog MemResp α

def kalloc : Code ℕ := .op .kalloc .ret

def kfree (pa : ℕ) : Code Unit := .op (.kfree pa) .ret

def readPage (pa : ℕ) : Code Page := .op (.read pa) .ret

def writePage (pa : ℕ) (f : Page → Page) : Code Unit := .op (.write pa f) .ret

def panic {α : Type} (msg : String) : Code α := .op (.panic msg) Empty.elim

def outOfRounds {α : Type} : Code α := .op .outOfRounds Empty.elim

/-! ### Entries and whole pages -/

def zeroPage : Page := fun _ => 0

/-- `memset(pa, 0, PGSIZE)`. -/
def clearPage (pa : ℕ) : Code Unit := writePage pa fun _ => zeroPage

/-- A `pte_t *`: the entry `index` of the table at `table`. -/
structure PteAddr where
  table : ℕ
  index : ℕ
deriving DecidableEq

def PteAddr.get (pte : PteAddr) : Code ℕ := do
  let page ← readPage pte.table
  pure (page pte.index)

def PteAddr.set (pte : PteAddr) (value : ℕ) : Code Unit :=
  writePage pte.table fun page => update page pte.index value

/-! ### vm.c -/

/-- The loop of `walk`, from a table of the given level. -/
def walkFrom (va : ℕ) (alloc : Bool) : ℕ → ℕ → Code (Option PteAddr)
  | 0, pagetable => pure (some ⟨pagetable, PX 0 va⟩)
  | level + 1, pagetable => do
    let pte : PteAddr := ⟨pagetable, PX (level + 1) va⟩
    let entry ← pte.get
    if entry &&& PTE_V ≠ 0 then
      walkFrom va alloc level (PTE2PA entry)
    else if alloc then do
      let page ← kalloc
      if page = 0 then
        pure none
      else do
        clearPage page
        pte.set (PA2PTE page ||| PTE_V)
        walkFrom va alloc level page
    else
      pure none

def walk (pagetable va : ℕ) (alloc : Bool) : Code (Option PteAddr) :=
  if va ≥ MAXVA then panic "walk" else walkFrom va alloc 2 pagetable

/-- The entry that `walk` finds for `va` in a table it does not extend, if any. -/
def lookup (pagetable va : ℕ) : Code (Option ℕ) := do
  match ← walk pagetable va false with
  | none => pure none
  | some pte => do
    let entry ← pte.get
    pure (some entry)

def walkaddr (pagetable va : ℕ) : Code ℕ :=
  if va ≥ MAXVA then
    pure 0
  else do
    match ← lookup pagetable va with
    | none => pure 0
    | some entry =>
      if entry &&& PTE_V = 0 then pure 0
      else if entry &&& PTE_U = 0 then pure 0
      else pure (PTE2PA entry)

/-- Pages of virtual memory below `MAXVA`, and one round more. -/
def MAXPAGES : ℕ := MAXVA / PGSIZE + 1

def mapLoop (pagetable last perm : ℕ) : ℕ → ℕ → ℕ → Code Int
  | 0, _, _ => outOfRounds
  | rounds + 1, a, pa => do
    match ← walk pagetable a true with
    | none => pure (-1)
    | some pte => do
      let entry ← pte.get
      if entry &&& PTE_V ≠ 0 then
        panic "mappages: remap"
      else do
        pte.set (PA2PTE pa ||| perm ||| PTE_V)
        if a = last then
          pure 0
        else
          mapLoop pagetable last perm rounds (a + PGSIZE) (wrap64 (pa + PGSIZE))

def mappages (pagetable va size pa perm : ℕ) : Code Int :=
  if size = 0 then
    panic "mappages: size"
  else
    mapLoop pagetable (PGROUNDDOWN (wrap64 (va + size - 1))) perm MAXPAGES (PGROUNDDOWN va) pa

/-- `if(do_free){ .. }` of `uvmunmap`. -/
def freeLeaf (do_free : Bool) (entry : ℕ) : Code Unit :=
  if do_free then kfree (PTE2PA entry) else pure ()

def unmapLoop (pagetable stop : ℕ) (do_free : Bool) : ℕ → ℕ → Code Unit
  | 0, _ => outOfRounds
  | rounds + 1, a =>
    if a < stop then do
      match ← walk pagetable a false with
      | none => panic "uvmunmap: walk"
      | some pte => do
        let entry ← pte.get
        if entry &&& PTE_V = 0 then
          panic "uvmunmap: not mapped"
        else if PTE_FLAGS entry = PTE_V then
          panic "uvmunmap: not a leaf"
        else do
          freeLeaf do_free entry
          pte.set 0
          unmapLoop pagetable stop do_free rounds (a + PGSIZE)
    else
      pure ()

def uvmunmap (pagetable va npages : ℕ) (do_free : Bool) : Code Unit :=
  if va % PGSIZE ≠ 0 then
    panic "uvmunmap: not aligned"
  else
    unmapLoop pagetable (wrap64 (va + npages * PGSIZE)) do_free MAXPAGES va

def uvmcreate : Code ℕ := do
  let pagetable ← kalloc
  if pagetable = 0 then
    pure 0
  else do
    clearPage pagetable
    pure pagetable

/-- The body of `freewalk`'s loop over the entries of a table; `freeChild` is the call for
the table below. -/
def freeEntries (freeChild : ℕ → Code Unit) (pagetable : ℕ) : List ℕ → Code Unit
  | [] => pure ()
  | i :: rest => do
    let pte : PteAddr := ⟨pagetable, i⟩
    let entry ← pte.get
    if entry &&& PTE_V ≠ 0 ∧ entry &&& (PTE_R ||| PTE_W ||| PTE_X) = 0 then do
      freeChild (PTE2PA entry)
      pte.set 0
      freeEntries freeChild pagetable rest
    else if entry &&& PTE_V ≠ 0 then
      panic "freewalk: leaf"
    else
      freeEntries freeChild pagetable rest

/-- There are 2^9 = 512 entries in a page table. -/
@[irreducible] def tableSlots : List ℕ := List.range 512

/-- `freewalk` with a bound on the depth of its recursion. -/
def freewalkTo : ℕ → ℕ → Code Unit
  | 0, _ => outOfRounds
  | depth + 1, pagetable => do
    freeEntries (freewalkTo depth) pagetable tableSlots
    kfree pagetable

/-- Page tables have three levels. -/
def freewalk (pagetable : ℕ) : Code Unit := freewalkTo 3 pagetable

/-! ### Running a program alone -/

def PHYSTOP : ℕ := 0x80000000 + 128 * 1024 * 1024

/-- The physical pages that the allocator deals with: from the end of the kernel to
`PHYSTOP`, as page numbers. Page 0 is not one of them. -/
structure Geometry where
  lo : ℕ
  hi : ℕ
  lo_pos : 0 < lo
  hi_le : PGSIZE * hi ≤ PHYSTOP

def Geometry.Ram (g : Geometry) (ppn : ℕ) : Prop := g.lo ≤ ppn ∧ ppn < g.hi

theorem Geometry.hi_lt (g : Geometry) : g.hi < PAGES := by
  have hle := g.hi_le
  unfold PGSIZE PHYSTOP at hle
  unfold PAGES
  omega

theorem Geometry.Ram.lt {g : Geometry} {ppn : ℕ} (h : g.Ram ppn) : ppn < PAGES := h.2.trans g.hi_lt

instance (g : Geometry) (ppn : ℕ) : Decidable (g.Ram ppn) :=
  inferInstanceAs (Decidable (g.lo ≤ ppn ∧ ppn < g.hi))

/-- Physical memory, by page number, and `kmem.freelist`: the address of the first free page or
0. The first word of a free page is the address of the next one. -/
structure Phys where
  mem : ℕ → Page
  freelist : ℕ

/-- What `memset(pa, byte, PGSIZE)` leaves, for the allocator's junk bytes. -/
def junk (byte : ℕ) : Page := fun _ => byte * 0x0101010101010101

/-- `kfree`, after its checks. -/
def Phys.push (m : Phys) (pa : ℕ) : Phys :=
  ⟨update m.mem (pa / PGSIZE) (update (junk 1) 0 m.freelist), pa⟩

/-- `kalloc`, when there is a page. -/
def Phys.pop (m : Phys) : Phys :=
  ⟨update m.mem (m.freelist / PGSIZE) (junk 5), m.mem (m.freelist / PGSIZE) 0⟩

/-- One operation on physical memory; a panic has no outcome. -/
def Phys.exec (g : Geometry) : (o : MemOp) → Phys → Option (MemResp o × Phys)
  | .kalloc, m =>
    if m.freelist = 0 then some ((0 : ℕ), m) else some (m.freelist, m.pop)
  | .kfree pa, m =>
    if pa % PGSIZE = 0 ∧ g.Ram (pa / PGSIZE) then some ((), m.push pa) else none
  | .read pa, m => some (m.mem (pa / PGSIZE), m)
  | .write pa f, m =>
    some ((), { m with mem := update m.mem (pa / PGSIZE) (f (m.mem (pa / PGSIZE))) })
  | .panic _, _ => none
  | .outOfRounds, _ => none

/-- A program run with nothing in between. -/
def run {α : Type} (g : Geometry) : Code α → Phys → Option (α × Phys)
  | .ret a, m => some (a, m)
  | .op o k, m => (m.exec g o).bind fun r => run g (k r.1) r.2

end Xv6.Vm
