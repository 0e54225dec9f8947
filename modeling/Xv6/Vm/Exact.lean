import Xv6.Vm.Copy

/-!
What `copyout`, `copyin` and `copyinstr` do on any memory.

Here the programs run alone on physical memory that may hold anything: no assumption says
that the page table is a tree, or that a page is used once. `leafEntry` reads the entry
that a walk ends at.

* `copies_are_exact`: the three functions transfer exactly the bytes of the range, provided
  that none of them lies in physical page 0 (which `walkaddr` cannot tell from a missing
  page) and, for `copyout`, that the range is not mapped to the tables it is reached through.
* `copies_need_sound_tables`: what happens otherwise.
* `copyout_respects_write_iff`: when exactly `copyout` leaves read-only pages alone.
* `copyout_ignores_write`: it does not look at `PTE_W`.
-/

namespace Xv6.Vm

open Function (update update_of_ne update_self)
open Prog (Rules wp)

/-! ### Programs that run alone -/

/-- Every operation succeeds and does what it does on physical memory. -/
def runRules (g : Geometry) : Rules MemResp Phys where
  pre o Q m := ∃ r m', m.exec g o = some (r, m') ∧ Q r m'
  mono := by
    rintro o Q Q' m hQ ⟨r, m', hexec, hr⟩
    exact ⟨r, m', hexec, hQ r m' hr⟩

variable {g : Geometry} {m m' : Phys} {mem mem' : ℕ → Page} {pagetable va len : ℕ}

theorem run_of_runRules {α : Type} {x : Code α} {Q : α → Phys → Prop}
    (h : wp (runRules g) x Q m) : ∃ a m', run g x m = some (a, m') ∧ Q a m' := by
  induction x generalizing m with
  | ret a => exact ⟨a, m, rfl, h⟩
  | op o k ih =>
    obtain ⟨r, m₁, hexec, hk⟩ := h
    obtain ⟨a, m₂, hrun, hQ⟩ := ih r hk
    exact ⟨a, m₂, by simp only [run, hexec, Option.bind_some, hrun], hQ⟩

/-! ### Reading the table -/

/-- The entry that a walk for `va` ends at, from a table of the given level; 0 without one. -/
def entryFrom (mem : ℕ → Page) (va : ℕ) : ℕ → ℕ → ℕ
  | 0, table => mem (table / PGSIZE) (PX 0 va)
  | level + 1, table =>
    let entry := mem (table / PGSIZE) (PX (level + 1) va)
    if entry &&& PTE_V ≠ 0 then entryFrom mem va level (PTE2PA entry) else 0

/-- The pages that the walk reads. -/
def pagesFrom (mem : ℕ → Page) (va : ℕ) : ℕ → ℕ → List ℕ
  | 0, table => [table / PGSIZE]
  | level + 1, table =>
    let entry := mem (table / PGSIZE) (PX (level + 1) va)
    table / PGSIZE :: if entry &&& PTE_V ≠ 0 then pagesFrom mem va level (PTE2PA entry) else []

def leafEntry (mem : ℕ → Page) (pagetable va : ℕ) : ℕ := entryFrom mem va 2 pagetable

def walkPages (mem : ℕ → Page) (pagetable va : ℕ) : List ℕ := pagesFrom mem va 2 pagetable

/-- What `walkaddr` answers. -/
def lookIn (mem : ℕ → Page) (pagetable va : ℕ) : ℕ :=
  if va < MAXVA then userPage (leafEntry mem pagetable va) else 0

/-- The address lies in a valid page that the user may access. -/
def UserValid (mem : ℕ → Page) (pagetable va : ℕ) : Prop :=
  va < MAXVA ∧ leafEntry mem pagetable va &&& PTE_V ≠ 0 ∧ leafEntry mem pagetable va &&& PTE_U ≠ 0

instance (mem : ℕ → Page) (pagetable va : ℕ) : Decidable (UserValid mem pagetable va) := by
  unfold UserValid
  infer_instance

/-- The number of the physical page behind an address. -/
def pageOf (mem : ℕ → Page) (pagetable va : ℕ) : ℕ := PTE2PA (leafEntry mem pagetable va) / PGSIZE

theorem entryFrom_congr {level table : ℕ}
    (h : ∀ ppn ∈ pagesFrom mem va level table, mem' ppn = mem ppn) :
    entryFrom mem' va level table = entryFrom mem va level table := by
  induction level generalizing table with
  | zero => simp only [entryFrom, h _ (List.mem_singleton_self _)]
  | succ level ih =>
    have hhere : mem' (table / PGSIZE) = mem (table / PGSIZE) := h _ List.mem_cons_self
    simp only [entryFrom, hhere]
    split
    case isTrue hv =>
      refine ih fun ppn hp => h ppn (List.mem_cons_of_mem _ ?_)
      rwa [if_pos hv]
    case isFalse => rfl

theorem PX_PGROUNDDOWN (level va : ℕ) : PX level (PGROUNDDOWN va) = PX level va := by
  rw [PX_eq, PX_eq, PGROUNDDOWN_eq, page_div]

theorem entryFrom_PGROUNDDOWN (mem : ℕ → Page) (va level table : ℕ) :
    entryFrom mem (PGROUNDDOWN va) level table = entryFrom mem va level table := by
  induction level generalizing table with
  | zero => simp only [entryFrom, PX_PGROUNDDOWN]
  | succ level ih => simp only [entryFrom, PX_PGROUNDDOWN, ih]

theorem pagesFrom_PGROUNDDOWN (mem : ℕ → Page) (va level table : ℕ) :
    pagesFrom mem (PGROUNDDOWN va) level table = pagesFrom mem va level table := by
  induction level generalizing table with
  | zero => rfl
  | succ level ih => simp only [pagesFrom, PX_PGROUNDDOWN, ih]

theorem PGROUNDDOWN_lt_MAXVA : PGROUNDDOWN va < MAXVA ↔ va < MAXVA := by
  have hM : MAXVA = 274877906944 := rfl
  unfold PGROUNDDOWN PGSIZE
  omega

theorem lookIn_PGROUNDDOWN (mem : ℕ → Page) (pagetable va : ℕ) :
    lookIn mem pagetable (PGROUNDDOWN va) = lookIn mem pagetable va := by
  unfold lookIn leafEntry
  rw [entryFrom_PGROUNDDOWN]
  simp only [PGROUNDDOWN_lt_MAXVA]

theorem lookIn_of_valid (h : UserValid mem pagetable va) :
    lookIn mem pagetable va = PGSIZE * pageOf mem pagetable va := by
  rw [lookIn, if_pos h.1, userPage, if_neg h.2.1, if_neg h.2.2, pageOf, PTE2PA_eq, page_div]

theorem lookIn_of_not_valid (h : ¬UserValid mem pagetable va) : lookIn mem pagetable va = 0 := by
  unfold lookIn userPage
  split
  case isTrue hlt =>
    split
    · rfl
    · rename_i hv
      rw [if_pos (not_not.mp fun hu => h ⟨hlt, hv, hu⟩)]
  case isFalse => rfl

/-- A byte is found exactly if its page is valid and not physical page 0. -/
theorem mapped_iff :
    Mapped (lookIn mem pagetable) va ↔
      UserValid mem pagetable va ∧ pageOf mem pagetable va ≠ 0 := by
  unfold Mapped
  rw [lookIn_PGROUNDDOWN]
  by_cases h : UserValid mem pagetable va
  · rw [lookIn_of_valid h]
    have hP : PGSIZE ≠ 0 := by decide
    simp only [h, true_and, ne_eq, Nat.mul_eq_zero, hP, false_or]
  · simp only [lookIn_of_not_valid h, h, ne_eq, not_true_eq_false, false_and]

theorem wp_run_get {pte : PteAddr} {Q : ℕ → Phys → Prop}
    (hQ : Q (m.mem (pte.table / PGSIZE) pte.index) m) : wp (runRules g) pte.get Q m :=
  ⟨_, _, rfl, hQ⟩

theorem wp_run_walkFrom {level table : ℕ} :
    wp (runRules g) (walkFrom va false level table)
      (fun r m' => m' = m ∧ (r.map fun pte => m.mem (pte.table / PGSIZE) pte.index).getD 0 =
        entryFrom m.mem va level table) m := by
  induction level generalizing table with
  | zero => exact ⟨rfl, rfl⟩
  | succ level ih =>
    apply Prog.wp_bind.mpr
    apply wp_run_get
    simp only [entryFrom]
    split
    · exact ih
    · exact ⟨rfl, rfl⟩

/-- The end of `walkaddr`. -/
theorem wp_run_userPage {entry : ℕ} :
    wp (runRules g) (if entry &&& PTE_V = 0 then pure 0
      else if entry &&& PTE_U = 0 then pure 0 else pure (PTE2PA entry))
      (fun pa m' => pa = userPage entry ∧ m' = m) m := by
  unfold userPage
  by_cases hv : entry &&& PTE_V = 0
  · rw [if_pos hv, if_pos hv]
    exact ⟨rfl, rfl⟩
  · rw [if_neg hv, if_neg hv]
    by_cases hu : entry &&& PTE_U = 0
    · rw [if_pos hu, if_pos hu]
      exact ⟨rfl, rfl⟩
    · rw [if_neg hu, if_neg hu]
      exact ⟨rfl, rfl⟩

theorem wp_run_walkaddr :
    wp (runRules g) (walkaddr pagetable va)
      (fun pa m' => pa = lookIn m.mem pagetable va ∧ m' = m) m := by
  unfold walkaddr lookIn
  split
  case isTrue hge => exact ⟨(if_neg (not_lt.mpr hge)).symm, rfl⟩
  case isFalse hlt =>
    rw [if_pos (not_le.mp hlt)]
    apply Prog.wp_bind.mpr
    apply Prog.wp_bind.mpr
    rw [walk, if_neg hlt]
    apply wp_run_walkFrom.mono
    rintro r m' ⟨rfl, hr⟩
    cases r with
    | none =>
      refine ⟨?_, rfl⟩
      have hleaf : leafEntry m'.mem pagetable va = 0 := hr.symm
      rw [hleaf]
      decide
    | some pte =>
      apply Prog.wp_bind.mpr
      apply wp_run_get
      have hleaf : leafEntry m'.mem pagetable va = m'.mem (pte.table / PGSIZE) pte.index := hr.symm
      rw [hleaf]
      exact wp_run_userPage

/-- Reading user memory needs nothing. -/
theorem access_run (g : Geometry) (m : Phys) (pagetable : ℕ) :
    Access (runRules g) pagetable (lookIn m.mem pagetable) (fun _ => True)
      (fun mem m' => mem = m.mem ∧ m' = m) where
  high h := if_neg (not_lt.mpr h)
  walk := by
    rintro mem m' va ⟨rfl, rfl⟩ -
    exact wp_run_walkaddr.mono fun pa m' h => ⟨h.1, rfl, h.2⟩
  read := by
    rintro mem m' va ⟨rfl, rfl⟩ - -
    exact ⟨_, _, rfl, rfl, rfl, rfl⟩

/-- The tables that the addresses in `scope` are reached through are as at the start. -/
structure TablesKept (m : Phys) (pagetable : ℕ) (scope : ℕ → Prop) (mem : ℕ → Page) (m' : Phys) :
    Prop where
  eq : m'.mem = mem
  freelist : m'.freelist = m.freelist
  tables : ∀ va, scope va → ∀ ppn ∈ walkPages m.mem pagetable va, mem ppn = m.mem ppn

/-- Writing needs that the pages written to are not among the tables. -/
theorem writes_run (g : Geometry) (m : Phys) (pagetable : ℕ) (scope : ℕ → Prop)
    (hapart : ∀ va, scope va → lookIn m.mem pagetable va ≠ 0 → ∀ va', scope va' →
      lookIn m.mem pagetable va / PGSIZE ∉ walkPages m.mem pagetable va') :
    Writes (runRules g) pagetable (lookIn m.mem pagetable) scope
      (TablesKept m pagetable scope) where
  high h := if_neg (not_lt.mpr h)
  walk := by
    intro mem m' va hS hscope
    refine wp_run_walkaddr.mono ?_
    rintro pa m'' ⟨rfl, rfl⟩
    refine ⟨?_, hS⟩
    have hentry : leafEntry m''.mem pagetable va = leafEntry m.mem pagetable va :=
      entryFrom_congr fun ppn hp => hS.eq ▸ hS.tables va hscope ppn hp
    simp only [lookIn, hentry]
  read := by
    intro mem m' va hS _ _
    refine ⟨_, _, rfl, ?_, hS⟩
    rw [hS.eq]
  write := by
    intro mem m' va f hS hscope hne
    refine ⟨_, _, rfl, ?_, hS.freelist, ?_⟩
    · rw [hS.eq]
    · intro va' hscope' ppn hp
      have hne' : ppn ≠ lookIn m.mem pagetable va / PGSIZE := fun he =>
        hapart va hscope hne va' hscope' (he ▸ hp)
      rw [update_of_ne hne']
      exact hS.tables va' hscope' ppn hp

/-! ### Exact copies -/

/-- No byte of the range is in physical page 0. -/
def NoPageZero (mem : ℕ → Page) (pagetable va len : ℕ) : Prop :=
  ∀ i < len, UserValid mem pagetable (va + i) → pageOf mem pagetable (va + i) ≠ 0

/-- The pages of the range are not among the tables through which it is reached. -/
def ApartFromTables (mem : ℕ → Page) (pagetable va len : ℕ) : Prop :=
  ∀ i < len, UserValid mem pagetable (va + i) → ∀ j < len,
    pageOf mem pagetable (va + i) ∉ walkPages mem pagetable (va + j)

/-- Where the byte at a user address is: the physical page and the offset. -/
def placeIn (mem : ℕ → Page) (pagetable va : ℕ) : ℕ × ℕ := (pageOf mem pagetable va, va % PGSIZE)

/-- The byte at a place. -/
def byteIn (mem : ℕ → Page) (x : ℕ × ℕ) : UInt8 := (mem x.1).byte x.2

/-- The byte at a user address. -/
def byteAt (mem : ℕ → Page) (pagetable va : ℕ) : UInt8 := byteIn mem (placeIn mem pagetable va)

/-- A buffer whose first `n` bytes have been fetched from `va` on. -/
def fetched (mem : ℕ → Page) (pagetable va n : ℕ) (dst : ℕ → UInt8) : ℕ → UInt8 := fun j =>
  if j < n then byteAt mem pagetable (va + j) else dst j

/-- One byte of memory set. -/
def setIn (mem : ℕ → Page) (x : ℕ × ℕ) (b : UInt8) : ℕ → Page :=
  update mem x.1 ((mem x.1).setByte x.2 b)

/-- Memory `mem` after `n` bytes have been stored from `va` on, one after another, each
where the page table of `tables` says. -/
def stored (tables : ℕ → Page) (pagetable va : ℕ) (src : ℕ → UInt8) : ℕ → (ℕ → Page) → (ℕ → Page)
  | 0, mem => mem
  | n + 1, mem =>
    setIn (stored tables pagetable va src n mem) (placeIn tables pagetable (va + n)) (src n)

variable {n k max : ℕ} {src dst buf : ℕ → UInt8} {r : Int}

theorem place_of_valid (h : UserValid mem pagetable va) :
    place (lookIn mem pagetable) va = placeIn mem pagetable va := by
  rw [place, lookIn_PGROUNDDOWN, lookIn_of_valid h, page_div]
  rfl

theorem userByte_of_valid (h : UserValid mem pagetable va) :
    userByte (lookIn mem pagetable) mem va = byteAt mem pagetable va := by
  rw [userByte, place_of_valid h]
  rfl

theorem loadBytes_eq_fetched (h : ∀ i < n, UserValid mem pagetable (va + i)) :
    loadBytes (lookIn mem pagetable) mem va n dst 0 = fetched mem pagetable va n dst := by
  funext j
  unfold loadBytes fetched
  by_cases hj : j < n
  · rw [if_pos (by omega), if_pos hj, Nat.sub_zero, userByte_of_valid (h j hj)]
  · rw [if_neg (by omega), if_neg hj]

theorem storeBytes_eq_stored (h : ∀ i < n, UserValid mem pagetable (va + i)) (mem' : ℕ → Page) :
    storeBytes (lookIn mem pagetable) va src n mem' = stored mem pagetable va src n mem' := by
  induction n with
  | zero => rfl
  | succ n ih =>
    rw [storeBytes, stored, ih fun i hi => h i (by omega), storeByte,
      place_of_valid (h n (Nat.lt_succ_self n))]
    rfl

/-- How far a copy gets, in terms of the table. -/
theorem Reaches.valid (h : Reaches (lookIn mem pagetable) va len k r)
    (hzero : NoPageZero mem pagetable va len) :
    (∀ i < k, UserValid mem pagetable (va + i)) ∧ (r = 0 ∨ r = -1) ∧
      (r = 0 ↔ ∀ i < len, UserValid mem pagetable (va + i)) ∧ (r = 0 → k = len) ∧
      (r = -1 → k < len) := by
  obtain ⟨hmapped, hend⟩ := h
  have hvalid : ∀ i < k, UserValid mem pagetable (va + i) := fun i hi =>
    (mapped_iff.mp (hmapped i hi)).1
  refine ⟨hvalid, ?_⟩
  rcases hend with ⟨rfl, rfl⟩ | ⟨rfl, hlt, hno⟩
  · exact ⟨.inl rfl, ⟨fun _ => hvalid, fun _ => rfl⟩, fun _ => rfl, fun h => absurd h (by decide)⟩
  · refine ⟨.inr rfl, ⟨fun h => absurd h (by decide), fun hall => ?_⟩,
      fun h => absurd h (by decide), fun _ => hlt⟩
    exact absurd (mapped_iff.mpr ⟨hall k hlt, hzero k hlt (hall k hlt)⟩) hno

/-- What a `copyin` of `len` bytes at `va` does. -/
def CopyinExact (g : Geometry) (m : Phys) (pagetable va len : ℕ) (dst : ℕ → UInt8) : Prop :=
  ∃ r buf, run g (copyin pagetable dst va len) m = some ((r, buf), m) ∧ (r = 0 ∨ r = -1) ∧
    (r = 0 ↔ ∀ i < len, UserValid m.mem pagetable (va + i)) ∧
    (r = 0 → buf = fetched m.mem pagetable va len dst) ∧
    (r = -1 → ∃ k < len, (∀ i < k, UserValid m.mem pagetable (va + i)) ∧
      buf = fetched m.mem pagetable va k dst)

/-- What a `copyout` of `len` bytes at `va` does. -/
def CopyoutExact (g : Geometry) (m : Phys) (pagetable va len : ℕ) (src : ℕ → UInt8) : Prop :=
  ∃ r mem', run g (copyout pagetable va src len) m = some (r, ⟨mem', m.freelist⟩) ∧
    (r = 0 ∨ r = -1) ∧ (r = 0 ↔ ∀ i < len, UserValid m.mem pagetable (va + i)) ∧
    (r = 0 → mem' = stored m.mem pagetable va src len m.mem) ∧
    (r = -1 → ∃ k < len, (∀ i < k, UserValid m.mem pagetable (va + i)) ∧
      mem' = stored m.mem pagetable va src k m.mem)

/-- The bytes from `va` on are a string of `k` bytes that ends with its NUL. -/
def StringAt (mem : ℕ → Page) (pagetable va k : ℕ) : Prop :=
  (∀ i ≤ k, UserValid mem pagetable (va + i)) ∧ (∀ i < k, byteAt mem pagetable (va + i) ≠ 0) ∧
    byteAt mem pagetable (va + k) = 0

/-- What a `copyinstr` of at most `max` bytes at `va` does. -/
def CopyinstrExact (g : Geometry) (m : Phys) (pagetable va max : ℕ) (dst : ℕ → UInt8) : Prop :=
  ∃ r buf, run g (copyinstr pagetable dst va max) m = some ((r, buf), m) ∧ (r = 0 ∨ r = -1) ∧
    (r = 0 ↔ ∃ k < max, byteAt m.mem pagetable (va + k) = 0 ∧
      ∀ i ≤ k, UserValid m.mem pagetable (va + i)) ∧
    (r = 0 → ∃ k < max, StringAt m.mem pagetable va k ∧
      buf = fetched m.mem pagetable va (k + 1) dst) ∧
    (r = -1 → ∃ k ≤ max, (∀ i < k, UserValid m.mem pagetable (va + i)) ∧
      buf = fetched m.mem pagetable va k dst)

theorem copyin_exact (hzero : NoPageZero m.mem pagetable va len) (dst : ℕ → UInt8) :
    CopyinExact g m pagetable va len dst := by
  have hwp : wp (runRules g) (copyin pagetable dst va len) _ m :=
    wp_copyin (access_run g m pagetable) ⟨rfl, rfl⟩ fun _ _ => trivial
  obtain ⟨⟨r, buf⟩, m', hrun, ⟨-, rfl⟩, k, hk, rfl⟩ := run_of_runRules hwp
  obtain ⟨hvalid, hr, hiff, h0, h1⟩ := hk.valid hzero
  rw [loadBytes_eq_fetched hvalid] at hrun
  refine ⟨r, _, hrun, hr, hiff, fun he => ?_, fun he => ⟨k, h1 he, hvalid, rfl⟩⟩
  rw [h0 he]

/-- `copyout` on memory where the range is apart from its tables. -/
theorem copyout_run (hapart : ApartFromTables m.mem pagetable va len) (src : ℕ → UInt8) :
    ∃ r k, Reaches (lookIn m.mem pagetable) va len k r ∧
      run g (copyout pagetable va src len) m =
        some (r, ⟨stored m.mem pagetable va src k m.mem, m.freelist⟩) := by
  have hwrites := writes_run g m pagetable (fun a => ∃ i < len, a = PGROUNDDOWN (va + i)) ?_
  · have hwp : wp (runRules g) (copyout pagetable va src len) _ m :=
      wp_copyout hwrites ⟨rfl, rfl, fun _ _ _ _ => rfl⟩ fun i hi => ⟨i, hi, rfl⟩
    obtain ⟨r, m', hrun, k, hk, hkept⟩ := run_of_runRules hwp
    refine ⟨r, k, hk, ?_⟩
    rw [hrun, ← storeBytes_eq_stored fun i hi => (mapped_iff.mp (hk.1 i hi)).1, ← hkept.freelist,
      ← hkept.eq]
  · rintro _ ⟨i, hi, rfl⟩ hne _ ⟨j, hj, rfl⟩
    have hv : UserValid m.mem pagetable (va + i) := by
      by_contra hno
      rw [lookIn_PGROUNDDOWN] at hne
      exact hne (lookIn_of_not_valid hno)
    rw [lookIn_PGROUNDDOWN, lookIn_of_valid hv, page_div, walkPages, pagesFrom_PGROUNDDOWN]
    exact hapart i hi hv j hj

theorem copyout_exact (hzero : NoPageZero m.mem pagetable va len)
    (hapart : ApartFromTables m.mem pagetable va len) (src : ℕ → UInt8) :
    CopyoutExact g m pagetable va len src := by
  obtain ⟨r, k, hk, hrun⟩ := copyout_run (g := g) hapart src
  obtain ⟨hvalid, hr, hiff, h0, h1⟩ := hk.valid hzero
  refine ⟨r, _, hrun, hr, hiff, fun he => ?_, fun he => ⟨k, h1 he, hvalid, rfl⟩⟩
  rw [h0 he]

theorem copyinstr_exact (hzero : NoPageZero m.mem pagetable va max) (dst : ℕ → UInt8) :
    CopyinstrExact g m pagetable va max dst := by
  have hwp : wp (runRules g) (copyinstr pagetable dst va max) _ m :=
    wp_copyinstr (access_run g m pagetable) ⟨rfl, rfl⟩ fun _ _ => trivial
  obtain ⟨⟨r, buf⟩, m', hrun, ⟨-, rfl⟩, k, hplain, hend⟩ := run_of_runRules hwp
  have hvalid : ∀ i < k, UserValid m'.mem pagetable (va + i) := fun i hi =>
    (mapped_iff.mp (hplain i hi).1).1
  have hbyte : ∀ i < k, byteAt m'.mem pagetable (va + i) ≠ 0 := fun i hi =>
    userByte_of_valid (hvalid i hi) ▸ (hplain i hi).2
  rcases hend with ⟨rfl, hlt, hm, hnul, rfl⟩ | ⟨rfl, rfl, hend⟩
  · have hk : UserValid m'.mem pagetable (va + k) := (mapped_iff.mp hm).1
    have hall : ∀ i ≤ k, UserValid m'.mem pagetable (va + i) := fun i hi =>
      (Nat.lt_or_eq_of_le hi).elim (hvalid i) fun he => he ▸ hk
    rw [userByte_of_valid hk] at hnul
    rw [loadBytes_eq_fetched fun i hi => hall i (Nat.lt_succ_iff.mp hi)] at hrun
    exact ⟨0, _, hrun, .inl rfl, ⟨fun _ => ⟨k, hlt, hnul, hall⟩, fun _ => rfl⟩,
      fun _ => ⟨k, hlt, ⟨hall, hbyte, hnul⟩, rfl⟩, fun h => absurd h (by decide)⟩
  · rw [loadBytes_eq_fetched hvalid] at hrun
    have hle : k ≤ max := hend.elim le_of_eq fun h => h.1.le
    refine ⟨-1, _, hrun, .inr rfl, ⟨fun h => absurd h (by decide), ?_⟩,
      fun h => absurd h (by decide), fun _ => ⟨k, hle, hvalid, rfl⟩⟩
    -- a NUL with all bytes before it mapped lies neither before nor after the end of the copy
    rintro ⟨j, hj, hnul, hall⟩
    exfalso
    have hkj : k ≤ j := by
      by_contra hlt
      exact hbyte j (not_le.mp hlt) hnul
    rcases hend with rfl | ⟨hlt, hno⟩
    · omega
    · exact hno (mapped_iff.mpr ⟨hall k hkj, hzero k hlt (hall k hkj)⟩)

theorem byteIn_setIn (mem : ℕ → Page) (x y : ℕ × ℕ) (b : UInt8) :
    byteIn (setIn mem x b) y = if y = x then b else byteIn mem y := by
  unfold byteIn setIn
  by_cases hp : y.1 = x.1
  · rw [hp, update_self, Page.byte_setByte]
    by_cases ho : y.2 = x.2
    · rw [ho, update_self, if_pos (Prod.ext hp ho)]
    · rw [update_of_ne ho, if_neg fun h => ho (congrArg Prod.snd h)]
  · rw [update_of_ne hp, if_neg fun h => hp (congrArg Prod.fst h)]

variable {tables : ℕ → Page}

/-- Bytes at other places stay. -/
theorem byteIn_stored_of_not {x : ℕ × ℕ} (h : ∀ i < n, x ≠ placeIn tables pagetable (va + i)) :
    byteIn (stored tables pagetable va src n mem) x = byteIn mem x := by
  induction n with
  | zero => rfl
  | succ n ih =>
    rw [stored, byteIn_setIn, if_neg (h n (Nat.lt_succ_self n))]
    exact ih fun i hi => h i (by omega)

/-- A place holds the last byte that was stored there. -/
theorem byteIn_stored {i : ℕ} (hi : i < n)
    (hlast : ∀ j, i < j → j < n →
      placeIn tables pagetable (va + i) ≠ placeIn tables pagetable (va + j)) :
    byteIn (stored tables pagetable va src n mem) (placeIn tables pagetable (va + i)) = src i := by
  induction n with
  | zero => exact absurd hi (Nat.not_lt_zero i)
  | succ n ih =>
    rw [stored, byteIn_setIn]
    by_cases he : i = n
    · subst he
      rw [if_pos rfl]
    · rw [if_neg (hlast n (by omega) (Nat.lt_succ_self n))]
      exact ih (by omega) fun j hj hjn => hlast j hj (by omega)

/-- **Exact copies.** Run on any memory, the three functions end; they return 0 exactly if
every byte is in a valid user page (up to a NUL for `copyinstr`), and otherwise -1; they have
then transferred the bytes of the range, or of a part at its start, and nothing else. The
range must not have a byte in physical page 0, and for `copyout` not in the tables it is
reached through. What has been stored is: at every place the last byte that goes there, and
elsewhere what was there. -/
theorem copies_are_exact (g : Geometry) (m : Phys) (pagetable va len : ℕ)
    (hzero : NoPageZero m.mem pagetable va len) :
    (∀ dst, CopyinExact g m pagetable va len dst) ∧
    (∀ dst, CopyinstrExact g m pagetable va len dst) ∧
    (ApartFromTables m.mem pagetable va len → ∀ src, CopyoutExact g m pagetable va len src) ∧
    (∀ src, ∀ k ≤ len,
      (∀ x, (∀ i < k, x ≠ placeIn m.mem pagetable (va + i)) →
        byteIn (stored m.mem pagetable va src k m.mem) x = byteIn m.mem x) ∧
      (∀ i < k, (∀ j, i < j → j < k →
          placeIn m.mem pagetable (va + i) ≠ placeIn m.mem pagetable (va + j)) →
        byteIn (stored m.mem pagetable va src k m.mem) (placeIn m.mem pagetable (va + i)) = src i)) :=
  ⟨copyin_exact hzero, copyinstr_exact hzero, fun hapart => copyout_exact hzero hapart,
    fun _ _ _ => ⟨fun _ h => byteIn_stored_of_not h, fun _ hi h => byteIn_stored hi h⟩⟩

/-! ### Small memories -/

def tiny : Geometry where
  lo := 1
  hi := 9
  lo_pos := Nat.one_pos
  hi_le := by decide

/-- A memory whose page table is at page 1, with its tables at pages 2 and 3. The entries of
the lowest table are given. -/
def withLeaves (leaf : ℕ → ℕ) : Phys where
  mem := fun ppn i =>
    if ppn = 1 then (if i = 0 then 1024 * 2 + PTE_V else 0)
    else if ppn = 2 then (if i = 0 then 1024 * 3 + PTE_V else 0)
    else if ppn = 3 then leaf i
    else 0
  freelist := 0

/-- One page is mapped, to physical page `ppn` with the given flags. -/
def onePage (ppn flags : ℕ) : Phys := withLeaves fun i => if i = 0 then 1024 * ppn + flags else 0

/-- Two pages are mapped, the first to physical page 5 and the second to physical page 4. -/
def twoPages : Phys := withLeaves fun i =>
  if i = 0 then 1024 * 5 + (PTE_V ||| PTE_R ||| PTE_W ||| PTE_U)
  else if i = 1 then 1024 * 4 + (PTE_V ||| PTE_R ||| PTE_W ||| PTE_U)
  else 0

/-- Four bytes are copied over a page boundary, out and in. -/
theorem copies_are_exact_across :
    NoPageZero twoPages.mem (PGSIZE * 1) 4094 4 ∧
      ApartFromTables twoPages.mem (PGSIZE * 1) 4094 4 ∧
      (∃ buf, run tiny (copyin (PGSIZE * 1) (fun _ => 1) 4094 4) twoPages =
        some ((0, buf), twoPages) ∧ buf 3 = 0 ∧ buf 4 = 1) ∧
      ∃ m', run tiny (copyout (PGSIZE * 1) 4094 (fun i => UInt8.ofNat (7 + i)) 4) twoPages =
          some (0, m') ∧
        byteIn m'.mem (5, 4095) = 8 ∧ byteIn m'.mem (4, 0) = 9 ∧ byteIn m'.mem (4, 2) = 0 := by
  have hzero : NoPageZero twoPages.mem (PGSIZE * 1) 4094 4 := by
    unfold NoPageZero
    decide +kernel
  have hapart : ApartFromTables twoPages.mem (PGSIZE * 1) 4094 4 := by
    unfold ApartFromTables
    decide +kernel
  have hvalid : ∀ i < 4, UserValid twoPages.mem (PGSIZE * 1) (4094 + i) := by decide +kernel
  have hplaces : ∀ i < 4, ∀ j < 4, i < j → placeIn twoPages.mem (PGSIZE * 1) (4094 + i) ≠
      placeIn twoPages.mem (PGSIZE * 1) (4094 + j) := by decide +kernel
  obtain ⟨hin, -, hout, hstored⟩ := copies_are_exact tiny twoPages (PGSIZE * 1) 4094 4 hzero
  obtain ⟨r, buf, hrun, -, hiff, hbuf, -⟩ := hin fun _ => 1
  obtain ⟨r', mem', hrun', -, hiff', hmem', -⟩ := hout hapart fun i => UInt8.ofNat (7 + i)
  obtain ⟨hkeep, hlast⟩ := hstored (fun i => UInt8.ofNat (7 + i)) 4 le_rfl
  obtain rfl := hiff.mpr hvalid
  obtain rfl := hiff'.mpr hvalid
  rw [hbuf rfl] at hrun
  rw [hmem' rfl] at hrun'
  refine ⟨hzero, hapart, ⟨_, hrun, by decide +kernel, rfl⟩, _, hrun', ?_, ?_, ?_⟩
  · have hplace : placeIn twoPages.mem (PGSIZE * 1) (4094 + 1) = (5, 4095) := by decide +kernel
    rw [← hplace]
    exact hlast 1 (by decide) fun j hj hlt => hplaces 1 (by decide) j hlt hj
  · have hplace : placeIn twoPages.mem (PGSIZE * 1) (4094 + 2) = (4, 0) := by decide +kernel
    rw [← hplace]
    exact hlast 2 (by decide) fun j hj hlt => hplaces 2 (by decide) j hlt hj
  · rw [hkeep (4, 2) (by decide +kernel)]
    decide +kernel

/-- The lowest table maps itself next to an ordinary page. -/
def selfMapped : Phys := withLeaves fun i =>
  if i = 510 then 1024 * 3 + (PTE_V ||| PTE_R ||| PTE_W ||| PTE_U)
  else if i = 511 then 1024 * 4 + (PTE_V ||| PTE_R ||| PTE_W ||| PTE_U)
  else 0

/-- A byte of physical page 0 is in a valid user page, but `copyin` refuses it. And when the
range is mapped to a table it is reached through, `copyout` overwrites that table's entry for
the next page and fails, although every byte was in a valid user page. -/
theorem copies_need_sound_tables :
    ((∀ i < 1, UserValid (onePage 0 (PTE_V ||| PTE_R ||| PTE_U)).mem (PGSIZE * 1) (0 + i)) ∧
      (run tiny (copyin (PGSIZE * 1) (fun _ => 0) 0 1)
        (onePage 0 (PTE_V ||| PTE_R ||| PTE_U))).map (fun x => x.1.1) = some (-1)) ∧
    ((∀ i < 9, UserValid selfMapped.mem (PGSIZE * 1) (510 * PGSIZE + 4088 + i)) ∧
      (run tiny (copyout (PGSIZE * 1) (510 * PGSIZE + 4088) (fun _ => 0) 9) selfMapped).map
        (fun x => x.1) = some (-1)) := by
  decide +kernel

/-! ### Write permission -/

/-- The entry of the address allows writing. -/
def Writable (mem : ℕ → Page) (pagetable va : ℕ) : Prop :=
  va < MAXVA ∧ leafEntry mem pagetable va &&& PTE_W ≠ 0

/-- There is a page for the address, for the user or not. -/
def Present (mem : ℕ → Page) (pagetable va : ℕ) : Prop :=
  va < MAXVA ∧ leafEntry mem pagetable va &&& PTE_V ≠ 0

instance (mem : ℕ → Page) (pagetable va : ℕ) : Decidable (Writable mem pagetable va) := by
  unfold Writable
  infer_instance

instance (mem : ℕ → Page) (pagetable va : ℕ) : Decidable (Present mem pagetable va) := by
  unfold Present
  infer_instance

/-- A byte that `copyout` finds: in a valid user page that is not physical page 0. -/
def Found (mem : ℕ → Page) (pagetable va : ℕ) : Prop :=
  UserValid mem pagetable va ∧ pageOf mem pagetable va ≠ 0

instance (mem : ℕ → Page) (pagetable va : ℕ) : Decidable (Found mem pagetable va) := by
  unfold Found
  infer_instance

/-- Somewhere the page behind the address is mapped without permission to write. -/
def ReadOnly (mem : ℕ → Page) (pagetable va : ℕ) : Prop :=
  ∃ va', Present mem pagetable va' ∧ ¬Writable mem pagetable va' ∧
    pageOf mem pagetable va' = pageOf mem pagetable va

/-- Byte `i` of the range is the last that goes to its place, of those up to which every byte
is found. -/
def LastAt (mem : ℕ → Page) (pagetable va len i : ℕ) : Prop :=
  (∀ j ≤ i, Found mem pagetable (va + j)) ∧
    ∀ k, i < k → k < len → (∀ j ≤ k, Found mem pagetable (va + j)) →
      placeIn mem pagetable (va + i) ≠ placeIn mem pagetable (va + k)

/-- `copyout` leaves the bytes of pages without `PTE_W` alone, and returns -1 if the range
touches one. -/
def RespectsWrite (g : Geometry) (m : Phys) (pagetable va len : ℕ) (src : ℕ → UInt8) : Prop :=
  ∃ r m', run g (copyout pagetable va src len) m = some (r, m') ∧
    (∀ va', Present m.mem pagetable va' → ¬Writable m.mem pagetable va' → ∀ off,
      byteIn m'.mem (pageOf m.mem pagetable va', off) =
        byteIn m.mem (pageOf m.mem pagetable va', off)) ∧
    ((∃ i < len, ¬Writable m.mem pagetable (va + i)) → r = -1)

/-- How far a copy gets, in terms of the bytes that are found. -/
theorem Reaches.found (h : Reaches (lookIn mem pagetable) va len k r) :
    k ≤ len ∧ (∀ i, i < k ↔ i < len ∧ ∀ j ≤ i, Found mem pagetable (va + j)) ∧
      (k = len → r = 0) ∧ (k < len → r = -1) := by
  obtain ⟨hmapped, hend⟩ := h
  have hfound : ∀ i < k, Found mem pagetable (va + i) := fun i hi => mapped_iff.mp (hmapped i hi)
  rcases hend with ⟨rfl, rfl⟩ | ⟨rfl, hlt, hno⟩
  · exact ⟨le_rfl, fun i => ⟨fun hi => ⟨hi, fun j hj => hfound j (by omega)⟩, And.left⟩,
      fun _ => rfl, fun hlt => absurd hlt (lt_irrefl k)⟩
  · refine ⟨hlt.le, fun i => ⟨fun hi => ⟨by omega, fun j hj => hfound j (by omega)⟩, ?_⟩,
      fun he => absurd he hlt.ne, fun _ => rfl⟩
    rintro ⟨-, hall⟩
    by_contra hge
    exact hno (mapped_iff.mpr (hall k (not_lt.mp hge)))

/-- A place that is stored to is stored to a last time. -/
theorem exists_last {x : ℕ × ℕ} (h : ∃ i < n, x = placeIn tables pagetable (va + i)) :
    ∃ i < n, x = placeIn tables pagetable (va + i) ∧
      ∀ j, i < j → j < n → placeIn tables pagetable (va + i) ≠ placeIn tables pagetable (va + j) := by
  induction n with
  | zero =>
    obtain ⟨i, hi, -⟩ := h
    exact absurd hi (Nat.not_lt_zero i)
  | succ n ih =>
    by_cases hn : x = placeIn tables pagetable (va + n)
    · exact ⟨n, Nat.lt_succ_self n, hn, fun j hj hjn => absurd hjn (by omega)⟩
    · obtain ⟨i, hi, hx⟩ := h
      have hin : i ≠ n := fun he => hn (he ▸ hx)
      obtain ⟨l, hl, hxl, hlast⟩ := ih ⟨i, by omega, hx⟩
      refine ⟨l, by omega, hxl, fun j hj hjn => ?_⟩
      by_cases he : j = n
      · rw [he, ← hxl]
        exact hn
      · exact hlast j hj (by omega)

/-- **Write permission.** Where the range is not mapped to the tables it is reached through,
`copyout` respects write permission exactly if what it stores to pages that are not writable
everywhere is what they hold, and a range with a page for every byte is writable. -/
theorem copyout_respects_write_iff (g : Geometry) (m : Phys) (pagetable va len : ℕ)
    (src : ℕ → UInt8) (hapart : ApartFromTables m.mem pagetable va len) :
    RespectsWrite g m pagetable va len src ↔
      (∀ i < len, LastAt m.mem pagetable va len i → ReadOnly m.mem pagetable (va + i) →
        src i = byteAt m.mem pagetable (va + i)) ∧
      ((∀ i < len, Found m.mem pagetable (va + i)) →
        ∀ i < len, Writable m.mem pagetable (va + i)) := by
  obtain ⟨r, k, hreach, hrun⟩ := copyout_run (g := g) hapart src
  obtain ⟨hle, hiff, hdone, hstop⟩ := hreach.found
  have hlast : ∀ {i}, i < k →
      (LastAt m.mem pagetable va len i ↔ ∀ j, i < j → j < k →
        placeIn m.mem pagetable (va + i) ≠ placeIn m.mem pagetable (va + j)) := by
    intro i hi
    constructor
    · exact fun h j hij hjk => h.2 j hij (by omega) ((hiff j).mp hjk).2
    · exact fun h => ⟨((hiff i).mp hi).2, fun j hij hjl hall => h j hij ((hiff j).mpr ⟨hjl, hall⟩)⟩
  constructor
  · rintro ⟨r', m', hrun', hkeep, hret⟩
    obtain ⟨rfl, rfl⟩ := Prod.mk.inj (Option.some.inj (hrun.symm.trans hrun'))
    constructor
    · rintro i hi hl ⟨va', hpresent, hno, hpage⟩
      have hik : i < k := (hiff i).mpr ⟨hi, hl.1⟩
      have hbyte := hkeep va' hpresent hno ((va + i) % PGSIZE)
      rw [hpage] at hbyte
      exact (byteIn_stored hik ((hlast hik).mp hl)).symm.trans hbyte
    · intro hall i hi
      by_contra hno
      have hk : k = len := by
        by_contra hne
        exact absurd ((hiff k).mpr ⟨by omega, fun j hj => hall j (by omega)⟩) (lt_irrefl k)
      have hneg := hret ⟨i, hi, hno⟩
      rw [hdone hk] at hneg
      exact absurd hneg (by decide)
  · rintro ⟨hsame, hwritable⟩
    refine ⟨r, _, hrun, fun va' hpresent hno off => ?_, ?_⟩
    · by_cases hx : ∃ i < k, (pageOf m.mem pagetable va', off) = placeIn m.mem pagetable (va + i)
      · obtain ⟨i, hi, hplace, hl⟩ := exists_last hx
        have hro : ReadOnly m.mem pagetable (va + i) :=
          ⟨va', hpresent, hno, congrArg Prod.fst hplace⟩
        rw [hplace, byteIn_stored hi hl]
        exact hsame i (by omega) ((hlast hi).mpr hl) hro
      · exact byteIn_stored_of_not fun i hi he => hx ⟨i, hi, he⟩
    · rintro ⟨i, hi, hno⟩
      apply hstop
      by_contra hge
      have hall : ∀ j < len, Found m.mem pagetable (va + j) := fun j hj =>
        ((hiff j).mp (by omega)).2 j le_rfl
      exact hno (hwritable hall i hi)

section WithLeaves

variable (leaf : ℕ → ℕ) (va : ℕ)

/-- A walk in a small memory: where it ends and which tables it reads. -/
theorem walk_withLeaves :
    (leafEntry (withLeaves leaf).mem (PGSIZE * 1) va = 0 ∨
      leafEntry (withLeaves leaf).mem (PGSIZE * 1) va = leaf (PX 0 va)) ∧
    ∀ ppn ∈ walkPages (withLeaves leaf).mem (PGSIZE * 1) va, ppn ≤ 3 := by
  have h1 : PGSIZE * 1 / PGSIZE = 1 := by decide
  have h2 : PTE2PA (1024 * 2 + PTE_V) / PGSIZE = 2 := by decide +kernel
  have h3 : PTE2PA (1024 * 3 + PTE_V) / PGSIZE = 3 := by decide +kernel
  have hv2 : (1024 * 2 + PTE_V) &&& PTE_V ≠ 0 := by decide
  have hv3 : (1024 * 3 + PTE_V) &&& PTE_V ≠ 0 := by decide
  have hv0 : ¬(0 &&& PTE_V ≠ 0) := by decide
  have h21 : ¬2 = 1 := by decide
  have h31 : ¬3 = 1 := by decide
  have h32 : ¬3 = 2 := by decide
  simp only [leafEntry, entryFrom, walkPages, pagesFrom, withLeaves, h1, if_true]
  by_cases hx2 : PX 2 va = 0
  · simp only [hx2, if_true, if_pos hv2, h2, if_neg h21]
    by_cases hx1 : PX 1 va = 0
    · simp only [hx1, if_true, if_pos hv3, h3, if_neg h31, if_neg h32]
      exact ⟨.inr trivial, by decide⟩
    · simp only [if_neg hx1, if_neg hv0]
      exact ⟨.inl trivial, by decide⟩
  · simp only [if_neg hx2, if_neg hv0]
    exact ⟨.inl trivial, by decide⟩

end WithLeaves

/-- A writable page, then none, then a page that is only readable. -/
def gap : Phys := withLeaves fun i =>
  if i = 0 then 1024 * 5 + (PTE_V ||| PTE_R ||| PTE_W ||| PTE_U)
  else if i = 2 then 1024 * 4 + (PTE_V ||| PTE_R ||| PTE_U)
  else 0

/-- The entries there. -/
theorem leafEntry_gap (va : ℕ) : leafEntry gap.mem (PGSIZE * 1) va = 0 ∨
    leafEntry gap.mem (PGSIZE * 1) va = 1024 * 5 + (PTE_V ||| PTE_R ||| PTE_W ||| PTE_U) ∨
    leafEntry gap.mem (PGSIZE * 1) va = 1024 * 4 + (PTE_V ||| PTE_R ||| PTE_U) := by
  rcases (walk_withLeaves _ va).1 with h | h
  · exact .inl h
  · rw [gap, h]
    split
    · exact .inr (.inl rfl)
    · split
      · exact .inr (.inr rfl)
      · exact .inl rfl

/-- A range over the three pages: `copyout` stops at the second, and the third stays. -/
theorem copyout_respects_write_iff_gap :
    ApartFromTables gap.mem (PGSIZE * 1) 4095 4098 ∧
      ¬Writable gap.mem (PGSIZE * 1) (4095 + 4097) ∧
      RespectsWrite tiny gap (PGSIZE * 1) 4095 4098 fun _ => 7 := by
  have hapart : ApartFromTables gap.mem (PGSIZE * 1) 4095 4098 := by
    intro i _ hv j _ hmem
    have hle := (walk_withLeaves _ (4095 + j)).2 _ hmem
    have hge : 4 ≤ pageOf gap.mem (PGSIZE * 1) (4095 + i) := by
      unfold pageOf
      rcases leafEntry_gap (4095 + i) with h | h | h
      · exact absurd (by rw [h]; rfl) hv.2.1
      · rw [h]
        decide +kernel
      · rw [h]
        decide +kernel
    exact absurd hle (by omega)
  have hhole : ¬Found gap.mem (PGSIZE * 1) (4095 + 1) := by decide +kernel
  refine ⟨hapart, by decide +kernel, (copyout_respects_write_iff tiny gap (PGSIZE * 1) 4095 4098
    (fun _ => 7) hapart).mpr ⟨?_, fun hall => absurd (hall 1 (by decide)) hhole⟩⟩
  rintro i - hl ⟨va', hpresent, hno, hpage⟩
  have hi : i = 0 := by
    by_contra hne
    exact hhole (hl.1 1 (by omega))
  have hfive : pageOf gap.mem (PGSIZE * 1) (4095 + 0) = 5 := by decide +kernel
  rw [hi, hfive, pageOf] at hpage
  exfalso
  rcases leafEntry_gap va' with h | h | h
  · exact hpresent.2 (by rw [h]; rfl)
  · exact hno ⟨hpresent.1, by rw [h]; decide⟩
  · rw [h] at hpage
    exact absurd hpage (by decide +kernel)

/-- `copyout` does not look at `PTE_W`: it writes to a page that is mapped without it, and
returns 0. -/
theorem copyout_ignores_write :
    Present (onePage 4 (PTE_V ||| PTE_R ||| PTE_U)).mem (PGSIZE * 1) 0 ∧
      ¬Writable (onePage 4 (PTE_V ||| PTE_R ||| PTE_U)).mem (PGSIZE * 1) 0 ∧
      byteIn (onePage 4 (PTE_V ||| PTE_R ||| PTE_U)).mem (4, 0) = 0 ∧
      (run tiny (copyout (PGSIZE * 1) 0 (fun _ => 7) 1) (onePage 4 (PTE_V ||| PTE_R ||| PTE_U))).map
        (fun x => (x.1, byteIn x.2.mem (4, 0))) = some (0, 7) := by
  decide +kernel

end Xv6.Vm
