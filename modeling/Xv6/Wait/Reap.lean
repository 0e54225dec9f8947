import Xv6.Proc
import Xv6.Vm.Exact

/-!
What `sys_wait` and `sys_waitx` do to the process table and to the caller's memory.

Both look for a zombie child, copy its exit status to the caller and free its slot; without
a child they return -1, and otherwise they sleep and look again. A round is one pass over the
table, with `wait_lock` held, so nothing else happens to it meanwhile; while the call sleeps
anything may. `sys_waitx` copies the child's times to the caller afterwards, from locals that
`waitx` sets only when it finds a zombie. What the locals hold before that is a parameter.

User memory is physical memory behind a page table, reached by the `copyout` of the memory
model. The pages of the child that `freeproc` gives back are not the caller's and are left out.

* `wait_keeps_children_iff`: when exactly a call that returns -1 has not reaped a child, and
  when the times that are written are those of the child whose pid is returned.
* `waitx_loses_child`: what happens otherwise.
-/

namespace Xv6.Reap

open Function (update)
open Prog (wp)
open Vm (Code Phys Page Geometry run run_bind copyout)

/-- `struct proc` with the fields that waiting reads and writes. -/
structure Proc extends Xv6.Proc where
  parent : Option ℕ
  xstate : UInt32
deriving DecidableEq

/-- `proc[NPROC]`, by slot. -/
abbrev Table : Type := ℕ → Proc

/-- `freeproc`. -/
def freeproc (t : Table) (q : ℕ) : Table :=
  update t q { toProc := (t q).toProc.freeproc, parent := none, xstate := 0 }

/-- An `int` or `uint` in memory. -/
def bytes32 (x : UInt32) : ℕ → UInt8 := fun i => UInt8.ofNat (x.toNat / 256 ^ i)

/-- `myproc()`: its slot and its page table. -/
structure Caller where
  slot : ℕ
  pagetable : ℕ

/-- The first child that has exited. -/
def firstZombie (t : Table) (p : ℕ) : Option ℕ :=
  (List.range NPROC).find? fun q => (t q).parent = some p && (t q).state = .zombie

def haveKids (t : Table) (p : ℕ) : Bool := (List.range NPROC).any fun q => (t q).parent = some p

/-- How a round ends that does not sleep: the child it came upon, the result, and the table. -/
structure Found where
  child : Option ℕ
  ret : Int
  table : Table

/-- `addr != 0 && copyout(...)`. -/
def copyStatus (c : Caller) (addr : ℕ) (xstate : UInt32) : Code Int :=
  if addr ≠ 0 then copyout c.pagetable addr (bytes32 xstate) 4 else pure 0

/-- One round of the loop of `wait` and `waitx`; `none` means that it sleeps. -/
def scan (c : Caller) (addr : ℕ) (t : Table) : Code (Option Found) :=
  match firstZombie t c.slot with
  | some q => do
    let r ← copyStatus c addr (t q).xstate
    if r < 0 then
      pure (some ⟨some q, -1, t⟩)
    else
      pure (some ⟨some q, (t q).pid, freeproc t q⟩)
  | none =>
    if haveKids t c.slot = false ∨ (t c.slot).killed then
      pure (some ⟨none, -1, t⟩)
    else
      pure none

/-- A round, which goes on with `finish` when it does not sleep. -/
def afterScan (c : Caller) (addr : ℕ) (t : Table) (finish : Found → Code (Option Int × Table)) :
    Code (Option Int × Table) := do
  match ← scan c addr t with
  | none => pure (none, t)
  | some x => finish x

/-- A round of `sys_wait`. -/
def sysWait (c : Caller) (addr : ℕ) (t : Table) : Code (Option Int × Table) :=
  afterScan c addr t fun x => pure (some x.ret, x.table)

/-- `*wtime` after `waitx`, with `local` what was there before. -/
def wtimeOf (t : Table) (junk : UInt32) : Option ℕ → UInt32
  | none => junk
  | some q => .ofNat (t q).etime - .ofNat (t q).ctime - .ofNat (t q).rtime

def rtimeOf (t : Table) (junk : UInt32) : Option ℕ → UInt32
  | none => junk
  | some q => .ofNat (t q).rtime

/-- The arguments of `sys_waitx`, and what its locals `wtime` and `rtime` hold at first. -/
structure WaitxArgs where
  addr : ℕ
  addr1 : ℕ
  addr2 : ℕ
  wtime : UInt32
  rtime : UInt32

/-- The end of `sys_waitx`. -/
def copyTimes (c : Caller) (a : WaitxArgs) (t : Table) (x : Found) : Code (Option Int × Table) := do
  let r₁ ← copyout c.pagetable a.addr1 (bytes32 (wtimeOf t a.wtime x.child)) 4
  if r₁ < 0 then
    pure (some (-1), x.table)
  else do
    let r₂ ← copyout c.pagetable a.addr2 (bytes32 (rtimeOf t a.rtime x.child)) 4
    if r₂ < 0 then
      pure (some (-1), x.table)
    else
      pure (some x.ret, x.table)

/-- A round of `sys_waitx`. -/
def sysWaitx (c : Caller) (a : WaitxArgs) (t : Table) : Code (Option Int × Table) :=
  afterScan c a.addr t (copyTimes c a t)

/-! ### Calls -/

structure World where
  table : Table
  mem : Phys

/-- A round on the world. -/
def roundOf (g : Geometry) (x : Table → Code (Option Int × Table)) (w : World) :
    Option (Option Int × World) :=
  (run g (x w.table) w.mem).map fun y => (y.1.1, ⟨y.1.2, y.2⟩)

/-- A call that starts in `w` returns `r` in `w'`; its last round starts in `v`. While it
sleeps the other processes may do anything. -/
inductive Returns (round : World → Option (Option Int × World)) :
    World → World → Int → World → Prop where
  | now {w w' : World} {r : Int} : round w = some (some r, w') → Returns round w w r w'
  | sleep {w w₁ w₂ v w' : World} {r : Int} : round w = some (none, w₁) →
      Returns round w₂ v r w' → Returns round w v r w'

theorem Returns.last {round : World → Option (Option Int × World)} {w v w' : World} {r : Int}
    (h : Returns round w v r w') : round v = some (some r, w') := by
  induction h with
  | now h => exact h
  | sleep _ _ ih => exact ih

/-! ### What a round does -/

variable {g : Geometry} {c : Caller} {addr : ℕ} {a : WaitxArgs} {t : Table} {m m' : Phys}

theorem scan_none {x : Option Found} (hz : firstZombie t c.slot = none)
    (h : run g (scan c addr t) m = some (x, m')) :
    m' = m ∧ (x = none ∨ x = some ⟨none, -1, t⟩) := by
  unfold scan at h
  rw [hz] at h
  dsimp only at h
  split at h
  · cases h
    exact ⟨rfl, .inr rfl⟩
  · cases h
    exact ⟨rfl, .inl rfl⟩

/-- Only a round that finds no zombie sleeps. -/
theorem scan_sleeps (h : run g (scan c addr t) m = some (none, m')) : m' = m := by
  cases hz : firstZombie t c.slot with
  | none => exact (scan_none hz h).1
  | some q =>
    unfold scan at h
    rw [hz] at h
    rw [run_bind] at h
    obtain ⟨y, -, hy⟩ := Option.bind_eq_some_iff.mp h
    split at hy <;> cases hy

variable {x : Found}

/-- `sys_waitx` does not sleep after `waitx`. -/
theorem copyTimes_returns {t' : Table} :
    run g (copyTimes c a t x) m ≠ some ((none, t'), m') := by
  intro h
  unfold copyTimes at h
  rw [run_bind] at h
  obtain ⟨y₁, -, hy₁⟩ := Option.bind_eq_some_iff.mp h
  split at hy₁
  · cases hy₁
  · rw [run_bind] at hy₁
    obtain ⟨y₂, -, hy₂⟩ := Option.bind_eq_some_iff.mp hy₁
    split at hy₂ <;> cases hy₂

theorem afterScan_run {finish : Found → Code (Option Int × Table)} {y : Option Int × Table}
    (h : run g (afterScan c addr t finish) m = some (y, m')) :
    (y = (none, t) ∧ m' = m) ∨
      ∃ x m₁, run g (scan c addr t) m = some (some x, m₁) ∧ run g (finish x) m₁ = some (y, m') := by
  unfold afterScan at h
  rw [run_bind] at h
  obtain ⟨⟨x, m₁⟩, hx, hy⟩ := Option.bind_eq_some_iff.mp h
  cases x with
  | none =>
    cases hy
    exact .inl ⟨rfl, scan_sleeps hx⟩
  | some x => exact .inr ⟨x, m₁, hx, hy⟩

/-! ### Places that can be written -/

/-- Four bytes from `va` on can be written. -/
def CanWrite (m : Phys) (c : Caller) (va : ℕ) : Prop :=
  ∀ i < 4, Vm.Found m.mem c.pagetable (va + i)

/-- The exit status can be copied, or is not asked for. -/
def StatusOk (m : Phys) (c : Caller) (addr : ℕ) : Prop := addr = 0 ∨ CanWrite m c addr

/-- The places for the times can be written. -/
def TimesOk (m : Phys) (c : Caller) (a : WaitxArgs) : Prop :=
  CanWrite m c a.addr1 ∧ CanWrite m c a.addr2

/-- The three places are not in the tables through which they are reached. -/
def Apart (m : Phys) (c : Caller) (a : WaitxArgs) : Prop :=
  ∀ b ∈ [a.addr, a.addr1, a.addr2], ∀ d ∈ [a.addr, a.addr1, a.addr2], ∀ i < 4,
    Vm.UserValid m.mem c.pagetable (b + i) → ∀ j < 4,
      Vm.pageOf m.mem c.pagetable (b + i) ∉ Vm.walkPages m.mem c.pagetable (d + j)

/-- Memory after the first `k₁` and `k₂` bytes of the times have been copied. -/
def withTimes (m : Phys) (c : Caller) (a : WaitxArgs) (wtime rtime : UInt32) (k₁ k₂ : ℕ)
    (mem : ℕ → Page) : ℕ → Page :=
  Vm.stored m.mem c.pagetable a.addr2 (bytes32 rtime) k₂
    (Vm.stored m.mem c.pagetable a.addr1 (bytes32 wtime) k₁ mem)

/-- The pages of the three places. -/
def scopeOf (a : WaitxArgs) (va : ℕ) : Prop :=
  ∃ b ∈ [a.addr, a.addr1, a.addr2], ∃ i < 4, va = Vm.PGROUNDDOWN (b + i)

theorem writes_of_apart (g : Geometry) (h : Apart m c a) :
    Vm.Writes (Vm.runRules g) c.pagetable (Vm.lookIn m.mem c.pagetable) (scopeOf a)
      (Vm.TablesKept m c.pagetable (scopeOf a)) := by
  apply Vm.writes_run
  rintro _ ⟨b, hb, i, hi, rfl⟩ hne _ ⟨d, hd, j, hj, rfl⟩
  have hv : Vm.UserValid m.mem c.pagetable (b + i) := by
    by_contra hno
    rw [Vm.lookIn_PGROUNDDOWN] at hne
    exact hne (Vm.lookIn_of_not_valid hno)
  rw [Vm.lookIn_PGROUNDDOWN, Vm.lookIn_of_valid hv, Vm.page_div, Vm.walkPages,
    Vm.pagesFrom_PGROUNDDOWN]
  exact h b hb d hd i hi hv j hj

/-- The memory of a call in which the tables are as they were in `m`. -/
def Kept (m : Phys) (c : Caller) (a : WaitxArgs) (m' : Phys) : Prop :=
  Vm.TablesKept m c.pagetable (scopeOf a) m'.mem m'

theorem Kept.refl (m : Phys) (c : Caller) (a : WaitxArgs) : Kept m c a m :=
  ⟨rfl, rfl, fun _ _ _ _ => rfl⟩

/-- A `copyout` to one of the places, while the tables are as in `m`. -/
theorem wp_copyout_place (h : Apart m c a) {va : ℕ} (hva : va ∈ [a.addr, a.addr1, a.addr2])
    (hS : Kept m c a m') (src : ℕ → UInt8) :
    wp (Vm.runRules g) (copyout c.pagetable va src 4)
      (fun r m'' => Kept m c a m'' ∧
        ∃ k, m''.mem = Vm.stored m.mem c.pagetable va src k m'.mem ∧
          (CanWrite m c va ∧ r = 0 ∧ k = 4 ∨ ¬CanWrite m c va ∧ r = -1)) m' := by
  apply (Vm.wp_copyout (writes_of_apart g h) hS fun i hi => ⟨va, hva, i, hi, rfl⟩).mono
  rintro r m'' ⟨k, hk, hS'⟩
  obtain ⟨hle, hfound, h0, h1⟩ := hk.found
  rw [Vm.storeBytes_eq_stored fun i hi => (Vm.mapped_iff.mp (hk.1 i hi)).1] at hS'
  have heq := hS'.eq
  refine ⟨by rw [← heq] at hS'; exact hS', k, heq, ?_⟩
  rcases hle.lt_or_eq with hlt | rfl
  · refine .inr ⟨fun hcan => ?_, h1 hlt⟩
    exact absurd ((hfound k).mpr ⟨hlt, fun j hj => hcan j (by omega)⟩) (lt_irrefl k)
  · exact .inl ⟨fun i hi => ((hfound i).mp hi).2 i le_rfl, h0 rfl, rfl⟩

/-- How `sys_waitx` ends: the times are copied if both places can be written, and otherwise it
returns -1. -/
def Copied (m : Phys) (c : Caller) (a : WaitxArgs) (t : Table) (x : Found) (mem : ℕ → Page)
    (y : Option Int × Table) (m' : Phys) : Prop :=
  y.2 = x.table ∧ ∃ k₁ k₂,
    m'.mem = withTimes m c a (wtimeOf t a.wtime x.child) (rtimeOf t a.rtime x.child) k₁ k₂ mem ∧
    (TimesOk m c a ∧ y.1 = some x.ret ∧ k₁ = 4 ∧ k₂ = 4 ∨ ¬TimesOk m c a ∧ y.1 = some (-1))

theorem wp_copyTimes (h : Apart m c a) (hS : Kept m c a m') (x : Found) :
    wp (Vm.runRules g) (copyTimes c a t x) (Copied m c a t x m'.mem) m' := by
  apply (wp_copyout_place h (by simp) hS _).bind
  rintro r₁ m₁ ⟨hS₁, k₁, hmem₁, ⟨hcan₁, rfl, rfl⟩ | ⟨hno₁, rfl⟩⟩
  · rw [if_neg (by decide)]
    apply (wp_copyout_place h (by simp) hS₁ _).bind
    rintro r₂ m₂ ⟨-, k₂, hmem₂, hr₂⟩
    rw [hmem₁] at hmem₂
    rcases hr₂ with ⟨hcan₂, rfl, rfl⟩ | ⟨hno₂, rfl⟩
    · rw [if_neg (by decide)]
      exact ⟨rfl, 4, 4, hmem₂, .inl ⟨⟨hcan₁, hcan₂⟩, rfl, rfl, rfl⟩⟩
    · rw [if_pos (by decide)]
      exact ⟨rfl, 4, k₂, hmem₂, .inr ⟨fun hok => hno₂ hok.2, rfl⟩⟩
  · rw [if_pos (by decide)]
    exact ⟨rfl, k₁, 0, hmem₁, .inr ⟨fun hok => hno₁ hok.1, rfl⟩⟩

theorem wp_copyStatus (h : Apart m c a) (xstate : UInt32) :
    wp (Vm.runRules g) (copyStatus c a.addr xstate)
      (fun r m' => Kept m c a m' ∧
        (StatusOk m c a.addr ∧ r = 0 ∨ ¬StatusOk m c a.addr ∧ r = -1)) m := by
  unfold copyStatus
  by_cases haddr : a.addr ≠ 0
  · rw [if_pos haddr]
    apply (wp_copyout_place h (by simp) (Kept.refl m c a) _).mono
    rintro r m' ⟨hS, -, -, ⟨hcan, hr, -⟩ | ⟨hno, hr⟩⟩
    · exact ⟨hS, .inl ⟨.inr hcan, hr⟩⟩
    · exact ⟨hS, .inr ⟨fun hok => hno (hok.resolve_left haddr), hr⟩⟩
  · rw [if_neg haddr]
    exact ⟨Kept.refl m c a, .inl ⟨.inl (not_not.mp haddr), rfl⟩⟩

/-- How `waitx` ends: it frees the slot of the zombie, unless its status cannot be copied, or
there is none. -/
def Outcome (m : Phys) (c : Caller) (addr : ℕ) (t : Table) (x : Found) : Prop :=
  (∃ q, firstZombie t c.slot = some q ∧
    (StatusOk m c addr ∧ x = ⟨some q, (t q).pid, freeproc t q⟩ ∨
      ¬StatusOk m c addr ∧ x = ⟨some q, -1, t⟩)) ∨
  firstZombie t c.slot = none ∧ x = ⟨none, -1, t⟩

theorem scan_outcome (h : Apart m c a) (hx : run g (scan c a.addr t) m = some (some x, m')) :
    Outcome m c a.addr t x ∧ Kept m c a m' := by
  cases hz : firstZombie t c.slot with
  | none =>
    obtain ⟨rfl, hnone | hsome⟩ := scan_none hz hx
    · exact absurd hnone (Option.some_ne_none x)
    · exact ⟨.inr ⟨hz, Option.some.inj hsome⟩, Kept.refl m' c a⟩
  | some q =>
    unfold scan at hx
    rw [hz] at hx
    rw [run_bind] at hx
    obtain ⟨r, m₁, hrun, hS, hr⟩ := Vm.run_of_runRules (wp_copyStatus (g := g) h (t q).xstate)
    rw [hrun, Option.bind_some] at hx
    dsimp only at hx
    rcases hr with ⟨hok, rfl⟩ | ⟨hno, rfl⟩
    · rw [if_neg (by decide)] at hx
      cases hx
      exact ⟨.inl ⟨q, hz, .inl ⟨hok, rfl⟩⟩, hS⟩
    · rw [if_pos (by decide)] at hx
      cases hx
      exact ⟨.inl ⟨q, hz, .inr ⟨hno, rfl⟩⟩, hS⟩

theorem copyTimes_outcome (h : Apart m c a) {m₁ : Phys} (hS : Kept m c a m₁)
    {y : Option Int × Table} (hy : run g (copyTimes c a t x) m₁ = some (y, m')) :
    Copied m c a t x m₁.mem y m' := by
  obtain ⟨y', m'', hrun, hQ⟩ := Vm.run_of_runRules (wp_copyTimes (g := g) (t := t) h hS x)
  cases hy.symm.trans hrun
  exact hQ

/-- The slot of a zombie changes when it is freed. -/
theorem freeproc_ne {q p : ℕ} (hz : firstZombie t p = some q) : freeproc t q ≠ t := by
  intro he
  have hstate : (t q).state = .zombie := by
    have := List.find?_some hz
    simp only [Bool.and_eq_true, decide_eq_true_eq] at this
    exact this.2
  have hfree : (freeproc t q q).state = .unused := by simp [freeproc]
  rw [he, hstate] at hfree
  exact absurd hfree (by decide)

/-! ### Stores -/

/-- Whether a run stores anything to a page. -/
def stores {α : Type} (g : Geometry) : Code α → Phys → Bool
  | .ret _, _ => false
  | .op (.write _ _) _, _ => true
  | .op o k, m => (m.exec g o).any fun r => stores g (k r.1) r.2

theorem stores_bind {α β : Type} (x : Code α) (f : α → Code β) (m : Phys) :
    stores g (x >>= f) m = (stores g x m || (run g x m).any fun y => stores g (f y.1) y.2) := by
  induction x generalizing m with
  | ret a => rfl
  | op o k ih =>
    have hnext : ((m.exec g o).any fun r => stores g (k r.1 >>= f) r.2) =
        (((m.exec g o).any fun r => stores g (k r.1) r.2) ||
          (run g (.op o k) m).any fun y => stores g (f y.1) y.2) := by
      rw [run]
      cases m.exec g o with
      | none => rfl
      | some r => exact ih r.1 r.2
    cases o with
    | write pa h => rfl
    | kalloc => exact hnext
    | kfree pa => exact hnext
    | read pa => exact hnext
    | panic msg => exact hnext
    | outOfRounds => exact hnext

theorem stores_bind_false {α β : Type} {x : Code α} {f : α → Code β}
    (hx : stores g x m = false) (hf : ∀ y m', stores g (f y) m' = false) :
    stores g (x >>= f) m = false := by
  rw [stores_bind, hx, Bool.false_or]
  cases run g x m with
  | none => rfl
  | some y => exact hf y.1 y.2

/-- Looking up an address only reads. -/
theorem stores_walkFrom (va level table : ℕ) (m : Phys) :
    stores g (Vm.walkFrom va false level table) m = false := by
  induction level generalizing table m with
  | zero => rfl
  | succ level ih =>
    show stores g (if m.mem (table / Vm.PGSIZE) (Vm.PX (level + 1) va) &&& Vm.PTE_V ≠ 0 then _
      else _) m = false
    split
    · exact ih _ _
    · rfl

theorem stores_walkaddr (pagetable va : ℕ) (m : Phys) :
    stores g (Vm.walkaddr pagetable va) m = false := by
  unfold Vm.walkaddr
  split
  · rfl
  · next hlt =>
    apply stores_bind_false
    · apply stores_bind_false
      · rw [Vm.walk, if_neg hlt]
        exact stores_walkFrom va 2 pagetable m
      · intro pte m'
        cases pte <;> rfl
    · intro entry m'
      cases entry with
      | none => rfl
      | some entry =>
        dsimp only
        split
        · rfl
        · split <;> rfl

theorem run_walkaddr (pagetable va : ℕ) (m : Phys) :
    run g (Vm.walkaddr pagetable va) m = some (Vm.lookIn m.mem pagetable va, m) := by
  have hwp : wp (Vm.runRules g) (Vm.walkaddr pagetable va) _ m := Vm.wp_run_walkaddr
  obtain ⟨pa, m', hrun, rfl, rfl⟩ := Vm.run_of_runRules hwp
  exact hrun

/-- `copyout` stores something if it finds the page of its first byte. -/
theorem stores_copyout {pagetable va n : ℕ} (src : ℕ → UInt8)
    (hfound : Vm.Found m.mem pagetable va) :
    stores g (copyout pagetable va src (n + 1)) m = true := by
  have hne : Vm.lookIn m.mem pagetable (Vm.PGROUNDDOWN va) ≠ 0 := Vm.mapped_iff.mpr hfound
  unfold copyout Vm.MAXPAGES Vm.copyoutLoop
  rw [if_pos (Nat.succ_pos n)]
  dsimp only
  rw [stores_bind, run_walkaddr, Option.any_some, if_neg hne]
  exact Bool.or_true _

/-- Otherwise it gives up at once. -/
theorem copyout_not_found {pagetable va n : ℕ} (src : ℕ → UInt8)
    (hno : ¬Vm.Found m.mem pagetable va) :
    run g (copyout pagetable va src (n + 1)) m = some (-1, m) ∧
      stores g (copyout pagetable va src (n + 1)) m = false := by
  have hzero : Vm.lookIn m.mem pagetable (Vm.PGROUNDDOWN va) = 0 :=
    not_not.mp fun hne => hno (Vm.mapped_iff.mp hne)
  unfold copyout Vm.MAXPAGES Vm.copyoutLoop
  rw [if_pos (Nat.succ_pos n)]
  dsimp only
  rw [run_bind, stores_bind, stores_walkaddr, run_walkaddr, hzero]
  exact ⟨rfl, rfl⟩

theorem stores_copyTimes (x : Found) :
    stores g (copyTimes c a t x) m = true ↔ Vm.Found m.mem c.pagetable a.addr1 := by
  constructor
  · intro h
    by_contra hno
    obtain ⟨hrun, hnone⟩ := copyout_not_found (g := g) (n := 3)
      (bytes32 (wtimeOf t a.wtime x.child)) hno
    rw [copyTimes, stores_bind, hrun, hnone] at h
    exact Bool.false_ne_true h
  · intro hfound
    rw [copyTimes, stores_bind, stores_copyout _ hfound, Bool.true_or]

theorem Kept.found (hS : Kept m c a m') {va : ℕ} (hva : va ∈ [a.addr, a.addr1, a.addr2]) :
    Vm.Found m'.mem c.pagetable va ↔ Vm.Found m.mem c.pagetable va := by
  have hentry : Vm.leafEntry m'.mem c.pagetable va = Vm.leafEntry m.mem c.pagetable va := by
    apply Vm.entryFrom_congr
    intro ppn hp
    refine hS.tables (Vm.PGROUNDDOWN va) ⟨va, hva, 0, by decide, rfl⟩ ppn ?_
    rw [Vm.walkPages, Vm.pagesFrom_PGROUNDDOWN]
    exact hp
  unfold Vm.Found Vm.UserValid Vm.pageOf
  rw [hentry]

/-! ### The calls -/

theorem roundOf_eq {x : Table → Code (Option Int × Table)} {w w' : World} {r : Option Int}
    (h : roundOf g x w = some (r, w')) :
    run g (x w.table) w.mem = some ((r, w'.table), w'.mem) := by
  obtain ⟨y, hrun, heq⟩ := Option.map_eq_some_iff.mp h
  cases heq
  exact hrun

/-- If `sys_waitx` stores anything for the times, these are the times of a child, and its pid
is returned. -/
def OnlyTimes (g : Geometry) (c : Caller) (a : WaitxArgs) (v : World) (r : Int) (w' : World) : Prop :=
  ∀ x m₁, run g (scan c a.addr v.table) v.mem = some (some x, m₁) →
    stores g (copyTimes c a v.table x) m₁ = true →
    ∃ q, x.child = some q ∧ r = (v.table q).pid ∧
      ∃ k₁ k₂, (r ≠ -1 → k₁ = 4 ∧ k₂ = 4) ∧ w'.mem.mem = withTimes v.mem c a
        (.ofNat (v.table q).etime - .ofNat (v.table q).ctime - .ofNat (v.table q).rtime)
        (.ofNat (v.table q).rtime) k₁ k₂ m₁.mem

/-- A zombie whose status can be copied is reaped, and no other child. -/
theorem Outcome.table_iff (h : Outcome m c addr t x) :
    x.table = t ↔ ∀ q, firstZombie t c.slot = some q → ¬StatusOk m c addr := by
  rcases h with ⟨q, hz, ⟨hok, rfl⟩ | ⟨hno, rfl⟩⟩ | ⟨hz, rfl⟩
  · exact ⟨fun he => absurd he (freeproc_ne hz), fun h => absurd hok (h q hz)⟩
  · exact ⟨fun _ _ _ => hno, fun _ => rfl⟩
  · exact ⟨fun _ q hq => absurd (hz.symm.trans hq) (Option.some_ne_none q).symm, fun _ => rfl⟩

/-- The child that `waitx` came upon is the zombie. -/
theorem Outcome.child (h : Outcome m c addr t x) : x.child = firstZombie t c.slot := by
  rcases h with ⟨q, hz, ⟨-, rfl⟩ | ⟨-, rfl⟩⟩ | ⟨hz, rfl⟩ <;> exact hz.symm

theorem Outcome.ret (h : Outcome m c addr t x) {q : ℕ} (hz : firstZombie t c.slot = some q) :
    StatusOk m c addr ∧ x.ret = (t q).pid ∨ ¬StatusOk m c addr ∧ x.ret = -1 := by
  rcases h with ⟨q', hz', ⟨hok, rfl⟩ | ⟨hno, rfl⟩⟩ | ⟨hz', -⟩
  · rw [Option.some.inj (hz.symm.trans hz')]
    exact .inl ⟨hok, rfl⟩
  · exact .inr ⟨hno, rfl⟩
  · exact absurd (hz'.symm.trans hz) (Option.some_ne_none q).symm

theorem Outcome.ret_eq (h : Outcome m c addr t x) {q : ℕ}
    (hz : firstZombie t c.slot = some q) (hok : StatusOk m c addr) : x.ret = (t q).pid :=
  (h.ret hz).elim And.right fun hno => absurd hok hno.1

/-- If -1 is returned when `times` does not hold, the child is lost exactly if it is reaped then, or
if its pid cannot be told from a failure. -/
theorem Outcome.keeps_iff (h : Outcome m c addr t x) {times : Prop} {r : Int}
    (hr : times ∧ r = x.ret ∨ ¬times ∧ r = -1) :
    (r = -1 → x.table = t) ↔ ∀ q, firstZombie t c.slot = some q → StatusOk m c addr →
      times ∧ (t q).pid ≠ -1 := by
  rcases hr with ⟨htimes, rfl⟩ | ⟨htimes, rfl⟩
  · constructor
    · intro hkeeps q hz hok
      refine ⟨htimes, fun hpid => ?_⟩
      exact h.table_iff.mp (hkeeps ((h.ret_eq hz hok).trans hpid)) q hz hok
    · intro hcond hret
      exact h.table_iff.mpr fun q hz hok => (hcond q hz hok).2 ((h.ret_eq hz hok).symm.trans hret)
  · constructor
    · intro hkeeps q hz hok
      exact absurd hok (h.table_iff.mp (hkeeps rfl) q hz)
    · intro hcond _
      exact h.table_iff.mpr fun q hz hok => htimes (hcond q hz hok).1

section LastRound

variable {v w' : World} {r : Int} (hapart : Apart v.mem c a)
include hapart

theorem sysWait_keeps_iff (h : roundOf g (sysWait c a.addr) v = some (some r, w')) :
    (r = -1 → w'.table = v.table) ↔ ∀ q, firstZombie v.table c.slot = some q →
      StatusOk v.mem c a.addr → (v.table q).pid ≠ -1 := by
  rcases afterScan_run (roundOf_eq h) with ⟨hno, -⟩ | ⟨x, m₁, hx, hy⟩
  · cases hno
  obtain ⟨hr, ht⟩ := Prod.mk.inj (Prod.mk.inj (Option.some.inj hy)).1
  rw [← ht, (scan_outcome hapart hx).1.keeps_iff (.inl ⟨trivial, (Option.some.inj hr).symm⟩)]
  simp only [true_and]

/-- A call of `sys_waitx` has looked for a child and copied the times. -/
theorem sysWaitx_round (h : roundOf g (sysWaitx c a) v = some (some r, w')) :
    ∃ x m₁, run g (scan c a.addr v.table) v.mem = some (some x, m₁) ∧
      Outcome v.mem c a.addr v.table x ∧ Kept v.mem c a m₁ ∧
      Copied v.mem c a v.table x m₁.mem (some r, w'.table) w'.mem := by
  rcases afterScan_run (roundOf_eq h) with ⟨hno, -⟩ | ⟨x, m₁, hx, hy⟩
  · cases hno
  obtain ⟨hout, hS⟩ := scan_outcome hapart hx
  exact ⟨x, m₁, hx, hout, hS, copyTimes_outcome hapart hS hy⟩

theorem sysWaitx_keeps_iff (h : roundOf g (sysWaitx c a) v = some (some r, w')) :
    (r = -1 → w'.table = v.table) ↔ ∀ q, firstZombie v.table c.slot = some q →
      StatusOk v.mem c a.addr → TimesOk v.mem c a ∧ (v.table q).pid ≠ -1 := by
  obtain ⟨x, m₁, -, hout, -, ht, _, _, -, hend⟩ := sysWaitx_round hapart h
  rw [show w'.table = x.table from ht]
  refine hout.keeps_iff (hend.imp ?_ ?_)
  · rintro ⟨htimes, hr, -⟩
    exact ⟨htimes, Option.some.inj hr⟩
  · rintro ⟨htimes, hr⟩
    exact ⟨htimes, Option.some.inj hr⟩

theorem onlyTimes_iff (h : roundOf g (sysWaitx c a) v = some (some r, w')) :
    OnlyTimes g c a v r w' ↔ ¬Vm.Found v.mem.mem c.pagetable a.addr1 ∨
      ∃ q, firstZombie v.table c.slot = some q ∧
        (StatusOk v.mem c a.addr ∧ TimesOk v.mem c a ∨ (v.table q).pid = -1) := by
  obtain ⟨x, m₁, hx, hout, hS, -, k₁, k₂, hmem, hend⟩ := sysWaitx_round hapart h
  have hstores : stores g (copyTimes c a v.table x) m₁ = true ↔
      Vm.Found v.mem.mem c.pagetable a.addr1 :=
    (stores_copyTimes x).trans (hS.found (by simp))
  have hret : ∀ q, x.child = some q → (r = (v.table q).pid ↔
      StatusOk v.mem c a.addr ∧ TimesOk v.mem c a ∨ (v.table q).pid = -1) := by
    intro q hq
    have heq : -1 = (v.table q).pid ↔ (v.table q).pid = -1 := eq_comm
    rcases hend with ⟨htimes, hr, -⟩ | ⟨htimes, hr⟩
    · rw [Option.some.inj hr]
      rcases hout.ret (hout.child.symm.trans hq) with ⟨hok, hret⟩ | ⟨hno, hret⟩
      · simp only [hret, hok, htimes, true_and, true_or]
      · simp only [hret, heq, hno, false_and, false_or]
    · rw [Option.some.inj hr]
      simp only [heq, htimes, and_false, false_or]
  constructor
  · intro hall
    by_contra hno
    rw [not_or, not_not] at hno
    obtain ⟨q, hq, hr, -⟩ := hall x m₁ hx (hstores.mpr hno.1)
    exact hno.2 ⟨q, hout.child.symm.trans hq, (hret q hq).mp hr⟩
  · intro hcond x' m₁' hx' hst
    cases hx.symm.trans hx'
    obtain ⟨q, hz, hok⟩ := hcond.resolve_left (not_not.mpr (hstores.mp hst))
    have hq := hout.child.trans hz
    refine ⟨q, hq, (hret q hq).mpr hok, k₁, k₂, ?_, ?_⟩
    · intro hne
      rcases hend with ⟨-, -, hk⟩ | ⟨-, hr⟩
      · exact hk
      · exact absurd (Option.some.inj hr) hne
    · rw [hmem, hq]
      rfl

end LastRound

/-- **When `wait` and `waitx` do not lose a child.** Rounds that sleep change nothing. For the
last round, with the places apart from the tables that they are reached through: if `sys_wait`
returns -1 no child has been reaped, exactly unless a zombie whose status can be copied has
the pid -1; if `sys_waitx` returns -1, exactly unless there is such a zombie or the times of
one whose status can be copied cannot be written. And `sys_waitx` stores to the places for the
times only those of the child whose pid it returns, exactly if it stores nothing, because the
first byte of the first place is not mapped, or if there is a zombie and everything can be
written (or the pid of the zombie is -1, too). -/
theorem wait_keeps_children_iff (g : Geometry) (c : Caller) (a : WaitxArgs) :
    (∀ w w₁, roundOf g (sysWait c a.addr) w = some (none, w₁) ∨
      roundOf g (sysWaitx c a) w = some (none, w₁) → w₁ = w) ∧
    (∀ w v r w', Apart v.mem c a → Returns (roundOf g (sysWait c a.addr)) w v r w' →
      ((r = -1 → w'.table = v.table) ↔ ∀ q, firstZombie v.table c.slot = some q →
        StatusOk v.mem c a.addr → (v.table q).pid ≠ -1)) ∧
    (∀ w v r w', Apart v.mem c a → Returns (roundOf g (sysWaitx c a)) w v r w' →
      ((r = -1 → w'.table = v.table) ↔ ∀ q, firstZombie v.table c.slot = some q →
        StatusOk v.mem c a.addr → TimesOk v.mem c a ∧ (v.table q).pid ≠ -1) ∧
      (OnlyTimes g c a v r w' ↔ ¬Vm.Found v.mem.mem c.pagetable a.addr1 ∨
        ∃ q, firstZombie v.table c.slot = some q ∧
          (StatusOk v.mem c a.addr ∧ TimesOk v.mem c a ∨ (v.table q).pid = -1))) := by
  refine ⟨?_, fun w v r w' hapart h => sysWait_keeps_iff hapart h.last, fun w v r w' hapart h =>
    ⟨sysWaitx_keeps_iff hapart h.last, onlyTimes_iff hapart h.last⟩⟩
  intro w w₁ h
  have hsame : w₁.table = w.table ∧ w₁.mem = w.mem := by
    rcases h with h | h
    · rcases afterScan_run (roundOf_eq h) with ⟨heq, hmem⟩ | ⟨x, m₁, -, hy⟩
      · exact ⟨(Prod.mk.inj heq).2, hmem⟩
      · cases hy
    · rcases afterScan_run (roundOf_eq h) with ⟨heq, hmem⟩ | ⟨x, m₁, -, hy⟩
      · exact ⟨(Prod.mk.inj heq).2, hmem⟩
      · exact absurd hy copyTimes_returns
  obtain ⟨table, mem⟩ := w₁
  obtain ⟨rfl, rfl⟩ := hsame
  rfl

/-! ### A lost child -/

/-- Slot 0 is the caller; slot 1 is a child that has exited with the given pid, if there is
one. -/
def family (child : Option ℤ) : Table := fun q =>
  { Xv6.Proc.zero with
    state := if q = 1 ∧ child ≠ none then .zombie else if q = 0 then .running else .unused
    parent := if q = 1 ∧ child ≠ none then some 0 else none
    pid := if q = 1 then child.getD 0 else if q = 0 then 2 else 0
    xstate := 3
    rtime := 4
    ctime := 10
    etime := 20 }

def parent : Caller where
  slot := 0
  pagetable := Vm.PGSIZE * 1

/-- One page at address 0 can be written. -/
def writable : Phys := Vm.onePage 4 (Vm.PTE_V ||| Vm.PTE_R ||| Vm.PTE_W ||| Vm.PTE_U)

/-- A child is reaped and its times are written; and with nothing mapped at any of the three
places the call returns -1 and the child is still there. -/
theorem wait_keeps_children_iff_reaped :
    (∃ w', Returns (roundOf Vm.tiny (sysWaitx parent ⟨8, 16, 20, 0, 0⟩)) ⟨family (some 5), writable⟩
        ⟨family (some 5), writable⟩ 5 w' ∧
      OnlyTimes Vm.tiny parent ⟨8, 16, 20, 0, 0⟩ ⟨family (some 5), writable⟩ 5 w') ∧
    ∃ w', Returns (roundOf Vm.tiny (sysWaitx parent ⟨8192, 8192, 8192, 0, 0⟩))
        ⟨family (some 5), writable⟩ ⟨family (some 5), writable⟩ (-1) w' ∧
      w'.table = family (some 5) := by
  have hz : firstZombie (family (some 5)) parent.slot = some 1 := by decide +kernel
  constructor
  · have hround : (roundOf Vm.tiny (sysWaitx parent ⟨8, 16, 20, 0, 0⟩)
        ⟨family (some 5), writable⟩).map (fun x => x.1) = some (some 5) := by decide +kernel
    obtain ⟨⟨_, w'⟩, hround, rfl⟩ := Option.map_eq_some_iff.mp hround
    have hapart : Apart writable parent ⟨8, 16, 20, 0, 0⟩ := by
      unfold Apart
      decide +kernel
    have hcan : ∀ va ∈ [8, 16, 20], CanWrite writable parent va := by
      unfold CanWrite
      decide +kernel
    refine ⟨w', .now hround, ?_⟩
    refine (((wait_keeps_children_iff Vm.tiny parent ⟨8, 16, 20, 0, 0⟩).2.2 _ _ _ _ hapart
      (.now hround)).2).mpr (.inr ⟨1, hz, .inl ⟨.inr ?_, ?_, ?_⟩⟩)
    · exact hcan 8 (by decide)
    · exact hcan 16 (by decide)
    · exact hcan 20 (by decide)
  · have hround : (roundOf Vm.tiny (sysWaitx parent ⟨8192, 8192, 8192, 0, 0⟩)
        ⟨family (some 5), writable⟩).map (fun x => x.1) = some (some (-1)) := by decide +kernel
    obtain ⟨⟨_, w'⟩, hround, rfl⟩ := Option.map_eq_some_iff.mp hround
    have hapart : Apart writable parent ⟨8192, 8192, 8192, 0, 0⟩ := by
      unfold Apart
      decide +kernel
    have hno : ¬StatusOk writable parent 8192 := by
      unfold StatusOk CanWrite
      decide +kernel
    refine ⟨w', .now hround, ?_⟩
    exact ((wait_keeps_children_iff Vm.tiny parent ⟨8192, 8192, 8192, 0, 0⟩).2.2 _ _ _ _ hapart
      (.now hround)).1.mpr (fun q _ hok => absurd hok hno) rfl

/-- With nothing mapped at the place for the waiting time, `sys_waitx` frees the child's slot
and returns -1. Without children it returns -1 and writes what its locals happen to hold to
both places. And `sys_wait` returns -1 when it has reaped a child with this pid. -/
theorem waitx_loses_child :
    ((family (some 5) 1).state = .zombie ∧
      (roundOf Vm.tiny (sysWaitx parent ⟨8, 8192, 20, 7, 9⟩) ⟨family (some 5), writable⟩).map
        (fun x => (x.1, (x.2.table 1).state)) = some (some (-1), .unused)) ∧
    (firstZombie (family none) parent.slot = none ∧
      (roundOf Vm.tiny (sysWaitx parent ⟨8, 16, 20, 7, 9⟩) ⟨family none, writable⟩).map
        (fun x => (x.1, Vm.byteAt x.2.mem.mem parent.pagetable 16,
          Vm.byteAt x.2.mem.mem parent.pagetable 20)) = some (some (-1), 7, 9)) ∧
    ((family (some (-1)) 1).state = .zombie ∧
      (roundOf Vm.tiny (sysWait parent 8) ⟨family (some (-1)), writable⟩).map
        (fun x => (x.1, (x.2.table 1).state)) = some (some (-1), .unused)) := by
  decide +kernel

end Xv6.Reap
