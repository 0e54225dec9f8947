import Mathlib.Data.List.Perm.Lattice
import Xv6.Lib.Run
import Xv6.Vm.Free

/-!
A page table is a finite map from virtual pages to physical pages and permissions.

A caller starts from a fresh table and calls `walk` (with allocation), `mappages` and
`uvmunmap`, in any order; it may also take pages from `kalloc`, to map and later free
them. A call that panics or runs out of memory is not part of the sequence. `latest` reads
the map off the calls made: the last call that covers a page decides.

* `Refines`: memory holds a tree whose entries are those of `latest`.
* `Refines.exec`: every successful call keeps that.
* `page_table_is_finite_map`: so `walk` and `walkaddr` find what `latest` says, a call
  leaves the pages alone that it does not cover, and `freewalk` of a table with nothing
  mapped returns each table page to the free list once.
* `frees_must_be_owned`: what goes wrong if the pages that `uvmunmap` frees are not the
  caller's, or if `mappages` gets more than flag bits as permissions.
-/

namespace Xv6.Vm

open Run (ReachableUnder relOf execAll)

/-! ### Calls and what they mean -/

/-- The calls on a page table. `kalloc` is the caller getting a page for its own use. -/
inductive Call where
  | kalloc
  | walk (va : ℕ)
  | mappages (va size pa perm : ℕ)
  | uvmunmap (va npages : ℕ) (do_free : Bool)
deriving DecidableEq

/-- The first page after those that `uvmunmap` covers. -/
def unmapStop (va npages : ℕ) : ℕ := wrap64 (va + npages * PGSIZE) / PGSIZE

/-- The last page that `mappages` covers. -/
def mapLast (va size : ℕ) : ℕ := wrap64 (va + size - 1) / PGSIZE

/-- The virtual pages whose entries a call is about. -/
def Call.Covers : Call → ℕ → Prop
  | .kalloc, _ => False
  | .walk _, _ => False
  | .mappages va size _ _, vpn => va / PGSIZE ≤ vpn ∧ vpn ≤ mapLast va size
  | .uvmunmap va npages _, vpn => va / PGSIZE ≤ vpn ∧ vpn < unmapStop va npages

instance : (c : Call) → (vpn : ℕ) → Decidable (c.Covers vpn)
  | .kalloc, _ => inferInstanceAs (Decidable False)
  | .walk _, _ => inferInstanceAs (Decidable False)
  | .mappages va size _ _, vpn =>
    inferInstanceAs (Decidable (va / PGSIZE ≤ vpn ∧ vpn ≤ mapLast va size))
  | .uvmunmap va npages _, vpn =>
    inferInstanceAs (Decidable (va / PGSIZE ≤ vpn ∧ vpn < unmapStop va npages))

/-- What a call that covers `vpn` leaves there: a physical page number and permissions. -/
def Call.leaves : Call → ℕ → Option (ℕ × ℕ)
  | .mappages va _ pa perm, vpn => some (nthPa (wrap64 pa) (vpn - va / PGSIZE) / PGSIZE, perm)
  | _, _ => none

/-- The mapping of `vpn` by the most recent call that covers it; the newest call comes
first. -/
def latest : List Call → ℕ → Option (ℕ × ℕ)
  | [], _ => none
  | c :: hist, vpn => if c.Covers vpn then c.leaves vpn else latest hist vpn

/-! ### Running the calls -/

/-- Memory, the table, the pages the caller holds and the calls made so far. -/
structure State where
  phys : Phys
  pagetable : ℕ
  held : Set ℕ
  hist : List Call

/-- The pages mapped in the range of a `uvmunmap`. -/
def State.mapped (s : State) (va npages : ℕ) : Set ℕ :=
  { ppn | ∃ vpn perm, va / PGSIZE ≤ vpn ∧ vpn < unmapStop va npages ∧
    latest s.hist vpn = some (ppn, perm) }

/-- One successful call. A physical address is a `uint64`. -/
def exec (g : Geometry) (s : State) : Call → Option State
  | .kalloc => do
    let (pa, phys) ← run g kalloc s.phys
    if pa = 0 then none
    else some { s with phys := phys, held := insert (pa / PGSIZE) s.held, hist := .kalloc :: s.hist }
  | .walk va => do
    let (pte, phys) ← run g (walk s.pagetable va true) s.phys
    if pte = none then none else some { s with phys := phys, hist := .walk va :: s.hist }
  | .mappages va size pa perm => do
    let (r, phys) ← run g (mappages s.pagetable va size (wrap64 pa) perm) s.phys
    if r = 0 then some { s with phys := phys, hist := .mappages va size pa perm :: s.hist }
    else none
  | .uvmunmap va npages do_free => do
    let (_, phys) ← run g (uvmunmap s.pagetable va npages do_free) s.phys
    some { s with phys := phys, held := if do_free then s.held \ s.mapped va npages else s.held,
                  hist := .uvmunmap va npages do_free :: s.hist }

/-- A table just made by `uvmcreate`, with any memory. -/
def Fresh (g : Geometry) (s : State) : Prop :=
  ∃ m : Phys, m.free.Nodup ∧ (∀ ppn ∈ m.free, g.Ram ppn) ∧
    run g uvmcreate m = some (s.pagetable, s.phys) ∧ s.pagetable ≠ 0 ∧ s.held = ∅ ∧ s.hist = []

/-- The callers' side of the contract: permissions are flag bits of an entry, and what
`uvmunmap` frees are pages the caller got from `kalloc`, each mapped once in the range. -/
def Allowed (s : State) : Call → Prop
  | .mappages _ _ _ perm => perm < 1024
  | .uvmunmap va npages true => s.mapped va npages ⊆ s.held ∧
      ∀ {j k ppn p q : ℕ}, va / PGSIZE ≤ j → j < unmapStop va npages → va / PGSIZE ≤ k →
        k < unmapStop va npages → latest s.hist j = some (ppn, p) →
        latest s.hist k = some (ppn, q) → j = k
  | _ => True

/-! ### The table holds the map -/

/-- The entry for a mapping. -/
def encode : Option (ℕ × ℕ) → ℕ
  | none => 0
  | some (ppn, perm) => 1024 * ppn + (perm ||| PTE_V)

/-- What an entry says: the physical page and the flags, if it is valid. -/
def decode (entry : ℕ) : Option (ℕ × ℕ) :=
  if entry &&& PTE_V = 0 then none else some (PTE2PA entry, PTE_FLAGS entry)

/-- A page number and permissions that fit into an entry. -/
def Encodable (x : ℕ × ℕ) : Prop := x.1 < PAGES ∧ x.2 < 1024

theorem nthPa_lt {pa : ℕ} (h : pa < PGSIZE * PAGES) (k : ℕ) : nthPa pa k < PGSIZE * PAGES := by
  induction k generalizing pa with
  | zero => exact h
  | succ k ih => exact ih (wrap64_lt (pa + PGSIZE))

theorem encode_entryOf {pa perm : ℕ} (h : perm < 1024) :
    entryOf pa perm = encode (some (pa / PGSIZE, perm)) := by
  unfold entryOf
  rw [Nat.or_assoc]
  exact PA2PTE_or (or_lt_flags h (by decide))

/-- Physical memory holds a tree whose entries are the mappings of the calls so far. -/
structure Refines (g : Geometry) (U : Set ℕ) (root : ℕ) (s : State) (l : Loc) (t : Tree) :
    Prop where
  agrees : l.Agrees g U s.phys
  has : l.Has s.held t
  top : t.tab 2 0 = some root
  table : s.pagetable = PGSIZE * root
  leaf : ∀ vpn, t.leaf vpn = encode (latest s.hist vpn)
  mapped : ∀ {vpn x}, latest s.hist vpn = some x → Encodable x

variable {g : Geometry} {U : Set ℕ} {root : ℕ} {s s' : State} {l : Loc} {t : Tree}

section

variable (h : Refines g U root s l t)
include h

/-- What a program that returned has done, by its specification. -/
theorem Refines.of_run {α : Type} {x : Code α} {Q : α → Loc → Prop} {a : α} {m : Phys}
    (hwp : Prog.wp (memRules g True) x Q l) (hrun : run g x s.phys = some (a, m)) :
    ∃ l', l'.Agrees g U m ∧ Q a l' := by
  rcases run_of_wp hwp h.agrees with ⟨hnone, -⟩ | ⟨a', m', l', hsome, hagrees, hQ⟩
  · cases hnone.symm.trans hrun
  · obtain ⟨rfl, rfl⟩ := Prod.mk.inj (Option.some.inj (hsome.symm.trans hrun))
    exact ⟨l', hagrees, hQ⟩

theorem Refines.kalloc (hs : exec g s .kalloc = some s') : ∃ l' t', Refines g U root s' l' t' := by
  obtain ⟨⟨pa, m⟩, hrun, hrest⟩ := Option.bind_eq_some_iff.mp hs
  obtain ⟨hne, hs'⟩ := Option.ite_none_left_eq_some.mp hrest
  have hwp : Prog.wp (memRules g True) Vm.kalloc (fun pa l' => pa = 0 ∨
      ∃ ppn page, pa = PGSIZE * ppn ∧ ppn ∉ l.own ∧ l' = l.take ppn page) l :=
    wp_kalloc (.inl rfl) fun ppn page _ hnew => .inr ⟨ppn, page, rfl, hnew, rfl⟩
  obtain ⟨l', hagrees, hzero | ⟨ppn, page, rfl, hnew, rfl⟩⟩ := h.of_run hwp hrun
  · exact absurd hzero hne
  · cases hs'
    refine ⟨_, t, { h with agrees := hagrees, has := ?_ }⟩
    rw [page_div]
    exact h.has.take hnew page

theorem Refines.walk {va : ℕ} (hs : exec g s (.walk va) = some s') :
    ∃ l' t', Refines g U root s' l' t' := by
  obtain ⟨⟨pte, m⟩, hrun, hrest⟩ := Option.bind_eq_some_iff.mp hs
  obtain ⟨-, hs'⟩ := Option.ite_none_left_eq_some.mp hrest
  cases hs'
  rw [h.table] at hrun
  obtain ⟨l', hagrees, -, t', hch, hleaf, -⟩ :=
    h.of_run (wp_walk_alloc h.has h.top fun hp => absurd trivial hp) hrun
  exact ⟨l', t', { h with
    agrees := hagrees
    has := hch.has
    top := hch.tab h.top
    leaf := fun vpn => (congrFun hleaf vpn).trans (h.leaf vpn) }⟩

theorem Refines.mappages {va size pa perm : ℕ} (hperm : perm < 1024)
    (hs : exec g s (.mappages va size pa perm) = some s') : ∃ l' t', Refines g U root s' l' t' := by
  obtain ⟨⟨r, m⟩, hrun, hrest⟩ := Option.bind_eq_some_iff.mp hs
  obtain ⟨hr, rfl⟩ := Run.of_guard hrest
  rw [h.table] at hrun
  obtain ⟨l', hagrees, t', n, hch, hleaf, hcase⟩ :=
    h.of_run (wp_mappages h.has h.top fun hp => absurd trivial hp) hrun
  have hn : va / PGSIZE + n = mapLast va size + 1 := by
    rcases hcase with ⟨-, hn⟩ | ⟨hr', -⟩
    · exact hn
    · exact absurd (hr.symm.trans hr') (by decide)
  refine ⟨l', t', hagrees, hch.has, hch.tab h.top, h.table, ?_, ?_⟩
  · intro vpn
    rw [hleaf]
    unfold mapRange latest
    by_cases hcov : (Call.mappages va size pa perm).Covers vpn
    · have hin : va / PGSIZE ≤ vpn ∧ vpn < va / PGSIZE + n := ⟨hcov.1, by have := hcov.2; omega⟩
      rw [if_pos hcov, if_pos hin]
      exact encode_entryOf hperm
    · have hout : ¬(va / PGSIZE ≤ vpn ∧ vpn < va / PGSIZE + n) := fun hin =>
        hcov ⟨hin.1, by have := hin.2; omega⟩
      rw [if_neg hcov, if_neg hout]
      exact h.leaf vpn
  · intro vpn x hl
    unfold latest at hl
    split at hl
    · obtain rfl := Option.some.inj hl
      exact ⟨Nat.div_lt_of_lt_mul (nthPa_lt (wrap64_lt pa) _), hperm⟩
    · exact h.mapped hl

/-- A mapping of the caller, seen in the tree. -/
theorem Refines.leaf_div {vpn ppn perm : ℕ} (hl : latest s.hist vpn = some (ppn, perm)) :
    t.leaf vpn / 1024 = ppn := by
  have hlt : perm ||| PTE_V < 1024 := or_lt_flags (h.mapped hl).2 (by decide)
  have henc : encode (some (ppn, perm)) = 1024 * ppn + (perm ||| PTE_V) := rfl
  rw [h.leaf, hl, henc]
  omega

theorem Refines.mapped_of_leaf {vpn : ℕ} (hl : IsLeaf (t.leaf vpn)) :
    ∃ perm, latest s.hist vpn = some (t.leaf vpn / 1024, perm) := by
  cases hx : latest s.hist vpn with
  | none =>
    have hzero : t.leaf vpn = 0 := by rw [h.leaf, hx, encode]
    exact absurd (by rw [hzero]; rfl) hl.1
  | some x => exact ⟨x.2, by rw [h.leaf_div hx]⟩

/-- The pages that `uvmunmap` frees, if it frees any, are those mapped in its range. -/
theorem Refines.kept_eq (va npages : ℕ) (do_free : Bool)
    (hleaf : ∀ k, va / PGSIZE ≤ k → k < unmapStop va npages → IsLeaf (t.leaf k)) :
    kept do_free s.held t.leaf (va / PGSIZE) (unmapStop va npages) =
      if do_free then s.held \ s.mapped va npages else s.held := by
  cases do_free with
  | false => rfl
  | true =>
    have hpages : pagesOf t.leaf (va / PGSIZE) (unmapStop va npages) = s.mapped va npages := by
      ext ppn
      constructor
      · rintro ⟨k, hk, hks, rfl⟩
        obtain ⟨perm, hl⟩ := h.mapped_of_leaf (hleaf k hk hks)
        exact ⟨k, perm, hk, hks, hl⟩
      · rintro ⟨k, perm, hk, hks, hl⟩
        exact ⟨k, hk, hks, (h.leaf_div hl).symm⟩
    show s.held \ _ = s.held \ _
    rw [hpages]

theorem Refines.mayFree {va npages : ℕ} (hallow : Allowed s (.uvmunmap va npages true)) :
    MayFree g s.held t.leaf (va / PGSIZE) (unmapStop va npages) := by
  constructor
  · intro k hk hks hl
    obtain ⟨perm, hx⟩ := h.mapped_of_leaf hl
    have hheld := hallow.1 ⟨k, perm, hk, hks, hx⟩
    exact ⟨hheld, h.agrees.ram (h.agrees.own (h.has.own ▸ Or.inl hheld))⟩
  · intro j k hj hjs hk hks hlj hlk he
    obtain ⟨p, hp⟩ := h.mapped_of_leaf hlj
    obtain ⟨q, hq⟩ := h.mapped_of_leaf hlk
    exact hallow.2 hj hjs hk hks hp (he ▸ hq)

theorem Refines.uvmunmap {va npages : ℕ} {do_free : Bool}
    (hallow : Allowed s (.uvmunmap va npages do_free))
    (hs : exec g s (.uvmunmap va npages do_free) = some s') :
    ∃ l' t', Refines g U root s' l' t' := by
  obtain ⟨⟨r, m⟩, hrun, hs'⟩ := Option.bind_eq_some_iff.mp hs
  cases hs'
  rw [h.table] at hrun
  have hfree : do_free = true → MayFree g s.held t.leaf (va / PGSIZE) (unmapStop va npages) := by
    rintro rfl
    exact h.mayFree hallow
  obtain ⟨l', hagrees, t', hhas, htab, hclear, -, hleaf⟩ :=
    h.of_run (wp_uvmunmap rfl rfl h.has h.top (fun hp => absurd trivial hp) hfree) hrun
  refine ⟨l', t', hagrees, h.kept_eq va npages do_free hleaf ▸ hhas, ?_, h.table, ?_, ?_⟩
  · rw [htab]
    exact h.top
  · intro vpn
    rw [hclear]
    unfold clearRange latest
    by_cases hcov : (Call.uvmunmap va npages do_free).Covers vpn
    · have hin : va / PGSIZE ≤ vpn ∧ vpn < wrap64 (va + npages * PGSIZE) / PGSIZE := hcov
      rw [if_pos hcov, if_pos hin]
      rfl
    · have hout : ¬(va / PGSIZE ≤ vpn ∧ vpn < wrap64 (va + npages * PGSIZE) / PGSIZE) := hcov
      rw [if_neg hcov, if_neg hout]
      exact h.leaf vpn
  · intro vpn x hl
    unfold latest at hl
    split at hl
    · cases hl
    · exact h.mapped hl

/-- **Every successful call keeps the tree in step with the calls made.** -/
theorem Refines.exec {c : Call} (hallow : Allowed s c) (hs : exec g s c = some s') :
    ∃ l' t', Refines g U root s' l' t' := by
  cases c with
  | kalloc => exact h.kalloc hs
  | walk va => exact h.walk hs
  | mappages va size pa perm => exact h.mappages hallow hs
  | uvmunmap va npages do_free => exact h.uvmunmap hallow hs

end

/-- A fresh table holds the empty map. -/
theorem Fresh.refines (h : Fresh g s) : ∃ U root l t, Refines g U root s l t := by
  obtain ⟨m, hnodup, hram, hrun, hne, hheld, hhist⟩ := h
  let l : Loc := ⟨∅, m.mem⟩
  have hagrees : l.Agrees g { ppn | ppn ∈ m.free } m :=
    ⟨fun hU => hram _ hU, hnodup, ⟨fun hf => ⟨hf, id⟩, fun hf => hf.1⟩, fun _ hf => hf.elim,
      fun hf => hf.elim⟩
  have hwp : Prog.wp (memRules g True) uvmcreate _ l := wp_uvmcreate
  rcases run_of_wp hwp hagrees with
    ⟨hnone, -⟩ | ⟨pa, m', l', hsome, hagrees', hQ⟩
  · cases hnone.symm.trans hrun
  obtain ⟨rfl, rfl⟩ := Prod.mk.inj (Option.some.inj (hsome.symm.trans hrun))
  rcases hQ with ⟨hzero, -⟩ | ⟨root, hpt, -, hhas, -⟩
  · exact absurd hzero hne
  · refine ⟨_, root, l', Tree.empty root, hagrees', hheld ▸ hhas,
      Tree.empty_tab.mpr ⟨⟨rfl, rfl⟩, rfl⟩, hpt, ?_, ?_⟩
    · intro vpn
      rw [hhist]
      rfl
    · intro vpn x hl
      rw [hhist] at hl
      cases hl

/-! ### Looking up -/

/-- What `walk` without allocation finds for `va`, if it does not panic. -/
def State.read (g : Geometry) (s : State) (va : ℕ) : Option (Option (ℕ × ℕ)) :=
  (run g (lookup s.pagetable va) s.phys).map fun r => decode (r.1.getD 0)

/-- What `walkaddr` finds for `va`. -/
def State.walkaddr (g : Geometry) (s : State) (va : ℕ) : Option ℕ :=
  (run g (Vm.walkaddr s.pagetable va) s.phys).map Prod.fst

/-- The address and the flags that an entry for a mapping has. -/
def mapping (x : ℕ × ℕ) : ℕ × ℕ := (PGSIZE * x.1, x.2 ||| PTE_V)

/-- The address of a user page. -/
def userAddr : Option (ℕ × ℕ) → ℕ
  | none => 0
  | some (ppn, perm) => if perm &&& PTE_U = 0 then 0 else PGSIZE * ppn

/-- A program that needs no panics returns. -/
theorem Refines.run_eq {α : Type} {x : Code α} {Q : α → Loc → Prop} (h : Refines g U root s l t)
    (hwp : Prog.wp (memRules g False) x Q l) :
    ∃ a m l', run g x s.phys = some (a, m) ∧ l'.Agrees g U m ∧ Q a l' := by
  rcases run_of_wp hwp h.agrees with ⟨-, hfalse⟩ | hret
  · exact hfalse.elim
  · exact hret

variable {x : ℕ × ℕ}

theorem encode_valid (h : x.2 < 1024) : encode (some x) &&& PTE_V ≠ 0 := by
  have hentry : entryOf (PGSIZE * x.1) x.2 = encode (some x) := by
    rw [encode_entryOf h, page_div]
  rw [← hentry]
  exact entryOf_valid _ _

theorem PTE2PA_encode (h : Encodable x) : PTE2PA (encode (some x)) = PGSIZE * x.1 :=
  PTE2PA_add h.1 (or_lt_flags h.2 (by decide))

theorem PTE_FLAGS_encode (h : x.2 < 1024) :
    PTE_FLAGS (encode (some x)) = x.2 ||| PTE_V := PTE_FLAGS_add (or_lt_flags h (by decide))

theorem decode_encode {x : Option (ℕ × ℕ)} (h : ∀ y, x = some y → Encodable y) :
    decode (encode x) = x.map mapping := by
  cases x with
  | none => rfl
  | some x =>
    unfold decode
    rw [if_neg (encode_valid (h x rfl).2), PTE2PA_encode (h x rfl), PTE_FLAGS_encode (h x rfl).2]
    rfl

theorem userPage_encode {x : Option (ℕ × ℕ)} (h : ∀ y, x = some y → Encodable y) :
    userPage (encode x) = userAddr x := by
  cases x with
  | none => rfl
  | some x =>
    have hbit : encode (some x) &&& PTE_U = x.2 &&& PTE_U := by
      rw [flag_eq (by decide), PTE_FLAGS_encode (h x rfl).2, Nat.and_or_distrib_right]
      exact Nat.or_zero _
    unfold userPage
    rw [if_neg (encode_valid (h x rfl).2), hbit, PTE2PA_encode (h x rfl)]
    rfl

theorem Refines.read (h : Refines g U root s l t) {va : ℕ} (hva : va < MAXVA) :
    s.read g va = some ((latest s.hist (va / PGSIZE)).map mapping) := by
  obtain ⟨r, m, l', hrun, -, -, hr⟩ := h.run_eq (wp_lookup h.has h.top hva)
  unfold State.read
  rw [h.table, hrun]
  simp only [Option.map_some, hr]
  rw [h.leaf, decode_encode fun _ hx => h.mapped hx]

theorem Refines.walkaddr (h : Refines g U root s l t) {va : ℕ} (hva : va < MAXVA) :
    s.walkaddr g va = some (userAddr (latest s.hist (va / PGSIZE))) := by
  have hwp : Prog.wp (memRules g False) (Vm.walkaddr (PGSIZE * root) va) _ l :=
    wp_walkaddr h.has h.top
  obtain ⟨r, m, l', hrun, -, -, hr⟩ := h.run_eq hwp
  rw [if_pos hva, h.leaf] at hr
  unfold State.walkaddr
  rw [h.table, hrun]
  rw [Option.map_some, hr, userPage_encode fun _ hx => h.mapped hx]

/-! ### Freeing the table -/

/-- The table pages that a page table of the given level reaches through its entries. -/
def tablePages (mem : ℕ → Page) : ℕ → ℕ → List ℕ
  | 0, ppn => [ppn]
  | level + 1, ppn => ppn :: tableSlots.flatMap fun i =>
    if mem ppn i &&& PTE_V = 0 then [] else tablePages mem level (mem ppn i / 1024)

variable {mem : ℕ → Page}

/-- An entry of an interior table leads to the table below, or to nothing. -/
theorem tablePages_entry (hok : t.Ok mem) {level i ppn j : ℕ}
    (ht : t.tab (level + 1) i = some ppn) (hj : j < 512) {P : List ℕ → Prop}
    (hnone : t.tab level (512 * i + j) = none → P [])
    (hsome : ∀ c, t.tab level (512 * i + j) = some c → P (tablePages mem level c)) :
    P (if mem ppn j &&& PTE_V = 0 then [] else tablePages mem level (mem ppn j / 1024)) := by
  have hpte : mem ppn j = Tree.link (t.tab level (512 * i + j)) := hok.entry ht j hj
  rw [hpte]
  cases hc : t.tab level (512 * i + j) with
  | none =>
    rw [if_pos (not_not.mp fun hv => Tree.link_valid_iff.mp hv rfl)]
    exact hnone hc
  | some c =>
    have hdiv : Tree.link (some c) / 1024 = c := by
      rw [Tree.link_some]
      omega
    rw [if_neg (Tree.link_valid_iff.mpr (Option.some_ne_none c)), hdiv]
    exact hsome c hc

theorem mem_tablePages (hok : t.Ok mem) {level i ppn c : ℕ} (hlevel : level ≤ 2)
    (ht : t.tab level i = some ppn) : c ∈ tablePages mem level ppn ↔ c ∈ t.sub level i := by
  induction level generalizing i ppn with
  | zero =>
    rw [Tree.sub_zero, ht, Option.some_inj, tablePages, List.mem_singleton]
    exact eq_comm
  | succ level ih =>
    rw [tablePages, List.mem_cons, List.mem_flatMap, Tree.mem_sub_succ, ht, Option.some_inj,
      eq_comm]
    apply or_congr_right
    have hentry : ∀ j, j < 512 → (c ∈ (if mem ppn j &&& PTE_V = 0 then []
        else tablePages mem level (mem ppn j / 1024)) ↔ c ∈ t.sub level (512 * i + j)) :=
      fun j hj => tablePages_entry (P := fun xs => c ∈ xs ↔ c ∈ t.sub level (512 * i + j)) hok ht hj
        (fun hc => iff_of_false List.not_mem_nil (hok.sub_none (by omega) hc c))
        fun _ hc => ih (by omega) hc
    constructor
    · rintro ⟨j, hj, hc⟩
      exact ⟨j, mem_tableSlots.mp hj, (hentry j (mem_tableSlots.mp hj)).mp hc⟩
    · rintro ⟨j, hj, hc⟩
      exact ⟨j, mem_tableSlots.mpr hj, (hentry j hj).mpr hc⟩

theorem nodup_tablePages (hok : t.Ok mem) {level i ppn : ℕ} (hlevel : level ≤ 2)
    (ht : t.tab level i = some ppn) : (tablePages mem level ppn).Nodup := by
  induction level generalizing i ppn with
  | zero => exact List.nodup_singleton ppn
  | succ level ih =>
    have hsub : ∀ {j c}, j ∈ tableSlots → c ∈ (if mem ppn j &&& PTE_V = 0 then []
        else tablePages mem level (mem ppn j / 1024)) → c ∈ t.sub level (512 * i + j) := by
      intro j c hj
      exact tablePages_entry (P := fun xs => c ∈ xs → c ∈ t.sub level (512 * i + j)) hok ht
        (mem_tableSlots.mp hj) (fun _ hc => (List.not_mem_nil hc).elim)
        fun _ hd hc => (mem_tablePages hok (by omega) hd).mp hc
    rw [tablePages, List.nodup_cons]
    constructor
    · intro hmem
      obtain ⟨j, hj, hc⟩ := List.mem_flatMap.mp hmem
      exact hok.not_mem_sub ht (hsub hj hc)
    · refine List.nodup_flatMap.mpr ⟨fun j hj => ?_, ?_⟩
      · exact tablePages_entry hok ht (mem_tableSlots.mp hj) (fun _ => List.nodup_nil)
          fun _ hd => ih (by omega) hd
      · apply nodup_tableSlots.imp_of_mem
        intro j k hj hk hne c hcj hck
        have hjk := hok.sub_inj (hsub hj hcj) (hsub hk hck)
        exact hne (by omega)

theorem Refines.freewalk (h : Refines g U root s l t) (hnone : ∀ vpn, latest s.hist vpn = none) :
    ∃ m, run g (freewalk s.pagetable) s.phys = some ((), m) ∧ m.free.Nodup ∧
      m.free.Perm (tablePages s.phys.mem 2 (s.pagetable / PGSIZE) ++ s.phys.free) := by
  have hram : ∀ ppn ∈ t.tables, g.Ram ppn := fun ppn ht =>
    h.agrees.ram (h.agrees.own (h.has.own ▸ Or.inr ht))
  have hclear : ∀ vpn, t.leaf vpn = 0 := fun vpn => by rw [h.leaf, hnone, encode]
  obtain ⟨_, m, l', hrun, hagrees, hown, -⟩ :=
    h.run_eq (wp_freewalk h.has h.top hram hclear)
  have hok : t.Ok s.phys.mem := h.has.ok.congr fun ppn ht =>
    h.agrees.mem (h.has.own ▸ Or.inr ht)
  have htables : ∀ {ppn}, ppn ∈ tablePages s.phys.mem 2 root ↔ ppn ∈ t.tables := by
    intro ppn
    rw [mem_tablePages hok le_rfl h.top, h.has.ok.sub_root]
  refine ⟨m, h.table ▸ hrun, hagrees.nodup, ?_⟩
  rw [h.table, page_div]
  have hnodup : (tablePages s.phys.mem 2 root ++ s.phys.free).Nodup := by
    refine List.nodup_append'.mpr ⟨nodup_tablePages hok le_rfl h.top, h.agrees.nodup, ?_⟩
    intro ppn hp hf
    exact (h.agrees.free_iff.mp hf).2 (h.has.own ▸ Or.inr (htables.mp hp))
  refine (List.perm_ext_iff_of_nodup hagrees.nodup hnodup).mpr fun ppn => ?_
  rw [hagrees.free_iff, List.mem_append, htables, h.agrees.free_iff, h.has.own, hown]
  constructor
  · rintro ⟨hU, hF⟩
    by_cases ht : ppn ∈ t.tables
    · exact .inl ht
    · exact .inr ⟨hU, fun ho => ho.elim hF ht⟩
  · rintro (ht | ⟨hU, ho⟩)
    · exact ⟨h.agrees.own (h.has.own ▸ Or.inr ht), fun hF => h.has.disj hF ht⟩
    · exact ⟨hU, fun hF => ho (.inl hF)⟩

/-! ### The finite map -/

theorem exists_refines (h : ReachableUnder (Fresh g) (relOf (exec g)) Allowed s) :
    ∃ U root l t, Refines g U root s l t := by
  refine h.invariant (fun s => ∃ U root l t, Refines g U root s l t) ?_ ?_
  · exact fun s hs => hs.refines
  · rintro s c s' ⟨U, root, l, t, hr⟩ hallow hs
    exact ⟨U, root, hr.exec hallow hs⟩

theorem exec_hist {c : Call} (hs : exec g s c = some s') : s'.hist = c :: s.hist := by
  cases c with
  | kalloc | walk va =>
    obtain ⟨r, -, hrest⟩ := Option.bind_eq_some_iff.mp hs
    obtain ⟨-, hs'⟩ := Option.ite_none_left_eq_some.mp hrest
    cases hs'
    rfl
  | mappages va size pa perm =>
    obtain ⟨r, -, hrest⟩ := Option.bind_eq_some_iff.mp hs
    obtain ⟨-, rfl⟩ := Run.of_guard hrest
    rfl
  | uvmunmap va npages do_free =>
    obtain ⟨r, -, hs'⟩ := Option.bind_eq_some_iff.mp hs
    cases hs'
    rfl

/-- **A page table is a finite map.** After any sequence of successful calls on a fresh
table, looking a page up finds what the last call that covers it left there; the next
successful call changes no page that it does not cover; and if nothing is mapped, freeing
the table returns each of its pages to the free list exactly once, without a panic. -/
theorem page_table_is_finite_map
    (h : ReachableUnder (Fresh g) (relOf (exec g)) Allowed s) :
    (∀ va, va < MAXVA →
      s.read g va = some ((latest s.hist (va / PGSIZE)).map mapping) ∧
      s.walkaddr g va = some (userAddr (latest s.hist (va / PGSIZE)))) ∧
    (∀ c s', Allowed s c → exec g s c = some s' →
      ∀ va, va < MAXVA → ¬c.Covers (va / PGSIZE) → s'.read g va = s.read g va) ∧
    ((∀ vpn, latest s.hist vpn = none) →
      ∃ m, run g (freewalk s.pagetable) s.phys = some ((), m) ∧ m.free.Nodup ∧
        m.free.Perm (tablePages s.phys.mem 2 (s.pagetable / PGSIZE) ++ s.phys.free)) := by
  obtain ⟨U, root, l, t, hr⟩ := exists_refines h
  refine ⟨fun va hva => ⟨hr.read hva, hr.walkaddr hva⟩, ?_, hr.freewalk⟩
  intro c s' hallow hs va hva hcov
  obtain ⟨l', t', hr'⟩ := hr.exec hallow hs
  have hlatest : latest (c :: s.hist) (va / PGSIZE) = latest s.hist (va / PGSIZE) := if_neg hcov
  rw [hr'.read hva, hr.read hva, exec_hist hs, hlatest]

theorem exec_mappages_held {va size pa perm : ℕ}
    (hs : exec g s (.mappages va size pa perm) = some s') : s'.held = s.held := by
  obtain ⟨r, -, hrest⟩ := Option.bind_eq_some_iff.mp hs
  obtain ⟨-, rfl⟩ := Run.of_guard hrest
  rfl

/-- A machine with twenty pages. -/
def small : Geometry := ⟨1, 20, Nat.one_pos, by decide⟩

/-- Eight of them are free. -/
def eightFree : Phys := freePages (fun _ => zeroPage) [1, 2, 3, 4, 5, 6, 7, 8]

/-- A fresh table in the first. -/
def newTable : State where
  phys := { eightFree.pop with mem := Function.update eightFree.pop.mem 1 zeroPage }
  pagetable := PGSIZE * 1
  held := ∅
  hist := []

theorem newTable_fresh : Fresh small newTable := by
  have hfree : eightFree.free = [1, 2, 3, 4, 5, 6, 7, 8] :=
    (freePages_lists (g := small) (by decide) (by decide)).free_eq
  refine ⟨eightFree, ?_, ?_, rfl, by decide, rfl, rfl⟩
  · rw [hfree]
    decide
  · rw [hfree]
    decide

/-- The state after the caller has got page 2. -/
def withPage : State :=
  { newTable with
    phys := newTable.phys.pop
    held := insert (8192 / PGSIZE) ∅
    hist := [.kalloc] }

/-- A page is allocated, mapped at 0 for reading by the user, and unmapped and freed again. -/
theorem page_table_is_finite_map_mapUnmap :
    ∃ s s', ReachableUnder (Fresh small) (relOf (exec small)) Allowed s ∧
      s.read small 0 = some (some (8192, PTE_R ||| PTE_U ||| PTE_V)) ∧
      s.walkaddr small 0 = some 8192 ∧
      ReachableUnder (Fresh small) (relOf (exec small)) Allowed s' ∧
      s'.read small 0 = some none ∧
      ∃ m, run small (freewalk s'.pagetable) s'.phys = some ((), m) ∧ m.free.Nodup ∧
        m.free.Perm (tablePages s'.phys.mem 2 (s'.pagetable / PGSIZE) ++ s'.phys.free) := by
  have hrun : (execAll (exec small) withPage [.mappages 0 4096 8192 (PTE_R ||| PTE_U),
      .uvmunmap 0 1 true]).isSome := by decide +kernel
  obtain ⟨last, hall⟩ := Option.isSome_iff_exists.mp hrun
  obtain ⟨s, hs, hrest⟩ := Option.bind_eq_some_iff.mp hall
  obtain ⟨s', hs', -⟩ := Option.bind_eq_some_iff.mp hrest
  have hlast : mapLast 0 4096 = 0 := by decide +kernel
  have hstop : unmapStop 0 1 = 1 := by decide +kernel
  have hhist : s.hist = [.mappages 0 4096 8192 (PTE_R ||| PTE_U), .kalloc] := exec_hist hs
  have hheld : s.held = withPage.held := exec_mappages_held hs
  have hzero : latest s.hist 0 = some (2, PTE_R ||| PTE_U) := by
    rw [hhist]
    decide +kernel
  have hreach₁ : ReachableUnder (Fresh small) (relOf (exec small)) Allowed withPage :=
    .next (a := .kalloc) (.start newTable_fresh) trivial rfl
  have hperm : Allowed withPage (.mappages 0 4096 8192 (PTE_R ||| PTE_U)) :=
    show PTE_R ||| PTE_U < 1024 by decide
  have hreach : ReachableUnder (Fresh small) (relOf (exec small)) Allowed s :=
    .next hreach₁ hperm hs
  have hallow : Allowed s (.uvmunmap 0 1 true) := by
    constructor
    · rintro ppn ⟨vpn, perm, -, hlt, hl⟩
      obtain rfl : vpn = 0 := by omega
      obtain ⟨rfl, -⟩ := Prod.mk.inj (Option.some.inj (hzero.symm.trans hl))
      rw [hheld]
      exact .inl rfl
    · intro j k _ _ _ _ hj _ hk _ _
      omega
  have hreach' := ReachableUnder.next hreach hallow hs'
  have hnone : ∀ vpn, latest s'.hist vpn = none := by
    intro vpn
    rw [exec_hist hs', hhist]
    by_cases hv : vpn = 0
    · subst hv
      decide +kernel
    · have hun : ¬(Call.uvmunmap 0 1 true).Covers vpn := fun hc => hv (by have := hc.2; omega)
      have hmap : ¬(Call.mappages 0 4096 8192 (PTE_R ||| PTE_U)).Covers vpn := fun hc =>
        hv (by have := hc.2; omega)
      unfold latest
      rw [if_neg hun]
      unfold latest
      rw [if_neg hmap]
      rfl
  have hread := (page_table_is_finite_map hreach).1 0 (by decide)
  have hread' := (page_table_is_finite_map hreach').1 0 (by decide)
  rw [Nat.zero_div, hzero] at hread
  rw [hnone] at hread'
  exact ⟨s, s', hreach, hread.1, hread.2, hreach', hread'.1,
    (page_table_is_finite_map hreach').2.2 hnone⟩

/-- A page is mapped twice and freed twice. -/
def doubleFree : List Call :=
  [.kalloc, .mappages 0 4096 8192 PTE_R, .mappages 4096 4096 8192 PTE_R, .uvmunmap 0 1 true,
    .uvmunmap 4096 1 true, .walk (1 <<< 30)]

/-- Without the callers' side of the contract the table is not a map. With a permission
outside the flag bits, another page is mapped than the one given. And if a page is freed
twice, `walk` gets it for two tables: a table then points to itself, and an address that
was never mapped has an entry. -/
theorem frees_must_be_owned :
    Fresh small newTable ∧
    (∃ s, execAll (exec small) newTable [.mappages 0 4096 8192 (PTE_R ||| 1024)] = some s ∧
      latest s.hist 0 = some (2, PTE_R ||| 1024) ∧
      s.read small 0 = some (some (12288, PTE_R ||| PTE_V))) ∧
    ∃ s, execAll (exec small) newTable doubleFree = some s ∧
      latest s.hist ((1 <<< 30) / PGSIZE) = none ∧
      s.read small (1 <<< 30) = some (some (8192, PTE_V)) :=
  ⟨newTable_fresh, Run.exists_some (by decide +kernel), Run.exists_some (by decide +kernel)⟩

end Xv6.Vm
