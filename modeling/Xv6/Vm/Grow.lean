import Mathlib.Data.Finset.Card
import Xv6.Proc
import Xv6.Vm.Exact

/-!
Growing and shrinking user memory: `uvmalloc`, `uvmdealloc`, `growproc` and `sbrk`.

The pages of a process of size `sz` are the first `pages sz` of its virtual pages. `Grown` is
what `uvmalloc` makes of a page table: zeroed pages of its own for a range of virtual pages,
everything else as it was. When an allocation fails half-way, the pages mapped so far are
given back and the table maps what it mapped before.

* `wp_uvmdealloc`, `wp_uvmalloc`: the two functions, on a table that the process owns.
* `sbrk_exact_iff`: `sbrk` on a process of any size.
* `sbrk_below_zero`: what it answers to a request for a negative size.
-/

namespace Xv6.Vm

open Function (update update_of_ne update_self update_eq_self)
open Prog (wp wp_bind)

/-! ### The programs -/

/-- `PGROUNDUP` of a `uint64`. -/
def roundUp (sz : ℕ) : ℕ := wrap64 (PGROUNDUP sz)

/-- A `uint64` assigned to an `int` and used as a `uint64` again. -/
@[irreducible] def viaInt (n : ℕ) : ℕ := (int32 n % 18446744073709551616).toNat

/-- The sum of a `uint64` and an `int`. -/
@[irreducible] def addInt (sz : ℕ) (n : ℤ) : ℕ := ((sz + n) % 18446744073709551616).toNat

def uvmdealloc (pagetable oldsz newsz : ℕ) : Code ℕ :=
  if newsz ≥ oldsz then
    pure oldsz
  else if roundUp newsz < roundUp oldsz then do
    let npages := viaInt ((roundUp oldsz - roundUp newsz) / PGSIZE)
    uvmunmap pagetable (roundUp newsz) npages true
    pure newsz
  else
    pure newsz

/-- The loop of `uvmalloc`; `oldsz` is rounded up already. -/
def allocLoop (pagetable oldsz newsz xperm : ℕ) : ℕ → ℕ → Code ℕ
  | 0, _ => outOfRounds
  | rounds + 1, a =>
    if a < newsz then do
      let mem ← kalloc
      if mem = 0 then do
        let _ ← uvmdealloc pagetable a oldsz
        pure 0
      else do
        clearPage mem
        let r ← mappages pagetable a PGSIZE mem (PTE_R ||| PTE_U ||| xperm)
        if r ≠ 0 then do
          kfree mem
          let _ ← uvmdealloc pagetable a oldsz
          pure 0
        else
          allocLoop pagetable oldsz newsz xperm rounds (a + PGSIZE)
    else
      pure newsz

def uvmalloc (pagetable oldsz newsz xperm : ℕ) : Code ℕ :=
  if newsz < oldsz then
    pure oldsz
  else
    allocLoop pagetable (roundUp oldsz) newsz xperm MAXPAGES (roundUp oldsz)

/-- The fields of `struct proc` that describe user memory. -/
structure Space where
  pagetable : ℕ
  sz : ℕ
deriving DecidableEq

def growproc (p : Space) (n : ℤ) : Code (ℤ × Space) :=
  if n > 0 then do
    let sz ← uvmalloc p.pagetable p.sz (addInt p.sz n) PTE_W
    if sz = 0 then
      pure (-1, p)
    else
      pure (0, { p with sz := sz })
  else if n < 0 then do
    let sz ← uvmdealloc p.pagetable p.sz (addInt p.sz n)
    pure (0, { p with sz := sz })
  else
    pure (0, p)

/-- `-1` as a `uint64`. -/
def MINUS1 : ℕ := 18446744073709551615

/-- `argint(0, &n)`, from the register `a0`. -/
@[irreducible] def argint (a0 : ℕ) : ℤ := int32 a0

def sys_sbrk (p : Space) (a0 : ℕ) : Code (ℕ × Space) := do
  let (r, p') ← growproc p (argint a0)
  if r < 0 then
    pure (MINUS1, p')
  else
    pure (p.sz, p')

/-! ### Sizes and pages -/

/-- The number of pages of `sz` bytes. -/
def pages (sz : ℕ) : ℕ := PGROUNDUP sz / PGSIZE

theorem pages_eq (sz : ℕ) : pages sz = (sz + 4095) / 4096 := by
  unfold pages PGROUNDUP PGSIZE
  omega

variable {sz : ℕ}

theorem roundUp_eq (h : sz ≤ MAXVA) : roundUp sz = PGSIZE * pages sz := by
  have hM : MAXVA = 274877906944 := rfl
  have hround : PGROUNDUP sz = PGSIZE * pages sz := by
    rw [pages_eq]
    unfold PGROUNDUP PGSIZE
    omega
  unfold roundUp
  rw [wrap64_of_lt, hround]
  unfold PGROUNDUP PGSIZE
  omega

theorem pages_page (vpn : ℕ) : pages (PGSIZE * vpn) = vpn := by
  rw [pages_eq]
  unfold PGSIZE
  omega

theorem pages_mono {a b : ℕ} (h : a ≤ b) : pages a ≤ pages b := by
  rw [pages_eq, pages_eq]
  omega

theorem lt_pages {vpn sz : ℕ} : vpn < pages sz ↔ PGSIZE * vpn < sz := by
  rw [pages_eq]
  unfold PGSIZE
  omega

theorem pages_le_NVPN (h : sz ≤ MAXVA) : pages sz ≤ NVPN := by
  have hM : MAXVA = 274877906944 := rfl
  rw [pages_eq]
  unfold NVPN
  omega

theorem viaInt_of_le {n : ℕ} (h : n ≤ NVPN) : viaInt n = n := by
  have hN : NVPN = 67108864 := rfl
  have hint : int32 n = n := by
    unfold int32
    rw [Int.bmod_eq_of_le] <;> omega
  unfold viaInt
  rw [hint]
  omega

theorem argint_bounds (a0 : ℕ) : -2147483648 ≤ argint a0 ∧ argint a0 < 2147483648 := by
  unfold argint int32
  constructor
  · exact Int.le_bmod (by decide)
  · exact Int.bmod_lt (by decide)

variable {g : Geometry} {panics : Prop} {l l₁ : Loc} {F : Set ℕ} {t t₁ : Tree}
  {root vpn lo hi perm : ℕ}

theorem entryOf_eq (pa : ℕ) (hperm : perm < 1024) :
    entryOf pa perm = 1024 * (pa / PGSIZE) + (perm ||| PTE_V) := by
  unfold entryOf
  rw [Nat.or_assoc, PA2PTE_or (or_lt_flags hperm (by decide))]

theorem entryOf_div (ppn : ℕ) (hperm : perm < 1024) : entryOf (PGSIZE * ppn) perm / 1024 = ppn := by
  have hlt : perm ||| PTE_V < 1024 := or_lt_flags hperm (by decide)
  rw [entryOf_eq _ hperm, page_div]
  omega

theorem isLeaf_entryOf (pa : ℕ) (hperm : perm < 1024) (hread : perm &&& PTE_R ≠ 0) :
    IsLeaf (entryOf pa perm) := by
  refine ⟨entryOf_valid _ _, fun hflags => hread ?_⟩
  rw [entryOf_eq pa hperm, PTE_FLAGS_add (or_lt_flags hperm (by decide))] at hflags
  have hbit : (perm ||| PTE_V) &&& PTE_R = PTE_V &&& PTE_R := by rw [hflags]
  rw [Nat.and_or_distrib_right] at hbit
  exact (Nat.or_eq_zero_iff.mp hbit).1

/-- One page is mapped, or an allocation fails. -/
theorem wp_mapPage {pa : ℕ} (h : l.Has F t) (hroot : t.tab 2 0 = some root)
    (hva : PGSIZE * vpn < 18446744073709551616)
    (hsafe : ¬panics → vpn < NVPN ∧ t.leaf vpn &&& PTE_V = 0) :
    wp (memRules g panics) (mappages (PGSIZE * root) (PGSIZE * vpn) PGSIZE pa perm)
      (fun r l' => ∃ t', Loc.Change F t l t' l' ∧
        ((r = 0 ∧ vpn < NVPN ∧ t.leaf vpn &&& PTE_V = 0 ∧
            t'.leaf = update t.leaf vpn (entryOf pa perm)) ∨
          (r = -1 ∧ t'.leaf = t.leaf))) l := by
  have hlast : wrap64 (PGSIZE * vpn + PGSIZE - 1) / PGSIZE = vpn := by
    unfold PGSIZE at hva ⊢
    rw [wrap64_of_lt (by omega)]
    omega
  obtain ⟨rounds, hrounds⟩ : ∃ n, MAXPAGES = n + 1 := ⟨_, rfl⟩
  unfold mappages
  rw [if_neg (by decide), PGROUNDDOWN_eq, PGROUNDDOWN_eq, hlast, page_div, hrounds]
  refine wp_mapEntry h hroot hsafe (fun t' l' hch hleaf => ⟨t', hch, .inr ⟨rfl, hleaf⟩⟩)
    fun t' l' hch hleaf hvpn hbare => ?_
  rw [if_pos rfl]
  exact ⟨t', hch, .inl ⟨rfl, hvpn, hbare, hleaf⟩⟩

/-! ### uvmdealloc -/

theorem wp_uvmdealloc {oldsz newsz : ℕ} (h : l.Has F t) (hroot : t.tab 2 0 = some root)
    (hlt : newsz < oldsz) (hold : oldsz ≤ MAXVA)
    (hleaf : ∀ k, pages newsz ≤ k → k < pages oldsz → IsLeaf (t.leaf k))
    (hfree : MayFree g F t.leaf (pages newsz) (pages oldsz)) :
    wp (memRules g panics) (uvmdealloc (PGSIZE * root) oldsz newsz)
      (fun r l' => r = newsz ∧ ∃ t', l'.Has (F \ pagesOf t.leaf (pages newsz) (pages oldsz)) t' ∧
        t'.tab = t.tab ∧ t'.leaf = clearRange t.leaf (pages newsz) (pages oldsz) ∧
        ∀ ppn ∈ F \ pagesOf t.leaf (pages newsz) (pages oldsz), l'.mem ppn = l.mem ppn) l := by
  have hN := pages_le_NVPN hold
  unfold uvmdealloc
  rw [if_neg (not_le.mpr hlt), roundUp_eq hold, roundUp_eq (hlt.le.trans hold)]
  split
  case isFalse hsame =>
    have hle : pages oldsz ≤ pages newsz := by
      unfold PGSIZE at hsame
      omega
    rw [pagesOf_of_le hle, Set.sdiff_empty, clearRange_of_le hle]
    exact ⟨rfl, t, h, rfl, rfl, fun _ _ => rfl⟩
  case isTrue hmore =>
    have hlt' : pages newsz < pages oldsz := Nat.lt_of_mul_lt_mul_left hmore
    have hnp : viaInt ((PGSIZE * pages oldsz - PGSIZE * pages newsz) / PGSIZE) =
        pages oldsz - pages newsz := by
      rw [← Nat.mul_sub, page_div]
      exact viaInt_of_le (by omega)
    have hstop : wrap64 (PGSIZE * pages newsz + (pages oldsz - pages newsz) * PGSIZE) / PGSIZE =
        pages oldsz := by
      have hN' : NVPN = 67108864 := rfl
      unfold PGSIZE
      rw [wrap64_of_lt (by omega)]
      omega
    rw [hnp]
    refine (wp_uvmunmap (page_div _) hstop h hroot ?_ fun _ => hfree).bind ?_
    · exact fun _ => ⟨page_mod _, fun k hk hks => ⟨by omega, hleaf k hk hks⟩⟩
    · rintro - l' ⟨t', h', htab, hclear, hmem, -⟩
      exact ⟨rfl, t', h', htab, hclear, hmem⟩

/-! ### uvmalloc -/

/-- Virtual page `k` has got a zeroed page of its own. -/
structure NewPage (g : Geometry) (F : Set ℕ) (t : Tree) (perm k : ℕ) (t' : Tree) (l' : Loc) : Prop where
  bare : t.leaf k &&& PTE_V = 0
  entry : t'.leaf k = entryOf (PGSIZE * (t'.leaf k / 1024)) perm
  fresh : t'.leaf k / 1024 ∉ F
  ram : g.Ram (t'.leaf k / 1024)
  zero : l'.mem (t'.leaf k / 1024) = zeroPage

/-- From `l` with the tree `t` to `l'` with the tree `t'`, the virtual pages from `lo` to `hi`
have got zeroed pages of their own; `F` and the other entries are as before. -/
structure Grown (g : Geometry) (F : Set ℕ) (t : Tree) (l : Loc) (perm lo hi : ℕ) (t' : Tree)
    (l' : Loc) : Prop where
  has : l'.Has (F ∪ pagesOf t'.leaf lo hi) t'
  tab : ∀ {level i ppn}, t.tab level i = some ppn → t'.tab level i = some ppn
  mem : ∀ ppn ∈ F, l'.mem ppn = l.mem ppn
  other : ∀ {k}, ¬(lo ≤ k ∧ k < hi) → t'.leaf k = t.leaf k
  page : ∀ {k}, lo ≤ k → k < hi → NewPage g F t perm k t' l'
  inj : ∀ {j k}, lo ≤ j → j < hi → lo ≤ k → k < hi → t'.leaf j / 1024 = t'.leaf k / 1024 → j = k

/-- A page is given back after a change that kept it: what is left has changed as much. -/
theorem Loc.Change.giveBack {l₂ : Loc} {t₂ : Tree} {ppn : ℕ} {page page' : Page}
    (h : Loc.Change (insert ppn F) t ((l.take ppn page).put ppn page') t₂ l₂) (hnot : ppn ∉ F) :
    Loc.Change F t l t₂ (l₂.drop ppn) := by
  have hhas := h.has.drop (Set.mem_insert ppn F)
  rw [Set.insert_sdiff_self_of_notMem hnot] at hhas
  refine ⟨hhas, fun c hc => ?_, h.tab⟩
  have hne : c ≠ ppn := fun he => hnot (he ▸ hc)
  rw [show (l₂.drop ppn).mem c = l₂.mem c from rfl, h.mem c (.inr hc)]
  simp only [Loc.put, Loc.take, update_of_ne hne]

/-- Entries that are not valid are 0. -/
def Tree.Clean (t : Tree) : Prop := ∀ k, t.leaf k &&& PTE_V = 0 → t.leaf k = 0

namespace Grown

theorem refl (h : l.Has F t) (lo : ℕ) : Grown g F t l perm lo lo t l where
  has := by rwa [pagesOf_of_le le_rfl, Set.union_empty]
  tab := id
  mem _ _ := rfl
  other _ := rfl
  page hk hks := absurd hks (by omega)
  inj hj hjs := absurd hjs (by omega)

section

variable (h : Grown g F t l perm lo hi t₁ l₁)
include h

/-- The pages may be given back. -/
theorem mayFree :
    MayFree g (F ∪ pagesOf t₁.leaf lo hi) t₁.leaf lo hi where
  page k hk hks _ := ⟨.inr ⟨k, hk, hks, rfl⟩, (h.page hk hks).ram⟩
  inj _ _ hj hjs hk hks _ _ he := h.inj hj hjs hk hks he

theorem isLeaf (hperm : perm < 1024)
    (hread : perm &&& PTE_R ≠ 0) {k : ℕ} (hk : lo ≤ k) (hks : k < hi) : IsLeaf (t₁.leaf k) := by
  rw [(h.page hk hks).entry]
  exact isLeaf_entryOf _ hperm hread

/-- What is left when they have been. -/
theorem sdiff_pages :
    (F ∪ pagesOf t₁.leaf lo hi) \ pagesOf t₁.leaf lo hi = F := by
  rw [Set.union_sdiff_right]
  refine sdiff_eq_left.mpr (Set.disjoint_left.mpr ?_)
  rintro ppn hF ⟨k, hk, hks, rfl⟩
  exact (h.page hk hks).fresh hF

end

/-- One page more: a page from `kalloc`, cleared and mapped. -/
theorem step {l₂ : Loc} {t₂ : Tree} {ppn : ℕ} {page : Page}
    (h : Grown g F t l perm lo vpn t₁ l₁) (hlo : lo ≤ vpn) (hperm : perm < 1024) (hram : g.Ram ppn)
    (hnew : ppn ∉ l₁.own)
    (hch : Loc.Change (insert ppn (F ∪ pagesOf t₁.leaf lo vpn)) t₁
      ((l₁.take ppn page).put ppn zeroPage) t₂ l₂)
    (hbare : t₁.leaf vpn &&& PTE_V = 0)
    (hleaf : t₂.leaf = update t₁.leaf vpn (entryOf (PGSIZE * ppn) perm)) :
    Grown g F t l perm lo (vpn + 1) t₂ l₂ := by
  have hat : t₂.leaf vpn = entryOf (PGSIZE * ppn) perm := by rw [hleaf, update_self]
  have hppn : t₂.leaf vpn / 1024 = ppn := by rw [hat, entryOf_div ppn hperm]
  have hold : ∀ {k}, k ≠ vpn → t₂.leaf k = t₁.leaf k := fun hk => by
    rw [hleaf, update_of_ne hk]
  have hF : ∀ c ∈ F, c ≠ ppn := fun c hc he =>
    hnew (he ▸ h.has.own ▸ Or.inl (Or.inl hc))
  have hpage : ∀ {k}, lo ≤ k → k < vpn → t₁.leaf k / 1024 ≠ ppn := fun hk hks he =>
    hnew (he ▸ h.has.own ▸ Or.inl (Or.inr ⟨_, hk, hks, rfl⟩))
  have hpages : F ∪ pagesOf t₂.leaf lo (vpn + 1) = insert ppn (F ∪ pagesOf t₁.leaf lo vpn) := by
    ext c
    constructor
    · rintro (hc | ⟨k, hk, hks, rfl⟩)
      · exact .inr (.inl hc)
      · by_cases hkv : k = vpn
        · exact .inl (hkv ▸ hppn)
        · exact .inr (.inr ⟨k, hk, by omega, by rw [hold hkv]⟩)
    · rintro (rfl | hc | ⟨k, hk, hks, rfl⟩)
      · exact .inr ⟨vpn, hlo, by omega, hppn.symm⟩
      · exact .inl hc
      · exact .inr ⟨k, hk, by omega, by rw [hold (by omega)]⟩
  have hmem : ∀ c ∈ F ∪ pagesOf t₁.leaf lo vpn, c ≠ ppn → l₂.mem c = l₁.mem c := by
    intro c hc hne
    rw [hch.mem c (.inr hc)]
    simp only [Loc.put, Loc.take, update_of_ne hne]
  refine ⟨?_, fun ht => hch.tab (h.tab ht), ?_, ?_, ?_, ?_⟩
  · rw [hpages]
    exact hch.has
  · intro c hc
    rw [hmem c (.inl hc) (hF c hc), h.mem c hc]
  · intro k hk
    rw [hold (by omega), h.other (by omega)]
  · intro k hk hks
    by_cases hkv : k = vpn
    · subst hkv
      refine ⟨by rwa [← h.other (by omega)], by rw [hppn, hat], ?_, hppn ▸ hram, ?_⟩
      · rw [hppn]
        exact fun hc => hF ppn hc rfl
      · rw [hppn, hch.mem ppn (.inl rfl)]
        simp only [Loc.put, update_self]
    · obtain ⟨hbare, hentry, hfresh, hram, hzero⟩ := h.page hk (show k < vpn by omega)
      rw [← hold hkv] at hentry hfresh hram
      refine ⟨hbare, hentry, hfresh, hram, ?_⟩
      rw [hold hkv, hmem _ (.inr ⟨k, hk, by omega, rfl⟩) (hpage hk (by omega)), hzero]
  · intro j k hj hjs hk hks he
    by_cases hjv : j = vpn
    · by_cases hkv : k = vpn
      · rw [hjv, hkv]
      · rw [hjv, hppn, hold hkv] at he
        exact absurd he.symm (hpage hk (by omega))
    · by_cases hkv : k = vpn
      · rw [hkv, hppn, hold hjv] at he
        exact absurd he (hpage hj (by omega))
      · rw [hold hjv, hold hkv] at he
        exact h.inj hj (by omega) hk (by omega) he

theorem clean (h : Grown g F t l perm lo hi t₁ l₁) (hclean : t.Clean) : t₁.Clean := by
  intro k hk
  by_cases hin : lo ≤ k ∧ k < hi
  · rw [(h.page hin.1 hin.2).entry] at hk
    exact absurd hk (entryOf_valid _ _)
  · rw [h.other hin] at hk ⊢
    exact hclean k hk

/-- Tables may be added. -/
theorem change {t₂ : Tree} {l₂ : Loc} (h : Grown g F t l perm lo hi t₁ l₁)
    (hch : Loc.Change (F ∪ pagesOf t₁.leaf lo hi) t₁ l₁ t₂ l₂) (hleaf : t₂.leaf = t₁.leaf) :
    Grown g F t l perm lo hi t₂ l₂ where
  has := hleaf ▸ hch.has
  tab ht := hch.tab (h.tab ht)
  mem ppn hF := (hch.mem ppn (.inl hF)).trans (h.mem ppn hF)
  other hk := hleaf ▸ h.other hk
  page hk hks := by
    obtain ⟨hbare, hentry, hfresh, hram, hzero⟩ := h.page hk hks
    rw [← hch.mem _ (.inr ⟨_, hk, hks, rfl⟩)] at hzero
    rw [← hleaf] at hentry hfresh hram hzero
    exact ⟨hbare, hentry, hfresh, hram, hzero⟩
  inj := hleaf ▸ h.inj

end Grown

/-- The first `n` virtual pages have RAM pages of `F` of their own. -/
structure Backed (g : Geometry) (F : Set ℕ) (leaf : ℕ → ℕ) (n : ℕ) : Prop where
  page : ∀ {k}, k < n → IsLeaf (leaf k) ∧ leaf k / 1024 ∈ F ∧ g.Ram (leaf k / 1024)
  inj : ∀ {j k}, j < n → k < n → leaf j / 1024 = leaf k / 1024 → j = k

namespace Backed

variable {leaf : ℕ → ℕ} {n : ℕ}

theorem card (h : Backed g F leaf n) : ((Finset.range n).image fun k => leaf k / 1024).card = n := by
  rw [Finset.card_image_of_injOn, Finset.card_range]
  intro j hj k hk he
  exact h.inj (Finset.mem_range.mp (Finset.mem_coe.mp hj))
    (Finset.mem_range.mp (Finset.mem_coe.mp hk)) he

theorem subset (h : Backed g F leaf n) :
    ((Finset.range n).image fun k => leaf k / 1024) ⊆ Finset.range g.hi := by
  intro c hc
  obtain ⟨k, hk, rfl⟩ := Finset.mem_image.mp hc
  exact Finset.mem_range.mpr (h.page (Finset.mem_range.mp hk)).2.2.2

/-- There are no more of them than RAM has. -/
theorem le (h : Backed g F leaf n) : n ≤ g.hi := by
  have hcard := Finset.card_le_card h.subset
  rwa [h.card, Finset.card_range] at hcard

theorem mayFree (h : Backed g F leaf n) (lo : ℕ) : MayFree g F leaf lo n where
  page _ _ hks _ := (h.page hks).2
  inj _ _ _ hjs _ hks _ _ he := h.inj hjs hks he

/-- Fewer pages, and some of `F` given up. -/
theorem shrink {F' : Set ℕ} {leaf' : ℕ → ℕ} {n' : ℕ} (h : Backed g F leaf n) (hn : n' ≤ n)
    (hleaf : ∀ {k}, k < n' → leaf' k = leaf k) (hF : ∀ {k}, k < n' → leaf k / 1024 ∈ F') :
    Backed g F' leaf' n' where
  page hk := by
    rw [hleaf hk]
    exact ⟨(h.page (by omega)).1, hF hk, (h.page (by omega)).2.2⟩
  inj hj hk he := by
    rw [hleaf hj, hleaf hk] at he
    exact h.inj (by omega) (by omega) he

/-- The pages that `uvmalloc` has mapped come to those before. -/
theorem grown (h : Backed g F t.leaf lo) (hgrown : Grown g F t l perm lo hi t₁ l₁)
    (hperm : perm < 1024) (hread : perm &&& PTE_R ≠ 0) :
    Backed g (F ∪ pagesOf t₁.leaf lo hi) t₁.leaf hi := by
  have hold : ∀ {k}, k < lo → t₁.leaf k = t.leaf k := fun hk => hgrown.other (by omega)
  constructor
  · intro k hk
    by_cases hin : k < lo
    · rw [hold hin]
      exact ⟨(h.page hin).1, .inl (h.page hin).2.1, (h.page hin).2.2⟩
    · have hk' : lo ≤ k := not_lt.mp hin
      exact ⟨hgrown.isLeaf hperm hread hk' hk, .inr ⟨k, hk', hk, rfl⟩, (hgrown.page hk' hk).ram⟩
  · intro j k hj hk he
    by_cases hjp : j < lo <;> by_cases hkp : k < lo
    · rw [hold hjp, hold hkp] at he
      exact h.inj hjp hkp he
    · rw [hold hjp] at he
      exact absurd (he ▸ (h.page hjp).2.1) (hgrown.page (not_lt.mp hkp) hk).fresh
    · rw [hold hkp] at he
      exact absurd (he ▸ (h.page hkp).2.1) (hgrown.page (not_lt.mp hjp) hj).fresh
    · exact hgrown.inj (not_lt.mp hjp) hj (not_lt.mp hkp) hk he

/-- While there is a RAM page that backs none of them, they are not all of RAM. -/
theorem lt (h : Backed g F leaf n) {ppn : ℕ} (hram : g.Ram ppn) (hnew : ppn ∉ F) : n < g.hi := by
  have hcard := Finset.card_lt_card ((Finset.ssubset_iff_of_subset h.subset).mpr
    ⟨ppn, Finset.mem_range.mpr hram.2, fun hc => ?_⟩)
  · rwa [h.card, Finset.card_range] at hcard
  · obtain ⟨k, hk, rfl⟩ := Finset.mem_image.mp hc
    exact hnew (h.page (Finset.mem_range.mp hk)).2.1

end Backed

/-- The pages that `uvmalloc` has mapped so far are given back. -/
theorem wp_undo (h : Grown g F t l perm lo vpn t₁ l₁) (hroot : t.tab 2 0 = some root)
    (hclean : t.Clean) (hlo : lo ≤ vpn) (hN : lo < vpn → vpn ≤ NVPN) (hperm : perm < 1024)
    (hread : perm &&& PTE_R ≠ 0) :
    wp (memRules g panics) (uvmdealloc (PGSIZE * root) (PGSIZE * vpn) (PGSIZE * lo))
      (fun _ l' => ∃ t', Loc.Change F t l t' l' ∧ t'.leaf = t.leaf) l₁ := by
  rcases Nat.eq_or_lt_of_le hlo with rfl | hlt
  · unfold uvmdealloc
    rw [if_pos le_rfl]
    have hhas := h.has
    rw [pagesOf_of_le le_rfl, Set.union_empty] at hhas
    refine ⟨t₁, ⟨hhas, h.mem, h.tab⟩, ?_⟩
    funext k
    exact h.other (by omega)
  · have hmax : PGSIZE * vpn ≤ MAXVA := by
      have hN' := hN hlt
      have hM : MAXVA = PGSIZE * NVPN := rfl
      rw [hM]
      exact Nat.mul_le_mul_left _ hN'
    have hsub : PGSIZE * lo < PGSIZE * vpn := Nat.mul_lt_mul_of_pos_left hlt (by decide)
    have hfree : MayFree g (F ∪ pagesOf t₁.leaf lo vpn) t₁.leaf (pages (PGSIZE * lo))
        (pages (PGSIZE * vpn)) := by
      rw [pages_page, pages_page]
      exact h.mayFree
    have hleaf : ∀ k, pages (PGSIZE * lo) ≤ k → k < pages (PGSIZE * vpn) → IsLeaf (t₁.leaf k) := by
      rw [pages_page, pages_page]
      exact fun k => h.isLeaf hperm hread
    refine (wp_uvmdealloc h.has (h.tab hroot) hsub hmax hleaf hfree).mono ?_
    rintro - l' ⟨-, t', h', htab, hclear, hmem⟩
    rw [pages_page, pages_page] at h' hclear hmem
    rw [h.sdiff_pages] at h' hmem
    refine ⟨t', ⟨h', fun ppn hF => (hmem ppn hF).trans (h.mem ppn hF), ?_⟩, ?_⟩
    · intro level i ppn ht
      rw [htab]
      exact h.tab ht
    · funext k
      rw [hclear]
      unfold clearRange
      split
      case isTrue hk => exact (hclean k (h.page hk.1 hk.2).bare).symm
      case isFalse hk => exact h.other hk

theorem wp_allocLoop {newsz xperm rounds : ℕ} (hperm : PTE_R ||| PTE_U ||| xperm = perm)
    (h : Grown g F t l perm lo vpn t₁ l₁) (hroot : t.tab 2 0 = some root) (hclean : t.Clean)
    (hlo : lo ≤ vpn) (hN : lo < vpn → vpn ≤ NVPN) (hx : xperm < 1024)
    (hnew : newsz < 18446744073709551616) (hrounds : 0 < rounds) (hmore : NVPN < vpn + rounds)
    (hsafe : ¬panics → Backed g F t.leaf lo ∧
      ∀ k, lo ≤ k → k < g.hi → PGSIZE * k < newsz → k < NVPN ∧ t.leaf k &&& PTE_V = 0) :
    wp (memRules g panics)
      (allocLoop (PGSIZE * root) (PGSIZE * lo) newsz xperm rounds (PGSIZE * vpn))
      (fun r l' => (r = 0 ∧ ∃ t', Loc.Change F t l t' l' ∧ t'.leaf = t.leaf) ∨
        (r = newsz ∧ ∃ t', Grown g F t l perm lo (max vpn (pages newsz)) t' l')) l₁ := by
  have hflags : perm < 1024 := hperm ▸ or_lt_flags (by decide) hx
  have hread : perm &&& PTE_R ≠ 0 := by
    rw [← hperm, Nat.and_or_distrib_right]
    exact fun h0 => absurd (Nat.or_eq_zero_iff.mp h0).1 (by decide)
  induction rounds generalizing vpn t₁ l₁ with
  | zero => exact absurd hrounds (Nat.lt_irrefl 0)
  | succ rounds ih =>
    unfold allocLoop
    split
    case isFalse hge =>
      refine .inr ⟨rfl, t₁, ?_⟩
      have hle : pages newsz ≤ vpn := by
        by_contra hlt
        exact hge (lt_pages.mp (not_le.mp hlt))
      rwa [max_eq_left hle]
    case isTrue hlt =>
      apply wp_bind.mpr
      apply wp_kalloc
      · rw [if_pos rfl]
        apply (wp_undo h hroot hclean hlo hN hflags hread).bind
        exact fun _ l' hl' => .inl ⟨rfl, hl'⟩
      · intro ppn page hram hown
        rw [if_neg hram.ne_zero]
        apply wp_bind.mpr
        apply wp_writePage ⟨rfl, Set.mem_insert ppn l₁.own⟩
        have htake := (h.has.take hown page).put (Set.mem_insert ppn _) zeroPage
        have hsafe' : ¬panics → vpn < NVPN ∧ t₁.leaf vpn &&& PTE_V = 0 := fun hp => by
          obtain ⟨hbacked, hbare⟩ := hsafe hp
          have hfew : vpn < g.hi := (hbacked.grown h hflags hread).lt hram fun hc =>
            hown (h.has.own ▸ Or.inl hc)
          rw [h.other (by omega)]
          exact hbare vpn hlo hfew hlt
        apply (wp_mapPage htake (h.tab hroot) (by omega) hsafe').bind
        rintro r l₂ ⟨t₂, hch, hr⟩
        rcases hr with ⟨rfl, hvpn, hbare, hleaf⟩ | ⟨rfl, hleaf⟩
        · rw [if_neg (by decide), ← Nat.mul_succ]
          have hstep := h.step hlo hflags hram hown hch hbare (hperm ▸ hleaf)
          apply (ih hstep (by omega) (fun _ => hvpn) (by omega) (by omega)).mono
          rintro r l' (hfail | ⟨hr, t', hgrown⟩)
          · exact .inl hfail
          · refine .inr ⟨hr, t', ?_⟩
            have hle : vpn + 1 ≤ pages newsz := lt_pages.mpr hlt
            rwa [max_eq_right hle, ← max_eq_right (show vpn ≤ pages newsz by omega)] at hgrown
        · rw [if_pos (by decide)]
          have hmem : ppn ∈ insert ppn (F ∪ pagesOf t₁.leaf lo vpn) := Set.mem_insert _ _
          have hnot : ppn ∉ F ∪ pagesOf t₁.leaf lo vpn := fun hc => hown (h.has.own ▸ Or.inl hc)
          apply wp_bind.mpr
          apply wp_kfree ⟨rfl, hch.has.own ▸ Or.inl hmem⟩ hram
          have hback := h.change (hch.giveBack hnot) hleaf
          apply (wp_undo hback hroot hclean hlo hN hflags hread).bind
          exact fun _ l' hl' => .inl ⟨rfl, hl'⟩

/-- `uvmalloc` maps zeroed pages from the old size to the new, or leaves everything as it
was. -/
theorem wp_uvmalloc {oldsz newsz xperm : ℕ} (h : l.Has F t) (hroot : t.tab 2 0 = some root)
    (hclean : t.Clean) (hold : oldsz ≤ MAXVA) (hnew : newsz < 18446744073709551616)
    (hx : xperm < 1024)
    (hsafe : ¬panics → Backed g F t.leaf (pages oldsz) ∧
      ∀ k, pages oldsz ≤ k → k < g.hi → PGSIZE * k < newsz → k < NVPN ∧ t.leaf k &&& PTE_V = 0) :
    wp (memRules g panics) (uvmalloc (PGSIZE * root) oldsz newsz xperm)
      (fun r l' => (r = 0 ∧ ∃ t', Loc.Change F t l t' l' ∧ t'.leaf = t.leaf) ∨
        (newsz < oldsz ∧ r = oldsz ∧ l' = l) ∨
        (oldsz ≤ newsz ∧ r = newsz ∧
          ∃ t', Grown g F t l (PTE_R ||| PTE_U ||| xperm) (pages oldsz) (pages newsz) t' l')) l := by
  unfold uvmalloc
  split
  case isTrue hlt => exact .inr (.inl ⟨hlt, rfl, rfl⟩)
  case isFalse hge =>
    rw [roundUp_eq hold]
    apply (wp_allocLoop rfl (Grown.refl h _) hroot hclean le_rfl (fun hlt => absurd hlt (lt_irrefl _))
      hx hnew MAXPAGES_pos (NVPN_lt_add_MAXPAGES _) hsafe).mono
    rintro r l' (hfail | ⟨hr, t', hgrown⟩)
    · exact .inl hfail
    · rw [max_eq_right (pages_mono (not_lt.mp hge))] at hgrown
      exact .inr (.inr ⟨not_lt.mp hge, hr, t', hgrown⟩)

/-! ### The address space of a process -/

def TRAMPOLINE : ℕ := MAXVA - PGSIZE

def TRAPFRAME : ℕ := TRAMPOLINE - PGSIZE

theorem addresses : PHYSTOP = 2281701376 ∧ TRAPFRAME = 274877898752 ∧ MAXVA = 274877906944 :=
  ⟨rfl, rfl, rfl⟩

/-- The pages of the process have RAM pages of their own, and nothing else is mapped but the
trapframe and the trampoline. -/
structure Space.Ok (g : Geometry) (p : Space) (root : ℕ) (F : Set ℕ) (t : Tree) (l : Loc) : Prop where
  table : p.pagetable = PGSIZE * root
  root : t.tab 2 0 = some root
  has : l.Has F t
  clean : t.Clean
  backed : Backed g F t.leaf (pages p.sz)
  bare : ∀ {k}, pages p.sz ≤ k → k ≠ TRAPFRAME / PGSIZE → k ≠ TRAMPOLINE / PGSIZE → t.leaf k = 0

theorem sz_le_pages (sz : ℕ) : sz ≤ PGSIZE * pages sz := by
  rw [pages_eq]
  unfold PGSIZE
  omega

/-- The size of a process is bounded by RAM. -/
theorem Backed.sz_le {leaf : ℕ → ℕ} (h : Backed g F leaf (pages sz)) : sz ≤ PHYSTOP :=
  (sz_le_pages sz).trans ((Nat.mul_le_mul_left PGSIZE h.le).trans g.hi_le)

theorem Space.Ok.bare_below {p : Space} (h : p.Ok g root F t l) {k : ℕ} (hk : pages p.sz ≤ k)
    (hlow : PGSIZE * k < TRAPFRAME) : t.leaf k = 0 := by
  refine h.bare hk ?_ ?_
  · rintro rfl
    exact absurd hlow (by decide)
  · rintro rfl
    exact absurd hlow (by decide)

theorem addInt_eq {n : ℤ} (h : 0 ≤ (sz : ℤ) + n)
    (hlt : (sz : ℤ) + n < 18446744073709551616) : (addInt sz n : ℤ) = sz + n := by
  unfold addInt
  omega

/-- What a process of the new size has, in terms of the tree: the pages it keeps are as they
were, the new ones are zero. -/
structure Resized (p p' : Space) (t : Tree) (l : Loc) (t' : Tree) (l' : Loc) : Prop where
  kept : ∀ {k}, k < pages p.sz → k < pages p'.sz →
    t'.leaf k = t.leaf k ∧ l'.mem (t.leaf k / 1024) = l.mem (t.leaf k / 1024)
  zero : ∀ {k}, pages p.sz ≤ k → k < pages p'.sz → l'.mem (t'.leaf k / 1024) = zeroPage
  top : ∀ {k}, TRAPFRAME ≤ PGSIZE * k → t'.leaf k = t.leaf k

/-- A call has ended with `x`: with `good`, and the process has `n` bytes more, or with `bad`, and
it is as it was. -/
def Changed {α : Type} (g : Geometry) (root : ℕ) (F : Set ℕ) (t : Tree) (l : Loc) (p : Space) (n : ℤ)
    (good bad : α) (x : α × Space) (l' : Loc) : Prop :=
  ∃ F' t', x.2.Ok g root F' t' l' ∧
    ((x.1 = good ∧ (x.2.sz : ℤ) = p.sz + n ∧ Resized p x.2 t l t' l') ∨
      (x.1 = bad ∧ x.2 = p ∧ t'.leaf = t.leaf ∧ ∀ ppn ∈ F, l'.mem ppn = l.mem ppn))

section Growproc

variable {p : Space} {n : ℤ}

/-- A page of the process is below the trapframe. -/
theorem not_top {k sz : ℕ} (hsz : sz ≤ TRAPFRAME) (h : k < pages sz) : PGSIZE * k < TRAPFRAME :=
  lt_of_lt_of_le (lt_pages.mp h) hsz

section

variable (h : p.Ok g root F t l)
include h

theorem wp_grow (hpos : 0 < n) (hn : n < 2147483648) :
    wp (memRules g False) (growproc p n) (Changed g root F t l p n 0 (-1)) l := by
  obtain ⟨hP, hT, hM⟩ := addresses
  have hsz := h.backed.sz_le
  have hnew : (addInt p.sz n : ℤ) = p.sz + n := addInt_eq (by omega) (by omega)
  have htop : addInt p.sz n ≤ TRAPFRAME := by omega
  have hle : pages p.sz ≤ pages (addInt p.sz n) := pages_mono (by omega)
  unfold growproc
  rw [if_pos hpos, h.table]
  refine (wp_uvmalloc h.has h.root h.clean (by omega) (by omega) (by decide) ?_).bind ?_
  · intro _
    refine ⟨h.backed, fun k hk _ hks => ?_⟩
    have hlow : PGSIZE * k < TRAPFRAME := by omega
    refine ⟨lt_MAXVA_iff.mp (by omega), ?_⟩
    rw [h.bare_below hk hlow]
    rfl
  · rintro r l' (⟨rfl, t', hch, hleaf⟩ | ⟨hlt, -, -⟩ | ⟨-, rfl, t', hgrown⟩)
    · rw [if_pos rfl]
      refine ⟨F, t', ⟨h.table, hch.tab h.root, hch.has, ?_, ?_, ?_⟩, .inr ⟨rfl, rfl, hleaf, hch.mem⟩⟩
      · unfold Tree.Clean
        rw [hleaf]
        exact h.clean
      · rw [hleaf]
        exact h.backed
      · rw [hleaf]
        exact h.bare
    · omega
    · rw [if_neg (by omega)]
      have hold : ∀ {k}, k < pages p.sz → t'.leaf k = t.leaf k := fun hk => hgrown.other (by omega)
      have hout : ∀ {k}, pages (addInt p.sz n) ≤ k → t'.leaf k = t.leaf k := fun hk =>
        hgrown.other (by omega)
      refine ⟨_, t', ⟨rfl, hgrown.tab h.root, hgrown.has, hgrown.clean h.clean, ?_, ?_⟩,
        .inl ⟨rfl, hnew, ?_, ?_, ?_⟩⟩
      · exact h.backed.grown hgrown (by decide) (by decide)
      · intro k hk hframe htramp
        rw [hout hk]
        exact h.bare (hle.trans hk) hframe htramp
      · intro k hk _
        exact ⟨hold hk, hgrown.mem _ (h.backed.page hk).2.1⟩
      · exact fun hk hks => (hgrown.page hk hks).zero
      · intro k hk
        refine hout (not_lt.mp fun hlt => ?_)
        exact absurd (not_top htop hlt) (not_lt.mpr hk)

theorem wp_shrink (hneg : n < 0) (hsize : 0 ≤ (p.sz : ℤ) + n) :
    wp (memRules g False) (growproc p n) (Changed g root F t l p n 0 (-1)) l := by
  obtain ⟨hP, hT, hM⟩ := addresses
  have hsz := h.backed.sz_le
  have hnew : (addInt p.sz n : ℤ) = p.sz + n := addInt_eq hsize (by omega)
  have hle : pages (addInt p.sz n) ≤ pages p.sz := pages_mono (by omega)
  unfold growproc
  rw [if_neg (by omega), if_pos hneg, h.table]
  refine (wp_uvmdealloc h.has h.root (by omega) (by omega) (fun k _ hks => (h.backed.page hks).1)
    (h.backed.mayFree _)).bind ?_
  rintro r l' ⟨rfl, t', h', htab, hclear, hmem⟩
  have hold : ∀ {k}, ¬(pages (addInt p.sz n) ≤ k ∧ k < pages p.sz) → t'.leaf k = t.leaf k := by
    intro k hk
    rw [hclear]
    exact if_neg hk
  have hgone : ∀ {k}, pages (addInt p.sz n) ≤ k → k < pages p.sz → t'.leaf k = 0 := by
    intro k hk hks
    rw [hclear]
    exact if_pos ⟨hk, hks⟩
  have hkeep : ∀ {k}, k < pages (addInt p.sz n) →
      t.leaf k / 1024 ∈ F \ pagesOf t.leaf (pages (addInt p.sz n)) (pages p.sz) := by
    intro k hk
    refine ⟨(h.backed.page (by omega)).2.1, ?_⟩
    rintro ⟨j, hj, hjs, he⟩
    have := h.backed.inj (by omega) hjs he
    omega
  refine ⟨_, t', ⟨rfl, htab ▸ h.root, h', ?_, ?_, ?_⟩, .inl ⟨rfl, hnew, ?_, ?_, ?_⟩⟩
  · intro k hk
    by_cases hin : pages (addInt p.sz n) ≤ k ∧ k < pages p.sz
    · exact hgone hin.1 hin.2
    · rw [hold hin] at hk ⊢
      exact h.clean k hk
  · exact h.backed.shrink hle (fun {k} (hk : k < pages (addInt p.sz n)) => hold (by omega)) hkeep
  · intro k hk hframe htramp
    by_cases hks : k < pages p.sz
    · exact hgone hk hks
    · rw [hold (by omega)]
      exact h.bare (by omega) hframe htramp
  · intro k _ hk
    have hk' : k < pages (addInt p.sz n) := hk
    exact ⟨hold (by omega), hmem _ (hkeep hk')⟩
  · intro k hk hks
    have hks' : k < pages (addInt p.sz n) := hks
    omega
  · intro k hk
    refine hold fun hin => ?_
    exact absurd (not_top (by omega) hin.2) (not_lt.mpr hk)

theorem wp_growproc (hn : n < 2147483648) (hsize : 0 ≤ (p.sz : ℤ) + n) :
    wp (memRules g False) (growproc p n) (Changed g root F t l p n 0 (-1)) l := by
  rcases lt_trichotomy n 0 with hneg | rfl | hpos
  · exact wp_shrink h hneg hsize
  · refine ⟨F, t, h, .inl ⟨rfl, (add_zero _).symm, ?_, ?_, ?_⟩⟩
    · exact fun _ _ => ⟨rfl, rfl⟩
    · intro k hk hks
      exact absurd hks (not_lt.mpr hk)
    · exact fun _ => rfl
  · exact wp_grow h hpos hn

theorem wp_sbrk {a0 : ℕ} (hint : argint a0 = n) (hn : n < 2147483648) (hsize : 0 ≤ (p.sz : ℤ) + n) :
    wp (memRules g False) (sys_sbrk p a0) (Changed g root F t l p n p.sz MINUS1) l := by
  unfold sys_sbrk
  rw [hint]
  apply (wp_growproc h hn hsize).bind
  rintro ⟨r, p'⟩ l' ⟨F', t', hok, hend⟩
  dsimp only at hok hend ⊢
  rcases hend with ⟨rfl, hgrown⟩ | ⟨rfl, hsame⟩
  · rw [if_neg (by decide)]
    exact ⟨F', t', hok, .inl ⟨rfl, hgrown⟩⟩
  · rw [if_pos (by decide)]
    exact ⟨F', t', hok, .inr ⟨rfl, hsame⟩⟩

end

end Growproc

/-! ### sbrk -/

/-- A walk through memory that holds the tree ends at the tree's entry. -/
theorem Tree.Ok.entryFrom {mem : ℕ → Page} (h : t.Ok mem) {level c va : ℕ}
    (ht : t.tab level (up (level + 1) (va / PGSIZE)) = some c) (hlevel : level ≤ 2) :
    entryFrom mem va level (PGSIZE * c) = t.leaf (va / PGSIZE) := by
  induction level generalizing c with
  | zero =>
    have hidx : va / PGSIZE % 512 < 512 := Nat.mod_lt _ (by decide)
    have hentry := h.entry ht _ hidx
    rw [Vm.entryFrom, page_div, PX_eq]
    exact hentry.trans (congrArg t.leaf (Nat.div_add_mod _ 512))
  | succ level ih =>
    have hidx : up (level + 1) (va / PGSIZE) % 512 < 512 := Nat.mod_lt _ (by decide)
    have hentry : mem c (PX (level + 1) va) =
        Tree.link (t.tab level (up (level + 1) (va / PGSIZE))) := by
      rw [PX_eq, h.entry ht _ hidx, up_slot]
      rfl
    simp only [Vm.entryFrom, page_div, hentry]
    cases hc : t.tab level (up (level + 1) (va / PGSIZE)) with
    | none =>
      rw [if_neg fun hv => Tree.link_valid_iff.mp hv rfl]
      have hnone : t.tab 0 (va / PGSIZE / 512) = none := h.none_below (by omega) hc
      exact (h.leaf_zero hnone).symm
    | some c' =>
      rw [if_pos (Tree.link_valid_iff.mpr (Option.some_ne_none c')), Tree.PTE2PA_link (h.lt hc)]
      exact ih hc (by omega)

section Memory

variable {U : Set ℕ} {m m' : Phys} {p p' : Space} {F' : Set ℕ} {t' : Tree} {l' : Loc} {va : ℕ}

theorem Space.Ok.leafEntry (h : p.Ok g root F t l) (hm : l.Agrees g U m) (hva : va < MAXVA) :
    leafEntry m.mem p.pagetable va = t.leaf (va / PGSIZE) := by
  have hok : t.Ok m.mem := h.has.ok.congr fun ppn ht => hm.mem (h.has.own ▸ Or.inr ht)
  rw [h.table]
  refine hok.entryFrom ?_ le_rfl
  rw [up_three_of_lt hva, h.root]

theorem Space.Ok.pageOf_eq (h : p.Ok g root F t l) (hm : l.Agrees g U m)
    (hva : va / PGSIZE < pages p.sz) (hmax : va < MAXVA) :
    pageOf m.mem p.pagetable va = t.leaf (va / PGSIZE) / 1024 := by
  rw [pageOf, h.leafEntry hm hmax, PTE2PA_of_lt (h.backed.page hva).2.2.lt, page_div]

/-- The page behind an address of the process holds what its owner knows. -/
theorem Space.Ok.contents (h : p.Ok g root F t l) (hm : l.Agrees g U m)
    (hva : va / PGSIZE < pages p.sz) (hmax : va < MAXVA) :
    m.mem (pageOf m.mem p.pagetable va) = l.mem (t.leaf (va / PGSIZE) / 1024) := by
  rw [h.pageOf_eq hm hva hmax]
  exact hm.mem (h.has.own ▸ Or.inl (h.backed.page hva).2.1)

theorem lt_PGROUNDUP : va < PGROUNDUP sz ↔ va / PGSIZE < pages sz := by
  rw [pages_eq]
  unfold PGROUNDUP PGSIZE
  omega

theorem lt_MAXVA_of_page (hsz : sz ≤ TRAPFRAME) (hva : va / PGSIZE < pages sz) :
    va < MAXVA := by
  obtain ⟨-, hT, hM⟩ := addresses
  have hlow := lt_pages.mp hva
  unfold PGSIZE at hlow
  omega

/-- Memory before and after: exactly the pages below the new size are mapped, the new ones
hold zeros, and the others are the same pages with the same contents and permissions. -/
structure Exact (p p' : Space) (mem mem' : ℕ → Page) : Prop where
  mapped : ∀ va < TRAPFRAME, (Present mem' p'.pagetable va ↔ va < PGROUNDUP p'.sz)
  zeroed : ∀ va, PGROUNDUP p.sz ≤ va → va < PGROUNDUP p'.sz →
    mem' (pageOf mem' p'.pagetable va) = zeroPage
  kept : ∀ va, va < PGROUNDUP p.sz → va < PGROUNDUP p'.sz →
    leafEntry mem' p'.pagetable va = leafEntry mem p.pagetable va ∧
      mem' (pageOf mem p.pagetable va) = mem (pageOf mem p.pagetable va)
  top : ∀ va, TRAPFRAME ≤ va → va < MAXVA →
    leafEntry mem' p'.pagetable va = leafEntry mem p.pagetable va

/-- Nothing has changed: neither the process nor its mappings nor what they hold. -/
structure Same (p p' : Space) (mem mem' : ℕ → Page) : Prop where
  space : p' = p
  entry : ∀ va < MAXVA, leafEntry mem' p.pagetable va = leafEntry mem p.pagetable va
  contents : ∀ va < PGROUNDUP p.sz,
    mem' (pageOf mem p.pagetable va) = mem (pageOf mem p.pagetable va)

theorem Resized.exact (h : p.Ok g root F t l) (hm : l.Agrees g U m) (h' : p'.Ok g root F' t' l')
    (hm' : l'.Agrees g U m') (hr : Resized p p' t l t' l') (hsz : p.sz ≤ TRAPFRAME)
    (hsz' : p'.sz ≤ TRAPFRAME) : Exact p p' m.mem m'.mem := by
  obtain ⟨-, hT, hM⟩ := addresses
  refine ⟨fun va hva => ?_, fun va hva hva' => ?_, fun va hva hva' => ?_, fun va hva hlt => ?_⟩
  · rw [lt_PGROUNDUP, Present, h'.leafEntry hm' (by omega)]
    constructor
    · rintro ⟨-, hvalid⟩
      by_contra hge
      rw [h'.bare_below (not_lt.mp hge) (by unfold PGSIZE; omega)] at hvalid
      exact hvalid rfl
    · exact fun hk => ⟨by omega, (h'.backed.page hk).1.1⟩
  · rw [lt_PGROUNDUP] at hva'
    have hlow : pages p.sz ≤ va / PGSIZE := not_lt.mp fun hlt => not_lt.mpr hva (lt_PGROUNDUP.mpr hlt)
    rw [h'.contents hm' hva' (lt_MAXVA_of_page hsz' hva')]
    exact hr.zero hlow hva'
  · rw [lt_PGROUNDUP] at hva hva'
    have hlt := lt_MAXVA_of_page hsz hva
    obtain ⟨hleaf, hmem⟩ := hr.kept hva hva'
    refine ⟨by rw [h'.leafEntry hm' hlt, h.leafEntry hm hlt, hleaf], ?_⟩
    rw [h.contents hm hva hlt, h.pageOf_eq hm hva hlt, ← hmem]
    exact hm'.mem (h'.has.own ▸ Or.inl (hleaf ▸ (h'.backed.page hva').2.1))
  · rw [h'.leafEntry hm' hlt, h.leafEntry hm hlt]
    exact hr.top (by unfold PGSIZE; omega)

theorem Space.Ok.same (h : p.Ok g root F t l) (hm : l.Agrees g U m) (h' : p.Ok g root F' t' l')
    (hm' : l'.Agrees g U m') (hleaf : t'.leaf = t.leaf) (hmem : ∀ ppn ∈ F, l'.mem ppn = l.mem ppn)
    (hsz : p.sz ≤ TRAPFRAME) : Same p p m.mem m'.mem := by
  refine ⟨rfl, fun va hva => ?_, fun va hva => ?_⟩
  · rw [h'.leafEntry hm' hva, h.leafEntry hm hva, hleaf]
  · rw [lt_PGROUNDUP] at hva
    have hlt := lt_MAXVA_of_page hsz hva
    have hF := (h.backed.page hva).2.1
    rw [h.contents hm hva hlt, h.pageOf_eq hm hva hlt, ← hmem _ hF]
    exact hm'.mem (h'.has.own ▸ Or.inl (hleaf ▸ (h'.backed.page hva).2.1))

/-- What a call of `sbrk` should do: it returns the old size, the new size is the old one plus
`n` as integers, and memory is as the new size says, or it returns -1 and nothing has changed.
The process can call it again: its page table is as it should be either way. -/
def SbrkExact (g : Geometry) (U : Set ℕ) (root : ℕ) (m : Phys) (p : Space) (a0 : ℕ) : Prop :=
  ∃ r p' m', run g (sys_sbrk p a0) m = some ((r, p'), m') ∧
    ((r = p.sz ∧ (p'.sz : ℤ) = p.sz + argint a0 ∧ Exact p p' m.mem m'.mem) ∨
      (r = MINUS1 ∧ Same p p' m.mem m'.mem)) ∧
    ∃ F' t' l', p'.Ok g root F' t' l' ∧ l'.Agrees g U m'

/-- A size below zero wraps around to one that is not smaller, and `uvmdealloc` does nothing. -/
theorem run_sbrk_below {a0 : ℕ} (hsz : p.sz < 4294967296) (hsize : (p.sz : ℤ) + argint a0 < 0) :
    run g (sys_sbrk p a0) m = some ((p.sz, p), m) := by
  have hlow := (argint_bounds a0).1
  have hwrap : (addInt p.sz (argint a0) : ℤ) = p.sz + argint a0 + 18446744073709551616 := by
    unfold addInt
    omega
  have hge : addInt p.sz (argint a0) ≥ p.sz := by omega
  have hneg : argint a0 < 0 := by omega
  unfold sys_sbrk growproc uvmdealloc
  rw [if_neg (not_lt.mpr hneg.le), if_pos hneg, if_pos hge]
  rfl

/-- **`sbrk` is exact**, for every process, exactly if it is not asked for a negative size. -/
theorem sbrk_exact_iff (g : Geometry) (U F : Set ℕ) (root : ℕ) (t : Tree) (l : Loc) (m : Phys)
    (p : Space) (h : p.Ok g root F t l) (hm : l.Agrees g U m) (a0 : ℕ) :
    SbrkExact g U root m p a0 ↔ 0 ≤ (p.sz : ℤ) + argint a0 := by
  obtain ⟨hP, hT, -⟩ := addresses
  have hsz := h.backed.sz_le
  constructor
  · rintro ⟨r, p', m', hrun, hend, -⟩
    by_contra hneg
    rw [run_sbrk_below (by omega) (not_le.mp hneg)] at hrun
    obtain ⟨hret, -⟩ := Prod.mk.inj (Option.some.inj hrun)
    obtain ⟨rfl, rfl⟩ := Prod.mk.inj hret
    rcases hend with ⟨-, hnew, -⟩ | ⟨hr, -⟩
    · omega
    · have hM : MINUS1 = 18446744073709551615 := rfl
      omega
  · intro hsize
    obtain ⟨-, hn⟩ := argint_bounds a0
    have hwp := wp_sbrk h rfl hn hsize
    rcases run_of_wp hwp hm with ⟨-, hpanic⟩ | ⟨⟨r, p'⟩, m', l', hrun, hm', F', t', hok, hend⟩
    · exact hpanic.elim
    · refine ⟨r, p', m', hrun, ?_, F', t', l', hok, hm'⟩
      rcases hend with ⟨hr, hnew, hresized⟩ | ⟨hr, hp, hleaf, hmem⟩
      · have hnew' : (p'.sz : ℤ) = p.sz + argint a0 := hnew
        exact .inl ⟨hr, hnew', hresized.exact h hm hok hm' (by omega) (by omega)⟩
      · have hp' : p' = p := hp
        subst hp'
        exact .inr ⟨hr, h.same hm hok hm' hleaf hmem (by omega)⟩

/-- A process without memory, whose page table is at page 1. -/
def emptySpace : Space := ⟨PGSIZE * 1, 0⟩

/-- Its memory, with pages to allocate. -/
def emptyMem (free : List ℕ) : Phys := freePages (fun _ => zeroPage) free

/-- What the process knows of it. -/
def emptyLoc : Loc := Loc.put (Loc.take ⟨∅, fun _ => zeroPage⟩ 1 zeroPage) 1 zeroPage

theorem emptySpace_ok : emptySpace.Ok tiny 1 ∅ (Tree.empty 1) emptyLoc where
  table := rfl
  root := rfl
  has := Loc.has_empty (by decide) (Set.notMem_empty 1) zeroPage
  clean _ _ := rfl
  backed := ⟨fun hk => absurd hk (Nat.not_lt_zero _), fun hj => absurd hj (Nat.not_lt_zero _)⟩
  bare _ _ _ := rfl

theorem emptyMem_agrees (free : List ℕ) (hnodup : free.Nodup) (hfree : ∀ c ∈ free, 1 < c ∧ c < 9) :
    emptyLoc.Agrees tiny (insert 1 { c | c ∈ free }) (emptyMem free) := by
  have hram : ∀ c ∈ free, tiny.Ram c := fun c hc => ⟨(hfree c hc).1.le, (hfree c hc).2⟩
  have hone : 1 ∉ free := fun hc => absurd (hfree 1 hc).1 (lt_irrefl 1)
  have hlist : (emptyMem free).free = free := (freePages_lists hnodup hram).free_eq
  refine ⟨?_, hlist.symm ▸ hnodup, ?_, ?_, ?_⟩
  · rintro c (rfl | hc)
    · exact ⟨le_rfl, by decide⟩
    · exact hram c hc
  · intro c
    rw [hlist]
    constructor
    · intro hc
      refine ⟨.inr hc, ?_⟩
      rintro (rfl | h)
      · exact hone hc
      · exact h.elim
    · rintro ⟨rfl | hc, hown⟩
      · exact absurd (Set.mem_insert 1 ∅) hown
      · exact hc
  · rintro c (rfl | h)
    · exact .inl rfl
    · exact h.elim
  · rintro c (rfl | h)
    · rw [emptyMem, freePages_mem hone]
      simp only [emptyLoc, Loc.put, Loc.take, update_self]
    · exact h.elim

/-- A first page: `sbrk(1)`, with enough memory for the tables. -/
theorem sbrk_exact_iff_first : ∃ p' m', run tiny (sys_sbrk emptySpace 1) (emptyMem [2, 3, 4]) =
    some ((0, p'), m') ∧ p'.sz = 1 ∧ Exact emptySpace p' (emptyMem [2, 3, 4]).mem m'.mem := by
  have hint : argint 1 = 1 := by decide +kernel
  obtain ⟨r, p', m', hrun, hend, -⟩ := (sbrk_exact_iff tiny _ ∅ 1 _ _ _ emptySpace
    emptySpace_ok (emptyMem_agrees [2, 3, 4] (by decide) (by decide)) 1).mpr (by rw [hint]; decide)
  have hr : (run tiny (sys_sbrk emptySpace 1) (emptyMem [2, 3, 4])).map (fun x => x.1.1) = some 0 := by
    decide +kernel
  rw [hrun] at hr
  have hr0 : r = 0 := Option.some.inj hr
  subst hr0
  rcases hend with ⟨-, hsz, hexact⟩ | ⟨hbad, -⟩
  · rw [hint] at hsz
    have hsz' : p'.sz = 1 := by
      have : (emptySpace.sz : ℤ) = 0 := rfl
      omega
    exact ⟨p', m', hrun, hsz', hexact⟩
  · exact absurd hbad (by decide)

/-- A request for a negative size is not refused: `sbrk(-1)` of a process without memory
returns the old size, as if it had succeeded, and the size is not the old one plus -1. -/
theorem sbrk_below_zero : emptySpace.Ok tiny 1 ∅ (Tree.empty 1) emptyLoc ∧ argint 4294967295 = -1 ∧
    (run tiny (sys_sbrk emptySpace 4294967295) (emptyMem [])).map (fun x => x.1) =
      some (emptySpace.sz, emptySpace) ∧
    emptySpace.sz ≠ MINUS1 ∧ (emptySpace.sz : ℤ) ≠ emptySpace.sz + argint 4294967295 := by
  refine ⟨emptySpace_ok, ?_⟩
  decide +kernel

end Memory

end Xv6.Vm
