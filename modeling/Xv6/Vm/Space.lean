import Xv6.Vm.Free
import Xv6.Vm.Grow

/-!
Address spaces made and given back: `proc_pagetable`, `proc_freepagetable`, and `uvmfree` and
`uvmclear`, which `exec` needs besides.

* `wp_proc_pagetable`: a table with the trampoline and the trapframe, or nothing at all.
* `wp_proc_freepagetable`: the pages of the process and its tables go back, each once, and the
  trapframe stays.
* `wp_uvmclear`: a page is taken from the user but stays mapped.
-/

namespace Xv6.Vm

open Function (update update_of_ne update_self update_idem)
open Prog (wp wp_bind)

/-! ### The programs -/

def uvmfree (pagetable sz : ℕ) : Code Unit :=
  if sz > 0 then do
    uvmunmap pagetable 0 (roundUp sz / PGSIZE) true
    freewalk pagetable
  else
    freewalk pagetable

/-- `pte & ~PTE_U`. -/
def withoutU (pte : ℕ) : ℕ := pte ^^^ (pte &&& PTE_U)

def uvmclear (pagetable va : ℕ) : Code Unit := do
  match ← walk pagetable va false with
  | none => panic "uvmclear"
  | some pte => do
    let entry ← pte.get
    pte.set (withoutU entry)

/-- `proc_pagetable`, for a process with its trapframe at the given address. -/
def proc_pagetable (trampoline trapframe : ℕ) : Code ℕ := do
  let pagetable ← uvmcreate
  if pagetable = 0 then
    pure 0
  else do
    let r ← mappages pagetable TRAMPOLINE PGSIZE trampoline (PTE_R ||| PTE_X)
    if r < 0 then do
      uvmfree pagetable 0
      pure 0
    else do
      let r ← mappages pagetable TRAPFRAME PGSIZE trapframe (PTE_R ||| PTE_W)
      if r < 0 then do
        uvmunmap pagetable TRAMPOLINE 1 false
        uvmfree pagetable 0
        pure 0
      else
        pure pagetable

def proc_freepagetable (pagetable sz : ℕ) : Code Unit := do
  uvmunmap pagetable TRAMPOLINE 1 false
  uvmunmap pagetable TRAPFRAME 1 false
  uvmfree pagetable sz

/-! ### Entries without `PTE_U` -/

/-- The page stays. -/
theorem withoutU_div (pte : ℕ) : withoutU pte / 1024 = pte / 1024 := by
  have hshift : ∀ n : ℕ, n / 1024 = n >>> 10 := fun n => (Nat.shiftRight_eq_div_pow n 10).symm
  unfold withoutU
  rw [hshift, hshift, Nat.shiftRight_xor_distrib, Nat.shiftRight_and_distrib,
    show PTE_U >>> 10 = 0 from rfl, Nat.and_zero, Nat.xor_zero]

theorem withoutU_flags (pte : ℕ) : PTE_FLAGS (withoutU pte) = withoutU (PTE_FLAGS pte) := by
  unfold withoutU PTE_FLAGS
  rw [Nat.and_xor_distrib_right, Nat.and_right_comm]

/-- Other flags stay. -/
theorem withoutU_and (pte : ℕ) {bit : ℕ} (h : PTE_U &&& bit = 0) :
    withoutU pte &&& bit = pte &&& bit := by
  unfold withoutU
  rw [Nat.and_xor_distrib_right, Nat.and_assoc, h, Nat.and_zero, Nat.xor_zero]

theorem withoutU_user (pte : ℕ) : withoutU pte &&& PTE_U = 0 := by
  unfold withoutU
  rw [Nat.and_xor_distrib_right, Nat.and_assoc, Nat.and_self, Nat.xor_self]

/-! ### Owned pages are RAM -/

/-- All owned pages came from the allocator. -/
def Loc.InRam (g : Geometry) (l : Loc) : Prop := ∀ ppn ∈ l.own, g.Ram ppn

variable {g : Geometry} {panics : Prop} {l : Loc} {F : Set ℕ} {t : Tree} {root vpn : ℕ}

/-- Operations keep to RAM. -/
theorem memPre_inRam {o : MemOp} {Q : MemResp o → Loc → Prop} (h : memPre g panics o Q l)
    (hl : l.InRam g) : memPre g panics o (fun r l' => Q r l' ∧ l'.InRam g) l := by
  cases o with
  | kalloc =>
    refine ⟨⟨h.1, hl⟩, fun ppn page hram hnew => ⟨h.2 ppn page hram hnew, ?_⟩⟩
    rintro c (rfl | hc)
    · exact hram
    · exact hl c hc
  | kfree pa =>
    obtain ⟨ppn, hat, hram, hQ⟩ := h
    exact ⟨ppn, hat, hram, hQ, fun c hc => hl c hc.1⟩
  | read pa | write pa f =>
    obtain ⟨ppn, hat, hQ⟩ := h
    exact ⟨ppn, hat, hQ, hl⟩
  | panic msg => exact h
  | outOfRounds => exact h

theorem wp_inRam {α : Type} {x : Code α} {Q : α → Loc → Prop}
    (h : wp (memRules g panics) x Q l) (hl : l.InRam g) :
    wp (memRules g panics) x (fun a l' => Q a l' ∧ l'.InRam g) l := by
  induction x generalizing l with
  | ret a => exact ⟨h, hl⟩
  | op o k ih =>
    exact (memRules g panics).mono (fun r l' hr => ih r hr.1 hr.2) (memPre_inRam h hl)

/-! ### One page -/

/-- `uvmunmap` of one page that is not freed. -/
theorem wp_unmapPage (h : l.Has F t) (hroot : t.tab 2 0 = some root) (hvpn : vpn < NVPN)
    (hleaf : IsLeaf (t.leaf vpn)) :
    wp (memRules g panics) (uvmunmap (PGSIZE * root) (PGSIZE * vpn) 1 false)
      (fun _ l' => ∃ t', l'.Has F t' ∧ t'.tab = t.tab ∧ t'.leaf = update t.leaf vpn 0 ∧
        ∀ ppn ∈ F, l'.mem ppn = l.mem ppn) l := by
  have hstop : wrap64 (PGSIZE * vpn + 1 * PGSIZE) / PGSIZE = vpn + 1 := by
    have hN : NVPN = 67108864 := rfl
    unfold PGSIZE
    rw [wrap64_of_lt (by omega)]
    omega
  have hone : ∀ k, vpn ≤ k → k < vpn + 1 → k = vpn := fun k hk hks => by omega
  refine (wp_uvmunmap (page_div _) hstop h hroot (fun _ => ?_)
    (fun hf => absurd hf Bool.false_ne_true)).mono ?_
  · refine ⟨page_mod _, fun k hk hks => ?_⟩
    rw [hone k hk hks]
    exact ⟨hvpn, hleaf⟩
  · rintro - l' ⟨t', h', htab, hclear, hmem, -⟩
    refine ⟨t', h', htab, ?_, hmem⟩
    rw [hclear]
    funext k
    unfold clearRange
    by_cases hk : k = vpn
    · subst hk
      rw [if_pos (by omega), update_self]
    · rw [if_neg (by omega), update_of_ne hk]

/-- `uvmclear` takes the page from the user. -/
theorem wp_uvmclear (h : l.Has F t) (hroot : t.tab 2 0 = some root) (hvpn : vpn < NVPN)
    (hleaf : IsLeaf (t.leaf vpn)) :
    wp (memRules g panics) (uvmclear (PGSIZE * root) (PGSIZE * vpn))
      (fun _ l' => Loc.Change F t l (t.setLeaf vpn (withoutU (t.leaf vpn))) l') l := by
  apply (wp_walk_lookup h hroot fun _ => lt_MAXVA_iff.mpr hvpn).bind
  rintro r l₁ ⟨-, rfl, rfl⟩
  rw [page_div]
  cases hs : t.slot vpn with
  | none =>
    exfalso
    apply hleaf.1
    rw [Tree.leaf_of_slot_none h.ok hs]
    rfl
  | some pte =>
    apply wp_bind.mpr
    apply wp_get_slot h hs
    apply wp_set_slot h hs
    exact fun l' hch _ => hch

/-- An address space stays as it is while other pages come and go. -/
theorem Space.Ok.transfer {p : Space} {l' : Loc} (h : p.Ok g root F t l) (htab : t.tables ⊆ l'.own)
    (hpages : ∀ {k}, k < pages p.sz → t.leaf k / 1024 ∈ l'.own)
    (hmem : ∀ ppn ∈ t.tables, l'.mem ppn = l.mem ppn) :
    p.Ok g root (l'.own \ t.tables) t l' where
  table := h.table
  root := h.root
  has := h.has.frame (Set.sdiff_union_of_subset htab).symm (fun hp => hp.2) hmem
  clean := h.clean
  backed := by
    refine ⟨fun hk => ?_, h.backed.inj⟩
    obtain ⟨hleaf, hF, hram⟩ := h.backed.page hk
    exact ⟨hleaf, ⟨hpages hk, h.has.disj hF⟩, hram⟩
  bare := h.bare

/-! ### Giving a table back -/

/-- A table without entries. -/
theorem wp_freeTables (h : l.Has F t) (hroot : t.tab 2 0 = some root) (hl : l.InRam g)
    (hclear : ∀ k, t.leaf k = 0) :
    wp (memRules g panics) (freewalk (PGSIZE * root))
      (fun _ l' => l'.own = F ∧ ∀ ppn ∈ F, l'.mem ppn = l.mem ppn) l :=
  wp_freewalk h hroot (fun ppn ht => hl ppn (h.own ▸ Or.inr ht)) hclear

/-- `uvmfree` of a table with nothing but the pages of the process in it. -/
theorem wp_uvmfree {sz : ℕ} (h : l.Has F t) (hroot : t.tab 2 0 = some root) (hl : l.InRam g)
    (hsz : sz ≤ MAXVA) (hbacked : Backed g F t.leaf (pages sz))
    (hbare : ∀ k, pages sz ≤ k → t.leaf k = 0) :
    wp (memRules g panics) (uvmfree (PGSIZE * root) sz)
      (fun _ l' => l'.own = F \ pagesOf t.leaf 0 (pages sz) ∧
        ∀ ppn ∈ F \ pagesOf t.leaf 0 (pages sz), l'.mem ppn = l.mem ppn) l := by
  unfold uvmfree
  split
  case isFalse hzero =>
    obtain rfl : sz = 0 := by omega
    have hnone : pagesOf t.leaf 0 (pages 0) = ∅ := pagesOf_of_le le_rfl
    rw [hnone, Set.sdiff_empty]
    exact wp_freeTables h hroot hl fun k => hbare k (Nat.zero_le k)
  case isTrue hpos =>
    have hN := pages_le_NVPN hsz
    have hstop : wrap64 (0 + pages sz * PGSIZE) / PGSIZE = pages sz := by
      have hN' : NVPN = 67108864 := rfl
      unfold PGSIZE
      rw [wrap64_of_lt (by omega)]
      omega
    rw [roundUp_eq hsz, page_div]
    refine (wp_inRam (wp_uvmunmap (Nat.zero_div _) hstop h hroot (fun _ => ?_)
      fun _ => hbacked.mayFree _) hl).bind ?_
    · exact ⟨rfl, fun k _ hks => ⟨by omega, (hbacked.page hks).1⟩⟩
    · rintro - l₁ ⟨⟨t₁, h₁, htab, hclear, hmem, -⟩, hl₁⟩
      refine (wp_freeTables h₁ (htab ▸ hroot) hl₁ fun k => ?_).mono ?_
      · rw [hclear]
        unfold clearRange
        split
        · rfl
        · exact hbare k (by omega)
      · rintro - l' ⟨hown, hmem'⟩
        exact ⟨hown, fun ppn hF => (hmem' ppn hF).trans (hmem ppn hF)⟩

theorem TRAMPOLINE_page : TRAMPOLINE = PGSIZE * (TRAMPOLINE / PGSIZE) := by decide

theorem TRAPFRAME_page : TRAPFRAME = PGSIZE * (TRAPFRAME / PGSIZE) := by decide

theorem trampoline_ne_trapframe : TRAMPOLINE / PGSIZE ≠ TRAPFRAME / PGSIZE := by decide

/-- The pages and the tables of a process go back, and nothing else changes. -/
theorem wp_proc_freepagetable {p : Space} (h : p.Ok g root F t l) (hl : l.InRam g)
    (htramp : IsLeaf (t.leaf (TRAMPOLINE / PGSIZE)))
    (hframe : IsLeaf (t.leaf (TRAPFRAME / PGSIZE))) :
    wp (memRules g panics) (proc_freepagetable p.pagetable p.sz)
      (fun _ l' => l'.own = F \ pagesOf t.leaf 0 (pages p.sz) ∧
        ∀ ppn ∈ F \ pagesOf t.leaf 0 (pages p.sz), l'.mem ppn = l.mem ppn) l := by
  have hsz := h.backed.sz_le
  have hlow : ∀ {k}, k < pages p.sz → k ≠ TRAMPOLINE / PGSIZE ∧ k ≠ TRAPFRAME / PGSIZE := by
    intro k hk
    have hP : PHYSTOP = 2281701376 := rfl
    have hk' := lt_pages.mp hk
    have h1 : TRAMPOLINE / PGSIZE = 67108863 := by decide
    have h2 : TRAPFRAME / PGSIZE = 67108862 := by decide
    unfold PGSIZE at hk'
    omega
  unfold proc_freepagetable
  rw [h.table, TRAMPOLINE_page, TRAPFRAME_page]
  apply (wp_inRam (wp_unmapPage h.has h.root (by decide) htramp) hl).bind
  rintro - l₁ ⟨⟨t₁, h₁, htab₁, hleaf₁, hmem₁⟩, hl₁⟩
  have hframe₁ : t₁.leaf (TRAPFRAME / PGSIZE) = t.leaf (TRAPFRAME / PGSIZE) := by
    rw [hleaf₁, update_of_ne trampoline_ne_trapframe.symm]
  apply (wp_inRam (wp_unmapPage h₁ (htab₁ ▸ h.root) (by decide) (hframe₁ ▸ hframe)) hl₁).bind
  rintro - l₂ ⟨⟨t₂, h₂, htab₂, hleaf₂, hmem₂⟩, hl₂⟩
  have hleaf : ∀ {k}, k < pages p.sz → t₂.leaf k = t.leaf k := by
    intro k hk
    rw [hleaf₂, update_of_ne (hlow hk).2, hleaf₁, update_of_ne (hlow hk).1]
  have hpages : pagesOf t₂.leaf 0 (pages p.sz) = pagesOf t.leaf 0 (pages p.sz) := by
    ext c
    constructor
    · rintro ⟨k, hk, hks, rfl⟩
      exact ⟨k, hk, hks, by rw [hleaf hks]⟩
    · rintro ⟨k, hk, hks, rfl⟩
      exact ⟨k, hk, hks, by rw [hleaf hks]⟩
  have hbacked : Backed g F t₂.leaf (pages p.sz) :=
    h.backed.shrink le_rfl hleaf fun hk => (h.backed.page hk).2.1
  have hbare : ∀ k, pages p.sz ≤ k → t₂.leaf k = 0 := by
    intro k hk
    rw [hleaf₂]
    by_cases hkf : k = TRAPFRAME / PGSIZE
    · rw [hkf, update_self]
    · rw [update_of_ne hkf, hleaf₁]
      by_cases hkt : k = TRAMPOLINE / PGSIZE
      · rw [hkt, update_self]
      · rw [update_of_ne hkt]
        exact h.bare hk hkf hkt
  have hmax : p.sz ≤ MAXVA := hsz.trans (by decide)
  apply (wp_uvmfree h₂ (htab₂ ▸ htab₁ ▸ h.root) hl₂ hmax hbacked hbare).mono
  rintro - l' ⟨hown, hmem⟩
  rw [hpages] at hown hmem
  refine ⟨hown, fun ppn hF => ?_⟩
  rw [hmem ppn hF, hmem₂ ppn hF.1, hmem₁ ppn hF.1]

/-! ### Making one -/

/-- The entries of a new table: the trampoline and the trapframe. -/
def newLeaf (trampoline trapframe : ℕ) : ℕ → ℕ :=
  update (update (fun _ => 0) (TRAMPOLINE / PGSIZE) (entryOf trampoline (PTE_R ||| PTE_X)))
    (TRAPFRAME / PGSIZE) (entryOf trapframe (PTE_R ||| PTE_W))

/-- `proc_pagetable` makes a table with the trampoline and the trapframe; if it fails, nothing
is left of it. -/
theorem wp_proc_pagetable {trampoline trapframe : ℕ} (hl : l.InRam g) :
    wp (memRules g panics) (proc_pagetable trampoline trapframe)
      (fun r l' => (r = 0 ∧ l'.own = l.own ∧ ∀ ppn ∈ l.own, l'.mem ppn = l.mem ppn) ∨
        ∃ root t', r = PGSIZE * root ∧ r ≠ 0 ∧ l'.Has l.own t' ∧ t'.tab 2 0 = some root ∧
          t'.leaf = newLeaf trampoline trapframe ∧ ∀ ppn ∈ l.own, l'.mem ppn = l.mem ppn) l := by
  apply (wp_inRam wp_uvmcreate hl).bind
  rintro pa l₁ ⟨⟨rfl, rfl⟩ | ⟨root, rfl, hram, h₁, hmem₁⟩, hl₁⟩
  · rw [if_pos rfl]
    exact .inl ⟨rfl, rfl, fun _ _ => rfl⟩
  rw [if_neg hram.ne_zero]
  have hroot : (Tree.empty root).tab 2 0 = some root := Tree.empty_tab.mpr ⟨⟨rfl, rfl⟩, rfl⟩
  have hempty : (Tree.empty root).leaf (TRAMPOLINE / PGSIZE) &&& PTE_V = 0 := Nat.zero_and _
  apply wp_bind.mpr
  rw [TRAMPOLINE_page, TRAPFRAME_page]
  refine (wp_inRam (wp_mapPage h₁ hroot (by decide) fun _ => ⟨by decide, hempty⟩) hl₁).mono ?_
  rintro r l₂ ⟨⟨t₂, hch₂, hr⟩, hl₂⟩
  have hmem₂ : ∀ ppn ∈ l.own, l₂.mem ppn = l.mem ppn := fun ppn hp =>
    (hch₂.mem ppn hp).trans (hmem₁ ppn hp)
  rcases hr with ⟨rfl, -, -, hleaf₂⟩ | ⟨rfl, hleaf₂⟩
  case inr =>
    -- no memory for the tables above the trampoline
    rw [if_pos (by decide)]
    apply wp_bind.mpr
    unfold uvmfree
    rw [if_neg (lt_irrefl 0)]
    apply (wp_freeTables hch₂.has (hch₂.tab hroot) hl₂ fun k => by rw [hleaf₂]; rfl).mono
    exact fun _ l' hl' => .inl ⟨rfl, hl'.1, fun ppn hp => (hl'.2 ppn hp).trans (hmem₂ ppn hp)⟩
  rw [if_neg (by decide)]
  apply wp_bind.mpr
  have hbare : t₂.leaf (TRAPFRAME / PGSIZE) &&& PTE_V = 0 := by
    rw [hleaf₂, update_of_ne trampoline_ne_trapframe.symm]
    exact Nat.zero_and _
  refine (wp_inRam (wp_mapPage hch₂.has (hch₂.tab hroot) (by decide)
    fun _ => ⟨by decide, hbare⟩) hl₂).mono ?_
  rintro r l₃ ⟨⟨t₃, hch₃, hr⟩, hl₃⟩
  have hmem₃ : ∀ ppn ∈ l.own, l₃.mem ppn = l.mem ppn := fun ppn hp =>
    (hch₃.mem ppn hp).trans (hmem₂ ppn hp)
  have hroot₃ := hch₃.tab (hch₂.tab hroot)
  rcases hr with ⟨rfl, -, -, hleaf₃⟩ | ⟨rfl, hleaf₃⟩
  · rw [if_neg (by decide)]
    refine .inr ⟨root, t₃, rfl, hram.ne_zero, hch₃.has, hroot₃, ?_, hmem₃⟩
    rw [hleaf₃, hleaf₂]
    rfl
  · -- no memory for the tables above the trapframe: the trampoline goes again
    rw [if_pos (by decide)]
    have hentry : t₃.leaf (TRAMPOLINE / PGSIZE) = entryOf trampoline (PTE_R ||| PTE_X) := by
      rw [hleaf₃, hleaf₂, update_self]
    have htramp : IsLeaf (t₃.leaf (TRAMPOLINE / PGSIZE)) := by
      rw [hentry]
      exact isLeaf_entryOf _ (by decide) (by decide)
    apply (wp_inRam (wp_unmapPage hch₃.has hroot₃ (by decide) htramp) hl₃).bind
    rintro - l₄ ⟨⟨t₄, h₄, htab₄, hleaf₄, hmem₄⟩, hl₄⟩
    apply wp_bind.mpr
    unfold uvmfree
    rw [if_neg (lt_irrefl 0)]
    refine (wp_freeTables h₄ (htab₄ ▸ hroot₃) hl₄ fun k => ?_).mono ?_
    · rw [hleaf₄, hleaf₃, hleaf₂, update_idem]
      by_cases hk : k = TRAMPOLINE / PGSIZE
      · rw [hk, update_self]
      · rw [update_of_ne hk]
        rfl
    · rintro - l' ⟨hown, hmem'⟩
      refine .inl ⟨rfl, hown, fun ppn hp => ?_⟩
      rw [hmem' ppn hp, hmem₄ ppn hp, hmem₃ ppn hp]

end Xv6.Vm
