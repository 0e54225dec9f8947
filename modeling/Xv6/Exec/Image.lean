import Xv6.Exec.Rules

/-!
The image that `exec` builds, as the new program will see it.

`Mem` is user memory without pages and tables: its size, the flags of each virtual page and
the byte at each address. `Image` says that a page table of the process's own holds it, next to
the trampoline and the trapframe, and that the pages the process had before are as they were.

The functions that `exec` calls on the new page table are specified in these terms: `uvmalloc`
is `Mem.grow`, a write to a page is `Mem.store`, `uvmclear` is `Mem.guard`, and
`proc_freepagetable` gives back everything that was taken.
-/

namespace Xv6.Exec

open Function (update update_of_ne update_self)
open Prog (wp)
open Vm

/-- User memory. -/
structure Mem where
  sz : ℕ
  /-- The flags of a virtual page. -/
  perm : ℕ → ℕ
  /-- The byte at an address. -/
  byte : ℕ → UInt8

namespace Mem

def empty : Mem := ⟨0, fun _ => 0, fun _ => 0⟩

/-- Zeroed pages with the given flags, up to the new size. -/
def grow (u : Mem) (newsz perm : ℕ) : Mem where
  sz := newsz
  perm k := if pages u.sz ≤ k then perm else u.perm k
  byte va := if pages u.sz ≤ va / PGSIZE then 0 else u.byte va

/-- `n` bytes are set, from `va` on. -/
def store (u : Mem) (va n : ℕ) (data : ℕ → UInt8) : Mem :=
  { u with byte := fun a => if va ≤ a ∧ a < va + n then data (a - va) else u.byte a }

/-- The user may not access page `k` any more. -/
def guard (u : Mem) (k : ℕ) : Mem := { u with perm := update u.perm k (withoutU (u.perm k)) }

/-- The user may access the page. -/
def User (u : Mem) (k : ℕ) : Prop := k < pages u.sz ∧ u.perm k &&& PTE_U ≠ 0

end Mem

/-- The flags that `uvmalloc` gives. -/
def userPerm (xperm : ℕ) : ℕ := PTE_R ||| PTE_U ||| xperm ||| PTE_V

/-- The page table `root` holds the image `u`, beside what the process had at first: the pages
of `base`, with the same contents. -/
structure Image (g : Geometry) (trampoline trapframe : ℕ) (base : Loc) (root : ℕ) (u : Mem) (t : Tree)
    (l : Loc) : Prop where
  root : t.tab 2 0 = some root
  has : l.Has (base.own ∪ pagesOf t.leaf 0 (pages u.sz)) t
  clean : t.Clean
  backed : Backed g (base.own ∪ pagesOf t.leaf 0 (pages u.sz)) t.leaf (pages u.sz)
  fresh : ∀ {k}, k < pages u.sz → t.leaf k / 1024 ∉ base.own
  mem : ∀ ppn ∈ base.own, l.mem ppn = base.mem ppn
  outside : ∀ {k}, pages u.sz ≤ k → t.leaf k = newLeaf trampoline trapframe k
  ram : l.InRam g
  perm : ∀ {k}, k < pages u.sz → PTE_FLAGS (t.leaf k) = u.perm k
  byte : ∀ {va}, va / PGSIZE < pages u.sz →
    (l.mem (t.leaf (va / PGSIZE) / 1024)).byte (va % PGSIZE) = u.byte va

section Image

variable {g : Geometry} {panics : Prop} {trampoline trapframe : ℕ} {base l : Loc} {root : ℕ}
  {u : Mem} {t : Tree}

theorem newLeaf_top : newLeaf trampoline trapframe (TRAMPOLINE / PGSIZE) =
      entryOf trampoline (PTE_R ||| PTE_X) ∧
    newLeaf trampoline trapframe (TRAPFRAME / PGSIZE) = entryOf trapframe (PTE_R ||| PTE_W) := by
  unfold newLeaf
  exact ⟨rfl, rfl⟩

variable {k : ℕ}

theorem newLeaf_of_ne (hframe : k ≠ TRAPFRAME / PGSIZE) (htramp : k ≠ TRAMPOLINE / PGSIZE) :
    newLeaf trampoline trapframe k = 0 := by
  unfold newLeaf
  rw [update_of_ne hframe, update_of_ne htramp]

theorem newLeaf_clean (h : newLeaf trampoline trapframe k &&& PTE_V = 0) :
    newLeaf trampoline trapframe k = 0 := by
  by_cases hframe : k = TRAPFRAME / PGSIZE
  · rw [hframe, newLeaf_top.2] at h
    exact absurd h (entryOf_valid _ _)
  · by_cases htramp : k = TRAMPOLINE / PGSIZE
    · rw [htramp, newLeaf_top.1] at h
      exact absurd h (entryOf_valid _ _)
    · exact newLeaf_of_ne hframe htramp

/-- A page of RAM is far below the trapframe. -/
theorem lt_top (hk : k < g.hi) : PGSIZE * k < TRAPFRAME :=
  lt_of_lt_of_le (Nat.mul_lt_mul_of_pos_left hk (by decide)) (g.hi_le.trans (by decide))

theorem ne_top_of_lt (h : PGSIZE * k < TRAPFRAME) :
    k ≠ TRAPFRAME / PGSIZE ∧ k ≠ TRAMPOLINE / PGSIZE := by
  constructor
  · rintro rfl
    exact absurd h (by decide)
  · rintro rfl
    exact absurd h (by decide)

namespace Image

section

variable (h : Image g trampoline trapframe base root u t l)
include h

theorem space :
    Space.Ok g ⟨PGSIZE * root, u.sz⟩ root (base.own ∪ pagesOf t.leaf 0 (pages u.sz)) t l where
  table := rfl
  root := h.root
  has := h.has
  clean := h.clean
  backed := h.backed
  bare hk hframe htramp := (h.outside hk).trans (newLeaf_of_ne hframe htramp)

theorem sz_le : u.sz ≤ PHYSTOP := h.backed.sz_le

theorem top :
    t.leaf (TRAMPOLINE / PGSIZE) = entryOf trampoline (PTE_R ||| PTE_X) ∧
      t.leaf (TRAPFRAME / PGSIZE) = entryOf trapframe (PTE_R ||| PTE_W) := by
  have hsz : pages u.sz ≤ pages PHYSTOP := pages_mono (h.sz_le)
  have hlow : pages PHYSTOP ≤ TRAPFRAME / PGSIZE ∧ pages PHYSTOP ≤ TRAMPOLINE / PGSIZE := by decide
  rw [h.outside (hsz.trans hlow.1), h.outside (hsz.trans hlow.2)]
  exact newLeaf_top

/-- The image may have other tables. -/
theorem change {t' : Tree} {l' : Loc}
    (hch : Loc.Change (base.own ∪ pagesOf t.leaf 0 (pages u.sz)) t l t' l')
    (hleaf : t'.leaf = t.leaf) (hl : l'.InRam g) :
    Image g trampoline trapframe base root u t' l' where
  root := hch.tab h.root
  has := hleaf ▸ hch.has
  clean := by
    unfold Tree.Clean
    rw [hleaf]
    exact h.clean
  backed := hleaf ▸ h.backed
  fresh := hleaf ▸ h.fresh
  mem ppn hp := (hch.mem ppn (.inl hp)).trans (h.mem ppn hp)
  outside := hleaf ▸ h.outside
  ram := hl
  perm := hleaf ▸ h.perm
  byte hva := by
    rw [hleaf, hch.mem _ (h.backed.page hva).2.1]
    exact h.byte hva

end

/-! ### Making it and giving it back -/

theorem new {t : Tree} (hhas : l.Has base.own t) (hroot : t.tab 2 0 = some root)
    (hleaf : t.leaf = newLeaf trampoline trapframe) (hmem : ∀ ppn ∈ base.own, l.mem ppn = base.mem ppn)
    (hl : l.InRam g) : Image g trampoline trapframe base root Mem.empty t l where
  root := hroot
  has := by
    rw [show pagesOf t.leaf 0 (pages Mem.empty.sz) = ∅ from pagesOf_of_le le_rfl, Set.union_empty]
    exact hhas
  clean k hk := by
    rw [hleaf] at hk ⊢
    exact newLeaf_clean hk
  backed := ⟨fun hk => absurd hk (Nat.not_lt_zero _), fun hj => absurd hj (Nat.not_lt_zero _)⟩
  fresh hk := absurd hk (Nat.not_lt_zero _)
  mem := hmem
  outside _ := by rw [hleaf]
  ram := hl
  perm hk := absurd hk (Nat.not_lt_zero _)
  byte hva := absurd hva (Nat.not_lt_zero _)

end Image

theorem wp_image_new (hl : base.InRam g) :
    wp (memRules g panics) (proc_pagetable trampoline trapframe)
      (fun r l' => (r = 0 ∧ l'.own = base.own ∧ ∀ ppn ∈ base.own, l'.mem ppn = base.mem ppn) ∨
        ∃ root t', r = PGSIZE * root ∧ r ≠ 0 ∧
          Image g trampoline trapframe base root Mem.empty t' l') base := by
  apply (wp_inRam (wp_proc_pagetable hl) hl).mono
  rintro r l' ⟨hfail | ⟨root, t', hr, hne, hhas, hroot, hleaf, hmem⟩, hl'⟩
  · exact .inl hfail
  · exact .inr ⟨root, t', hr, hne, .new hhas hroot hleaf hmem hl'⟩

/-- Everything that was taken for the image goes back. -/
theorem wp_image_free (h : Image g trampoline trapframe base root u t l) :
    wp (memRules g panics) (proc_freepagetable (PGSIZE * root) u.sz)
      (fun _ l' => l'.own = base.own ∧ ∀ ppn ∈ base.own, l'.mem ppn = base.mem ppn) l := by
  obtain ⟨htramp, hframe⟩ := h.top
  have hback : (base.own ∪ pagesOf t.leaf 0 (pages u.sz)) \ pagesOf t.leaf 0 (pages u.sz) =
      base.own := by
    rw [Set.union_sdiff_right]
    refine sdiff_eq_left.mpr (Set.disjoint_left.mpr ?_)
    rintro ppn hp ⟨k, -, hks, rfl⟩
    exact h.fresh hks hp
  refine (wp_proc_freepagetable h.space h.ram ?_ ?_).mono ?_
  · rw [htramp]
    exact isLeaf_entryOf _ (by decide) (by decide)
  · rw [hframe]
    exact isLeaf_entryOf _ (by decide) (by decide)
  · rintro - l' ⟨hown, hmem⟩
    rw [show pages (Space.sz ⟨PGSIZE * root, u.sz⟩) = pages u.sz from rfl, hback] at hown hmem
    exact ⟨hown, fun ppn hp => (hmem ppn hp).trans (h.mem ppn hp)⟩

/-! ### Pages -/

theorem zeroPage_byte (i : ℕ) : zeroPage.byte i = 0 := by
  unfold Page.byte zeroPage
  rw [Nat.zero_div]
  rfl

theorem PTE_FLAGS_entryOf {perm : ℕ} (pa : ℕ) (hperm : perm < 1024) :
    PTE_FLAGS (entryOf pa perm) = perm ||| PTE_V := by
  rw [entryOf_eq pa hperm, PTE_FLAGS_add (or_lt_flags hperm (by decide))]

section

variable (h : Image g trampoline trapframe base root u t l)
include h

theorem Image.grow {newsz xperm : ℕ} {t' : Tree} {l' : Loc} (hx : xperm < 1024) (hle : u.sz ≤ newsz)
    (hgrown : Grown g (base.own ∪ pagesOf t.leaf 0 (pages u.sz)) t l (PTE_R ||| PTE_U ||| xperm)
      (pages u.sz) (pages newsz) t' l') (hl : l'.InRam g) :
    Image g trampoline trapframe base root (u.grow newsz (userPerm xperm)) t' l' := by
  have hflags : PTE_R ||| PTE_U ||| xperm < 1024 := or_lt_flags (by decide) hx
  have hread : (PTE_R ||| PTE_U ||| xperm) &&& PTE_R ≠ 0 := by
    rw [Nat.and_or_distrib_right]
    exact fun h0 => absurd (Nat.or_eq_zero_iff.mp h0).1 (by decide)
  have hpages := pages_mono hle
  have hold : ∀ {k}, k < pages u.sz → t'.leaf k = t.leaf k := fun hk => hgrown.other (by omega)
  -- the pages of the image are the old ones and the new ones
  have hF : base.own ∪ pagesOf t.leaf 0 (pages u.sz) ∪ pagesOf t'.leaf (pages u.sz) (pages newsz) =
      base.own ∪ pagesOf t'.leaf 0 (pages newsz) := by
    rw [Set.union_assoc]
    congr 1
    ext c
    constructor
    · rintro (⟨k, hk, hks, rfl⟩ | ⟨k, hk, hks, rfl⟩)
      · exact ⟨k, hk, by omega, by rw [hold hks]⟩
      · exact ⟨k, Nat.zero_le k, hks, rfl⟩
    · rintro ⟨k, hk, hks, rfl⟩
      by_cases hin : k < pages u.sz
      · exact .inl ⟨k, hk, hin, by rw [hold hin]⟩
      · exact .inr ⟨k, not_lt.mp hin, hks, rfl⟩
  refine ⟨hgrown.tab h.root, ?_, hgrown.clean h.clean, ?_, ?_, ?_, ?_, hl, ?_, ?_⟩
  · exact hF ▸ hgrown.has
  · exact hF ▸ h.backed.grown hgrown hflags hread
  · intro k hk
    by_cases hin : k < pages u.sz
    · rw [hold hin]
      exact h.fresh hin
    · exact fun hp => (hgrown.page (not_lt.mp hin) hk).fresh (.inl hp)
  · exact fun ppn hp => (hgrown.mem ppn (.inl hp)).trans (h.mem ppn hp)
  · intro k hk
    have hk' : pages newsz ≤ k := hk
    rw [hgrown.other (by omega)]
    exact h.outside (by omega)
  · intro k hk
    show PTE_FLAGS (t'.leaf k) = if pages u.sz ≤ k then userPerm xperm else u.perm k
    split
    case isTrue hin =>
      rw [(hgrown.page hin hk).entry]
      exact PTE_FLAGS_entryOf _ hflags
    case isFalse hin =>
      rw [hold (not_le.mp hin)]
      exact h.perm (not_le.mp hin)
  · intro va hva
    show _ = if pages u.sz ≤ va / PGSIZE then 0 else u.byte va
    split
    case isTrue hin =>
      rw [(hgrown.page hin hva).zero]
      exact zeroPage_byte _
    case isFalse hin =>
      have hin' := not_le.mp hin
      rw [hold hin', hgrown.mem _ (h.backed.page hin').2.1]
      exact h.byte hin'

/-- `uvmalloc` grows the image, or leaves it as it is. -/
theorem wp_image_uvmalloc {newsz xperm : ℕ} (hx : xperm < 1024)
    (hnew : newsz < 18446744073709551616) :
    wp (memRules g panics) (uvmalloc (PGSIZE * root) u.sz newsz xperm)
      (fun r l' => (r = 0 ∧ ∃ t', Image g trampoline trapframe base root u t' l') ∨
        (newsz < u.sz ∧ r = u.sz ∧ Image g trampoline trapframe base root u t l') ∨
        (u.sz ≤ newsz ∧ r = newsz ∧
          ∃ t', Image g trampoline trapframe base root (u.grow newsz (userPerm xperm)) t' l')) l := by
  have hsz : u.sz ≤ MAXVA := (h.sz_le).trans (by decide)
  refine (wp_inRam (wp_uvmalloc h.has h.root h.clean hsz hnew hx fun _ => ?_) h.ram).mono ?_
  · refine ⟨h.backed, fun k hk hfew _ => ?_⟩
    have hlow := lt_top hfew
    refine ⟨lt_MAXVA_iff.mp (hlow.trans (by decide)), ?_⟩
    rw [h.outside hk, newLeaf_of_ne (ne_top_of_lt hlow).1 (ne_top_of_lt hlow).2]
    exact Nat.zero_and _
  · rintro r l' ⟨⟨rfl, t', hch, hleaf⟩ | ⟨hlt, hr, rfl⟩ | ⟨hle, hr, t', hgrown⟩, hl'⟩
    · exact .inl ⟨rfl, t', h.change hch hleaf hl'⟩
    · exact .inr (.inl ⟨hlt, hr, h⟩)
    · exact .inr (.inr ⟨hle, hr, t', h.grow hx hle hgrown hl'⟩)

/-- The physical address of a page of the image. -/
theorem Image.at_page (hk : k < pages u.sz) :
    l.At (PGSIZE * (t.leaf k / 1024)) (t.leaf k / 1024) :=
  ⟨rfl, h.has.own ▸ Or.inl (h.backed.page hk).2.1⟩

end

/-- Bytes of one page are written. -/
theorem Image.store {k off n : ℕ} (data : ℕ → UInt8)
    (h : Image g trampoline trapframe base root u t l) (hk : k < pages u.sz)
    (hfit : off + n ≤ PGSIZE) :
    Image g trampoline trapframe base root (u.store (PGSIZE * k + off) n data) t
      (l.put (t.leaf k / 1024) ((l.mem (t.leaf k / 1024)).splice off data n)) := by
  have hF := (h.backed.page hk).2.1
  refine ⟨h.root, h.has.put hF _, h.clean, h.backed, h.fresh, ?_, h.outside, h.ram, h.perm, ?_⟩
  · intro ppn hp
    have hne : ppn ≠ t.leaf k / 1024 := fun he => h.fresh hk (he ▸ hp)
    rw [show (l.put _ _).mem ppn = l.mem ppn from update_of_ne hne ..]
    exact h.mem ppn hp
  · intro va hva
    have hP : PGSIZE = 4096 := rfl
    have hold := h.byte hva
    show _ = if PGSIZE * k + off ≤ va ∧ va < PGSIZE * k + off + n then _ else _
    by_cases hvk : va / PGSIZE = k
    · have hmod : va = PGSIZE * k + va % PGSIZE := by
        rw [← hvk]
        exact (Nat.div_add_mod va PGSIZE).symm
      rw [hvk] at hold ⊢
      rw [show (l.put _ _).mem (t.leaf k / 1024) = _ from update_self .., Page.byte_splice]
      by_cases hin : off ≤ va % PGSIZE ∧ va % PGSIZE < off + n
      · rw [if_pos hin, if_pos (by omega)]
        congr 1
        omega
      · rw [if_neg hin, if_neg (by omega)]
        exact hold
    · have hne : t.leaf (va / PGSIZE) / 1024 ≠ t.leaf k / 1024 := fun he =>
        hvk (h.backed.inj hva hk he)
      have hout : ¬(PGSIZE * k + off ≤ va ∧ va < PGSIZE * k + off + n) := by
        rintro ⟨hge, hlt⟩
        apply hvk
        rw [hP] at hge hlt hfit ⊢
        omega
      rw [show (l.put _ _).mem _ = _ from update_of_ne hne .., if_neg hout]
      exact hold

section

variable (h : Image g trampoline trapframe base root u t l)
include h

/-- `walkaddr` finds the pages that the user may access. -/
theorem Image.userPage (huser : u.User k) :
    userPage (t.leaf k) = PGSIZE * (t.leaf k / 1024) := by
  have hU : t.leaf k &&& PTE_U ≠ 0 := by
    rw [flag_eq (by decide), h.perm huser.1]
    exact huser.2
  unfold Vm.userPage
  rw [if_neg (h.backed.page huser.1).1.1, if_neg hU, PTE2PA_of_lt (h.backed.page huser.1).2.2.lt]

theorem Image.page_ne_zero (hk : k < pages u.sz) :
    PGSIZE * (t.leaf k / 1024) ≠ 0 := (h.backed.page hk).2.2.ne_zero

theorem Image.lt_MAXVA {va : ℕ} (hk : va / PGSIZE < pages u.sz) :
    va < MAXVA := by
  have hlt := lt_pages.mp hk
  have hsz := h.sz_le
  obtain ⟨hP, -, hM⟩ := addresses
  unfold PGSIZE at hlt
  omega

theorem wp_image_walkaddr {va : ℕ} (huser : u.User (va / PGSIZE)) :
    wp (memRules g panics) (walkaddr (PGSIZE * root) va)
      (fun pa l' => pa = PGSIZE * (t.leaf (va / PGSIZE) / 1024) ∧ l' = l) l := by
  apply (wp_walkaddr h.has h.root).mono
  rintro pa l' ⟨rfl, rfl⟩
  rw [if_pos (h.lt_MAXVA huser.1), h.userPage huser]
  exact ⟨rfl, rfl⟩

/-- The entry of a page loses `PTE_U`. -/
theorem Image.guard {l' : Loc} (hk : k < pages u.sz) (hread : u.perm k &&& PTE_R ≠ 0)
    (hch : Loc.Change (base.own ∪ pagesOf t.leaf 0 (pages u.sz)) t l
      (t.setLeaf k (withoutU (t.leaf k))) l') (hl : l'.InRam g) :
    Image g trampoline trapframe base root (u.guard k) (t.setLeaf k (withoutU (t.leaf k))) l' := by
  have hself : (t.setLeaf k (withoutU (t.leaf k))).leaf k = withoutU (t.leaf k) :=
    update_self ..
  have hother : ∀ {j}, j ≠ k → (t.setLeaf k (withoutU (t.leaf k))).leaf j = t.leaf j := fun hj =>
    update_of_ne hj ..
  -- no entry points to another page than before
  have hdiv : ∀ j, (t.setLeaf k (withoutU (t.leaf k))).leaf j / 1024 = t.leaf j / 1024 := by
    intro j
    by_cases hj : j = k
    · rw [hj, hself, withoutU_div]
    · rw [hother hj]
  have hvalid : withoutU (t.leaf k) &&& PTE_V = t.leaf k &&& PTE_V := withoutU_and _ (by decide)
  have hpages : ∀ n, pagesOf (t.setLeaf k (withoutU (t.leaf k))).leaf 0 n = pagesOf t.leaf 0 n := by
    intro n
    unfold pagesOf
    simp only [hdiv]
  refine ⟨hch.tab h.root, ?_, ?_, ⟨?_, ?_⟩, ?_, ?_, ?_, hl, ?_, ?_⟩
  · rw [hpages]
    exact hch.has
  · intro j hj
    by_cases hjk : j = k
    · rw [hjk, hself, hvalid] at hj
      exact absurd hj (h.backed.page hk).1.1
    · rw [hother hjk] at hj ⊢
      exact h.clean j hj
  · intro j hj
    rw [hdiv, hpages]
    refine ⟨?_, (h.backed.page hj).2⟩
    by_cases hjk : j = k
    · rw [hjk, hself]
      refine ⟨hvalid ▸ (h.backed.page hk).1.1, fun hflags => ?_⟩
      -- `PTE_R` keeps the entry from looking like a pointer to a table
      have hR : PTE_FLAGS (withoutU (t.leaf k)) &&& PTE_R ≠ 0 := by
        rw [withoutU_flags, withoutU_and _ (by decide), h.perm hk]
        exact hread
      rw [hflags] at hR
      exact hR rfl
    · rw [hother hjk]
      exact (h.backed.page hj).1
  · intro i j hi hj hij
    rw [hdiv, hdiv] at hij
    exact h.backed.inj hi hj hij
  · intro j hj
    rw [hdiv]
    exact h.fresh hj
  · exact fun ppn hp => (hch.mem ppn (.inl hp)).trans (h.mem ppn hp)
  · intro j hj
    have hjk : j ≠ k := by
      rintro rfl
      exact absurd hk (not_lt.mpr hj)
    rw [hother hjk]
    exact h.outside hj
  · intro j hj
    show _ = update u.perm k (withoutU (u.perm k)) j
    by_cases hjk : j = k
    · rw [hjk, hself, update_self, withoutU_flags, h.perm hk]
    · rw [hother hjk, update_of_ne hjk]
      exact h.perm hj
  · intro va hva
    rw [hdiv, hch.mem _ (h.backed.page hva).2.1]
    exact h.byte hva

theorem wp_image_uvmclear (hk : k < pages u.sz) (hread : u.perm k &&& PTE_R ≠ 0) :
    wp (memRules g panics) (uvmclear (PGSIZE * root) (PGSIZE * k))
      (fun _ l' => ∃ t', Image g trampoline trapframe base root (u.guard k) t' l') l := by
  have hvpn : k < NVPN := lt_MAXVA_iff.mp (lt_of_lt_of_le (lt_pages.mp hk)
    ((h.sz_le).trans (by decide)))
  apply (wp_inRam (wp_uvmclear h.has h.root hvpn (h.backed.page hk).1) h.ram).mono
  rintro - l' ⟨hch, hl'⟩
  exact ⟨_, h.guard hk hread hch hl'⟩

end

/-! ### Copies -/

/-- What `walkaddr` answers for the image. -/
def lookTree (t : Tree) (va : ℕ) : ℕ := if va < MAXVA then userPage (t.leaf (va / PGSIZE)) else 0

/-- The image can be written through its page table, a page that is not one of the tables at a
time. -/
theorem image_writes {F : Set ℕ} (hroot : t.tab 2 0 = some root) (own : Set ℕ) :
    Writes (memRules g panics) (PGSIZE * root) (lookTree t)
      (fun va => ∀ ppn, lookTree t va = PGSIZE * ppn → lookTree t va ≠ 0 → ppn ∈ F)
      (fun m l => l = ⟨own, m⟩ ∧ l.Has F t) := by
  have hpage : ∀ va, lookTree t va = PGSIZE * (lookTree t va / PGSIZE) := by
    intro va
    have hmod : PGSIZE ∣ lookTree t va := by
      unfold lookTree Vm.userPage
      split
      · split
        · exact Nat.dvd_zero _
        · split
          · exact Nat.dvd_zero _
          · rw [PTE2PA_eq]
            exact dvd_mul_right _ _
      · exact Nat.dvd_zero _
    exact (Nat.mul_div_cancel' hmod).symm
  constructor
  · constructor
    · exact fun hva => if_neg (not_lt.mpr hva)
    · rintro m l va hS -
      apply (wp_walkaddr hS.2 hroot).mono
      rintro pa l' ⟨rfl, rfl⟩
      exact ⟨rfl, hS⟩
    · rintro m l va ⟨rfl, hhas⟩ hscope hne
      have hF := hscope _ (hpage va) hne
      exact wp_readPage ⟨hpage va, hhas.own ▸ Or.inl hF⟩ ⟨rfl, rfl, hhas⟩
  · rintro m l va f ⟨rfl, hhas⟩ hscope hne
    have hF := hscope _ (hpage va) hne
    exact wp_writePage ⟨hpage va, hhas.own ▸ Or.inl hF⟩ ⟨rfl, hhas.put hF _⟩

section

variable (h : Image g trampoline trapframe base root u t l)
include h

theorem Image.lookTree {va : ℕ} (huser : u.User (va / PGSIZE)) :
    lookTree t va = PGSIZE * (t.leaf (va / PGSIZE) / 1024) := by
  rw [Exec.lookTree, if_pos (h.lt_MAXVA huser.1), h.userPage huser]

/-- `copyout` of bytes that fit into a page. -/
theorem wp_image_copyout {va n : ℕ} {src : ℕ → UInt8}
    (huser : u.User (va / PGSIZE)) (hn : 0 < n) (hfit : va % PGSIZE + n ≤ PGSIZE) :
    wp (memRules g panics) (copyout (PGSIZE * root) va src n)
      (fun r l' => r = 0 ∧ Image g trampoline trapframe base root (u.store va n src) t l') l := by
  have hlook : lookTree t (PGROUNDDOWN va) = PGSIZE * (t.leaf (va / PGSIZE) / 1024) := by
    have hdown := page_div (va / PGSIZE)
    rw [← PGROUNDDOWN_eq] at hdown
    rw [h.lookTree (hdown.symm ▸ huser), hdown]
  have hdown : ∀ i < n, PGROUNDDOWN (va + i) = PGROUNDDOWN va := fun i hi =>
    PGROUNDDOWN_add_of_lt (by omega)
  have hne := h.page_ne_zero huser.1
  refine (wp_copyout (image_writes h.root l.own) ⟨rfl, h.has⟩ fun i hi ppn hppn _ => ?_).mono ?_
  · rw [hdown i hi, hlook] at hppn
    rw [← Nat.eq_of_mul_eq_mul_left (by decide) hppn]
    exact (h.backed.page huser.1).2.1
  · rintro r l' ⟨k, ⟨-, hk⟩, rfl, -⟩
    obtain ⟨rfl, rfl⟩ : r = 0 ∧ k = n := by
      refine hk.resolve_right ?_
      rintro ⟨-, hlt, hno⟩
      apply hno
      unfold Mapped
      rw [hdown k hlt, hlook]
      exact hne
    refine ⟨rfl, ?_⟩
    rw [storeBytes_chunk l.mem src hn hfit, hlook, page_div]
    have hstore := h.store src huser.1 hfit
    rw [Nat.div_add_mod] at hstore
    exact hstore

/-- Beyond all pages `copyout` fails. -/
theorem wp_image_copyout_high {va n : ℕ} {src : ℕ → UInt8} (hn : 0 < n) (hva : MAXVA ≤ va) :
    wp (memRules g panics) (copyout (PGSIZE * root) va src n)
      (fun r l' => r < 0 ∧ Image g trampoline trapframe base root u t l') l := by
  have hzero : ∀ i, lookTree t (PGROUNDDOWN (va + i)) = 0 := fun i =>
    if_neg fun hlt => absurd (PGROUNDDOWN_lt_MAXVA.mp hlt) (not_lt.mpr (hva.trans (Nat.le_add_right va i)))
  refine (wp_copyout (image_writes h.root l.own) ⟨rfl, h.has⟩ fun i _ _ _ hne =>
    absurd (hzero i) hne).mono ?_
  rintro r l' ⟨k, ⟨hmapped, hk⟩, rfl, -⟩
  obtain rfl : k = 0 := Nat.eq_zero_of_not_pos fun hpos => hmapped 0 hpos (hzero 0)
  rcases hk with ⟨-, rfl⟩ | ⟨rfl, -, -⟩
  · exact absurd hn (lt_irrefl 0)
  · exact ⟨by decide, h⟩

end

end Image

end Xv6.Exec
