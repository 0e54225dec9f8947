import Xv6.Vm.Tree

/-!
What `walk`, `mappages` and `uvmunmap` do to a page table.

Each specification is about a table that the process owns (`Loc.Has`), and gives the tree
afterwards. `Loc.Change` is what all of them have in common: the pages outside the tree
are as before and no table page is given back.

* `wp_walk_lookup`, `wp_walk_alloc`: `walk` without and with allocation.
* `wp_lookup`, `wp_walkaddr`: reading an entry.
* `wp_mappages`: a range of entries is written, as far as the allocations succeed.
* `wp_uvmunmap`: a range of entries is cleared, and the pages freed if that is asked for.
-/

namespace Xv6.Vm

open Function (update update_of_ne update_self)

open Prog (wp wp_bind)

variable {g : Geometry} {panics : Prop} {l l' l'' : Loc} {F : Set ℕ} {t t' t'' : Tree}
  {root va : ℕ}

/-- From `l` with the tree `t` to `l'` with the tree `t'`, the pages `F` are untouched. -/
structure Loc.Change (F : Set ℕ) (t : Tree) (l : Loc) (t' : Tree) (l' : Loc) : Prop where
  has : l'.Has F t'
  mem : ∀ ppn ∈ F, l'.mem ppn = l.mem ppn
  tab : ∀ {level i ppn}, t.tab level i = some ppn → t'.tab level i = some ppn

theorem Loc.Has.change (h : l.Has F t) : Loc.Change F t l t l := ⟨h, fun _ _ => rfl, id⟩

theorem Loc.Change.trans (h : Loc.Change F t l t' l') (h' : Loc.Change F t' l' t'' l'') :
    Loc.Change F t l t'' l'' :=
  ⟨h'.has, fun ppn hF => (h'.mem ppn hF).trans (h.mem ppn hF), fun ht => h'.tab (h.tab ht)⟩

/-! ### walk -/

variable {level c : ℕ}

/-- The entry that a walk for `va` reads in its table of level `level + 1`. -/
theorem Loc.Has.walk_entry (h : l.Has F t)
    (ht : t.tab (level + 1) (up (level + 2) (va / PGSIZE)) = some c) :
    l.mem c (PX (level + 1) va) = Tree.link (t.tab level (up (level + 1) (va / PGSIZE))) := by
  have hlt : up (level + 1) (va / PGSIZE) % 512 < 512 := Nat.mod_lt _ (by decide)
  rw [PX_eq, h.ok.entry ht _ hlt, up_slot]
  rfl

/-- The address of the entry of `vpn`, if its lowest table exists. -/
def Tree.slot (t : Tree) (vpn : ℕ) : Option PteAddr :=
  (t.tab 0 (vpn / 512)).map fun c => ⟨PGSIZE * c, vpn % 512⟩

theorem wp_walkFrom_lookup (h : l.Has F t) (hlevel : level ≤ 2)
    (ht : t.tab level (up (level + 1) (va / PGSIZE)) = some c) :
    wp (memRules g panics) (walkFrom va false level (PGSIZE * c))
      (fun r l' => l' = l ∧ r = t.slot (va / PGSIZE)) l := by
  induction level generalizing c with
  | zero =>
    refine ⟨rfl, ?_⟩
    have hidx : PX 0 va = va / PGSIZE % 512 := PX_eq 0 va
    have htab : t.tab 0 (va / PGSIZE / 512) = some c := ht
    rw [hidx, Tree.slot, htab]
    rfl
  | succ level ih =>
    apply wp_bind.mpr
    apply wp_get ⟨rfl, h.own_table ht⟩
    rw [h.walk_entry ht]
    cases hc : t.tab level (up (level + 1) (va / PGSIZE)) with
    | none =>
      rw [if_neg fun hv => Tree.link_valid_iff.mp hv rfl]
      refine ⟨rfl, ?_⟩
      have hnone : t.tab 0 (va / PGSIZE / 512) = none := h.ok.none_below (by omega) hc
      rw [Tree.slot, hnone]
      rfl
    | some c' =>
      rw [if_pos (Tree.link_valid_iff.mpr (Option.some_ne_none c')), Tree.PTE2PA_link (h.ok.lt hc)]
      exact ih (by omega) hc

theorem wp_walkFrom_alloc (h : l.Has F t) (hlevel : level ≤ 2)
    (ht : t.tab level (up (level + 1) (va / PGSIZE)) = some c) :
    wp (memRules g panics) (walkFrom va true level (PGSIZE * c))
      (fun r l' => ∃ t', Loc.Change F t l t' l' ∧ t'.leaf = t.leaf ∧
        (r = none ∨ (t'.slot (va / PGSIZE)).isSome ∧ r = t'.slot (va / PGSIZE))) l := by
  induction level generalizing c l t with
  | zero =>
    have hidx : PX 0 va = va / PGSIZE % 512 := PX_eq 0 va
    have htab : t.tab 0 (va / PGSIZE / 512) = some c := ht
    refine ⟨t, h.change, rfl, .inr ?_⟩
    rw [hidx, Tree.slot, htab]
    exact ⟨rfl, rfl⟩
  | succ level ih =>
    apply wp_bind.mpr
    apply wp_get ⟨rfl, h.own_table ht⟩
    rw [h.walk_entry ht]
    cases hc : t.tab level (up (level + 1) (va / PGSIZE)) with
    | some c' =>
      rw [if_pos (Tree.link_valid_iff.mpr (Option.some_ne_none c')), Tree.PTE2PA_link (h.ok.lt hc)]
      exact ih h (by omega) hc
    | none =>
      rw [if_neg fun hv => Tree.link_valid_iff.mp hv rfl, if_pos rfl]
      apply wp_bind.mpr
      apply wp_kalloc
      · exact ⟨t, h.change, rfl, .inl rfl⟩
      · intro ppn page hram hnew
        rw [if_neg hram.ne_zero]
        -- the new table: cleared, then linked from the table above
        apply wp_bind.mpr
        apply wp_writePage ⟨rfl, Set.mem_insert ppn l.own⟩
        apply wp_bind.mpr
        apply wp_set ⟨rfl, Set.mem_insert_of_mem ppn (h.own_table ht)⟩
        have hadd := h.addTable page (by omega) hram.lt hc ht hnew
        rw [← PX_eq] at hadd
        have hfar : ∀ f ∈ F, f ≠ ppn ∧ f ≠ c := fun f hf =>
          ⟨fun he => hnew (he ▸ h.own ▸ Or.inl hf),
            fun he => h.disj hf (he ▸ ⟨_, _, ht⟩)⟩
        apply (ih hadd (by omega) (Tree.addTable_tab_self t level _ ppn)).mono
        rintro r l' ⟨t', hch, hleaf, hr⟩
        refine ⟨t', ⟨hch.has, ?_, ?_⟩, hleaf, hr⟩
        · intro f hf
          rw [hch.mem f hf]
          simp only [Loc.put, Loc.take, update_of_ne (hfar f hf).2,
            update_of_ne (hfar f hf).1]
        · exact fun hold => hch.tab (Tree.addTable_tab_of_some hc hold)

theorem up_three_of_lt (h : va < MAXVA) : up 3 (va / PGSIZE) = 0 := by
  have hva : va < 274877906944 := h
  simp only [up, PGSIZE]
  omega

/-- `walk` panics above `MAXVA` and otherwise starts at the root. -/
theorem wp_walk {alloc : Bool} {Q : Option PteAddr → Loc → Prop} (hroot : t.tab 2 0 = some root)
    (hva : ¬panics → va < MAXVA)
    (hfrom : t.tab 2 (up 3 (va / PGSIZE)) = some root →
      wp (memRules g panics) (walkFrom va alloc 2 (PGSIZE * root)) Q l) :
    wp (memRules g panics) (walk (PGSIZE * root) va alloc) (fun r l' => va < MAXVA ∧ Q r l') l := by
  unfold walk
  split
  case isTrue hge => exact wp_panic (not_not.mp fun hp => absurd (hva hp) (not_lt.mpr hge))
  case isFalse hlt =>
    have htop : t.tab 2 (up 3 (va / PGSIZE)) = some root := by
      rw [up_three_of_lt (not_le.mp hlt), hroot]
    exact (hfrom htop).mono fun r l' hr => ⟨not_le.mp hlt, hr⟩

theorem wp_walk_lookup (h : l.Has F t) (hroot : t.tab 2 0 = some root)
    (hva : ¬panics → va < MAXVA) :
    wp (memRules g panics) (walk (PGSIZE * root) va false)
      (fun r l' => va < MAXVA ∧ l' = l ∧ r = t.slot (va / PGSIZE)) l :=
  wp_walk hroot hva fun htop => wp_walkFrom_lookup h le_rfl htop

theorem wp_walk_alloc (h : l.Has F t) (hroot : t.tab 2 0 = some root)
    (hva : ¬panics → va < MAXVA) :
    wp (memRules g panics) (walk (PGSIZE * root) va true)
      (fun r l' => va < MAXVA ∧ ∃ t', Loc.Change F t l t' l' ∧ t'.leaf = t.leaf ∧
        (r = none ∨ (t'.slot (va / PGSIZE)).isSome ∧ r = t'.slot (va / PGSIZE))) l :=
  wp_walk hroot hva fun htop => wp_walkFrom_alloc h le_rfl htop

theorem wp_uvmcreate :
    wp (memRules g panics) uvmcreate (fun pa l' => (pa = 0 ∧ l' = l) ∨
      ∃ root, pa = PGSIZE * root ∧ g.Ram root ∧ l'.Has l.own (Tree.empty root) ∧
        ∀ ppn ∈ l.own, l'.mem ppn = l.mem ppn) l := by
  apply wp_bind.mpr
  apply wp_kalloc
  · exact .inl ⟨rfl, rfl⟩
  · intro root page hram hnew
    rw [if_neg hram.ne_zero]
    apply wp_bind.mpr
    apply wp_writePage ⟨rfl, Set.mem_insert root l.own⟩
    refine .inr ⟨root, rfl, hram, Loc.has_empty hram.lt hnew page, fun ppn hown => ?_⟩
    have hne : ppn ≠ root := fun he => hnew (he ▸ hown)
    simp only [Loc.put, Loc.take, update_of_ne hne]

/-! ### Entries of the lowest level -/

variable {vpn : ℕ} {pte : PteAddr}

/-- A slot of the tree: its table and what it holds. -/
theorem Loc.Has.slot (h : l.Has F t) (hs : t.slot vpn = some pte) :
    ∃ c, t.tab 0 (vpn / 512) = some c ∧ l.At pte.table c ∧ pte.index = vpn % 512 ∧
      l.mem c pte.index = t.leaf vpn := by
  obtain ⟨c, hc, rfl⟩ := Option.map_eq_some_iff.mp hs
  have hlt : vpn % 512 < 512 := Nat.mod_lt _ (by decide)
  refine ⟨c, hc, ⟨rfl, h.own_table hc⟩, rfl, ?_⟩
  rw [h.ok.entry hc _ hlt, Nat.div_add_mod]
  rfl

theorem wp_get_slot (h : l.Has F t) (hs : t.slot vpn = some pte)
    {Q : ℕ → Loc → Prop} (hQ : Q (t.leaf vpn) l) : wp (memRules g panics) pte.get Q l := by
  obtain ⟨c, -, hat, -, hmem⟩ := h.slot hs
  exact wp_get hat (hmem ▸ hQ)

theorem wp_set_slot (h : l.Has F t) {vpn value : ℕ} (hs : t.slot vpn = some pte)
    {Q : Unit → Loc → Prop}
    (hQ : ∀ l', Loc.Change F t l (t.setLeaf vpn value) l' → l'.own = l.own → Q () l') :
    wp (memRules g panics) (pte.set value) Q l := by
  obtain ⟨c, hc, hat, hidx, -⟩ := h.slot hs
  apply wp_set hat
  rw [hidx]
  refine hQ _ ⟨h.setLeaf value hc, fun f hf => ?_, id⟩ rfl
  exact update_of_ne (fun he : f = c => h.disj hf (he ▸ ⟨0, _, hc⟩)) _ _

theorem Tree.leaf_of_slot_none (h : t.Ok l.mem) (hs : t.slot vpn = none) :
    t.leaf vpn = 0 := h.leaf_zero (Option.map_eq_none_iff.mp hs)

/-- `lookup` reads the entry of the tree; without a table for it there is none, and the
tree says 0. -/
theorem wp_lookup (h : l.Has F t) (hroot : t.tab 2 0 = some root) (hva : va < MAXVA) :
    wp (memRules g panics) (lookup (PGSIZE * root) va)
      (fun r l' => l' = l ∧ r.getD 0 = t.leaf (va / PGSIZE)) l := by
  apply (wp_walk_lookup h hroot fun _ => hva).bind
  rintro r l' ⟨-, rfl, rfl⟩
  cases hs : t.slot (va / PGSIZE) with
  | none => exact ⟨rfl, (Tree.leaf_of_slot_none h.ok hs).symm⟩
  | some pte => exact wp_bind.mpr (wp_get_slot h hs ⟨rfl, rfl⟩)

/-- What `walkaddr` makes of an entry. -/
def userPage (entry : ℕ) : ℕ :=
  if entry &&& PTE_V = 0 then 0 else if entry &&& PTE_U = 0 then 0 else PTE2PA entry

theorem wp_walkaddr (h : l.Has F t) (hroot : t.tab 2 0 = some root) :
    wp (memRules g panics) (walkaddr (PGSIZE * root) va)
      (fun r l' => l' = l ∧ r = if va < MAXVA then userPage (t.leaf (va / PGSIZE)) else 0) l := by
  unfold walkaddr
  split
  case isTrue hge => exact ⟨rfl, (if_neg (not_lt.mpr hge)).symm⟩
  case isFalse hlt =>
    rw [if_pos (not_le.mp hlt)]
    apply (wp_lookup h hroot (not_le.mp hlt)).bind
    rintro r l' ⟨rfl, hr⟩
    rw [← hr]
    cases r with
    | none => exact ⟨rfl, rfl⟩
    | some entry =>
      simp only [userPage, Option.getD_some]
      split
      · exact ⟨rfl, rfl⟩
      · split <;> exact ⟨rfl, rfl⟩

/-! ### mappages -/

/-- The physical address that `mappages` reaches after `k` pages. -/
def nthPa (pa : ℕ) : ℕ → ℕ
  | 0 => pa
  | k + 1 => nthPa (wrap64 (pa + PGSIZE)) k

/-- The entry that `mappages` writes. -/
def entryOf (pa perm : ℕ) : ℕ := PA2PTE pa ||| perm ||| PTE_V

/-- `n` entries from `vpn` on are written. -/
def mapRange (leaf : ℕ → ℕ) (pa perm vpn n : ℕ) : ℕ → ℕ := fun w =>
  if vpn ≤ w ∧ w < vpn + n then entryOf (nthPa pa (w - vpn)) perm else leaf w

theorem mapRange_zero (leaf : ℕ → ℕ) (pa perm vpn : ℕ) : mapRange leaf pa perm vpn 0 = leaf := by
  funext w
  exact if_neg (by omega)

theorem mapRange_succ (leaf : ℕ → ℕ) (pa perm vpn n : ℕ) :
    mapRange (update leaf vpn (entryOf pa perm)) (wrap64 (pa + PGSIZE)) perm (vpn + 1) n =
      mapRange leaf pa perm vpn (n + 1) := by
  funext w
  unfold mapRange
  by_cases hw : w = vpn
  · subst hw
    rw [if_neg (by omega), if_pos (by omega), update_self, Nat.sub_self]
    rfl
  · rw [update_of_ne hw]
    by_cases hlt : vpn + 1 ≤ w ∧ w < vpn + 1 + n
    · rw [if_pos hlt, if_pos (by omega), show w - vpn = w - (vpn + 1) + 1 by omega,
        nthPa]
    · rw [if_neg hlt, if_neg (by omega)]

theorem entryOf_valid (pa perm : ℕ) : entryOf pa perm &&& PTE_V ≠ 0 := by
  have h : entryOf pa perm &&& PTE_V = PTE_V := by
    unfold entryOf
    rw [Nat.and_comm, Nat.and_or_distrib_left, Nat.and_self]
    have hbit : PTE_V &&& (PA2PTE pa ||| perm) ≤ 1 := Nat.and_le_left
    rcases Nat.le_one_iff_eq_zero_or_eq_one.mp hbit with h0 | h1
    · rw [h0]
      rfl
    · rw [h1]
      rfl
  rw [h]
  decide

/-- Pages below `MAXVA`. -/
def NVPN : ℕ := 67108864

theorem lt_MAXVA_iff : PGSIZE * vpn < MAXVA ↔ vpn < NVPN := by
  have hM : MAXVA = 274877906944 := rfl
  unfold NVPN PGSIZE
  rw [hM]
  omega

theorem MAXPAGES_pos : 0 < MAXPAGES := by decide

theorem NVPN_lt_add_MAXPAGES (vpn : ℕ) : NVPN < vpn + MAXPAGES :=
  Nat.lt_add_left vpn (by decide)

/-- A round of the loop: the table exists or is allocated, and an entry that was not valid is
written. -/
theorem wp_mapEntry {last perm rounds vpn pa : ℕ} {Q : Int → Loc → Prop} (h : l.Has F t)
    (hroot : t.tab 2 0 = some root) (hsafe : ¬panics → vpn < NVPN ∧ t.leaf vpn &&& PTE_V = 0)
    (hfail : ∀ t' l', Loc.Change F t l t' l' → t'.leaf = t.leaf → Q (-1) l')
    (hnext : ∀ t' l', Loc.Change F t l t' l' → t'.leaf = update t.leaf vpn (entryOf pa perm) →
      vpn < NVPN → t.leaf vpn &&& PTE_V = 0 →
      wp (memRules g panics) (if PGSIZE * vpn = last then pure 0 else
        mapLoop (PGSIZE * root) last perm rounds (PGSIZE * vpn + PGSIZE) (wrap64 (pa + PGSIZE))) Q l') :
    wp (memRules g panics) (mapLoop (PGSIZE * root) last perm (rounds + 1) (PGSIZE * vpn) pa) Q l := by
  apply (wp_walk_alloc h hroot fun hp => lt_MAXVA_iff.mpr (hsafe hp).1).bind
  rintro r l₁ ⟨hlt, t₁, hch, hleaf, hr⟩
  rw [page_div] at hr
  rcases hr with rfl | ⟨hsome, rfl⟩
  · exact hfail t₁ l₁ hch hleaf
  obtain ⟨pte, hs⟩ := Option.isSome_iff_exists.mp hsome
  rw [hs]
  apply wp_bind.mpr
  apply wp_get_slot hch.has hs
  rw [hleaf]
  split
  case isTrue hvalid => exact wp_panic (not_not.mp fun hp => hvalid (hsafe hp).2)
  case isFalse hinvalid =>
    apply wp_bind.mpr
    apply wp_set_slot hch.has hs
    intro l₂ hset _
    refine hnext _ l₂ (hch.trans hset) ?_ (lt_MAXVA_iff.mp hlt) (not_not.mp hinvalid)
    simp only [Tree.setLeaf, hleaf, entryOf]

theorem wp_mapLoop {last perm rounds vpn pa : ℕ} (h : l.Has F t) (hroot : t.tab 2 0 = some root)
    (hrounds : 0 < rounds) (hmore : NVPN < vpn + rounds)
    (hsafe : ¬panics → vpn ≤ last ∧ last < NVPN ∧
      ∀ k, vpn ≤ k → k ≤ last → t.leaf k &&& PTE_V = 0) :
    wp (memRules g panics) (mapLoop (PGSIZE * root) (PGSIZE * last) perm rounds (PGSIZE * vpn) pa)
      (fun r l' => ∃ t' n, Loc.Change F t l t' l' ∧ t'.leaf = mapRange t.leaf pa perm vpn n ∧
        ((r = 0 ∧ vpn + n = last + 1) ∨ (r = -1 ∧ (vpn ≤ last → vpn + n ≤ last)))) l := by
  induction rounds generalizing vpn pa l t with
  | zero => exact absurd hrounds (Nat.lt_irrefl 0)
  | succ rounds ih =>
    refine wp_mapEntry h hroot (fun hp => ?_) (fun t₁ l₁ hch hleaf => ?_)
      fun t₁ l₁ hch hleaf hN hinvalid => ?_
    · obtain ⟨hle, hlast, hbare⟩ := hsafe hp
      exact ⟨lt_of_le_of_lt hle hlast, hbare vpn le_rfl hle⟩
    · exact ⟨t₁, 0, hch, by rw [mapRange_zero, hleaf], .inr ⟨rfl, id⟩⟩
    by_cases hlast : PGSIZE * vpn = PGSIZE * last
    · rw [if_pos hlast]
      have hvl : vpn = last := Nat.eq_of_mul_eq_mul_left (by decide) hlast
      refine ⟨t₁, 1, hch, ?_, .inl ⟨rfl, by omega⟩⟩
      rw [← mapRange_succ, mapRange_zero, hleaf]
    · rw [if_neg hlast, ← Nat.mul_succ]
      have hvl : vpn ≠ last := fun he => hlast (he ▸ rfl)
      apply (ih hch.has (hch.tab hroot) (by omega) (by omega) ?_).mono
      · rintro r l' ⟨t', n, hch', hleaf', hr⟩
        refine ⟨t', n + 1, hch.trans hch', ?_, ?_⟩
        · rw [hleaf', hleaf, ← mapRange_succ]
        · rcases hr with ⟨rfl, hn⟩ | ⟨rfl, hn⟩
          · exact .inl ⟨rfl, by omega⟩
          · exact .inr ⟨rfl, fun hle => by have := hn (by omega); omega⟩
      · intro hp
        obtain ⟨hle, hlast, hbare⟩ := hsafe hp
        refine ⟨by omega, hlast, fun k hk hkl => ?_⟩
        have hne : k ≠ vpn := by omega
        rw [hleaf, update_of_ne hne]
        exact hbare k (by omega) hkl

theorem PGROUNDDOWN_eq (a : ℕ) : PGROUNDDOWN a = PGSIZE * (a / PGSIZE) := Nat.mul_comm _ _

/-- `mappages` writes the entries of its range, the first `n` of them if an allocation
fails. -/
theorem wp_mappages {size pa perm : ℕ} (h : l.Has F t) (hroot : t.tab 2 0 = some root)
    (hsafe : ¬panics → size ≠ 0 ∧ va / PGSIZE ≤ wrap64 (va + size - 1) / PGSIZE ∧
      wrap64 (va + size - 1) / PGSIZE < NVPN ∧
      ∀ k, va / PGSIZE ≤ k → k ≤ wrap64 (va + size - 1) / PGSIZE → t.leaf k &&& PTE_V = 0) :
    wp (memRules g panics) (mappages (PGSIZE * root) va size pa perm)
      (fun r l' => ∃ t' n, Loc.Change F t l t' l' ∧
        t'.leaf = mapRange t.leaf pa perm (va / PGSIZE) n ∧
        ((r = 0 ∧ va / PGSIZE + n = wrap64 (va + size - 1) / PGSIZE + 1) ∨
          (r = -1 ∧ (va / PGSIZE ≤ wrap64 (va + size - 1) / PGSIZE →
            va / PGSIZE + n ≤ wrap64 (va + size - 1) / PGSIZE)))) l := by
  unfold mappages
  split
  case isTrue hsize => exact wp_panic (not_not.mp fun hp => (hsafe hp).1 hsize)
  case isFalse =>
    rw [PGROUNDDOWN_eq, PGROUNDDOWN_eq]
    exact wp_mapLoop h hroot MAXPAGES_pos (NVPN_lt_add_MAXPAGES _) fun hp => (hsafe hp).2

/-! ### uvmunmap -/

/-- An entry that `uvmunmap` accepts: valid, and not that of a table. -/
def IsLeaf (entry : ℕ) : Prop := entry &&& PTE_V ≠ 0 ∧ PTE_FLAGS entry ≠ PTE_V

/-- The entries from `vpn` to `stop` are cleared. -/
def clearRange (leaf : ℕ → ℕ) (vpn stop : ℕ) : ℕ → ℕ := fun w =>
  if vpn ≤ w ∧ w < stop then 0 else leaf w

/-- The pages that the entries from `vpn` to `stop` map. -/
def pagesOf (leaf : ℕ → ℕ) (vpn stop : ℕ) : Set ℕ :=
  { ppn | ∃ k, vpn ≤ k ∧ k < stop ∧ ppn = leaf k / 1024 }

variable {leaf : ℕ → ℕ} {vpn stop : ℕ}

theorem clearRange_of_le (h : stop ≤ vpn) :
    clearRange leaf vpn stop = leaf := by
  funext w
  exact if_neg (by omega)

theorem pagesOf_of_le (h : stop ≤ vpn) : pagesOf leaf vpn stop = ∅ := by
  ext ppn
  exact ⟨fun ⟨k, hk, hks, _⟩ => by omega, fun hf => hf.elim⟩

/-- The pages that are left of `F` when the entries from `vpn` to `stop` are unmapped. -/
def kept (do_free : Bool) (F : Set ℕ) (leaf : ℕ → ℕ) (vpn stop : ℕ) : Set ℕ :=
  if do_free then F \ pagesOf leaf vpn stop else F

theorem kept_subset (do_free : Bool) (F : Set ℕ) (leaf : ℕ → ℕ) (vpn stop : ℕ) :
    kept do_free F leaf vpn stop ⊆ F := by
  cases do_free with
  | false => exact subset_rfl
  | true => exact Set.sdiff_subset

/-- What `uvmunmap` with `do_free` needs: the pages are allocated, not used for anything
else, and mapped once. -/
structure MayFree (g : Geometry) (F : Set ℕ) (leaf : ℕ → ℕ) (vpn stop : ℕ) : Prop where
  page : ∀ k, vpn ≤ k → k < stop → IsLeaf (leaf k) → leaf k / 1024 ∈ F ∧ g.Ram (leaf k / 1024)
  inj : ∀ j k, vpn ≤ j → j < stop → vpn ≤ k → k < stop → IsLeaf (leaf j) → IsLeaf (leaf k) →
    leaf j / 1024 = leaf k / 1024 → j = k

theorem clearRange_step (h : vpn < stop) :
    clearRange (update leaf vpn 0) (vpn + 1) stop = clearRange leaf vpn stop := by
  funext w
  unfold clearRange
  by_cases hw : w = vpn
  · subst hw
    rw [if_neg (by omega), if_pos (by omega), update_self]
  · rw [update_of_ne hw]
    by_cases hlt : vpn + 1 ≤ w ∧ w < stop
    · rw [if_pos hlt, if_pos (by omega)]
    · rw [if_neg hlt, if_neg (by omega)]

theorem pagesOf_step (h : vpn < stop) :
    pagesOf leaf vpn stop =
      insert (leaf vpn / 1024) (pagesOf (update leaf vpn 0) (vpn + 1) stop) := by
  ext ppn
  constructor
  · rintro ⟨k, hk, hks, rfl⟩
    by_cases he : k = vpn
    · exact .inl (he ▸ rfl)
    · exact .inr ⟨k, by omega, hks, by rw [update_of_ne he]⟩
  · rintro (rfl | ⟨k, hk, hks, rfl⟩)
    · exact ⟨vpn, le_rfl, h, rfl⟩
    · have he : k ≠ vpn := by omega
      exact ⟨k, by omega, hks, by rw [update_of_ne he]⟩

variable {do_free : Bool}

/-- Freeing the page of an entry, if that is asked for. -/
theorem wp_freeLeaf (h : l.Has F t) {entry : ℕ}
    (hpage : do_free = true → entry / 1024 ∈ F ∧ g.Ram (entry / 1024)) {Q : Unit → Loc → Prop}
    (hQ : ∀ l', l'.Has (if do_free then F \ {entry / 1024} else F) t → l'.mem = l.mem → Q () l') :
    wp (memRules g panics) (freeLeaf do_free entry) Q l := by
  cases do_free with
  | false => exact hQ l h rfl
  | true =>
    obtain ⟨hF, hram⟩ := hpage rfl
    apply wp_kfree ⟨PTE2PA_of_lt hram.lt, h.own ▸ Or.inl hF⟩ hram
    exact hQ _ (h.drop hF) rfl

/-- The entries from `lo` to `hi` are cleared, and their pages freed if that is asked for. -/
def Unmapped (do_free : Bool) (F : Set ℕ) (t : Tree) (l : Loc) (lo hi : ℕ) (l' : Loc) : Prop :=
  ∃ t', l'.Has (kept do_free F t.leaf lo hi) t' ∧ t'.tab = t.tab ∧
    t'.leaf = clearRange t.leaf lo hi ∧ (∀ ppn ∈ kept do_free F t.leaf lo hi, l'.mem ppn = l.mem ppn) ∧
    ∀ k, lo ≤ k → k < hi → IsLeaf (t.leaf k)

theorem wp_unmapLoop {stop rounds vpn : ℕ} (h : l.Has F t)
    (hroot : t.tab 2 0 = some root) (hrounds : 0 < rounds) (hmore : NVPN < vpn + rounds)
    (hsafe : ¬panics → ∀ k, vpn ≤ k → k < stop → k < NVPN ∧ IsLeaf (t.leaf k))
    (hfree : do_free = true → MayFree g F t.leaf vpn stop) :
    wp (memRules g panics) (unmapLoop (PGSIZE * root) (PGSIZE * stop) do_free rounds (PGSIZE * vpn))
      (fun _ => Unmapped do_free F t l vpn stop) l := by
  induction rounds generalizing vpn l t F with
  | zero => exact absurd hrounds (Nat.lt_irrefl 0)
  | succ rounds ih =>
    unfold unmapLoop
    split
    case isFalse hge =>
      have hle : stop ≤ vpn := by
        by_contra hlt
        exact hge (Nat.mul_lt_mul_of_pos_left (not_le.mp hlt) (by decide))
      have hkept : kept do_free F t.leaf vpn stop = F := by
        cases do_free with
        | false => rfl
        | true => simp only [kept, if_true, pagesOf_of_le hle, Set.sdiff_empty]
      refine ⟨t, ?_, rfl, (clearRange_of_le hle).symm, fun _ _ => rfl, fun k hk hks => absurd hks (by omega)⟩
      rwa [hkept]
    case isTrue hlt =>
      have hvs : vpn < stop := Nat.lt_of_mul_lt_mul_left hlt
      have hva : ¬panics → PGSIZE * vpn < MAXVA := fun hp =>
        lt_MAXVA_iff.mpr (hsafe hp vpn le_rfl hvs).1
      apply (wp_walk_lookup h hroot hva).bind
      rintro r l₁ ⟨hmax, rfl, rfl⟩
      rw [page_div]
      cases hs : t.slot vpn with
      | none =>
        apply wp_panic
        refine not_not.mp fun hp => (hsafe hp vpn le_rfl hvs).2.1 ?_
        rw [Tree.leaf_of_slot_none h.ok hs]
        rfl
      | some pte =>
        apply wp_bind.mpr
        apply wp_get_slot h hs
        split
        case isTrue hinvalid =>
          exact wp_panic (not_not.mp fun hp => (hsafe hp vpn le_rfl hvs).2.1 hinvalid)
        split
        case isTrue hflags =>
          exact wp_panic (not_not.mp fun hp => (hsafe hp vpn le_rfl hvs).2.2 hflags)
        rename_i hvalid hflags
        have hleaf : IsLeaf (t.leaf vpn) := ⟨hvalid, hflags⟩
        apply wp_bind.mpr
        apply wp_freeLeaf h fun hd => (hfree hd).page vpn le_rfl hvs hleaf
        intro l₁ h₁ hmem₁
        apply wp_bind.mpr
        apply wp_set_slot h₁ hs
        intro l₂ hset _
        have hN := lt_MAXVA_iff.mp hmax
        have hstep : ∀ {k}, vpn + 1 ≤ k → (t.setLeaf vpn 0).leaf k = t.leaf k := fun hk =>
          update_of_ne (by omega) _ _
        rw [← Nat.mul_succ]
        apply (ih hset.has hroot (by omega) (by omega) ?_ ?_).mono
        · rintro - l' ⟨t', h', htab, hclear, hmem', hall⟩
          have hkeep : kept do_free (if do_free then F \ {t.leaf vpn / 1024} else F)
              (t.setLeaf vpn 0).leaf (vpn + 1) stop = kept do_free F t.leaf vpn stop := by
            cases do_free with
            | false => rfl
            | true =>
              simp only [kept, if_true]
              rw [pagesOf_step hvs, Set.insert_eq, Set.sdiff_sdiff]
              rfl
          rw [hkeep] at h' hmem'
          refine ⟨t', h', htab, hclear.trans (clearRange_step hvs), ?_, ?_⟩
          · intro ppn hppn
            rw [hmem' ppn hppn, hset.mem ppn (kept_subset _ _ _ _ _ (hkeep ▸ hppn)), hmem₁]
          · intro k hk hks
            by_cases hkv : k = vpn
            · exact hkv ▸ hleaf
            · have hk' : vpn + 1 ≤ k := by omega
              exact hstep hk' ▸ hall k hk' hks
        · intro hp k hk hks
          rw [hstep hk]
          exact hsafe hp k (by omega) hks
        · rintro rfl
          constructor
          · intro k hk hks hl
            rw [hstep hk] at hl ⊢
            obtain ⟨hF, hram⟩ := (hfree rfl).page k (by omega) hks hl
            refine ⟨⟨hF, fun he => ?_⟩, hram⟩
            have := (hfree rfl).inj k vpn (by omega) hks le_rfl hvs hl hleaf he
            omega
          · intro j k hj hjs hk hks hlj hlk he
            rw [hstep hj] at hlj he
            rw [hstep hk] at hlk he
            exact (hfree rfl).inj j k (by omega) hjs (by omega) hks hlj hlk he

/-- `uvmunmap` clears the entries of its range; it panics if one of them is not there. -/
theorem wp_uvmunmap {npages vpn stop : ℕ} (hvpn : va / PGSIZE = vpn)
    (hstop : wrap64 (va + npages * PGSIZE) / PGSIZE = stop) (h : l.Has F t)
    (hroot : t.tab 2 0 = some root)
    (hsafe : ¬panics → va % PGSIZE = 0 ∧ ∀ k, vpn ≤ k → k < stop → k < NVPN ∧ IsLeaf (t.leaf k))
    (hfree : do_free = true → MayFree g F t.leaf vpn stop) :
    wp (memRules g panics) (uvmunmap (PGSIZE * root) va npages do_free)
      (fun _ => Unmapped do_free F t l vpn stop) l := by
  subst hvpn hstop
  unfold uvmunmap
  split
  case isTrue hmod => exact wp_panic (not_not.mp fun hp => hmod (hsafe hp).1)
  case isFalse hmod =>
    have hva : va = PGSIZE * (va / PGSIZE) :=
      (Nat.mul_div_cancel' (Nat.dvd_of_mod_eq_zero (not_not.mp hmod))).symm
    have hstop : wrap64 (va + npages * PGSIZE) =
        PGSIZE * (wrap64 (va + npages * PGSIZE) / PGSIZE) := by
      have hsum : va + npages * PGSIZE = PGSIZE * (va / PGSIZE + npages) := by
        rw [Nat.mul_add, ← hva, Nat.mul_comm npages]
      rw [hsum]
      exact wrap64_page _
    have hloop := wp_unmapLoop h hroot MAXPAGES_pos (NVPN_lt_add_MAXPAGES _)
      (fun hp => (hsafe hp).2) hfree
    rwa [← hva, ← hstop] at hloop

end Xv6.Vm
