import Xv6.Vm.Rules

/-!
What a page table is: a tree of table pages, spread out by level and position.

`Tree` names the table page at each position and the entries of the lowest level. The
position of a table of level `level` is the part of the virtual page numbers below it that
their walks have used so far (`up (level + 1) vpn`), so the entry a walk reads at `level`
has position `up level vpn`. `Tree.Ok` says that memory holds the tree: each table page
has the entries the tree says, no page is used twice, and a table hangs below a table.

`Loc.Has l F t` says that the owned pages are the tables of `t` and, apart from them, the
pages `F`. A walk changes the tree and leaves `F` alone.

* `Has.addTable`: a new empty table under an existing one.
* `Has.setLeaf`: an entry of the lowest level.
-/

namespace Xv6.Vm

open Function (update update_of_ne update_self)

/-- The table pages by level and position, and the entries of the lowest level. -/
structure Tree where
  tab : ℕ → ℕ → Option ℕ
  leaf : ℕ → ℕ

namespace Tree

/-- An entry of an interior table: the table below, or none. -/
def link : Option ℕ → ℕ
  | none => 0
  | some ppn => PA2PTE (PGSIZE * ppn) ||| PTE_V

/-- The entry at position `i` of level `level`. -/
def pte (t : Tree) : ℕ → ℕ → ℕ
  | 0, i => t.leaf i
  | level + 1, i => link (t.tab level i)

def tables (t : Tree) : Set ℕ := { ppn | ∃ level i, t.tab level i = some ppn }

def addTable (t : Tree) (level i ppn : ℕ) : Tree :=
  { t with tab := update t.tab level (update (t.tab level) i (some ppn)) }

def setLeaf (t : Tree) (vpn value : ℕ) : Tree :=
  { t with leaf := update t.leaf vpn value }

/-- A page table with nothing in it. -/
def empty (root : ℕ) : Tree where
  tab := fun level i => if level = 2 ∧ i = 0 then some root else none
  leaf := fun _ => 0

theorem empty_tab {root level i ppn : ℕ} :
    (empty root).tab level i = some ppn ↔ (level = 2 ∧ i = 0) ∧ ppn = root := by
  unfold empty
  rw [Option.ite_none_right_eq_some, Option.some_inj, eq_comm (a := ppn)]

theorem link_some (ppn : ℕ) : link (some ppn) = 1024 * ppn + 1 := by
  have h : link (some ppn) = 1024 * (PGSIZE * ppn / PGSIZE) + 1 := PA2PTE_or (by decide)
  rwa [page_div] at h

theorem link_valid_iff {x : Option ℕ} : link x &&& PTE_V ≠ 0 ↔ x ≠ none := by
  rw [valid_iff]
  cases x with
  | none => simp [link]
  | some ppn =>
    rw [link_some]
    simp only [ne_eq, reduceCtorEq, not_false_eq_true, iff_true]
    omega

theorem PTE2PA_link {ppn : ℕ} (h : ppn < PAGES) : PTE2PA (link (some ppn)) = PGSIZE * ppn := by
  rw [link_some]
  exact PTE2PA_add h (by decide)

/-- Memory holds the tree. -/
structure Ok (t : Tree) (mem : ℕ → Page) : Prop where
  /-- there are three levels, with one table at the top -/
  levels : ∀ {level i ppn}, t.tab level i = some ppn → level ≤ 2 ∧ (level = 2 → i = 0)
  /-- a table has an address of 64 bits -/
  lt : ∀ {level i ppn}, t.tab level i = some ppn → ppn < PAGES
  parent : ∀ {level i ppn}, t.tab level i = some ppn → level < 2 →
    ∃ up, t.tab (level + 1) (i / 512) = some up
  inj : ∀ {level i level' i' ppn}, t.tab level i = some ppn → t.tab level' i' = some ppn →
    level = level' ∧ i = i'
  entry : ∀ {level i ppn}, t.tab level i = some ppn → ∀ j, j < 512 →
    mem ppn j = t.pte level (512 * i + j)
  /-- without a table there are no entries -/
  leaf_zero : ∀ {vpn}, t.tab 0 (vpn / 512) = none → t.leaf vpn = 0

variable {t : Tree} {mem : ℕ → Page}

theorem addTable_tab_self (t : Tree) (level i ppn : ℕ) :
    (t.addTable level i ppn).tab level i = some ppn := by
  simp only [addTable, update_self]

theorem addTable_tab_of_ne {level i ppn level' i' : ℕ} (h : ¬(level' = level ∧ i' = i)) :
    (t.addTable level i ppn).tab level' i' = t.tab level' i' := by
  by_cases hl : level' = level
  · subst hl
    have hi : i' ≠ i := fun hi => h ⟨rfl, hi⟩
    simp only [addTable, update_self, update_of_ne hi]
  · simp only [addTable, update_of_ne hl]

theorem addTable_tab_of_some {level i ppn level' i' c : ℕ} (hnone : t.tab level i = none)
    (h : t.tab level' i' = some c) : (t.addTable level i ppn).tab level' i' = some c := by
  rw [addTable_tab_of_ne, h]
  rintro ⟨rfl, rfl⟩
  cases hnone.symm.trans h

theorem addTable_tables {level i ppn : ℕ} (hnone : t.tab level i = none) :
    (t.addTable level i ppn).tables = insert ppn t.tables := by
  ext c
  constructor
  · rintro ⟨level', i', hc⟩
    by_cases h : level' = level ∧ i' = i
    · obtain ⟨rfl, rfl⟩ := h
      rw [addTable_tab_self] at hc
      exact .inl (Option.some.inj hc).symm
    · rw [addTable_tab_of_ne h] at hc
      exact .inr ⟨level', i', hc⟩
  · rintro (rfl | ⟨level', i', hc⟩)
    · exact ⟨level, i, addTable_tab_self t level i c⟩
    · exact ⟨level', i', addTable_tab_of_some hnone hc⟩

/-- The tree says the same of memory that agrees on its tables. -/
theorem Ok.congr (h : t.Ok mem) {mem' : ℕ → Page} (hmem : ∀ ppn ∈ t.tables, mem' ppn = mem ppn) :
    t.Ok mem' := by
  refine { h with entry := ?_ }
  intro level i ppn ht j hj
  rw [hmem ppn ⟨level, i, ht⟩]
  exact h.entry ht j hj

/-- Where a table is missing, everything below it is. -/
theorem Ok.none_below (h : t.Ok mem) {level vpn : ℕ} (hlevel : level ≤ 2)
    (hnone : t.tab level (up (level + 1) vpn) = none) : t.tab 0 (up 1 vpn) = none := by
  induction level with
  | zero => exact hnone
  | succ level ih =>
    apply ih (by omega)
    rw [Option.eq_none_iff_forall_ne_some]
    intro ppn ht
    obtain ⟨c, hc⟩ := h.parent ht (by omega)
    cases hnone.symm.trans hc

end Tree

/-! ### Owning a tree -/

/-- The owned pages are `F` and the tables of `t`. -/
structure Loc.Has (l : Loc) (F : Set ℕ) (t : Tree) : Prop where
  ok : t.Ok l.mem
  own : l.own = F ∪ t.tables
  disj : ∀ {ppn}, ppn ∈ F → ppn ∉ t.tables

namespace Loc.Has

variable {l : Loc} {F : Set ℕ} {t : Tree}

section

variable (h : l.Has F t)
include h

theorem own_table {level i ppn : ℕ} (ht : t.tab level i = some ppn) : ppn ∈ l.own := by
  rw [h.own]
  exact .inr ⟨level, i, ht⟩

/-- The page that a new table of level `level` gets, from its allocation to the entry that
points to it: it is cleared, then the entry at position `i` of the table `up` is set. -/
theorem addTable {level i ppn c : ℕ} (page : Page) (hlevel : level < 2) (hlt : ppn < PAGES)
    (hnone : t.tab level i = none) (hup : t.tab (level + 1) (i / 512) = some c) (hnew : ppn ∉ l.own) :
    (((l.take ppn page).put ppn zeroPage).put c
      (update (((l.take ppn page).put ppn zeroPage).mem c) (i % 512)
        (Tree.link (some ppn)))).Has F (t.addTable level i ppn) := by
  have hcne : c ≠ ppn := fun hc => hnew (hc ▸ h.own_table hup)
  have hfresh : ∀ {level' i' : ℕ}, t.tab level' i' ≠ some ppn := fun ht =>
    hnew (h.own_table ht)
  have hpte : ∀ {level' k : ℕ}, ¬(level' = level + 1 ∧ k = i) →
      (t.addTable level i ppn).pte level' k = t.pte level' k := by
    intro level' k hne
    cases level' with
    | zero => rfl
    | succ level' =>
      exact congrArg Tree.link (Tree.addTable_tab_of_ne fun hk => hne ⟨by rw [hk.1], hk.2⟩)
  constructor
  · constructor
    · intro level' i' c' ht
      by_cases hp : level' = level ∧ i' = i
      · exact ⟨by omega, by omega⟩
      · exact h.ok.levels (Tree.addTable_tab_of_ne hp ▸ ht)
    · intro level' i' c' ht
      by_cases hp : level' = level ∧ i' = i
      · obtain ⟨rfl, rfl⟩ := hp
        rw [Tree.addTable_tab_self] at ht
        exact Option.some.inj ht ▸ hlt
      · exact h.ok.lt (Tree.addTable_tab_of_ne hp ▸ ht)
    · intro level' i' c' ht hlt
      by_cases hp : level' = level ∧ i' = i
      · obtain ⟨rfl, rfl⟩ := hp
        exact ⟨c, Tree.addTable_tab_of_some hnone hup⟩
      · obtain ⟨d, hd⟩ := h.ok.parent (Tree.addTable_tab_of_ne hp ▸ ht) hlt
        exact ⟨d, Tree.addTable_tab_of_some hnone hd⟩
    · intro level₁ i₁ level₂ i₂ c' h₁ h₂
      by_cases hp₁ : level₁ = level ∧ i₁ = i <;> by_cases hp₂ : level₂ = level ∧ i₂ = i
      · exact ⟨hp₁.1.trans hp₂.1.symm, hp₁.2.trans hp₂.2.symm⟩
      · obtain ⟨rfl, rfl⟩ := hp₁
        rw [Tree.addTable_tab_self] at h₁
        rw [Tree.addTable_tab_of_ne hp₂, ← h₁] at h₂
        exact (hfresh h₂).elim
      · obtain ⟨rfl, rfl⟩ := hp₂
        rw [Tree.addTable_tab_self] at h₂
        rw [Tree.addTable_tab_of_ne hp₁, ← h₂] at h₁
        exact (hfresh h₁).elim
      · rw [Tree.addTable_tab_of_ne hp₁] at h₁
        rw [Tree.addTable_tab_of_ne hp₂] at h₂
        exact h.ok.inj h₁ h₂
    · intro level' i' c' ht j hj
      by_cases hp : level' = level ∧ i' = i
      · -- the new table is empty: it had no entries and no tables below it
        obtain ⟨rfl, rfl⟩ := hp
        rw [Tree.addTable_tab_self] at ht
        cases ht
        have hzero : ∀ p, (((l.take ppn page).put ppn zeroPage).put c p).mem ppn j = 0 := by
          intro p
          simp only [Loc.put, update_of_ne hcne.symm, update_self, zeroPage]
        rw [hzero, hpte (by omega)]
        cases level' with
        | zero =>
          symm
          apply h.ok.leaf_zero
          rwa [show (512 * i' + j) / 512 = i' by omega]
        | succ level' =>
          have hbelow : t.tab level' (512 * i' + j) = none := by
            rw [Option.eq_none_iff_forall_ne_some]
            intro d hd
            obtain ⟨e, he⟩ := h.ok.parent hd (by omega)
            rw [show (512 * i' + j) / 512 = i' by omega, hnone] at he
            cases he
          rw [Tree.pte, hbelow]
          rfl
      · rw [Tree.addTable_tab_of_ne hp] at ht
        have hne : c' ≠ ppn := fun hc => hfresh (hc ▸ ht)
        have hold := h.ok.entry ht j hj
        by_cases hc : c' = c
        · subst hc
          obtain ⟨rfl, rfl⟩ := h.ok.inj ht hup
          by_cases hij : j = i % 512
          · subst hij
            simp only [Loc.put, update_self]
            rw [Nat.div_add_mod, Tree.pte, Tree.addTable_tab_self]
          · simp only [Loc.put, Loc.take, update_self, update_of_ne hij,
              update_of_ne hne]
            rw [hold, hpte (by omega)]
        · simp only [Loc.put, Loc.take, update_of_ne hc, update_of_ne hne]
          rw [hold, hpte]
          rintro ⟨rfl, hk⟩
          have hi : i' = i / 512 := by omega
          rw [hi, hup] at ht
          exact hc (Option.some.inj ht).symm
    · intro vpn hv
      apply h.ok.leaf_zero
      rw [Option.eq_none_iff_forall_ne_some]
      intro d hd
      cases hv.symm.trans (Tree.addTable_tab_of_some hnone hd)
  · rw [Tree.addTable_tables hnone, Set.union_insert, ← h.own]
    rfl
  · intro c' hF
    rw [Tree.addTable_tables hnone]
    rintro (rfl | ht)
    · exact hnew (h.own ▸ Or.inl hF)
    · exact h.disj hF ht

/-- Setting the entry of `vpn` in its lowest table. -/
theorem setLeaf {vpn c : ℕ} (value : ℕ) (ht : t.tab 0 (vpn / 512) = some c) :
    (l.put c (update (l.mem c) (vpn % 512) value)).Has F (t.setLeaf vpn value) := by
  constructor
  · refine { h.ok with entry := ?_, leaf_zero := ?_ }
    · intro level i c' hc' j hj
      have hold := h.ok.entry hc' j hj
      by_cases hc : c' = c
      · subst hc
        obtain ⟨rfl, rfl⟩ := h.ok.inj hc' ht
        by_cases hij : j = vpn % 512
        · subst hij
          simp only [Loc.put, update_self, Tree.pte, Tree.setLeaf, Nat.div_add_mod]
        · have hne : 512 * (vpn / 512) + j ≠ vpn := by omega
          simp only [Loc.put, update_self, update_of_ne hij, Tree.pte,
            Tree.setLeaf, update_of_ne hne]
          exact hold
      · simp only [Loc.put, update_of_ne hc]
        rw [hold]
        cases level with
        | zero =>
          have hne : 512 * i + j ≠ vpn := by
            rintro hv
            have hi : i = vpn / 512 := by omega
            rw [hi] at hc'
            exact hc (Option.some.inj (hc'.symm.trans ht))
          simp only [Tree.pte, Tree.setLeaf, update_of_ne hne]
        | succ level => rfl
    · intro v hv
      have hne : v ≠ vpn := by
        rintro rfl
        cases hv.symm.trans ht
      simp only [Tree.setLeaf, update_of_ne hne]
      exact h.ok.leaf_zero hv
  · exact h.own
  · exact h.disj

/-- A page outside the tree may change, come or go. -/
theorem frame {l' : Loc} {F' : Set ℕ} (hown : l'.own = F' ∪ t.tables)
    (hdisj : ∀ {ppn}, ppn ∈ F' → ppn ∉ t.tables) (hmem : ∀ ppn ∈ t.tables, l'.mem ppn = l.mem ppn) :
    l'.Has F' t :=
  ⟨h.ok.congr hmem, hown, hdisj⟩

theorem take {ppn : ℕ} (hnew : ppn ∉ l.own) (page : Page) :
    (l.take ppn page).Has (insert ppn F) t := by
  have hnot : ppn ∉ t.tables := fun ht => hnew (h.own ▸ Or.inr ht)
  apply h.frame
  · show insert ppn l.own = insert ppn F ∪ t.tables
    rw [h.own, Set.insert_union]
  · rintro c (rfl | hc)
    · exact hnot
    · exact h.disj hc
  · exact fun c hc => update_of_ne (fun he : c = ppn => hnot (he ▸ hc)) _ _

theorem put {ppn : ℕ} (hF : ppn ∈ F) (page : Page) : (l.put ppn page).Has F t :=
  h.frame h.own h.disj fun c hc =>
    update_of_ne (fun he : c = ppn => h.disj hF (he ▸ hc)) _ _

theorem drop {ppn : ℕ} (hF : ppn ∈ F) : (l.drop ppn).Has (F \ {ppn}) t := by
  refine h.frame ?_ (fun hd => h.disj hd.1) fun _ _ => rfl
  show l.own \ {ppn} = F \ {ppn} ∪ t.tables
  rw [h.own, Set.union_sdiff_distrib, Set.sdiff_singleton_eq_self (h.disj hF)]

end

end Loc.Has

/-- A page of its own, cleared, is an empty page table. -/
theorem Loc.has_empty {l : Loc} {root : ℕ} (hlt : root < PAGES) (hnew : root ∉ l.own) (page : Page) :
    ((l.take root page).put root zeroPage).Has l.own (Tree.empty root) := by
  constructor
  · constructor
    · intro level i ppn ht
      obtain ⟨⟨rfl, rfl⟩, -⟩ := Tree.empty_tab.mp ht
      exact ⟨le_rfl, fun _ => rfl⟩
    · intro level i ppn ht
      obtain ⟨-, rfl⟩ := Tree.empty_tab.mp ht
      exact hlt
    · intro level i ppn ht hlt
      obtain ⟨⟨rfl, rfl⟩, -⟩ := Tree.empty_tab.mp ht
      exact absurd hlt (lt_irrefl 2)
    · intro level i level' i' ppn ht ht'
      obtain ⟨⟨rfl, rfl⟩, -⟩ := Tree.empty_tab.mp ht
      obtain ⟨⟨rfl, rfl⟩, -⟩ := Tree.empty_tab.mp ht'
      exact ⟨rfl, rfl⟩
    · intro level i ppn ht j _
      obtain ⟨⟨rfl, rfl⟩, rfl⟩ := Tree.empty_tab.mp ht
      simp only [Loc.put, update_self, zeroPage, Tree.pte, Tree.empty]
      rfl
    · exact fun _ => rfl
  · ext ppn
    constructor
    · rintro (rfl | hown)
      · exact .inr ⟨2, 0, Tree.empty_tab.mpr ⟨⟨rfl, rfl⟩, rfl⟩⟩
      · exact .inl hown
    · rintro (hown | ⟨level, i, ht⟩)
      · exact .inr hown
      · exact .inl (Tree.empty_tab.mp ht).2
  · rintro ppn hown ⟨level, i, ht⟩
    exact hnew ((Tree.empty_tab.mp ht).2 ▸ hown)

end Xv6.Vm
