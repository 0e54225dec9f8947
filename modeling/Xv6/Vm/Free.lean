import Xv6.Vm.Walk

/-!
`freewalk` gives back the tables of a page table without entries, each once.

The recursion follows the tree: the tables below position `i` of level `level` are
`Tree.sub level i`, a table's entries point to disjoint sets of them, and the table itself
is freed after all of them.

* `wp_freeEntries`: the loop over the entries of one table.
* `wp_freewalkTo`: a table and everything below it.
* `wp_freewalk`: a whole page table.
-/

namespace Xv6.Vm

open Function (update update_of_ne update_self)

open Prog (wp wp_bind)

namespace Tree

/-- The table pages at and below position `i` of level `level`. -/
def sub (t : Tree) (level i : ℕ) : Set ℕ :=
  { ppn | ∃ k j, up k j = i ∧ k ≤ level ∧ t.tab (level - k) j = some ppn }

variable {t : Tree} {mem : ℕ → Page}

theorem mem_sub_self {level i ppn : ℕ} (h : t.tab level i = some ppn) : ppn ∈ t.sub level i :=
  ⟨0, i, rfl, Nat.zero_le _, h⟩

theorem sub_zero {i ppn : ℕ} : ppn ∈ t.sub 0 i ↔ t.tab 0 i = some ppn := by
  constructor
  · rintro ⟨k, j, hup, hk, ht⟩
    obtain rfl : k = 0 := Nat.le_zero.mp hk
    obtain rfl : j = i := hup
    exact ht
  · exact mem_sub_self

theorem mem_sub_succ {level i ppn : ℕ} : ppn ∈ t.sub (level + 1) i ↔
    t.tab (level + 1) i = some ppn ∨ ∃ j, j < 512 ∧ ppn ∈ t.sub level (512 * i + j) := by
  constructor
  · rintro ⟨k, j, hup, hk, ht⟩
    cases k with
    | zero =>
      obtain rfl : j = i := hup
      exact .inl ht
    | succ k =>
      have hi : up k j / 512 = i := hup
      refine .inr ⟨up k j % 512, Nat.mod_lt _ (by decide), k, j, ?_, by omega, ?_⟩
      · rw [← hi, Nat.div_add_mod]
      · rwa [Nat.succ_sub_succ] at ht
  · rintro (ht | ⟨j, hj, k, m, hup, hk, ht⟩)
    · exact mem_sub_self ht
    · refine ⟨k + 1, m, ?_, by omega, ?_⟩
      · rw [up, hup]
        omega
      · rwa [Nat.succ_sub_succ]

variable (h : t.Ok mem)
include h

/-- Positions next to each other have nothing in common. -/
theorem Ok.sub_inj {level i j ppn : ℕ} (hi : ppn ∈ t.sub level i)
    (hj : ppn ∈ t.sub level j) : i = j := by
  obtain ⟨k, m, rfl, hk, ht⟩ := hi
  obtain ⟨k', m', rfl, hk', ht'⟩ := hj
  obtain ⟨hlev, rfl⟩ := h.inj ht ht'
  obtain rfl : k = k' := by omega
  rfl

theorem Ok.not_mem_sub {level i j ppn : ℕ} (ht : t.tab (level + 1) i = some ppn) :
    ppn ∉ t.sub level j := by
  rintro ⟨k, m, -, hk, ht'⟩
  have := (h.inj ht ht').1
  omega

/-- Every table is below the root. -/
theorem Ok.sub_root : t.sub 2 0 = t.tables := by
  have hup : ∀ k, ∀ {i ppn : ℕ}, k ≤ 2 → t.tab (2 - k) i = some ppn → up k i = 0 := by
    intro k
    induction k with
    | zero => exact fun _ ht => (h.levels ht).2 rfl
    | succ k ih =>
      intro i ppn hk ht
      obtain ⟨c, hc⟩ := h.parent ht (by omega)
      rw [show 2 - (k + 1) + 1 = 2 - k by omega] at hc
      rw [← up_div]
      exact ih (by omega) hc
  ext ppn
  constructor
  · rintro ⟨k, j, -, -, ht⟩
    exact ⟨2 - k, j, ht⟩
  · rintro ⟨level, i, ht⟩
    have hlevel := (h.levels ht).1
    have hk : 2 - (2 - level) = level := by omega
    have ht' : t.tab (2 - (2 - level)) i = some ppn := by rwa [hk]
    exact ⟨2 - level, i, hup (2 - level) (by omega) ht', by omega, ht'⟩

/-- Without a table nothing is below. -/
theorem Ok.sub_none {level i : ℕ} (hlevel : level ≤ 1) (hnone : t.tab level i = none) :
    ∀ ppn, ppn ∉ t.sub level i := by
  have hbelow : ∀ k, ∀ {j ppn : ℕ}, k ≤ level → up k j = i → t.tab (level - k) j ≠ some ppn := by
    intro k
    induction k with
    | zero =>
      rintro j ppn - rfl ht
      cases hnone.symm.trans ht
    | succ k ih =>
      intro j ppn hk hup ht
      obtain ⟨c, hc⟩ := h.parent ht (by omega)
      rw [show level - (k + 1) + 1 = level - k by omega] at hc
      exact ih (by omega) ((up_div k j).trans hup) hc
  rintro ppn ⟨k, j, hup, hk, ht⟩
  exact hbelow k hk hup ht

end Tree

variable {g : Geometry} {panics : Prop} {l : Loc} {F : Set ℕ} {t : Tree} {root : ℕ}

theorem mem_tableSlots {j : ℕ} : j ∈ tableSlots ↔ j < 512 := by
  unfold tableSlots
  exact List.mem_range

theorem nodup_tableSlots : tableSlots.Nodup := by
  unfold tableSlots
  exact List.nodup_range

/-- The tables at and below a position are owned and hold what the tree says. -/
structure Loc.Holds (g : Geometry) (l : Loc) (t : Tree) (level i : ℕ) : Prop where
  own : ∀ ppn ∈ t.sub level i, ppn ∈ l.own ∧ g.Ram ppn
  entry : ∀ {level' i' ppn}, ppn ∈ t.sub level i → t.tab level' i' = some ppn →
    ∀ j, j < 512 → l.mem ppn j = t.pte level' (512 * i' + j)

theorem Loc.Holds.mono {l' : Loc} {level i : ℕ} (h : l.Holds g t level i)
    (hown : ∀ ppn ∈ t.sub level i, ppn ∈ l.own → ppn ∈ l'.own)
    (hmem : ∀ ppn ∈ t.sub level i, l'.mem ppn = l.mem ppn) : l'.Holds g t level i := by
  constructor
  · exact fun ppn hp => ⟨hown ppn hp (h.own ppn hp).1, (h.own ppn hp).2⟩
  · intro level' i' ppn hp ht j hj
    rw [hmem ppn hp]
    exact h.entry hp ht j hj

/-- The loop over entries that are all clear does nothing. -/
theorem wp_freeEntries_clear {freeChild : ℕ → Code Unit} {c : ℕ} {js : List ℕ} (hown : c ∈ l.own)
    (hclear : ∀ j ∈ js, l.mem c j = 0) :
    wp (memRules g panics) (freeEntries freeChild (PGSIZE * c) js) (fun _ l' => l' = l) l := by
  induction js with
  | nil => rfl
  | cons i rest ih =>
    apply wp_bind.mpr
    apply wp_get ⟨rfl, hown⟩
    rw [hclear i List.mem_cons_self]
    exact ih fun j hj => hclear j (List.mem_cons_of_mem i hj)

theorem link_inner (x : Option ℕ) : Tree.link x &&& (PTE_R ||| PTE_W ||| PTE_X) = 0 := by
  cases x with
  | none => rfl
  | some ppn =>
    have hflags : PTE_FLAGS (Tree.link (some ppn)) = 1 := by
      rw [Tree.link_some]
      exact PTE_FLAGS_add (by decide)
    rw [flag_eq (by decide), hflags]
    rfl

/-- The loop over the entries `js` of an interior table: the tables below them are freed. -/
theorem wp_freeEntries {mem : ℕ → Page} (hok : t.Ok mem) {freeChild : ℕ → Code Unit}
    {level i c : ℕ} {js : List ℕ} (hlevel : level ≤ 1) (hc : t.tab (level + 1) i = some c)
    (hnodup : js.Nodup)
    (hchild : ∀ {l : Loc} {j c' : ℕ}, t.tab level (512 * i + j) = some c' →
      l.Holds g t level (512 * i + j) →
      wp (memRules g panics) (freeChild (PGSIZE * c'))
        (fun _ l' => l'.own = l.own \ t.sub level (512 * i + j) ∧
          ∀ ppn, ppn ∉ t.sub level (512 * i + j) → l'.mem ppn = l.mem ppn) l)
    (hown : c ∈ l.own) (hmem : ∀ j ∈ js, l.mem c j = Tree.link (t.tab level (512 * i + j)))
    (hall : ∀ j ∈ js, l.Holds g t level (512 * i + j)) :
    wp (memRules g panics) (freeEntries freeChild (PGSIZE * c) js)
      (fun _ l' => l'.own = l.own \ { ppn | ∃ j ∈ js, ppn ∈ t.sub level (512 * i + j) } ∧
        ∀ ppn, ppn ≠ c → (∀ j ∈ js, ppn ∉ t.sub level (512 * i + j)) → l'.mem ppn = l.mem ppn)
      l := by
  induction js generalizing l with
  | nil =>
    refine ⟨?_, fun _ _ _ => rfl⟩
    simp only [List.not_mem_nil, false_and, exists_false, Set.ofPred_false, Set.sdiff_empty]
  | cons k rest ih =>
    obtain ⟨hk, hnodup'⟩ := List.nodup_cons.mp hnodup
    have hsplit : ∀ ppn, ppn ∈ { ppn | ∃ j ∈ k :: rest, ppn ∈ t.sub level (512 * i + j) } ↔
        ppn ∈ t.sub level (512 * i + k) ∨
          ppn ∈ { ppn | ∃ j ∈ rest, ppn ∈ t.sub level (512 * i + j) } := by
      intro ppn
      simp only [Set.mem_ofPred_eq, List.mem_cons, exists_eq_or_imp]
    apply wp_bind.mpr
    apply wp_get ⟨rfl, hown⟩
    rw [hmem k List.mem_cons_self]
    cases hck : t.tab level (512 * i + k) with
    | none =>
      have hinvalid : ¬Tree.link none &&& PTE_V ≠ 0 := fun hv =>
        Tree.link_valid_iff.mp hv rfl
      rw [if_neg fun hv => hinvalid hv.1, if_neg hinvalid]
      apply (ih hnodup' hown (fun j hj => hmem j (List.mem_cons_of_mem k hj))
        fun j hj => hall j (List.mem_cons_of_mem k hj)).mono
      rintro - l' ⟨hown', hmem'⟩
      constructor
      · rw [hown']
        ext ppn
        rw [Set.mem_sdiff, Set.mem_sdiff, hsplit]
        simp only [hok.sub_none hlevel hck ppn, false_or]
      · exact fun ppn hpc hpj => hmem' ppn hpc fun j hj => hpj j (List.mem_cons_of_mem k hj)
    | some c' =>
      rw [if_pos ⟨Tree.link_valid_iff.mpr (Option.some_ne_none c'), link_inner _⟩,
        Tree.PTE2PA_link (hok.lt hck)]
      apply (hchild hck (hall k List.mem_cons_self)).bind
      rintro - l₁ ⟨hown₁, hmem₁⟩
      have hcsub : ∀ j, c ∉ t.sub level j := fun j => hok.not_mem_sub hc
      have hown₁c : c ∈ l₁.own := hown₁ ▸ ⟨hown, hcsub _⟩
      apply wp_bind.mpr
      apply wp_set ⟨rfl, hown₁c⟩
      apply (ih (l := l₁.put c _) hnodup' hown₁c ?_ ?_).mono
      · rintro - l' ⟨hown', hmem'⟩
        constructor
        · have hstep : l'.own = l₁.own \ { ppn | ∃ j ∈ rest, ppn ∈ t.sub level (512 * i + j) } :=
            hown'
          rw [hstep, hown₁]
          ext ppn
          rw [Set.mem_sdiff, Set.mem_sdiff, Set.mem_sdiff, hsplit, not_or, and_assoc]
        · intro ppn hpc hpj
          rw [hmem' ppn hpc fun j hj => hpj j (List.mem_cons_of_mem k hj)]
          exact (update_of_ne hpc _ _).trans (hmem₁ ppn (hpj k List.mem_cons_self))
      · intro j hj
        have hjk : j ≠ k := fun he => hk (he ▸ hj)
        show update l₁.mem c _ c j = _
        rw [update_self, update_of_ne hjk, hmem₁ c (hcsub _),
          hmem j (List.mem_cons_of_mem k hj)]
      · intro j hj
        have hjk : j ≠ k := fun he => hk (he ▸ hj)
        apply (hall j (List.mem_cons_of_mem k hj)).mono
        · intro ppn hp ho
          show ppn ∈ l₁.own
          rw [hown₁]
          refine ⟨ho, fun hpk => hjk ?_⟩
          have := hok.sub_inj hp hpk
          omega
        · intro ppn hp
          have hpc : ppn ≠ c := fun he => hcsub _ (he ▸ hp)
          refine (update_of_ne hpc _ _).trans (hmem₁ ppn fun hpk => hjk ?_)
          have := hok.sub_inj hp hpk
          omega

/-- `freewalk` of a table at any level frees the table and the tables below it, if the tree
has no entries. -/
theorem wp_freewalkTo {mem : ℕ → Page} (hok : t.Ok mem) (hclear : ∀ vpn, t.leaf vpn = 0)
    {level i c : ℕ} (hlevel : level ≤ 2) (hc : t.tab level i = some c)
    (h : l.Holds g t level i) :
    wp (memRules g panics) (freewalkTo (level + 1) (PGSIZE * c))
      (fun _ l' => l'.own = l.own \ t.sub level i ∧
        ∀ ppn, ppn ∉ t.sub level i → l'.mem ppn = l.mem ppn) l := by
  have hcsub : c ∈ t.sub level i := Tree.mem_sub_self hc
  obtain ⟨hown, hram⟩ := h.own c hcsub
  have hentry : ∀ j ∈ tableSlots, l.mem c j = t.pte level (512 * i + j) := fun j hj =>
    h.entry hcsub hc j (mem_tableSlots.mp hj)
  induction level generalizing i c l with
  | zero =>
    apply (wp_freeEntries_clear hown fun j hj => (hentry j hj).trans (hclear _)).bind
    rintro - l' rfl
    apply wp_kfree ⟨rfl, hown⟩ hram
    have hsub : t.sub 0 i = {c} := by
      ext ppn
      rw [Tree.sub_zero, hc, Set.mem_singleton_iff, Option.some_inj]
      exact eq_comm
    exact ⟨by rw [hsub]; rfl, fun _ _ => rfl⟩
  | succ level ih =>
    have hsub : t.sub (level + 1) i =
        insert c { ppn | ∃ j ∈ tableSlots, ppn ∈ t.sub level (512 * i + j) } := by
      ext ppn
      rw [Tree.mem_sub_succ, hc, Option.some_inj, eq_comm]
      simp only [Set.mem_insert_iff, Set.mem_ofPred_eq, mem_tableSlots]
    have hbelow : ∀ {j ppn}, j < 512 → ppn ∈ t.sub level (512 * i + j) →
        ppn ∈ t.sub (level + 1) i := fun hj hp => Tree.mem_sub_succ.mpr (.inr ⟨_, hj, hp⟩)
    apply (wp_freeEntries hok (by omega) hc nodup_tableSlots ?_ hown hentry ?_).bind
    · rintro - l' ⟨hown', hmem'⟩
      have hcown : c ∈ l'.own := by
        rw [hown']
        exact ⟨hown, fun ⟨j, _, hps⟩ => hok.not_mem_sub hc hps⟩
      apply wp_kfree ⟨rfl, hcown⟩ hram
      constructor
      · show l'.own \ {c} = _
        rw [hown', Set.sdiff_sdiff, hsub, Set.union_comm]
        rfl
      · intro ppn hp
        rw [hsub] at hp
        exact hmem' ppn (fun he => hp (.inl he)) fun j hj hps => hp (.inr ⟨j, hj, hps⟩)
    · intro l₁ j c' hc' h₁
      obtain ⟨hown₁, hram₁⟩ := h₁.own c' (Tree.mem_sub_self hc')
      exact ih (by omega) hc' h₁ (Tree.mem_sub_self hc') hown₁ hram₁ fun j hj =>
        h₁.entry (Tree.mem_sub_self hc') hc' j (mem_tableSlots.mp hj)
    · intro j hj
      constructor
      · exact fun ppn hp => h.own ppn (hbelow (mem_tableSlots.mp hj) hp)
      · exact fun hp => h.entry (hbelow (mem_tableSlots.mp hj) hp)

/-- `freewalk` of a page table without entries gives back all its tables and touches
nothing else. -/
theorem wp_freewalk (h : l.Has F t) (hroot : t.tab 2 0 = some root)
    (hram : ∀ ppn ∈ t.tables, g.Ram ppn) (hclear : ∀ vpn, t.leaf vpn = 0) :
    wp (memRules g panics) (freewalk (PGSIZE * root))
      (fun _ l' => l'.own = F ∧ ∀ ppn ∈ F, l'.mem ppn = l.mem ppn) l := by
  have hsub : t.sub 2 0 = t.tables := h.ok.sub_root
  have hholds : l.Holds g t 2 0 := by
    constructor
    · intro ppn hp
      rw [hsub] at hp
      exact ⟨h.own ▸ Or.inr hp, hram ppn hp⟩
    · exact fun _ ht => h.ok.entry ht
  apply (wp_freewalkTo h.ok hclear le_rfl hroot hholds).mono
  rintro - l' ⟨hown, hmem⟩
  rw [hsub] at hown hmem
  constructor
  · rw [hown, h.own, Set.union_sdiff_right]
    exact sdiff_eq_left.mpr (Set.disjoint_left.mpr fun _ hF => h.disj hF)
  · exact fun ppn hF => hmem ppn (h.disj hF)

end Xv6.Vm
