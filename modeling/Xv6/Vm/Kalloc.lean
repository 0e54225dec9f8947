import Xv6.Lib.Run
import Xv6.Lib.Update
import Xv6.Vm.Walk

/-!
The page allocator, `kernel/kalloc.c`, shared by processes that run at the same time.

Elsewhere a program over physical memory runs alone. Here any number of them interleave. A step is
one operation on memory, and a call of `kalloc` or `kfree` is one step: what they do to the list is
done under `kmem.lock`, and the page that they fill with junk outside of the lock is nobody else's
at that time.

`kalloc_safe` says that programs which keep to their own pages (`memRules`) can be run in this way.
-/

namespace Xv6.Vm

open Function (update update_of_ne update_self update_eq_self)
open Prog (wp)
open Run (Reachable relOf)

/-! ### Processes -/

/-- Memory, and what each process has still to do. -/
structure System (ι α : Type) where
  kmem : Phys
  code : ι → Code α

variable {ι α : Type} {g : Geometry}

/-- The next operation of process `i`. There is none when it has returned, or panics. -/
def System.step [DecidableEq ι] (g : Geometry) (s : System ι α) (i : ι) : Option (System ι α) :=
  match s.code i with
  | .ret _ => none
  | .op o k => (s.kmem.exec g o).map fun r => ⟨r.2, update s.code i (k r.1)⟩

/-- Page `c` is nobody's, and then it is on the list if it is RAM, or it is owned by one process,
which knows what is in it. -/
def PageOk (g : Geometry) (m : Phys) (loc : ι → Loc) (free : List ℕ) (c : ℕ) : Option ι → Prop
  | none => (c ∈ free ↔ g.Ram c) ∧ ∀ j, c ∉ (loc j).own
  | some i => c ∉ free ∧ g.Ram c ∧ m.mem c = (loc i).mem c ∧ ∀ j, c ∈ (loc j).own ↔ j = i

/-- What holds between two steps. -/
structure Inv (g : Geometry) (Q : ι → α → Loc → Prop) (s : System ι α) (loc : ι → Loc)
    (free : List ℕ) : Prop where
  lists : s.kmem.Lists g free
  page : ∀ c, ∃ o, PageOk g s.kmem loc free c o
  safe : ∀ i, wp (memRules g False) (s.code i) (Q i) (loc i)

namespace Inv

variable {Q : ι → α → Loc → Prop} {s : System ι α} {loc : ι → Loc} {free : List ℕ} {i : ι} {ppn : ℕ}
  {x : Code α}

section

variable (h : Inv g Q s loc free)
include h

theorem owned {c : ℕ} (hc : c ∈ (loc i).own) : PageOk g s.kmem loc free c (some i) := by
  obtain ⟨_ | j, hj⟩ := h.page c
  · exact absurd hc (hj.2 i)
  · rwa [(hj.2.2.2 i).mp hc]

theorem listed {c : ℕ} (hc : c ∈ free) : g.Ram c ∧ ∀ j, c ∉ (loc j).own := by
  obtain ⟨_ | j, hj⟩ := h.page c
  · exact ⟨hj.1.mp hc, hj.2⟩
  · exact absurd hc hj.1

variable [DecidableEq ι]

/-- Process `i` goes on with `x`, and only page `ppn` has changed, or changed hands. -/
theorem change {m : Phys} {l : Loc} {free' : List ℕ} {o : Option ι}
    (hwp : wp (memRules g False) x (Q i) l) (hlists : m.Lists g free')
    (hppn : PageOk g m (update loc i l) free' ppn o)
    (hfree : ∀ c, c ≠ ppn → (c ∈ free' ↔ c ∈ free))
    (hmem : ∀ c, c ≠ ppn → m.mem c = s.kmem.mem c)
    (hl : ∀ c, c ≠ ppn → (c ∈ l.own ↔ c ∈ (loc i).own) ∧ l.mem c = (loc i).mem c) :
    Inv g Q ⟨m, update s.code i x⟩ (update loc i l) free' := by
  refine ⟨hlists, fun c => ?_, fun j => ?_⟩
  · by_cases hc : c = ppn
    · exact ⟨o, hc ▸ hppn⟩
    · have hloc : ∀ j, (c ∈ (update loc i l j).own ↔ c ∈ (loc j).own) ∧
          (update loc i l j).mem c = (loc j).mem c := by
        intro j
        rcases update_cases loc i l j with ⟨rfl, hu⟩ | ⟨-, hu⟩ <;> rw [hu]
        · exact hl c hc
        · exact ⟨Iff.rfl, rfl⟩
      obtain ⟨o, ho⟩ := h.page c
      refine ⟨o, ?_⟩
      cases o <;> simpa only [PageOk, hloc, hfree c hc, hmem c hc] using ho
  · show wp _ (update s.code i x j) _ _
    by_cases hj : j = i
    · rw [hj, update_self, update_self]
      exact hwp
    · rw [update_of_ne hj, update_of_ne hj]
      exact h.safe j

/-- Process `i` goes on, and nothing has changed. -/
theorem goOn (hwp : wp (memRules g False) x (Q i) (loc i)) :
    Inv g Q ⟨s.kmem, update s.code i x⟩ (update loc i (loc i)) free := by
  obtain ⟨o, ho⟩ := h.page 0
  exact h.change hwp h.lists (update_eq_self i loc ▸ ho) (fun _ _ => Iff.rfl) (fun _ _ => rfl)
    fun _ _ => ⟨Iff.rfl, rfl⟩

/-- `kalloc`: the first page goes from the list to process `i`. -/
theorem pop {rest : List ℕ} (hfree : free = ppn :: rest)
    (hwp : wp (memRules g False) x (Q i) ((loc i).take ppn (junk 5))) :
    Inv g Q ⟨s.kmem.pop, update s.code i x⟩ (update loc i ((loc i).take ppn (junk 5))) rest := by
  subst hfree
  obtain ⟨hram, hnew⟩ := h.listed List.mem_cons_self
  have hmem := h.lists.pop_mem
  refine h.change (o := some i) hwp h.lists.pop
    ⟨(List.nodup_cons.mp h.lists.nodup).1, hram, ?_, fun j => ?_⟩
    (fun c hc => (List.mem_cons.trans (or_iff_right hc)).symm) (fun c hc => ?_)
    fun c hc => ⟨Set.mem_insert_iff.trans (or_iff_right hc), update_of_ne hc _ _⟩
  · simp only [hmem, Loc.take, update_self]
  · rcases update_cases loc i ((loc i).take ppn (junk 5)) j with ⟨rfl, hu⟩ | ⟨hj, hu⟩ <;> rw [hu]
    · exact iff_of_true (Set.mem_insert ppn _) rfl
    · exact iff_of_false (hnew j) hj
  · rw [hmem, update_of_ne hc]

/-- `kfree`: a page of process `i` goes to the front of the list. -/
theorem push (hown : ppn ∈ (loc i).own) (hwp : wp (memRules g False) x (Q i) ((loc i).drop ppn)) :
    Inv g Q ⟨s.kmem.push (PGSIZE * ppn), update s.code i x⟩ (update loc i ((loc i).drop ppn))
      (ppn :: free) := by
  obtain ⟨hnot, hram, -, howner⟩ := h.owned hown
  refine h.change (o := none) hwp (h.lists.push hnot hram)
    ⟨iff_of_true List.mem_cons_self hram, fun j => ?_⟩
    (fun c hc => List.mem_cons.trans (or_iff_right hc)) (fun c hc => ?_)
    fun c hc => ⟨⟨fun hd => hd.1, fun ho => ⟨ho, hc⟩⟩, rfl⟩
  · rcases update_cases loc i ((loc i).drop ppn) j with ⟨rfl, hu⟩ | ⟨hne, hu⟩ <;> rw [hu]
    · exact fun hd => hd.2 rfl
    · exact fun hc => hne ((howner j).mp hc)
  · simp only [Phys.push, page_div, update_of_ne hc]

/-- Process `i` writes to a page of its own. -/
theorem write {page : Page} (hown : ppn ∈ (loc i).own)
    (hwp : wp (memRules g False) x (Q i) ((loc i).put ppn page)) :
    Inv g Q ⟨{ s.kmem with mem := update s.kmem.mem ppn page }, update s.code i x⟩
      (update loc i ((loc i).put ppn page)) free := by
  obtain ⟨hnot, hram, -, howner⟩ := h.owned hown
  refine h.change (o := some i) hwp (h.lists.write hnot page) ⟨hnot, hram, ?_, fun j => ?_⟩
    (fun _ _ => Iff.rfl) (fun c hc => update_of_ne hc _ _) fun c hc => ⟨Iff.rfl, update_of_ne hc _ _⟩
  · simp only [Loc.put, update_self]
  · rw [update_same (a := i) (v := (loc i).put ppn page) Loc.own rfl]
    exact howner j

/-- **A step.** The operation does not panic, and the next state is as this one. -/
theorem step {o : MemOp} {k : MemResp o → Code α} (hcode : s.code i = .op o k) :
    ∃ s' loc' free', s.step g i = some s' ∧ Inv g Q s' loc' free' := by
  have hsafe := h.safe i
  rw [hcode] at hsafe
  simp only [System.step, hcode]
  cases o with
  | kalloc =>
    cases hfree : free with
    | nil =>
      have hzero := (hfree ▸ h.lists).freelist_nil
      simp only [Phys.exec, if_pos hzero, Option.map_some]
      exact ⟨_, _, free, rfl, h.goOn hsafe.1⟩
    | cons ppn rest =>
      have hfirst := (hfree ▸ h.lists).freelist_cons
      obtain ⟨hram, hnew⟩ := h.listed (hfree ▸ List.mem_cons_self)
      simp only [Phys.exec, hfirst, if_neg hram.ne_zero, Option.map_some]
      exact ⟨_, _, rest, rfl, h.pop hfree (hsafe.2 ppn (junk 5) hram (hnew i))⟩
  | kfree pa =>
    obtain ⟨ppn, ⟨rfl, hown⟩, hram, hk⟩ := hsafe
    have hok : PGSIZE * ppn % PGSIZE = 0 ∧ g.Ram (PGSIZE * ppn / PGSIZE) := by
      rw [page_mod, page_div]
      exact ⟨rfl, hram⟩
    simp only [Phys.exec, if_pos hok, Option.map_some]
    exact ⟨_, _, ppn :: free, rfl, h.push hown hk⟩
  | read pa =>
    obtain ⟨ppn, ⟨rfl, hown⟩, hk⟩ := hsafe
    simp only [Phys.exec, page_div, (h.owned hown).2.2.1, Option.map_some]
    exact ⟨_, _, free, rfl, h.goOn hk⟩
  | write pa f =>
    obtain ⟨ppn, ⟨rfl, hown⟩, hk⟩ := hsafe
    simp only [Phys.exec, page_div, (h.owned hown).2.2.1, Option.map_some]
    exact ⟨_, _, free, rfl, h.write hown hk⟩
  | panic msg | outOfRounds => exact hsafe.elim

end

end Inv

/-- **The allocator is safe for any number of processes**, started after `kinit` without a page and
run in any order, if each keeps to the pages it has got: the list goes through pages of RAM that
nobody owns, through all of them and through each once, a page is owned by one process at most and
holds what that process knows, no process panics, and one that returns has done what it should. -/
theorem kalloc_safe [DecidableEq ι] (g : Geometry) (mem : ℕ → Page) (code : ι → Code α)
    (Q : ι → α → Loc → Prop)
    (hsafe : ∀ i, wp (memRules g False) (code i) (Q i) ⟨∅, mem⟩) (s : System ι α)
    (hrun : Reachable (· = ⟨kinit g mem, code⟩) (relOf (System.step g)) s) :
    ∃ (loc : ι → Loc) (free : List ℕ), s.kmem.Lists g free ∧
      (∀ c, ∃ o, PageOk g s.kmem loc free c o) ∧ (∀ i a, s.code i = .ret a → Q i a (loc i)) ∧
      ∀ i, (∃ a, s.code i = .ret a) ∨ ∃ s', s.step g i = some s' := by
  have hinv : ∃ loc free, Inv g Q s loc free := by
    apply hrun.invariant fun s => ∃ loc free, Inv g Q s loc free
    · rintro _ rfl
      refine ⟨fun _ => ⟨∅, mem⟩, _, kinit_lists g mem,
        fun c => ⟨none, ?_, fun _ => Set.notMem_empty c⟩, hsafe⟩
      rw [List.mem_reverse, List.mem_range'_1]
      unfold Geometry.Ram
      omega
    · rintro s i t ⟨loc, free, h⟩ - hst
      cases hcode : s.code i with
      | ret a =>
        simp only [relOf, System.step, hcode] at hst
        cases hst
      | op o k =>
        obtain ⟨s', loc', free', hs', h'⟩ := h.step hcode
        cases hst.symm.trans hs'
        exact ⟨loc', free', h'⟩
  obtain ⟨loc, free, h⟩ := hinv
  refine ⟨loc, free, h.lists, h.page, fun i a hcode => ?_, fun i => ?_⟩
  · have hdone := h.safe i
    rwa [hcode] at hdone
  · cases hcode : s.code i with
    | ret a => exact .inl ⟨a, rfl⟩
    | op o k =>
      obtain ⟨s', -, -, hs', -⟩ := h.step hcode
      exact .inr ⟨s', hs'⟩

/-- A process that makes a page table and gives it back. -/
def makeAndFree : Code Unit := do
  let pa ← uvmcreate
  if pa = 0 then pure () else kfree pa

theorem wp_makeAndFree {mem : ℕ → Page} :
    wp (memRules g False) makeAndFree (fun _ l => l.own = ∅) ⟨∅, mem⟩ := by
  apply wp_uvmcreate.bind
  rintro pa l' (⟨rfl, rfl⟩ | ⟨root, rfl, hram, hhas, -⟩)
  · rfl
  · have hroot : (Tree.empty root).tab 2 0 = some root := rfl
    rw [if_neg hram.ne_zero]
    refine wp_kfree ⟨rfl, hhas.own_table hroot⟩ hram ?_
    ext c
    refine iff_of_false ?_ (Set.notMem_empty c)
    rintro ⟨hc, hne⟩
    rw [hhas.own] at hc
    rcases hc with hc | ⟨level, j, ht⟩
    · exact hc
    · exact hne (Tree.empty_tab.mp ht).2

/-- A machine with two pages of RAM. -/
def twoPagesRam : Geometry := ⟨1, 3, Nat.one_pos, by decide⟩

/-- Two such processes on it. -/
def twoTables : System Bool Unit := ⟨kinit twoPagesRam fun _ => zeroPage, fun _ => makeAndFree⟩

/-- Each of them takes a page, then one gives its page back and has returned. -/
theorem kalloc_safe_twoTables : ∃ s : System Bool Unit,
    Reachable (· = twoTables) (relOf (System.step twoPagesRam)) s ∧ s.kmem.freelist = 8192 ∧
    ∃ (loc : Bool → Loc) (free : List ℕ), s.kmem.Lists twoPagesRam free ∧
      (∀ c, ∃ o, PageOk twoPagesRam s.kmem loc free c o) ∧ (loc true).own = ∅ := by
  obtain ⟨s, hs, hhead, hret⟩ : ∃ s, Reachable (· = twoTables) (relOf (System.step twoPagesRam)) s ∧
      s.kmem.freelist = 8192 ∧ (match s.code true with | .ret _ => true | .op _ _ => false) = true :=
    Run.exists_reachable [true, false, true, true] rfl (by decide +kernel)
  obtain ⟨loc, free, hlists, hpage, hdone, -⟩ :=
    kalloc_safe twoPagesRam _ _ (fun _ _ l => l.own = ∅) (fun _ => wp_makeAndFree) s hs
  refine ⟨s, hs, hhead, loc, free, hlists, hpage, ?_⟩
  cases hcode : s.code true with
  | ret a => exact hdone true a hcode
  | op o k =>
    rw [hcode] at hret
    cases hret

end Xv6.Vm
