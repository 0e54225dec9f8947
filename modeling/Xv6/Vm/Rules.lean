import Mathlib.Data.Set.Lattice
import Xv6.Vm.Freelist

/-!
Programs that touch only the pages they own.

A process owns pages: those it got from `kalloc` and did not free. `Loc` is what it knows
about memory, the pages it owns and what they hold, and `memRules` says what each
operation needs and gives in these terms: an owned page may be read, written and freed,
and a page from `kalloc` is one that was not owned before. `kalloc` may fail at any call.

`panics` says whether panics are allowed. A program that satisfies `wp` without panics
never panics; with panics allowed, `wp` is about the runs that return.

* `wp_kalloc`, `wp_kfree`, `wp_readPage`, `wp_writePage`: the operations.
* `run_of_wp`: the rules are right for a program that runs alone.
-/

namespace Xv6.Vm

open Function (update update_of_ne update_self)

open Prog (Rules wp)

/-- The pages a process owns and what they hold. -/
structure Loc where
  own : Set ℕ
  mem : ℕ → Page

/-- `pa` is the address of page `ppn`, which is owned. -/
def Loc.At (l : Loc) (pa ppn : ℕ) : Prop := pa = PGSIZE * ppn ∧ ppn ∈ l.own

/-- The page `ppn` comes to the owned ones, with contents `page`. -/
def Loc.take (l : Loc) (ppn : ℕ) (page : Page) : Loc :=
  { own := insert ppn l.own, mem := update l.mem ppn page }

def Loc.drop (l : Loc) (ppn : ℕ) : Loc := { l with own := l.own \ {ppn} }

def Loc.put (l : Loc) (ppn : ℕ) (page : Page) : Loc :=
  { l with mem := update l.mem ppn page }

def memPre (g : Geometry) (panics : Prop) : (o : MemOp) → (MemResp o → Loc → Prop) → Loc → Prop
  | .kalloc, Q, l =>
    Q (0 : ℕ) l ∧ ∀ ppn page, g.Ram ppn → ppn ∉ l.own → Q (PGSIZE * ppn : ℕ) (l.take ppn page)
  | .kfree pa, Q, l => ∃ ppn, l.At pa ppn ∧ g.Ram ppn ∧ Q () (l.drop ppn)
  | .read pa, Q, l => ∃ ppn, l.At pa ppn ∧ Q (l.mem ppn) l
  | .write pa f, Q, l => ∃ ppn, l.At pa ppn ∧ Q () (l.put ppn (f (l.mem ppn)))
  | .panic _, _, _ => panics
  | .outOfRounds, _, _ => False

def memRules (g : Geometry) (panics : Prop) : Rules MemResp Loc where
  pre := memPre g panics
  mono := by
    intro o Q Q' l h hpre
    cases o with
    | kalloc => exact ⟨h _ _ hpre.1, fun ppn page hram hown => h _ _ (hpre.2 ppn page hram hown)⟩
    | kfree pa =>
      obtain ⟨ppn, hat, hram, hQ⟩ := hpre
      exact ⟨ppn, hat, hram, h _ _ hQ⟩
    | read pa | write pa f =>
      obtain ⟨ppn, hat, hQ⟩ := hpre
      exact ⟨ppn, hat, h _ _ hQ⟩
    | panic msg => exact hpre
    | outOfRounds => exact hpre

variable {g : Geometry} {panics : Prop} {l : Loc} {pa ppn : ℕ}

theorem wp_kalloc {Q : ℕ → Loc → Prop} (hfail : Q 0 l)
    (htake : ∀ ppn page, g.Ram ppn → ppn ∉ l.own → Q (PGSIZE * ppn) (l.take ppn page)) :
    wp (memRules g panics) kalloc Q l := ⟨hfail, htake⟩

variable {Q : Unit → Loc → Prop}

theorem wp_kfree (hat : l.At pa ppn) (hram : g.Ram ppn)
    (hQ : Q () (l.drop ppn)) : wp (memRules g panics) (kfree pa) Q l := ⟨ppn, hat, hram, hQ⟩

theorem wp_readPage {Q : Page → Loc → Prop} (hat : l.At pa ppn) (hQ : Q (l.mem ppn) l) :
    wp (memRules g panics) (readPage pa) Q l := ⟨ppn, hat, hQ⟩

theorem wp_writePage {f : Page → Page} (hat : l.At pa ppn)
    (hQ : Q () (l.put ppn (f (l.mem ppn)))) : wp (memRules g panics) (writePage pa f) Q l :=
  ⟨ppn, hat, hQ⟩

theorem wp_panic {α : Type} {msg : String} {Q : α → Loc → Prop} (h : panics) :
    wp (memRules g panics) (panic msg) Q l := h

theorem wp_get {pte : PteAddr} {Q : ℕ → Loc → Prop} (hat : l.At pte.table ppn)
    (hQ : Q (l.mem ppn pte.index) l) : wp (memRules g panics) pte.get Q l :=
  Prog.wp_bind.mpr (wp_readPage hat hQ)

theorem wp_set {pte : PteAddr} {value : ℕ} (hat : l.At pte.table ppn)
    (hQ : Q () (l.put ppn (update (l.mem ppn) pte.index value))) :
    wp (memRules g panics) (pte.set value) Q l := wp_writePage hat hQ

/-! ### Running alone -/

/-- Of the pages `U`, those that are not owned are on the free list, once each, and memory
holds what the owner knows. -/
structure Loc.Agrees (g : Geometry) (U : Set ℕ) (l : Loc) (m : Phys) : Prop where
  ram : ∀ {ppn}, ppn ∈ U → g.Ram ppn
  nodup : m.free.Nodup
  free_iff : ∀ {ppn}, ppn ∈ m.free ↔ ppn ∈ U ∧ ppn ∉ l.own
  own : l.own ⊆ U
  mem : ∀ {ppn}, ppn ∈ l.own → m.mem ppn = l.mem ppn

namespace Loc.Agrees

variable {U : Set ℕ} {m : Phys}

variable (h : Loc.Agrees g U l m)
include h

theorem lists : m.Lists g m.free :=
  .of_free h.nodup fun _ hc => h.ram (h.free_iff.mp hc).1

theorem take {ppn : ℕ} {free : List ℕ} (hfree : m.free = ppn :: free) :
    Loc.Agrees g U (l.take ppn (junk 5)) m.pop := by
  have hnodup : (ppn :: free).Nodup := hfree ▸ h.nodup
  have hmem : ppn ∈ U ∧ ppn ∉ l.own := h.free_iff.mp (hfree ▸ List.mem_cons_self)
  have hlists : m.Lists g (ppn :: free) := hfree ▸ h.lists
  have hpop := hlists.pop.free_eq
  refine ⟨h.ram, hpop ▸ (List.nodup_cons.mp hnodup).2, ?_, ?_, ?_⟩
  · intro c
    rw [hpop]
    have hiff : c ∈ ppn :: free ↔ c ∈ U ∧ c ∉ l.own := hfree ▸ h.free_iff
    constructor
    · intro hc
      have hcU := hiff.mp (List.mem_cons_of_mem _ hc)
      have hne : c ≠ ppn := fun he => (List.nodup_cons.mp hnodup).1 (he ▸ hc)
      exact ⟨hcU.1, fun hown => hown.elim hne hcU.2⟩
    · rintro ⟨hcU, hown⟩
      have hc := hiff.mpr ⟨hcU, fun ho => hown (.inr ho)⟩
      exact (List.mem_cons.mp hc).resolve_left fun he => hown (.inl he)
  · rintro c (rfl | hc)
    · exact hmem.1
    · exact h.own hc
  · intro c hc
    rw [hlists.pop_mem]
    by_cases hcp : c = ppn
    · subst hcp
      exact (update_self c (junk 5) m.mem).trans (update_self c (junk 5) l.mem).symm
    · have hmc := h.mem (hc.resolve_left hcp)
      exact (update_of_ne hcp _ m.mem).trans (hmc.trans (update_of_ne hcp _ l.mem).symm)

theorem drop {ppn : ℕ} (hown : ppn ∈ l.own) :
    Loc.Agrees g U (l.drop ppn) (m.push (PGSIZE * ppn)) := by
  have hnot : ppn ∉ m.free := fun hf => (h.free_iff.mp hf).2 hown
  have hpush := (h.lists.push hnot (h.ram (h.own hown))).free_eq
  refine ⟨h.ram, hpush ▸ List.nodup_cons.mpr ⟨hnot, h.nodup⟩, ?_, ?_, ?_⟩
  · intro c
    rw [hpush]
    constructor
    · intro hc
      rcases List.mem_cons.mp hc with rfl | hc
      · exact ⟨h.own hown, fun hd => hd.2 rfl⟩
      · exact ⟨(h.free_iff.mp hc).1, fun hd => (h.free_iff.mp hc).2 hd.1⟩
    · rintro ⟨hcU, hd⟩
      by_cases hcp : c = ppn
      · exact hcp ▸ List.mem_cons_self
      · exact List.mem_cons_of_mem _ (h.free_iff.mpr ⟨hcU, fun ho => hd ⟨ho, hcp⟩⟩)
  · exact fun c hc => h.own hc.1
  · intro c hc
    have hmem : (m.push (PGSIZE * ppn)).mem c = m.mem c :=
      update_of_ne (fun he => hc.2 (he.trans (page_div ppn))) _ _
    exact hmem.trans (h.mem hc.1)

theorem put {ppn : ℕ} (hown : ppn ∈ l.own) (page : Page) :
    Loc.Agrees g U (l.put ppn page) { m with mem := update m.mem ppn page } := by
  have hnot : ppn ∉ m.free := fun hf => (h.free_iff.mp hf).2 hown
  have hfree := (h.lists.write hnot page).free_eq
  refine ⟨h.ram, hfree ▸ h.nodup, fun {c} => hfree ▸ h.free_iff, h.own, ?_⟩
  intro c hc
  by_cases hcp : c = ppn
  · subst hcp
    exact (update_self c page m.mem).trans (update_self c page l.mem).symm
  · exact (update_of_ne hcp page m.mem).trans
      ((h.mem hc).trans (update_of_ne hcp page l.mem).symm)

/-- One operation, run on memory that agrees with what is known. -/
theorem exec {o : MemOp} {Q : MemResp o → Loc → Prop}
    (hpre : memPre g panics o Q l) :
    (m.exec g o = none ∧ panics) ∨
      ∃ r m' l', m.exec g o = some (r, m') ∧ Loc.Agrees g U l' m' ∧ Q r l' := by
  cases o with
  | kalloc =>
    have hlists := h.lists
    cases hfree : m.free with
    | nil =>
      rw [hfree] at hlists
      refine .inr ⟨(0 : ℕ), m, l, ?_, h, hpre.1⟩
      simp only [Phys.exec, if_pos hlists.freelist_nil]
    | cons ppn free =>
      rw [hfree] at hlists
      have hmem : ppn ∈ U ∧ ppn ∉ l.own := h.free_iff.mp (hfree ▸ List.mem_cons_self)
      have hram := h.ram hmem.1
      refine .inr ⟨(PGSIZE * ppn : ℕ), _, _, ?_, h.take hfree, hpre.2 ppn (junk 5) hram hmem.2⟩
      simp only [Phys.exec, hlists.freelist_cons, if_neg hram.ne_zero]
  | kfree pa =>
    obtain ⟨ppn, ⟨rfl, hown⟩, hram, hQ⟩ := hpre
    refine .inr ⟨(), _, _, ?_, h.drop hown, hQ⟩
    simp only [Phys.exec, page_mod, page_div, hram, and_self, if_true]
  | read pa =>
    obtain ⟨ppn, ⟨rfl, hown⟩, hQ⟩ := hpre
    refine .inr ⟨l.mem ppn, m, l, ?_, h, hQ⟩
    simp only [Phys.exec, page_div, h.mem hown]
  | write pa f =>
    obtain ⟨ppn, ⟨rfl, hown⟩, hQ⟩ := hpre
    refine .inr ⟨(), _, _, ?_, h.put hown (f (l.mem ppn)), hQ⟩
    simp only [Phys.exec, page_div, h.mem hown]
  | panic msg => exact .inl ⟨rfl, hpre⟩
  | outOfRounds => exact hpre.elim

end Loc.Agrees

/-- A program that satisfies `wp` and runs alone returns as `wp` says, or it panics and
panics are allowed. -/
theorem run_of_wp {α : Type} {x : Code α} {Q : α → Loc → Prop} {U : Set ℕ} {m : Phys}
    (hwp : wp (memRules g panics) x Q l) (h : Loc.Agrees g U l m) :
    (run g x m = none ∧ panics) ∨
      ∃ a m' l', run g x m = some (a, m') ∧ Loc.Agrees g U l' m' ∧ Q a l' := by
  induction x generalizing l m with
  | ret a => exact .inr ⟨a, m, l, rfl, h, hwp⟩
  | op o k ih =>
    rcases h.exec hwp with ⟨hnone, hpan⟩ | ⟨r, m', l', hexec, h', hk⟩
    · exact .inl ⟨by simp only [run, hnone, Option.bind_none], hpan⟩
    · have hrun : run g (.op o k) m = run g (k r) m' := by
        simp only [run, hexec, Option.bind_some]
      rw [hrun]
      exact ih r hk h'

theorem run_bind {α β : Type} (x : Code α) (f : α → Code β) (m : Phys) :
    run g (x >>= f) m = (run g x m).bind fun y => run g (f y.1) y.2 := by
  induction x generalizing m with
  | ret a => rfl
  | op o k ih =>
    show (m.exec g o).bind (fun r => run g (k r.1 >>= f) r.2) =
      ((m.exec g o).bind fun r => run g (k r.1) r.2).bind fun y => run g (f y.1) y.2
    rw [Option.bind_assoc]
    congr 1
    funext r
    exact ih r.1 r.2

end Xv6.Vm
