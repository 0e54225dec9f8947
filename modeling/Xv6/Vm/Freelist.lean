import Mathlib.Data.List.Nodup
import Mathlib.Data.List.Perm.Subperm
import Xv6.Vm.Model

/-!
The free list of kalloc.c, a linked list through the free pages.

`Phys.free` follows the links. `Phys.Lists` says that they go through the pages of a list, each
a page of RAM and each once, and end with a null; then `Phys.free` is that list. A page that is
freed twice becomes its own successor, and there is no such list any more.

* `Lists.push`, `Lists.pop`, `Lists.write`: what the operations do to the list.
* `kinit_lists`: `kinit` puts every page of RAM on the list.
-/

namespace Xv6.Vm

open Function (update update_of_ne update_self)

variable {g : Geometry} {ppn : ℕ}

theorem Geometry.Ram.pos (h : g.Ram ppn) : 0 < ppn := lt_of_lt_of_le g.lo_pos h.1

theorem Geometry.Ram.ne_zero (h : g.Ram ppn) : PGSIZE * ppn ≠ 0 :=
  Nat.mul_ne_zero (by decide) h.pos.ne'

theorem page_div (ppn : ℕ) : PGSIZE * ppn / PGSIZE = ppn := Nat.mul_div_cancel_left ppn (by decide)

theorem page_mod (ppn : ℕ) : PGSIZE * ppn % PGSIZE = 0 := Nat.mul_mod_right PGSIZE ppn

/-! ### Links -/

/-- The pages that the links from address `a` on go through. Page 0, which is not RAM, stands
for a link that leads nowhere and for a list that does not end. -/
def linked (mem : ℕ → Page) : ℕ → ℕ → List ℕ
  | 0, _ => [0]
  | n + 1, a =>
    if a = 0 then []
    else if a % PGSIZE ≠ 0 then [0]
    else a / PGSIZE :: linked mem n (mem (a / PGSIZE) 0)

/-- The free pages, in the order of the list. -/
def Phys.free (m : Phys) : List ℕ := linked m.mem PAGES m.freelist

/-- From address `a` on, the links go through these pages. -/
def Chain (mem : ℕ → Page) : ℕ → List ℕ → Prop
  | a, [] => a = 0
  | a, ppn :: rest => a = PGSIZE * ppn ∧ Chain mem (mem ppn 0) rest

variable {mem mem' : ℕ → Page} {a : ℕ} {free : List ℕ}

theorem Chain.congr (h : Chain mem a free) (hmem : ∀ c ∈ free, mem' c = mem c) :
    Chain mem' a free := by
  induction free generalizing a with
  | nil => exact h
  | cons ppn rest ih =>
    refine ⟨h.1, ?_⟩
    rw [hmem ppn List.mem_cons_self]
    exact ih h.2 fun c hc => hmem c (List.mem_cons_of_mem _ hc)

/-- The pages of the list are in other places than `ppn`. -/
theorem Chain.update (h : Chain mem a free) (hnot : ppn ∉ free) (page : Page) :
    Chain (update mem ppn page) a free :=
  h.congr fun c hc => update_of_ne (fun he : c = ppn => hnot (he ▸ hc)) _ _

theorem chain_linked {n : ℕ} (h : ∀ c ∈ linked mem n a, c ≠ 0) : Chain mem a (linked mem n a) := by
  induction n generalizing a with
  | zero => exact absurd rfl (h 0 List.mem_cons_self)
  | succ n ih =>
    rw [linked] at h ⊢
    by_cases ha : a = 0
    · rw [if_pos ha]
      exact ha
    · rw [if_neg ha] at h ⊢
      by_cases hmod : a % PGSIZE ≠ 0
      · rw [if_pos hmod] at h
        exact absurd rfl (h 0 List.mem_cons_self)
      · rw [if_neg hmod] at h ⊢
        refine ⟨?_, ih fun c hc => h c (List.mem_cons_of_mem _ hc)⟩
        exact (Nat.mul_div_cancel' (Nat.dvd_of_mod_eq_zero (not_not.mp hmod))).symm

theorem linked_of_chain {n : ℕ} (h : Chain mem a free) (hpos : ∀ c ∈ free, 0 < c)
    (hlen : free.length < n) : linked mem n a = free := by
  induction free generalizing a n with
  | nil =>
    obtain ⟨n, rfl⟩ := Nat.exists_eq_succ_of_ne_zero hlen.ne'
    exact if_pos h
  | cons ppn rest ih =>
    obtain ⟨n, rfl⟩ := Nat.exists_eq_succ_of_ne_zero (Nat.zero_lt_of_lt hlen).ne'
    obtain ⟨rfl, hrest⟩ := h
    have hne : PGSIZE * ppn ≠ 0 :=
      Nat.mul_ne_zero (by decide) (hpos ppn List.mem_cons_self).ne'
    rw [linked, if_neg hne, if_neg (not_not.mpr (page_mod ppn)), page_div,
      ih hrest (fun c hc => hpos c (List.mem_cons_of_mem _ hc)) (Nat.lt_of_succ_lt_succ hlen)]

/-! ### The list -/

/-- The free list goes through these pages of RAM, and through each once. -/
structure Phys.Lists (g : Geometry) (m : Phys) (free : List ℕ) : Prop where
  chain : Chain m.mem m.freelist free
  nodup : free.Nodup
  ram : ∀ c ∈ free, g.Ram c

namespace Phys.Lists

variable {m : Phys}

/-- There are fewer pages of RAM than addresses of pages. -/
theorem length_lt (h : m.Lists g free) : free.length < PAGES := by
  have hsub : free ⊆ List.range' g.lo (g.hi - g.lo) := fun c hc => by
    have hram := h.ram c hc
    rw [List.mem_range'_1]
    exact ⟨hram.1, by have := hram.2; omega⟩
  have hle := (List.subperm_of_subset h.nodup hsub).length_le
  rw [List.length_range'] at hle
  have hhi := g.hi_lt
  omega

theorem free_eq (h : m.Lists g free) : m.free = free :=
  linked_of_chain h.chain (fun c hc => (h.ram c hc).pos) h.length_lt

theorem of_free (hnodup : m.free.Nodup) (hram : ∀ c ∈ m.free, g.Ram c) : m.Lists g m.free :=
  ⟨chain_linked fun c hc => (hram c hc).pos.ne', hnodup, hram⟩

theorem freelist_nil (h : m.Lists g []) : m.freelist = 0 := h.chain

theorem freelist_cons (h : m.Lists g (ppn :: free)) : m.freelist = PGSIZE * ppn := h.chain.1

theorem push (h : m.Lists g free) (hnot : ppn ∉ free) (hram : g.Ram ppn) :
    (m.push (PGSIZE * ppn)).Lists g (ppn :: free) := by
  refine ⟨⟨rfl, ?_⟩, List.nodup_cons.mpr ⟨hnot, h.nodup⟩, List.forall_mem_cons.mpr ⟨hram, h.ram⟩⟩
  simp only [Phys.push, page_div, update_self]
  exact h.chain.update hnot _

theorem pop_mem (h : m.Lists g (ppn :: free)) : m.pop.mem = update m.mem ppn (junk 5) := by
  rw [Phys.pop, h.freelist_cons, page_div]

theorem pop (h : m.Lists g (ppn :: free)) : m.pop.Lists g free := by
  obtain ⟨hnot, hnodup⟩ := List.nodup_cons.mp h.nodup
  refine ⟨?_, hnodup, fun c hc => h.ram c (List.mem_cons_of_mem _ hc)⟩
  rw [h.pop_mem, show m.pop.freelist = m.mem ppn 0 by rw [Phys.pop, h.freelist_cons, page_div]]
  exact h.chain.2.update hnot _

/-- A page that is not on the list may be written. -/
theorem write (h : m.Lists g free) (hnot : ppn ∉ free) (page : Page) :
    Phys.Lists g { m with mem := update m.mem ppn page } free :=
  ⟨h.chain.update hnot page, h.nodup, h.ram⟩

end Phys.Lists

/-! ### kinit -/

/-- The loop of `freerange` over these pages, the last one first. -/
def freePages (mem : ℕ → Page) : List ℕ → Phys
  | [] => ⟨mem, 0⟩
  | ppn :: ps => (freePages mem ps).push (PGSIZE * ppn)

/-- `kinit`: every page of RAM is freed. -/
def kinit (g : Geometry) (mem : ℕ → Page) : Phys :=
  freePages mem (List.range' g.lo (g.hi - g.lo)).reverse

theorem freePages_lists {ps : List ℕ} (hnodup : ps.Nodup) (hram : ∀ c ∈ ps, g.Ram c) :
    (freePages mem ps).Lists g ps := by
  induction ps with
  | nil => exact ⟨rfl, List.nodup_nil, hram⟩
  | cons ppn ps ih =>
    obtain ⟨hnot, hps⟩ := List.nodup_cons.mp hnodup
    obtain ⟨hhere, hrest⟩ := List.forall_mem_cons.mp hram
    exact (ih hps hrest).push hnot hhere

theorem freePages_mem {ps : List ℕ} {c : ℕ} (hnot : c ∉ ps) : (freePages mem ps).mem c = mem c := by
  induction ps with
  | nil => rfl
  | cons ppn ps ih =>
    obtain ⟨hne, hrest⟩ := not_or.mp (fun h => hnot (List.mem_cons.mpr h))
    simp only [freePages, Phys.push, page_div, update_of_ne hne, ih hrest]

theorem kinit_lists (g : Geometry) (mem : ℕ → Page) :
    (kinit g mem).Lists g (List.range' g.lo (g.hi - g.lo)).reverse := by
  refine freePages_lists (List.nodup_reverse.mpr List.nodup_range') fun c hc => ?_
  rw [List.mem_reverse, List.mem_range'_1] at hc
  exact ⟨hc.1, by omega⟩

end Xv6.Vm
