import Xv6.Proc
import Xv6.Lib.Run
import Xv6.Lib.Owners

/-!
The page an alarm delivery saves the trapframe in.

`usertrap` takes the page from `kalloc` when `ticks_left` reaches zero, and
`sys_sigreturn` copies it back and frees it; `p->sigalarm_tf` is written by nothing
else, so it survives `sigreturn`, `freeproc`, `allocproc` and `fork`. The model keeps
the free list, the pages each process owns otherwise (trapframe first, then page-table
pages and user memory), and the alarm fields. `fork` and `exec` take a number of pages
one after another and give back what they took when `kalloc` returns 0; page contents
and the handler address play no part in ownership and are left out. Touching address 0
faults the kernel.

`History` records what no kernel function reads: the pages a process has received at
deliveries it has not returned from, and whether its latest delivery is one of them.

The kernel checks none of this, so it depends on the user programs and on free memory.
Of the steps from a state where everything has gone well, exactly those keep the
ownership that meet `Careful`: `sigreturn` is called while the latest delivery has not
been returned from, a delivery finds a free page, and `wait` reaps only processes
without outstanding deliveries (`alarm_pages_owned`).
-/

namespace Xv6.Alarm

open Function (update update_of_ne update_self)
open Owners (Exclusive)

/-- `p->state`, with the states of a live process as one. -/
inductive Life where
  | unused
  | live
  | zombie
deriving DecidableEq, Repr

structure Proc where
  life : Life
  pages : List ℕ
  interval : ℤ
  ticksLeft : ℤ
  sigalarmTf : Option ℕ

structure Machine where
  free : List ℕ
  proc : ℕ → Proc
  faulted : Bool

structure History where
  outstanding : ℕ → List ℕ
  inHandler : ℕ → Bool

structure State where
  machine : Machine
  hist : History

/-! ### The kernel functions -/

namespace Machine

def modify (m : Machine) (p : ℕ) (f : Proc → Proc) : Machine :=
  { m with proc := update m.proc p (f (m.proc p)) }

/-- `kfree` of several pages, one after another. A page that is on the list already is in it twice
then: in memory it is linked to itself, and what `kalloc` returns after that depends on what
is written to the page. -/
def kfreeAll (m : Machine) (pages : List ℕ) : Machine := { m with free := pages.reverse ++ m.free }

def fault (m : Machine) : Machine := { m with faulted := true }

/-- `sys_sigalarm`. -/
def sigalarm (m : Machine) (p : ℕ) (interval : ℤ) : Machine :=
  m.modify p fun r => { r with interval := interval, ticksLeft := interval }

/-- `sys_sigreturn`: copies from and frees `p->sigalarm_tf`, whatever it is. -/
def sigreturn (m : Machine) (p : ℕ) : Machine :=
  match (m.proc p).sigalarmTf with
  | none => m.fault
  | some page => (m.kfreeAll [page]).modify p fun r => { r with ticksLeft := r.interval }

/-- The timer interrupt in user mode delivers an alarm to `p`. -/
def Delivers (m : Machine) (p : ℕ) : Prop :=
  (m.proc p).interval ≠ 0 ∧ int32 ((m.proc p).ticksLeft - 1) = 0

instance (m : Machine) (p : ℕ) : Decidable (m.Delivers p) := by
  unfold Delivers; infer_instance

/-- The alarm part of `usertrap` on a timer interrupt. -/
def tick (m : Machine) (p : ℕ) : Machine :=
  if m.Delivers p then
    match m.free with
    | [] => (m.modify p fun r => { r with ticksLeft := 0, sigalarmTf := none }).fault
    | page :: rest =>
      { m with free := rest }.modify p fun r => { r with ticksLeft := 0, sigalarmTf := some page }
  else if (m.proc p).interval ≠ 0 then
    m.modify p fun r => { r with ticksLeft := int32 (r.ticksLeft - 1) }
  else m

/-- The slot `allocproc` finds. -/
def freeSlot (m : Machine) : Option ℕ :=
  (List.range NPROC).find? fun p => (m.proc p).life = .unused

/-- Take up to `n` pages and give them back in the order they were taken. -/
def giveBack (m : Machine) (n : ℕ) : Machine :=
  { m with free := m.free.drop n }.kfreeAll (m.free.take n)

/-- `fork` of a child that needs `n` pages beside its trapframe. The alarm fields of
the slot stay as its last process left them. -/
def fork (m : Machine) (n : ℕ) : Machine :=
  match m.freeSlot with
  | none => m
  | some q =>
    if n + 1 ≤ m.free.length then
      { m with free := m.free.drop (n + 1) }.modify q fun r =>
        { r with life := .live, pages := m.free.take (n + 1) }
    else m.giveBack (n + 1)

/-- `exec` of an image of `n` pages; with `ok = false` it fails after taking them. The
trapframe page stays. -/
def exec (m : Machine) (p n : ℕ) (ok : Bool) : Machine :=
  if n ≤ m.free.length ∧ ok then
    ({ m with free := m.free.drop n }.kfreeAll ((m.proc p).pages.drop 1)).modify p fun r =>
      { r with pages := r.pages.take 1 ++ m.free.take n }
  else m.giveBack n

def exit (m : Machine) (p : ℕ) : Machine := m.modify p fun r => { r with life := .zombie }

/-- `wait` reaps the zombie `q`: `freeproc` frees the trapframe and the memory. -/
def wait (m : Machine) (q : ℕ) : Machine :=
  (m.kfreeAll (m.proc q).pages).modify q fun r => { r with life := .unused, pages := [] }

end Machine

/-! ### Runs -/

inductive Action where
  | sigalarm (p : ℕ) (interval : ℤ)
  | sigreturn (p : ℕ)
  | tick (p : ℕ)
  | fork (p n : ℕ)
  | exec (p n : ℕ) (ok : Bool)
  | exit (p : ℕ)
  | wait (q : ℕ)

/-- The process that acts is live; `wait` acts on a zombie. -/
def Enabled (m : Machine) : Action → Prop
  | .sigalarm p _ | .sigreturn p | .tick p | .fork p _ | .exec p _ _ | .exit p =>
    (m.proc p).life = .live
  | .wait q => (m.proc q).life = .zombie

instance (m : Machine) (a : Action) : Decidable (Enabled m a) := by
  cases a <;> unfold Enabled <;> infer_instance

def apply (m : Machine) : Action → Machine
  | .sigalarm p interval => m.sigalarm p interval
  | .sigreturn p => m.sigreturn p
  | .tick p => m.tick p
  | .fork _ n => m.fork n
  | .exec p n ok => m.exec p n ok
  | .exit p => m.exit p
  | .wait q => m.wait q

/-- What a step from machine `m` adds to the history. -/
def History.record (h : History) (m : Machine) : Action → History
  | .sigreturn p =>
    { outstanding := update h.outstanding p
        (match (m.proc p).sigalarmTf with
        | none => h.outstanding p
        | some page => (h.outstanding p).erase page)
      inHandler := update h.inHandler p false }
  | .tick p =>
    if m.Delivers p then
      { outstanding := update h.outstanding p (m.free.take 1 ++ h.outstanding p)
        inHandler := update h.inHandler p true }
    else h
  | .wait q =>
    { outstanding := update h.outstanding q []
      inHandler := update h.inHandler q false }
  | _ => h

def after (s : State) (a : Action) : State := ⟨apply s.machine a, s.hist.record s.machine a⟩

/-- A step, unless the kernel has faulted or the free list goes around in a circle. -/
def step (s : State) (a : Action) : Option State :=
  if (s.machine.faulted = false ∧ s.machine.free.Nodup) ∧ Enabled s.machine a then some (after s a)
  else none

/-- Who holds pages: the free list and the processes, with what they own and what they
have been delivered. -/
inductive Owner where
  | free
  | proc (p : ℕ)
deriving DecidableEq

def holdings (s : State) : Owner → List ℕ
  | .free => s.machine.free
  | .proc p => (s.machine.proc p).pages ++ s.hist.outstanding p

/-- After boot: the pages are distributed, unused slots own none, and no alarm has ever
been set or delivered. -/
structure Init (s : State) : Prop where
  running : s.machine.faulted = false
  exclusive : Exclusive (holdings s)
  unused : ∀ p, (s.machine.proc p).life = .unused → (s.machine.proc p).pages = []
  no_alarm : ∀ p, (s.machine.proc p).interval = 0 ∧ (s.machine.proc p).sigalarmTf = none
  no_delivery : ∀ p, s.hist.outstanding p = [] ∧ s.hist.inHandler p = false

/-! ### The claim and the condition -/

/-- What is claimed of a step: no page is on the free list twice; `sigreturn` copies from
and frees a page the caller received at a delivery not yet returned from; a delivery
does not write through a null pointer; and a reaped process's saved pages are back on
the free list. -/
def Owned (s : State) (a : Action) (s' : State) : Prop :=
  s'.machine.free.Nodup ∧
    match a with
    | .sigreturn p => ∃ page ∈ s.hist.outstanding p, (s.machine.proc p).sigalarmTf = some page
    | .tick _ => s'.machine.faulted = false
    | .wait q => ∀ page ∈ s.hist.outstanding q, page ∈ s'.machine.free
    | _ => True

/-- `sigreturn` is called while the caller's latest delivery has not been returned from,
a delivery finds a free page, and a reaped process has returned from all its deliveries. -/
def Careful (s : State) : Action → Prop
  | .sigreturn p => s.hist.inHandler p = true
  | .tick p => s.machine.Delivers p → s.machine.free ≠ []
  | .wait q => s.hist.outstanding q = []
  | _ => True

instance (s : State) (a : Action) : Decidable (Careful s a) := by
  cases a <;> unfold Careful <;> infer_instance

/-- The states of runs in which every step is careful. -/
def ReachableCareful : State → Prop := Run.ReachableUnder Init (Run.relOf step) Careful

/-! ### The invariant -/

/-- In a run of careful steps every page has one owner, the kernel has not faulted, and
`sigalarm_tf` points to an outstanding page exactly while the latest delivery is not
returned from. -/
structure Inv (s : State) : Prop where
  running : s.machine.faulted = false
  exclusive : Exclusive (holdings s)
  unused : ∀ p, (s.machine.proc p).life = .unused →
    (s.machine.proc p).pages = [] ∧ s.hist.outstanding p = []
  saved : ∀ p, s.hist.inHandler p = true ↔
    ∃ page ∈ s.hist.outstanding p, (s.machine.proc p).sigalarmTf = some page

/-- A step concerns the free list and one slot. -/
structure SameElsewhere (p : ℕ) (s t : State) : Prop where
  proc : ∀ q, q ≠ p → t.machine.proc q = s.machine.proc q
  outstanding : ∀ q, q ≠ p → t.hist.outstanding q = s.hist.outstanding q
  inHandler : ∀ q, q ≠ p → t.hist.inHandler q = s.hist.inHandler q

variable {s t : State} {p : ℕ}

theorem SameElsewhere.holdings_eq (hst : SameElsewhere p s t) {i : Owner} (hfree : i ≠ .free)
    (hp : i ≠ .proc p) : holdings t i = holdings s i := by
  cases i with
  | free => exact absurd rfl hfree
  | proc q =>
    have hq : q ≠ p := fun h => hp (h ▸ rfl)
    simp only [holdings, hst.proc q hq, hst.outstanding q hq]

/-- A step that concerns slot `p` keeps the invariant if the pages stay exclusively
owned and slot `p` is as the invariant says. -/
theorem Inv.of_sameElsewhere (h : Inv s) (hst : SameElsewhere p s t)
    (hrunning : t.machine.faulted = s.machine.faulted) (hexclusive : Exclusive (holdings t))
    (hunused : (t.machine.proc p).life = .unused →
      (t.machine.proc p).pages = [] ∧ t.hist.outstanding p = [])
    (hsaved : t.hist.inHandler p = true ↔
      ∃ page ∈ t.hist.outstanding p, (t.machine.proc p).sigalarmTf = some page) : Inv t where
  running := hrunning.trans h.running
  exclusive := hexclusive
  unused q := by
    by_cases hq : q = p
    · subst hq
      exact hunused
    · rw [hst.proc q hq, hst.outstanding q hq]
      exact h.unused q
  saved q := by
    by_cases hq : q = p
    · subst hq
      exact hsaved
    · rw [hst.proc q hq, hst.outstanding q hq, hst.inHandler q hq]
      exact h.saved q

section

variable (hst : SameElsewhere p s t) (hs : Exclusive (holdings s))
include hst hs

/-- The owner lists after a step that permutes them. -/
theorem SameElsewhere.exclusive_perm (hfree : t.machine.free.Perm s.machine.free)
    (hp : (holdings t (.proc p)).Perm (holdings s (.proc p))) : Exclusive (holdings t) := by
  refine hs.perm fun i => ?_
  by_cases hi : i = .free
  · exact hi ▸ hfree
  · by_cases hip : i = .proc p
    · exact hip ▸ hp
    · exact .of_eq (hst.holdings_eq hi hip)

/-- Slot `p` takes the first pages of the free list. -/
theorem SameElsewhere.exclusive_take (n : ℕ) (hfree : t.machine.free.Perm (s.machine.free.drop n))
    (hp : (holdings t (.proc p)).Perm (s.machine.free.take n ++ holdings s (.proc p))) :
    Exclusive (holdings t) :=
  hs.move (a := .free) (b := .proc p) nofun
    (.of_eq (List.take_append_drop n s.machine.free).symm) hfree hp
    fun _ hi hip => .of_eq (hst.holdings_eq hi hip)

/-- Slot `p` puts pages on the free list. -/
theorem SameElsewhere.exclusive_put (pages : List ℕ)
    (hp : (holdings s (.proc p)).Perm (pages ++ holdings t (.proc p)))
    (hfree : t.machine.free.Perm (pages ++ s.machine.free)) : Exclusive (holdings t) :=
  hs.move (a := .proc p) (b := .free) nofun hp (.refl _) hfree
    fun _ hip hi => .of_eq (hst.holdings_eq hi hip)

end

/-! ### Every careful step keeps it -/

theorem Machine.modify_self (m : Machine) (p : ℕ) (f : Proc → Proc) :
    (m.modify p f).proc p = f (m.proc p) := update_self ..

open Machine (modify_self)

theorem Machine.modify_ne (m : Machine) (f : Proc → Proc) {p q : ℕ} (h : q ≠ p) :
    (m.modify p f).proc q = m.proc q := update_of_ne h ..

/-- A machine step that modifies one slot and leaves the history alone. -/
theorem SameElsewhere.of_modify {m : Machine} {f : Proc → Proc}
    (hm : m.proc = s.machine.proc) : SameElsewhere p s ⟨m.modify p f, s.hist⟩ where
  proc q hq := (m.modify_ne f hq).trans (congrFun hm q)
  outstanding _ _ := rfl
  inHandler _ _ := rfl

/-- A machine step that modifies one slot and records something for it. -/
theorem SameElsewhere.of_modify_update {m : Machine} {f : Proc → Proc} {out : List ℕ} {handling : Bool}
    (hm : m.proc = s.machine.proc) :
    SameElsewhere p s ⟨m.modify p f,
      ⟨update s.hist.outstanding p out, update s.hist.inHandler p handling⟩⟩ where
  proc q hq := (m.modify_ne f hq).trans (congrFun hm q)
  outstanding _ hq := update_of_ne hq ..
  inHandler _ hq := update_of_ne hq ..

/-- Changing the life, interval or tick count of a process moves no page. -/
theorem Inv.modify (h : Inv s) (f : Proc → Proc) (hpages : ∀ r, (f r).pages = r.pages)
    (htf : ∀ r, (f r).sigalarmTf = r.sigalarmTf)
    (hlife : (f (s.machine.proc p)).life = .unused → (s.machine.proc p).life = .unused) :
    Inv ⟨s.machine.modify p f, s.hist⟩ := by
  have hst : SameElsewhere p s ⟨s.machine.modify p f, s.hist⟩ := .of_modify rfl
  refine h.of_sameElsewhere hst rfl (hst.exclusive_perm h.exclusive (.refl _) ?_) ?_ ?_
  · simp only [holdings, modify_self, hpages]
    exact .refl _
  · simp only [modify_self, hpages]
    exact fun hu => h.unused p (hlife hu)
  · simp only [modify_self, htf]
    exact h.saved p

/-- Taking pages and giving them back only reorders the free list. -/
theorem Inv.giveBack (h : Inv s) (n : ℕ) : Inv ⟨s.machine.giveBack n, s.hist⟩ := by
  have hst : SameElsewhere 0 s ⟨s.machine.giveBack n, s.hist⟩ :=
    ⟨fun _ _ => rfl, fun _ _ => rfl, fun _ _ => rfl⟩
  have hfree : (s.machine.giveBack n).free.Perm s.machine.free :=
    ((List.reverse_perm _).append_right _).trans (.of_eq (List.take_append_drop ..))
  exact h.of_sameElsewhere hst rfl (hst.exclusive_perm h.exclusive hfree (.refl _))
    (h.unused 0) (h.saved 0)

theorem Inv.sigreturn (h : Inv s) (hlive : (s.machine.proc p).life = .live)
    (hhandler : s.hist.inHandler p = true) : Inv (after s (.sigreturn p)) := by
  obtain ⟨page, hmem, htf⟩ := (h.saved p).mp hhandler
  have hafter : after s (.sigreturn p) =
      ⟨(s.machine.kfreeAll [page]).modify p fun r => { r with ticksLeft := r.interval },
        ⟨update s.hist.outstanding p ((s.hist.outstanding p).erase page),
          update s.hist.inHandler p false⟩⟩ := by
    simp only [after, apply, Machine.sigreturn, History.record, htf]
  have hnodup : (s.hist.outstanding p).Nodup :=
    (h.exclusive.nodup (.proc p)).of_append_right
  rw [hafter]
  refine h.of_sameElsewhere (p := p) (.of_modify_update rfl) rfl
    (SameElsewhere.exclusive_put (.of_modify_update rfl) h.exclusive [page] ?_ (.refl _)) ?_ ?_
  · simp only [holdings, modify_self, update_self]
    exact ((List.perm_cons_erase hmem).append_left _).trans List.perm_middle
  · simp only [modify_self]
    exact fun hu => absurd (hlive.symm.trans hu) nofun
  · simp only [modify_self, update_self, Machine.kfreeAll, htf]
    refine ⟨nofun, ?_⟩
    rintro ⟨page', hmem', heq⟩
    cases heq
    exact absurd hmem' hnodup.not_mem_erase

theorem Inv.tick (h : Inv s) (hlive : (s.machine.proc p).life = .live)
    (hpage : s.machine.Delivers p → s.machine.free ≠ []) : Inv (after s (.tick p)) := by
  by_cases hd : s.machine.Delivers p
  · obtain ⟨page, rest, hfree⟩ := List.exists_cons_of_ne_nil (hpage hd)
    have hafter : after s (.tick p) =
        ⟨{ s.machine with free := rest }.modify p fun r =>
            { r with ticksLeft := 0, sigalarmTf := some page },
          ⟨update s.hist.outstanding p (page :: s.hist.outstanding p),
            update s.hist.inHandler p true⟩⟩ := by
      simp only [after, apply, Machine.tick, History.record, if_pos hd, hfree, List.take_succ_cons,
        List.take_zero, List.cons_append, List.nil_append]
    rw [hafter]
    refine h.of_sameElsewhere (p := p) (.of_modify_update rfl) rfl
      (SameElsewhere.exclusive_take (.of_modify_update rfl) h.exclusive 1 ?_ ?_) ?_ ?_
    · rw [hfree]
      exact .refl _
    · simp only [holdings, modify_self, update_self, hfree]
      exact List.perm_middle
    · simp only [modify_self]
      exact fun hu => absurd (hlive.symm.trans hu) nofun
    · simp only [modify_self, update_self]
      exact ⟨fun _ => ⟨page, List.mem_cons_self, rfl⟩, fun _ => trivial⟩
  · have hhist : s.hist.record s.machine (.tick p) = s.hist := if_neg hd
    have hmachine : s.machine.tick p = if (s.machine.proc p).interval ≠ 0 then
        s.machine.modify p fun r => { r with ticksLeft := int32 (r.ticksLeft - 1) }
        else s.machine := if_neg hd
    change Inv ⟨s.machine.tick p, s.hist.record s.machine (.tick p)⟩
    rw [hhist, hmachine]
    split
    · exact h.modify _ (fun _ => rfl) (fun _ => rfl) id
    · exact h

theorem Machine.freeSlot_unused {m : Machine} {q : ℕ} (h : m.freeSlot = some q) :
    (m.proc q).life = .unused := by
  have hfound := List.find?_some h
  exact of_decide_eq_true hfound

theorem Inv.fork (h : Inv s) (p n : ℕ) : Inv (after s (.fork p n)) := by
  change Inv ⟨s.machine.fork n, s.hist⟩
  unfold Machine.fork
  split
  · exact h
  · rename_i q hq
    obtain ⟨hpages, hout⟩ := h.unused q (Machine.freeSlot_unused hq)
    split
    · refine h.of_sameElsewhere (p := q) (.of_modify rfl) rfl
        (SameElsewhere.exclusive_take (.of_modify rfl) h.exclusive (n + 1) (.refl _) ?_) ?_ ?_
      · simp only [holdings, modify_self, hpages, List.nil_append]
        exact .refl _
      · simp only [modify_self]
        exact nofun
      · simp only [modify_self]
        exact h.saved q
    · exact h.giveBack _

theorem Inv.exec (h : Inv s) (hlive : (s.machine.proc p).life = .live) (n : ℕ) (ok : Bool) :
    Inv (after s (.exec p n ok)) := by
  change Inv ⟨s.machine.exec p n ok, s.hist⟩
  unfold Machine.exec
  split
  · -- The new image is built before the old one is freed.
    let loaded : State := ⟨{ s.machine with free := s.machine.free.drop n }.modify p fun r =>
      { r with pages := r.pages ++ s.machine.free.take n }, s.hist⟩
    have hloaded : Exclusive (holdings loaded) := by
      refine SameElsewhere.exclusive_take (p := p) (.of_modify rfl) h.exclusive n (.refl _) ?_
      simp only [holdings, loaded, modify_self]
      exact (List.perm_append_comm.append_right _).trans (.of_eq (List.append_assoc ..))
    refine h.of_sameElsewhere (p := p) (.of_modify rfl) rfl
      (SameElsewhere.exclusive_put (p := p) (s := loaded) ?_ hloaded
        ((s.machine.proc p).pages.drop 1) ?_ ?_) ?_ ?_
    · refine ⟨fun q hq => ?_, fun _ _ => rfl, fun _ _ => rfl⟩
      simp only [loaded, Machine.modify_ne _ _ hq, Machine.kfreeAll]
    · simp only [holdings, loaded, modify_self, Machine.kfreeAll]
      rw [← List.append_assoc, ← List.append_assoc]
      refine .append_right _ (.append_right _ ?_)
      exact (List.Perm.of_eq (List.take_append_drop 1 _).symm).trans List.perm_append_comm
    · exact (List.reverse_perm _).append_right _
    · simp only [modify_self]
      exact fun hu => absurd (hlive.symm.trans hu) nofun
    · simp only [modify_self]
      exact h.saved p
  · exact h.giveBack _

theorem Inv.wait (h : Inv s) (hout : s.hist.outstanding p = []) : Inv (after s (.wait p)) := by
  have hafter : after s (.wait p) =
      ⟨(s.machine.kfreeAll (s.machine.proc p).pages).modify p fun r =>
          { r with life := .unused, pages := [] },
        ⟨update s.hist.outstanding p [], update s.hist.inHandler p false⟩⟩ := rfl
  rw [hafter]
  refine h.of_sameElsewhere (p := p) (.of_modify_update rfl) rfl
    (SameElsewhere.exclusive_put (.of_modify_update rfl) h.exclusive
      (s.machine.proc p).pages ?_ ((List.reverse_perm _).append_right _)) ?_ ?_
  · simp only [holdings, modify_self, update_self, hout, List.append_nil]
    exact .refl _
  · simp only [modify_self, update_self, and_self, implies_true]
  · simp only [modify_self, update_self]
    exact ⟨nofun, fun ⟨_, hmem, _⟩ => absurd hmem List.not_mem_nil⟩

theorem Init.inv (h : Init s) : Inv s where
  running := h.running
  exclusive := h.exclusive
  unused p hu := ⟨h.unused p hu, (h.no_delivery p).1⟩
  saved p := by
    rw [(h.no_delivery p).1, (h.no_delivery p).2]
    exact ⟨nofun, fun ⟨_, hmem, _⟩ => absurd hmem List.not_mem_nil⟩

theorem Inv.after (h : Inv s) {a : Action} (hen : Enabled s.machine a) (hc : Careful s a) :
    Inv (after s a) := by
  cases a with
  | sigalarm p interval =>
    exact h.modify (fun r => { r with interval := interval, ticksLeft := interval })
      (fun _ => rfl) (fun _ => rfl) id
  | sigreturn p => exact h.sigreturn hen hc
  | tick p => exact h.tick hen hc
  | fork p n => exact h.fork p n
  | exec p n ok => exact h.exec hen n ok
  | exit p =>
    exact h.modify (fun r => { r with life := .zombie }) (fun _ => rfl) (fun _ => rfl) nofun
  | wait q => exact h.wait hc

theorem step_eq_some {a : Action} (h : step s a = some t) :
    Enabled s.machine a ∧ t = Alarm.after s a := by
  unfold step at h
  split at h
  · rename_i hen
    exact ⟨hen.2, (Option.some.inj h).symm⟩
  · cases h

theorem ReachableCareful.inv (h : ReachableCareful s) : Inv s := by
  refine Run.ReachableUnder.invariant Inv (fun _ => Init.inv) ?_ h
  intro s a t hs hc hstep
  obtain ⟨hen, rfl⟩ := step_eq_some hstep
  exact hs.after hen hc

/-! ### Exactly the careful steps keep the ownership -/

/-- Pages a reaped process has been delivered and has not returned do not reach the free
list. -/
theorem Inv.lost_of_wait (h : Inv s) {page : ℕ} (hmem : page ∈ s.hist.outstanding p) :
    page ∉ (s.machine.wait p).free := by
  intro hfree
  have hp : page ∈ holdings s (.proc p) := List.mem_append_right _ hmem
  rcases List.mem_append.mp hfree with hpages | hfree
  · exact (List.nodup_append.mp (h.exclusive.nodup (.proc p))).2.2 page
      (List.mem_reverse.mp hpages) page hmem rfl
  · exact absurd (h.exclusive.unique .free (.proc p) page hfree hp) nofun

theorem Inv.careful_of_owned (h : Inv s) {a : Action} (ho : Owned s a (Alarm.after s a)) :
    Careful s a := by
  cases a with
  | sigreturn p => exact (h.saved p).mpr ho.2
  | tick p =>
    intro hd hfree
    have hfault : (s.machine.tick p).faulted = true := by
      simp only [Machine.tick, if_pos hd, hfree, Machine.fault]
    exact absurd (hfault.symm.trans ho.2) nofun
  | wait q =>
    exact List.eq_nil_iff_forall_not_mem.mpr fun page hmem =>
      h.lost_of_wait hmem (ho.2 page hmem)
  | _ => trivial

theorem Inv.owned_of_careful (h : Inv s) {a : Action} (hen : Enabled s.machine a)
    (hc : Careful s a) : Owned s a (Alarm.after s a) := by
  have hafter := h.after hen hc
  refine ⟨hafter.exclusive.nodup .free, ?_⟩
  cases a with
  | sigreturn p => exact (h.saved p).mp hc
  | tick p => exact hafter.running
  | wait q => exact fun page hmem => absurd (hc ▸ hmem) List.not_mem_nil
  | _ => trivial

/-- **Alarm pages.** In every state of a run of careful steps no page is twice on the
free list and the kernel has not faulted, and of the steps possible there exactly the
careful ones keep the ownership of the saved pages. -/
theorem alarm_pages_owned (s : State) (h : ReachableCareful s) :
    s.machine.free.Nodup ∧ s.machine.faulted = false ∧
      ∀ a t, step s a = some t → (Owned s a t ↔ Careful s a) := by
  have hinv := h.inv
  refine ⟨hinv.exclusive.nodup .free, hinv.running, fun a t hstep => ?_⟩
  obtain ⟨hen, rfl⟩ := step_eq_some hstep
  exact ⟨hinv.careful_of_owned, hinv.owned_of_careful hen⟩

/-! ### Concrete runs -/

/-- One process with a trapframe and a page of memory, and three free pages. -/
def boot : State where
  machine :=
    { free := [3, 4, 5]
      proc p := ⟨if p = 0 then .live else .unused, if p = 0 then [1, 2] else [], 0, 0, none⟩
      faulted := false }
  hist := { outstanding _ := [], inHandler _ := false }

theorem holdings_boot (p : ℕ) : holdings boot (.proc p) = if p = 0 then [1, 2] else [] :=
  List.append_nil _

theorem boot_init : Init boot where
  running := rfl
  exclusive := by
    constructor
    · rintro (_ | p)
      · decide
      · rw [holdings_boot]
        split <;> decide
    · rintro (_ | p) (_ | q) x hi hj
      · rfl
      all_goals simp only [holdings_boot] at hi hj
      · exfalso
        split at hj <;> simp_all [holdings, boot]
        omega
      · exfalso
        split at hi <;> simp_all [holdings, boot]
        omega
      · by_cases hp : p = 0 <;> by_cases hq : q = 0 <;> simp_all
  unused p hu := by
    by_cases hp : p = 0
    · simp [boot, hp] at hu
    · simp [boot, hp]
  no_alarm _ := ⟨rfl, rfl⟩
  no_delivery _ := ⟨rfl, rfl⟩

/-- A child is delivered an alarm, returns from it, exits and is reaped; every page is
back on the free list. -/
theorem alarm_pages_owned_returned :
    ∃ s : State, s.machine.free = [3, 4, 5] ∧ s.machine.free.Nodup ∧ s.machine.faulted = false ∧
      ∀ a t, step s a = some t → (Owned s a t ↔ Careful s a) := by
  obtain ⟨s, hreach, hfree⟩ : ∃ s, ReachableCareful s ∧ s.machine.free = [3, 4, 5] :=
    Run.exists_reachableUnder [.fork 0 0, .sigalarm 1 1, .tick 1, .sigreturn 1, .exit 1, .wait 1]
      boot_init (by decide +kernel)
  exact ⟨s, hfree, alarm_pages_owned s hreach⟩

/-- Returning twice frees the page twice; returning without a delivery reads address 0,
and a delivery without a free page writes there; the page of a process reaped inside its
handler is lost; and a process in a reused slot frees a page of its own memory. -/
theorem alarm_pages_not_owned :
    Init boot ∧
      (Run.execAll step boot [.sigalarm 0 1, .tick 0, .sigreturn 0, .sigreturn 0]).map
        (fun s => s.machine.free) = some [3, 3, 4, 5] ∧
      (Run.execAll step boot [.sigreturn 0]).map (fun s => s.machine.faulted) = some true ∧
      (Run.execAll step boot [.fork 0 2, .sigalarm 0 1, .tick 0]).map
        (fun s => (s.machine.free, s.machine.faulted)) = some ([], true) ∧
      (Run.execAll step boot [.fork 0 0, .sigalarm 1 1, .tick 1, .exit 1, .wait 1]).map
        (fun s => (s.machine.free, (s.machine.proc 0).pages, (s.machine.proc 1).pages)) =
          some ([3, 5], [1, 2], []) ∧
      (Run.execAll step boot [.fork 0 1, .sigalarm 1 1, .tick 1, .sigreturn 1, .exit 1, .wait 1,
        .fork 0 2, .sigreturn 1]).map (fun s => (s.machine.free, (s.machine.proc 1).pages)) =
          some ([5], [4, 3, 5]) := by
  refine ⟨boot_init, ?_, ?_, ?_, ?_, ?_⟩ <;> decide +kernel

end Xv6.Alarm
