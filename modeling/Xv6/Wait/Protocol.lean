import Mathlib.Data.List.Nodup
import Xv6.Lib.Run
import Xv6.Wait.Steps

/-!
The exit/wait protocol over whole runs.

No process is reported twice, because `freeproc` ends the identity it was reported under
(`State.Ids`). With the invariant of `Xv6.Wait.Invariant` this gives
`exit_wait_protocol`.
-/

namespace Xv6.Wait

open Function (update update_of_ne)
open State (runExit setParent setChan)

variable {s t : State} {p q : Slot}

/-! ### What a step does to the identities -/

/-- The same processes with the same pids and flags. -/
structure SameIds (s t : State) : Prop where
  pid : t.pid = s.pid
  killed : t.killed = s.killed
  id : t.id = s.id
  nextpid : t.nextpid = s.nextpid
  nextid : t.nextid = s.nextid
  unused : ∀ q, t.state q = .unused ↔ s.state q = .unused

theorem SameIds.refl (s : State) : SameIds s s := ⟨rfl, rfl, rfl, rfl, rfl, fun _ => Iff.rfl⟩

theorem SameIds.setState {st : ProcState} (hp : s.state p ≠ .unused) (hst : st ≠ .unused) :
    SameIds s (s.setState p st) := by
  refine ⟨rfl, rfl, rfl, rfl, rfl, fun q => ?_⟩
  by_cases hq : q = p
  · subst hq
    simp only [State.setState, Function.update_self]
    exact ⟨fun h => absurd h hst, fun h => absurd h hp⟩
  · simp only [State.setState, update_of_ne hq]

theorem SameIds.wakeupAt (chan : Option Chan) : SameIds s (s.wakeupAt p chan q) := by
  unfold State.wakeupAt
  split
  next hq => exact .setState (by rw [hq.2.1]; decide) (by decide)
  next => exact .refl s

/-- What a step other than `kill` does to the identities: nothing, or a slot is taken, taken and
given back, or freed by a report. -/
inductive IdEvent (s t : State) : Prop where
  | same : SameIds s t → t.reports = s.reports → IdEvent s t
  | alloc (q : Slot) : s.state q = .unused → SameIds (s.allocproc q) t → t.reports = s.reports →
      IdEvent s t
  | fail (q : Slot) : s.state q = .unused → SameIds ((s.allocproc q).freeproc q) t →
      t.reports = s.reports → IdEvent s t
  | report (q : Slot) (r : Report) : s.state q = .zombie → r.id = s.id q →
      SameIds (s.freeproc q) t → t.reports = s.reports ++ [r] → IdEvent s t

theorem reports_wakeupAt (chan : Option Chan) : (s.wakeupAt p chan q).reports = s.reports := by
  unfold State.wakeupAt
  split <;> rfl

/-- Only the points of the calls change. -/
theorem IdEvent.of_eq (hpid : t.pid = s.pid) (hkilled : t.killed = s.killed) (hid : t.id = s.id)
    (hnextpid : t.nextpid = s.nextpid) (hnextid : t.nextid = s.nextid) (hstate : t.state = s.state)
    (hreports : t.reports = s.reports) : IdEvent s t :=
  .same ⟨hpid, hkilled, hid, hnextpid, hnextid, fun q => by rw [hstate]⟩ hreports

theorem idEvent_runFork (hinv : s.Inv) {f : Fork} (hpc : s.pc p = .fork f)
    (ht : s.runFork p f = some t) : IdEvent s t := by
  cases f with
  | link q =>
    simp only [State.runFork] at ht
    split at ht <;> cases ht
    exact .of_eq rfl rfl rfl rfl rfl rfl rfl
  | run q =>
    cases ht
    have hused := hinv.child_used (p := p) (q := q) (by rw [hpc]; rfl)
    have hrun : SameIds s (s.setState q .runnable) := .setState (by rw [hused]; decide) (by decide)
    exact .same ⟨rfl, rfl, rfl, rfl, rfl, hrun.unused⟩ rfl

theorem idEvent_runExit (hst : s.state p = .running) {status : ℤ} {e : Exit}
    (ht : s.runExit p status e = some t) : IdEvent s t := by
  cases e with
  | acquire =>
    simp only [runExit] at ht
    split at ht <;> cases ht
    exact .of_eq rfl rfl rfl rfl rfl rfl rfl
  | reparent i =>
    simp only [runExit] at ht
    split at ht
    · split at ht <;> cases ht <;> exact .of_eq rfl rfl rfl rfl rfl rfl rfl
    · cases ht
      exact .of_eq rfl rfl rfl rfl rfl rfl rfl
  | wakeInit i j =>
    simp only [runExit] at ht
    split at ht
    next hj =>
      cases ht
      have hw : SameIds s _ := .wakeupAt (p := p) (q := ⟨j, hj⟩) (some (.proc initproc))
      exact .same ⟨hw.pid, hw.killed, hw.id, hw.nextpid, hw.nextid, hw.unused⟩ (reports_wakeupAt _)
    next =>
      cases ht
      exact .of_eq rfl rfl rfl rfl rfl rfl rfl
  | wakeParent r j =>
    simp only [runExit] at ht
    split at ht
    next hj =>
      cases ht
      have hw : SameIds s _ := .wakeupAt (p := p) (q := ⟨j, hj⟩) (r.map .proc)
      exact .same ⟨hw.pid, hw.killed, hw.id, hw.nextpid, hw.nextid, hw.unused⟩ (reports_wakeupAt _)
    next =>
      cases ht
      exact .of_eq rfl rfl rfl rfl rfl rfl rfl
  | zombie r =>
    cases ht
    have hz : SameIds s (s.setState p .zombie) := .setState (by rw [hst]; decide) (by decide)
    exact .same ⟨rfl, rfl, rfl, rfl, rfl, hz.unused⟩ rfl

theorem idEvent_runWait (hst : s.state p = .running) {x copied : Bool} {w : WaitAt}
    (ht : s.runWait p x copied w = some t) : IdEvent s t := by
  cases w with
  | acquire =>
    simp only [State.runWait] at ht
    split at ht <;> cases ht
    exact .of_eq rfl rfl rfl rfl rfl rfl rfl
  | scan i kids =>
    simp only [State.runWait] at ht
    split at ht
    next hi =>
      split at ht
      · split at ht
        next hz =>
          split at ht <;> cases ht
          · exact .report ⟨i, hi⟩ _ hz rfl ⟨rfl, rfl, rfl, rfl, rfl, fun _ => Iff.rfl⟩ rfl
          · exact .of_eq rfl rfl rfl rfl rfl rfl rfl
        next =>
          cases ht
          exact .of_eq rfl rfl rfl rfl rfl rfl rfl
      · cases ht
        exact .of_eq rfl rfl rfl rfl rfl rfl rfl
    next =>
      split at ht <;> cases ht
      · exact .of_eq rfl rfl rfl rfl rfl rfl rfl
      · have hsl : SameIds s (s.setState p .sleeping) := .setState (by rw [hst]; decide) (by decide)
        exact .same ⟨rfl, rfl, rfl, rfl, rfl, hsl.unused⟩ rfl
  | asleep =>
    cases ht
    exact .of_eq rfl rfl rfl rfl rfl rfl rfl

theorem idEvent {a : Action} (hinv : s.Inv) (ht : exec s a = some t) (hkill : ∀ q, a ≠ .kill q) :
    IdEvent s t := by
  cases a with
  | fork p q ok =>
    obtain ⟨hen, rfl⟩ := Run.of_guard ht
    cases ok with
    | true => exact .alloc q hen.2.2 ⟨rfl, rfl, rfl, rfl, rfl, fun _ => Iff.rfl⟩ rfl
    | false => exact .fail q hen.2.2 (.refl _) rfl
  | exit p status | wait p x =>
    simp only [exec] at ht
    split at ht <;> cases ht
    exact .of_eq rfl rfl rfl rfl rfl rfl rfl
  | run p copied =>
    simp only [exec] at ht
    split at ht
    next hst =>
      split at ht
      next f hpc => exact idEvent_runFork hinv hpc ht
      next status e hpc => exact idEvent_runExit hst ht
      next x w hpc => exact idEvent_runWait hst ht
      next => cases ht
    next => cases ht
  | dispatch q =>
    obtain ⟨hst, rfl⟩ := Run.of_guard ht
    have hrun : SameIds s (s.setState q .running) := .setState (by rw [hst]; decide) (by decide)
    exact .same ⟨rfl, rfl, rfl, rfl, rfl, hrun.unused⟩ rfl
  | yield p =>
    obtain ⟨hen, rfl⟩ := Run.of_guard ht
    exact .same (.setState (by rw [hen.1]; decide) (by decide)) rfl
  | sleep p n =>
    obtain ⟨hen, rfl⟩ := Run.of_guard ht
    have hsl : SameIds s (s.setState p .sleeping) := .setState (by rw [hen.1]; decide) (by decide)
    exact .same ⟨rfl, rfl, rfl, rfl, rfl, hsl.unused⟩ rfl
  | wakeup n q =>
    cases ht
    split
    next hq => exact .same (.setState (by rw [hq.1]; decide) (by decide)) rfl
    next => exact .same (.refl s) rfl
  | kill q => exact absurd rfl (hkill q)

/-! ### Reports -/

/-- The identities of the processes in the table are new: no one shares them, and they
have not been reported. -/
structure State.Ids (s : State) : Prop where
  nodup : (s.reports.map Report.id).Nodup
  reported_lt : ∀ n ∈ s.reports.map Report.id, n < s.nextid
  id_lt : ∀ q, s.state q ≠ .unused → s.id q < s.nextid
  unreported : ∀ q, s.state q ≠ .unused → s.id q ∉ s.reports.map Report.id
  unique : ∀ q q', s.state q ≠ .unused → s.state q' ≠ .unused → s.id q = s.id q' → q = q'

namespace State.Ids

theorem boot_ids : boot.Ids := by
  have hinit : ∀ q, boot.state q ≠ .unused → q = initproc := by
    intro q hq
    by_contra hne
    simp [boot, update_of_ne hne] at hq
  constructor
  · exact List.nodup_nil
  · simp [boot]
  · simp [boot]
  · simp [boot]
  · intro q q' hq hq' _
    rw [hinit q hq, hinit q' hq']

section

variable (h : s.Ids)
include h

/-- A step that makes no slot used and reports nothing. -/
theorem frame (hid : t.id = s.id) (hnext : t.nextid = s.nextid)
    (hreports : t.reports = s.reports)
    (hstate : ∀ q, t.state q ≠ .unused → s.state q ≠ .unused) : t.Ids := by
  constructor
  · rw [hreports]
    exact h.nodup
  · rw [hreports, hnext]
    exact h.reported_lt
  · rw [hid, hnext]
    exact fun q hq => h.id_lt q (hstate q hq)
  · rw [hid, hreports]
    exact fun q hq => h.unreported q (hstate q hq)
  · rw [hid]
    exact fun q q' hq hq' => h.unique q q' (hstate q hq) (hstate q' hq')

theorem setState (st : ProcState) (hp : s.state p ≠ .unused) : (s.setState p st).Ids := by
  refine h.frame rfl rfl rfl ?_
  intro q hq
  by_cases hqp : q = p
  · rwa [hqp]
  · simpa [State.setState, update_of_ne hqp] using hq

theorem allocproc (hq : s.state q = .unused) : (s.allocproc q).Ids := by
  have hcases : ∀ p, (s.allocproc q).state p ≠ .unused →
      p = q ∧ (s.allocproc q).id p = s.nextid ∨
        p ≠ q ∧ s.state p ≠ .unused ∧ (s.allocproc q).id p = s.id p := by
    intro p hp
    by_cases hpq : p = q
    · subst hpq
      exact .inl ⟨rfl, by simp [State.allocproc]⟩
    · refine .inr ⟨hpq, ?_, by simp [State.allocproc, update_of_ne hpq]⟩
      simpa [State.allocproc, State.setState, update_of_ne hpq] using hp
  constructor
  · exact h.nodup
  · exact fun n hn => Nat.lt_succ_of_lt (h.reported_lt n hn)
  · intro p hp
    rcases hcases p hp with ⟨-, hid⟩ | ⟨-, hp, hid⟩ <;> rw [hid]
    · exact Nat.lt_succ_self _
    · exact Nat.lt_succ_of_lt (h.id_lt p hp)
  · intro p hp
    rcases hcases p hp with ⟨-, hid⟩ | ⟨-, hp, hid⟩ <;> rw [hid]
    · exact fun hmem => Nat.lt_irrefl _ (h.reported_lt _ hmem)
    · exact h.unreported p hp
  · intro p p' hp hp' heq
    rcases hcases p hp with ⟨hpq, hid⟩ | ⟨-, hp, hid⟩ <;>
      rcases hcases p' hp' with ⟨hpq', hid'⟩ | ⟨-, hp', hid'⟩ <;> rw [hid, hid'] at heq
    · rw [hpq, hpq']
    · exact absurd heq.symm (Nat.ne_of_lt (h.id_lt p' hp'))
    · exact absurd heq (Nat.ne_of_lt (h.id_lt p hp))
    · exact h.unique p p' hp hp' heq

theorem freeproc : (s.freeproc q).Ids := by
  refine h.frame rfl rfl rfl ?_
  intro p hp
  have hpq : p ≠ q := by
    rintro rfl
    simp [State.freeproc, State.setState, setParent, setChan] at hp
  simpa [State.freeproc, State.setState, setParent, setChan, update_of_ne hpq] using hp

/-- A report of a process ends its identity. -/
theorem report (hq : s.state q ≠ .unused) {r : Report} (hr : r.id = s.id q) :
    State.Ids { s.freeproc q with reports := s.reports ++ [r] } := by
  have hfree := h.freeproc (q := q)
  have hfresh := h.unreported q hq
  have hmem : ∀ n, n ∈ (s.reports ++ [r]).map Report.id ↔
      n ∈ s.reports.map Report.id ∨ n = s.id q := by
    intro n
    simp [hr]
  constructor
  · rw [List.map_append, List.map_singleton, hr]
    exact (List.perm_append_singleton ..).nodup_iff.mpr (List.nodup_cons.mpr ⟨hfresh, h.nodup⟩)
  · intro n hn
    rcases (hmem n).mp hn with hn | rfl
    · exact h.reported_lt n hn
    · exact h.id_lt q hq
  · exact hfree.id_lt
  · intro p hp hmem'
    rcases (hmem (s.id p)).mp hmem' with hold | heq
    · exact hfree.unreported p hp hold
    · -- the freed slot is UNUSED
      have hpq : p ≠ q := by
        rintro rfl
        simp [State.freeproc, State.setState, setParent, setChan] at hp
      have hps : s.state p ≠ .unused := by
        simpa [State.freeproc, State.setState, setParent, setChan, update_of_ne hpq] using hp
      exact hpq (h.unique p q hps hq heq)
  · exact hfree.unique

theorem same (hst : SameIds s t) (hreports : t.reports = s.reports) : t.Ids :=
  h.frame hst.id hst.nextid hreports fun q hq h0 => hq ((hst.unused q).mpr h0)

end

theorem step {a : Action} (h : s.Ids) (hinv : s.Inv) (ht : exec s a = some t) : t.Ids := by
  by_cases hkill : ∃ q, a = .kill q
  · obtain ⟨q, rfl⟩ := hkill
    simp only [exec, Option.some.injEq] at ht
    subst ht
    have hkilled : State.Ids { s with killed := update s.killed q true } := { h with }
    split
    next hq => exact hkilled.setState .runnable (by rw [show s.state q = _ from hq]; simp)
    next => exact hkilled
  · cases idEvent hinv ht fun q hq => hkill ⟨q, hq⟩ with
    | same hst hr => exact h.same hst hr
    | alloc q hq hst hr => exact (h.allocproc hq).same hst hr
    | fail q hq hst hr => exact (h.allocproc hq).freeproc.same hst hr
    | report q r hz hid hst hr =>
      have hreport := h.report (by rw [hz]; decide) hid
      exact hreport.same ⟨hst.pid, hst.killed, hst.id, hst.nextpid, hst.nextid, hst.unused⟩ hr

end State.Ids

/-! ### The protocol -/

/-- **The exit/wait protocol.** In every interleaving of `fork`, `exit`, `wait`, `waitx`,
`kill` and the scheduler: whenever nobody holds `wait_lock`, every process but `initproc`
that is SLEEPING, RUNNABLE, RUNNING or ZOMBIE has a parent that is neither UNUSED nor
ZOMBIE, and no process asleep in `wait` or `waitx` has a ZOMBIE child. No process is
reported twice. -/
theorem exit_wait_protocol (s : State) (hs : Run.Reachable (· = boot) (Run.relOf exec) s) :
    (s.waitLock = none →
      (∀ p, p ≠ initproc → s.state p ∈ [.sleeping, .runnable, .running, .zombie] →
        ∃ r, s.parent p = some r ∧ s.state r ≠ .unused ∧ s.state r ≠ .zombie) ∧
      ∀ p q, s.Asleep p → s.parent q = some p → s.state q ≠ .zombie) ∧
    (s.reports.map Report.id).Nodup := by
  obtain ⟨hinv, hids⟩ : s.Inv ∧ s.Ids :=
    hs.invariant (fun s => s.Inv ∧ s.Ids)
      (fun _ heq => heq ▸ ⟨State.Inv.boot_inv, State.Ids.boot_ids⟩)
      fun _ _ _ h _ hstep => ⟨h.1.step hstep, h.2.step h.1 hstep⟩
  refine ⟨fun hfree => ⟨?_, ?_⟩, hids.nodup⟩
  · intro p hp hst
    have hlz : Live (s.state p) ∨ s.state p = .zombie := by
      simp only [List.mem_cons, List.not_mem_nil, or_false] at hst
      rcases hst with hst | hst | hst | hst
      · exact .inl (.inl hst)
      · exact .inl (.inr (.inl hst))
      · exact .inl (.inr (.inr hst))
      · exact .inr hst
    obtain ⟨r, hr⟩ := Option.ne_none_iff_exists'.mp (hinv.has_parent hp hlz)
    refine ⟨r, hr, ?_⟩
    rcases hinv.parent_live hr with hlive | hlive | hlive <;> rw [hlive] <;> simp
  · intro p q hsl hpar hz
    obtain ⟨-, e, st, i, hlock, -⟩ := hinv.woken hz hpar hsl
    rw [hfree] at hlock
    cases hlock

/-- The slot of the first child of `initproc`. -/
def firstChild : Slot := ⟨1, Nat.succ_lt_succ (Nat.zero_lt_succ _)⟩

/-- `initproc` forks and waits, and its child exits. -/
def childExits : List Action :=
  [.dispatch initproc, .fork initproc firstChild true, .run initproc true, .run initproc true,
    .wait initproc false, .run initproc true] ++ List.replicate 65 (.run initproc true) ++
    [.dispatch firstChild, .exit firstChild 7] ++ List.replicate 132 (.run firstChild true)

/-- `initproc` went to sleep in `wait` and is RUNNABLE again. -/
theorem exit_wait_protocol_child : ∃ s : State,
    s.state firstChild = .zombie ∧ s.parent firstChild = some initproc ∧ s.waitLock = none ∧
      s.pc initproc = .wait false .asleep ∧ ¬ s.Asleep initproc := by
  obtain ⟨s, hreach, hz, hpar, hlock, hpc⟩ : ∃ s, Run.Reachable (· = boot) (Run.relOf exec) s ∧
      s.state firstChild = .zombie ∧ s.parent firstChild = some initproc ∧ s.waitLock = none ∧
      s.pc initproc = .wait false .asleep := Run.exists_reachable childExits rfl (by decide +kernel)
  have hprotocol := exit_wait_protocol s hreach
  exact ⟨s, hz, hpar, hlock, hpc, fun hsl => (hprotocol.1 hlock).2 _ _ hsl hpar hz⟩

end Xv6.Wait
