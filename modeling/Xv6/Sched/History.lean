import Xv6.Sched.Aging

/-!
Time slices and waiting times of the MLFQ scheduler on one CPU.

A `History` carries beside the state what the kernel's counters stand for: how many ticks
each process has been RUNNABLE for since it became so, entered a queue or was promoted, and
how many ticks the running process has run for since its dispatch, at which level. No kernel
function reads it. `curr_rtime` and `curr_wtime` count what they should while a process runs
and while it is queued (`Inv`). The count of a process that waits outside of the queues may
be left over from an earlier wait.
-/

namespace Xv6.Sched.SingleCpu

open Table (setState)
open Proc (ticked)

structure History where
  state : State
  /-- The ticks at which a process was RUNNABLE since its wait began. -/
  waited : ℕ → ℕ
  /-- The ticks since the last dispatch, and the level of the process dispatched. -/
  ran : ℕ
  level : ℕ

namespace History

/-- A wait begins: the process becomes RUNNABLE, enters a queue or is promoted. -/
def Begins (r r' : Proc) : Prop :=
  r.state ≠ .runnable ∨ r.inQueue = false ∧ r'.inQueue = true ∨ r'.priority < r.priority

instance (r r' : Proc) : Decidable (Begins r r') := by
  unfold Begins; infer_instance

/-- The level of the running process. -/
def currentLevel (s : State) : ℕ :=
  match s.current with
  | some p => (s.table.proc p).priority
  | none => 0

/-- The history after step `a` to `s'`. A step from a state where no process runs to one
where a process does is a dispatch. -/
def record (h : History) (a : Action) (s' : State) : History where
  state := s'
  waited x := if Begins (h.state.table.proc x) (s'.table.proc x) then 0 else h.waited x + a.ticks
  ran := if h.state.current = none then 0 else h.ran + a.ticks
  level := if h.state.current = none then currentLevel s' else h.level

def exec (h : History) (a : Action) : Option History :=
  (SingleCpu.exec h.state a).map (h.record a)

def init : History := ⟨SingleCpu.init, fun _ => 0, 0, 0⟩

def Reachable : History → Prop := Run.Reachable (· = init) (Run.relOf exec)

theorem exec_eq_some {h h' : History} {a : Action} : h.exec a = some h' ↔
    ∃ s', SingleCpu.exec h.state a = some s' ∧ h.record a s' = h' := Option.map_eq_some_iff

/-- Every reachable state has a history. -/
theorem exists_history {s : State} (h : SingleCpu.Reachable s) :
    ∃ g, Reachable g ∧ g.state = s := by
  induction h with
  | start hs => exact ⟨init, .start rfl, hs.symm⟩
  | next _ _ hstep ih =>
    obtain ⟨g, hg, rfl⟩ := ih
    exact ⟨_, .next hg trivial (exec_eq_some.mpr ⟨_, hstep, rfl⟩), rfl⟩

/-! ### The counters -/

theorem priorityLevels_eq {k : ℕ} (h : k < NQUEUE) : priorityLevels k = 2 ^ k := by
  revert k
  decide

structure Inv (h : History) : Prop where
  kernel : SingleCpu.Inv h.state
  queued : ∀ x, (h.state.table.proc x).inQueue = true →
    (h.state.table.proc x).currWtime = h.waited x ∧ (h.state.table.proc x).currRtime = 0
  running : ∀ p, h.state.current = some p → p < NPROC ∧ (h.state.table.proc p).priority = h.level ∧
    (h.state.table.proc p).currRtime = h.ran ∧ h.ran < 2 ^ h.level

variable {h h' : History} {s' : State} {a : Action} {p x : ℕ}

theorem Inv.attended (inv : Inv h) : Attended h.state :=
  ⟨inv.kernel.table, inv.kernel.order, fun p hp => (inv.kernel.running_iff p).mpr hp⟩

/-- The wait of a process that stays queued goes on. -/
theorem waited_of_queued (inv : Inv h) (hq : (h.state.table.proc x).inQueue = true)
    (hpr : (s'.table.proc x).priority = (h.state.table.proc x).priority) :
    (h.record a s').waited x = h.waited x + a.ticks := by
  apply if_neg
  rintro (hst | ⟨hnot, -⟩ | hlt)
  · exact hst (inv.kernel.table.queued x hq).2
  · cases hnot.symm.trans hq
  · exact absurd hpr (Nat.ne_of_lt hlt)

/-- The counters of the processes queued by the enqueue loop. -/
theorem Inv.filled (inv : Inv h) {filled : Table} (hfilled : Table.Filled h.state.table filled)
    (s' : State) (hs' : s'.table.proc x = filled.proc x) (hq : (filled.proc x).inQueue = true) :
    (filled.proc x).currWtime = (h.record .schedule s').waited x ∧
      (filled.proc x).currRtime = 0 := by
  have hproc := hfilled.proc_eq x
  split at hproc
  · next hwait =>
    have hbegins : Begins (h.state.table.proc x) (s'.table.proc x) :=
      .inr (.inl ⟨hwait.2.2, by rw [hs', hq]⟩)
    rw [hproc]
    exact ⟨(if_pos hbegins).symm, rfl⟩
  · rw [hproc] at hq hs' ⊢
    rw [waited_of_queued inv hq (by rw [hs'])]
    exact inv.queued x hq

theorem Inv.schedule (inv : Inv h) (hstep : SingleCpu.exec h.state .schedule = some s') :
    Inv (h.record .schedule s') := by
  have hkernel := inv.kernel.step hstep
  obtain ⟨filled, -, hinv, hfilled, hround⟩ := inv.kernel.table.schedule
  simp only [SingleCpu.exec] at hstep
  split at hstep
  · next t found hcur hsched =>
    cases hstep
    rcases hround with ⟨-, heq⟩ | ⟨k, p, l, q, -, hl, -, -, -, heq⟩
    · rw [heq] at hsched
      cases hsched
      exact ⟨hkernel, fun x hq => inv.filled hfilled _ rfl hq, fun _ hx => by cases hx⟩
    · rw [heq] at hsched
      cases hsched
      have hmem := (hinv.mem_iff k p).mp (hl ▸ List.mem_cons_self)
      set d := ((filled.setQueue k q).modify p fun r => { r with inQueue := false }).setState p
        .running with hd
      have hother : ∀ x, x ≠ p → d.proc x = filled.proc x := fun x hx => by
        simp [hd, setState, Table.modify_proc, hx]
      have hself : (d.proc p).inQueue = false ∧ (d.proc p).currRtime = (filled.proc p).currRtime := by
        simp [hd, setState]
      refine ⟨hkernel, fun x hq => ?_, fun x hx => ?_⟩
      · have hq : (d.proc x).inQueue = true := hq
        have hne : x ≠ p := by
          rintro rfl
          cases hself.1.symm.trans hq
        have hold := hother x hne
        have hcount := inv.filled hfilled ⟨d, some p, Table.stampLoop (List.range NPROC)
          h.state.table h.state.stamps⟩ hold (hold ▸ hq)
        rwa [← hold] at hcount
      · cases hx
        simp only [record, if_pos hcur]
        refine ⟨(hinv.queued p hmem.1).1, rfl, ?_, Nat.two_pow_pos _⟩
        exact hself.2.trans (inv.filled hfilled ⟨filled, none, h.state.stamps⟩ rfl hmem.1).2
  · cases hstep

/-- A tick that leaves a process running has not used up its slice. -/
theorem tick_current {s : State} {user : Bool} (hexec : SingleCpu.exec s (.tick user) = some s')
    (hp : s'.current = some p) : ¬ s'.table.sliceUsed p := by
  simp only [SingleCpu.exec] at hexec
  split at hexec
  · next hcur =>
    obtain rfl := Option.some.inj hexec
    cases hcur.symm.trans hp
  · next q hcur =>
    obtain rfl := Option.some.inj hexec
    rcases trap_cases user (clockintr s.table (some q)) q with
      ⟨-, h⟩ | ⟨-, -, h⟩ | ⟨-, -, -, h⟩ | ⟨-, hslice, -, h⟩
    all_goals
      rw [h] at hp ⊢
      cases hp
    exact hslice

theorem Inv.step (inv : Inv h) (hexec : h.exec a = some h') : Inv h' := by
  obtain ⟨s', hstep, rfl⟩ := exec_eq_some.mp hexec
  by_cases ha : a = .schedule
  · subst ha
    exact inv.schedule hstep
  · have hkernel := inv.kernel.step hstep
    obtain ⟨-, hcurrent, hmoves⟩ := inv.attended.step ha hstep
    refine ⟨hkernel, fun x hq => ?_, fun p hp => ?_⟩
    · have hx := (hkernel.table.queued x hq).1
      obtain ⟨hq₀, hpr, hwait, hrun⟩ := (hmoves x hx).queued hq
      obtain ⟨hwaited, hzero⟩ := inv.queued x hq₀
      rw [waited_of_queued inv hq₀ hpr, ← hwaited]
      exact ⟨hwait, hrun.trans hzero⟩
    · have hcur := hcurrent p hp
      obtain ⟨hx, hlevel, hran, hlt⟩ := inv.running p hcur
      obtain ⟨-, hpr, hrun⟩ := (hmoves p hx).running ((hkernel.running_iff p).mpr hp)
      have hne : h.state.current ≠ none := by rw [hcur]; nofun
      simp only [record, if_neg hne]
      refine ⟨hx, hpr.trans hlevel, hrun.trans (by rw [hran]), ?_⟩
      cases a with
      | tick user =>
        have hslice := tick_current hstep hp
        unfold Table.sliceUsed at hslice
        rwa [hpr, hlevel, hrun, hran, priorityLevels_eq (hlevel ▸ inv.kernel.table.level_lt p),
          Nat.not_le] at hslice
      | _ => exact hlt

theorem inv_init : Inv init := by
  refine ⟨SingleCpu.inv_init, fun x hq => ?_, nofun⟩
  by_cases hx : x = 0
  · subst hx
    cases hq
  · simp [init, SingleCpu.init, setState, Table.allocprocAt, Table.modify_proc, hx,
      Table.zero, Proc.zero]

theorem Reachable.inv (hr : Reachable h) : Inv h :=
  Run.ReachableUnder.invariant Inv (by rintro _ rfl; exact inv_init)
    (fun _ _ _ inv _ hstep => inv.step hstep) hr

/-! ### Time slices -/

/-- The trap handler of a tick sends the running process to `exit`. -/
def Exits (user : Bool) (s : State) (p : ℕ) : Prop := user ∧ (s.table.proc p).killed

/-- What a tick does to the running process. At the end of a slice `kerneltrap` leaves the
count of an earlier wait. -/
theorem Inv.tick (inv : Inv h) {user : Bool} (hp : h.state.current = some p)
    (hstep : SingleCpu.exec h.state (.tick user) = some s') :
    Exits user h.state p ∧ s'.current = none ∧ (s'.table.proc p).state = .zombie ∧
        (s'.table.proc p).priority = h.level ∨
      ¬ Exits user h.state p ∧ h.ran + 1 = 2 ^ h.level ∧ s'.current = none ∧
        (s'.table.proc p).state = .runnable ∧ (s'.table.proc p).priority = min 4 (h.level + 1) ∧
        (user = false → (s'.table.proc p).currWtime = (h.state.table.proc p).currWtime) ∨
      ¬ Exits user h.state p ∧ h.ran + 1 ≠ 2 ^ h.level ∧ s'.current = some p ∧
        (s'.table.proc p).priority = h.level := by
  obtain ⟨hx, hlevel, hran, hlt⟩ := inv.running p hp
  have hst := (inv.kernel.running_iff p).mpr hp
  have hlow := hlevel ▸ inv.kernel.table.level_lt p
  have hclock := inv.kernel.keep (keeps_clockintr inv.kernel.table inv.kernel.order (some p))
  have hproc : (clockintr h.state.table (some p)).proc p = ticked (h.state.table.proc p) := by
    rcases clockintr_proc h.state.table (some p) hx with h | ⟨hsleep, -⟩
    · exact h
    · cases hst.symm.trans hsleep
  have hpr : ((clockintr h.state.table (some p)).proc p).priority = h.level := by
    rw [hproc, ticked, hst, ← hlevel]
  have hkilled : ((clockintr h.state.table (some p)).proc p).killed = (h.state.table.proc p).killed := by
    rw [hproc, ticked, hst]
  have hused : (clockintr h.state.table (some p)).sliceUsed p ↔ h.ran + 1 = 2 ^ h.level := by
    rw [Table.sliceUsed, hpr, priorityLevels_eq hlow, hproc, ticked, hst, ← hran]
    dsimp only
    omega
  simp only [SingleCpu.exec, hp] at hstep
  obtain rfl := Option.some.inj hstep
  have hcases := trap_cases user (clockintr h.state.table (some p)) p
  rw [hused, hkilled] at hcases
  rcases hcases with ⟨hexit, h⟩ | ⟨hexit, hlast, h⟩ | ⟨-, -, hhigher, -⟩ | ⟨hexit, hlast, -, h⟩
  · refine .inl ⟨hexit, ?_⟩
    rw [h]
    exact ⟨rfl, by simp [Table.exitAt], by simpa [Table.exitAt] using hpr⟩
  · refine .inr (.inl ⟨hexit, hlast, ?_⟩)
    rw [h]
    refine ⟨rfl, by simp [setState], ?_, ?_⟩
    · unfold NQUEUE at hlow
      cases user <;> simp only [setState, Table.demote, Table.modify_proc_self, Proc.demote, hpr] <;>
        simp <;> split <;> omega
    · rintro rfl
      simp [setState, Table.demote, hproc, ticked, hst]
  · exact absurd hhigher (hclock.not_higherQueued hp)
  · refine .inr (.inr ⟨hexit, hlast, ?_⟩)
    rw [h]
    exact ⟨rfl, hpr⟩

/-- `update_time` decreases the priority number at the next tick. -/
def Promoted (s : State) (x : ℕ) : Prop :=
  ((clockintr s.table s.current).proc x).priority < (s.table.proc x).priority

/-- Which is when the count has come to 30 above level `0`. -/
theorem promoted_iff {s : State} (hx : x < NPROC) (hst : (s.table.proc x).state = .runnable) :
    Promoted s x ↔ 29 ≤ (s.table.proc x).currWtime ∧ 0 < (s.table.proc x).priority := by
  have hproc : (clockintr s.table s.current).proc x = ticked (s.table.proc x) := by
    rcases clockintr_proc s.table s.current hx with h | ⟨hsleep, -⟩
    · exact h
    · cases hst.symm.trans hsleep
  simp only [Promoted, hproc, ticked, hst]
  split
  · dsimp only
    omega
  · dsimp only
    omega

/-- **Aging needs a full wait** of a process that is in a queue: it has been RUNNABLE at 30
ticks, the one that promotes it included, since it became RUNNABLE, entered its queue or was
promoted. -/
theorem aging_full_wait (h : History) (x : ℕ) (hr : Reachable h)
    (hq : (h.state.table.proc x).inQueue = true) (hpromoted : Promoted h.state x) :
    30 ≤ h.waited x + 1 := by
  obtain ⟨hx, hst⟩ := hr.inv.kernel.table.queued x hq
  obtain ⟨hcount, -⟩ := (promoted_iff hx hst).mp hpromoted
  rw [(hr.inv.queued x hq).1] at hcount
  omega

theorem aging_full_wait_busy : ∃ h, Reachable h ∧ Promoted h.state 0 ∧ 30 ≤ h.waited 0 + 1 := by
  obtain ⟨s, hs, -, ⟨hlevel, hcount, -⟩, -⟩ := exists_busy
  obtain ⟨h, hr, rfl⟩ := exists_history hs
  have hmem : 0 ∈ (h.state.table.level 1).take 2 := by simp [hlevel]
  obtain ⟨hq, hpr⟩ := (hs.inv.table.mem_iff 1 0).mp (List.mem_of_mem_take hmem)
  have hst := (hs.inv.table.queued 0 hq).2
  have hpromoted := (promoted_iff (by decide) hst).mpr ⟨by rw [hcount], by rw [hpr]; decide⟩
  exact ⟨h, hr, hpromoted, aging_full_wait h 0 hr hq hpromoted⟩

/-- A process dispatched after a wait of 29 ticks is moved down by `kerneltrap`, which leaves
the count: the next tick promotes it. -/
theorem stale_wait_promotes : ∃ h, Reachable h ∧ Promoted h.state 31 ∧ h.waited 31 = 0 := by
  obtain ⟨s₀, hs₀, -, -, hnext⟩ := exists_busy
  obtain ⟨s, hrun₀, hcur, hcount, hpr⟩ := Run.exists_some hnext
  have hs : SingleCpu.Reachable s := Run.reachable_of_execAll hs₀ hrun₀
  obtain ⟨g, hg, rfl⟩ := exists_history hs
  obtain ⟨s', hs'⟩ := exists_tick g.state false
  have hst := (hs.inv.running_iff 31).mpr hcur
  obtain ⟨-, hlevel, -, hlt⟩ := hg.inv.running 31 hcur
  rw [hpr] at hlevel
  rw [← hlevel] at hlt
  rcases hg.inv.tick hcur hs' with ⟨⟨h, -⟩, -⟩ | ⟨-, -, -, hrun, hdown, hkept⟩ | ⟨-, h, -⟩
  · cases h
  · refine ⟨g.record (.tick false) s', .next hg trivial (exec_eq_some.mpr ⟨s', hs', rfl⟩), ?_,
      if_pos (.inl (by rw [hst]; decide))⟩
    exact (promoted_iff (by decide) hrun).mpr
      ⟨by rw [hkept rfl, hcount], by rw [hdown, ← hlevel]; decide⟩
  · rw [← hlevel] at h
    omega

end History

end Xv6.Sched.SingleCpu
