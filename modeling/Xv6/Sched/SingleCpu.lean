import Xv6.Lib.Run
import Xv6.Sched.Round

/-!
The MLFQ kernel on one CPU: each scheduler round, each timer tick with its trap
handler, and each `fork`, `sleep`, `wakeup`, `kill`, `yield`, `exit` and reaping by
`wait` is one step.

`tick` is a timer interrupt: `clockintr` and then, if a process runs, the handler's
MLFQ check. A killed process exits in `usertrap` before the check; `kerneltrap` has no
such test. The wakeups that `exit` performs are `wakeup` steps of their own.

The pids of processes may coincide once `nextpid` has wrapped around, and `delqueue` finds its
entry by pid. With one CPU this does no harm: `update_time` runs to its end between two rounds,
so each queue is in the order of the time spent in it.

Two results. A round dispatches the process enqueued earliest at the least level of
any RUNNABLE process, with one dequeue, and leaves all others queued in order
(`mlfq_dispatch`). While a process runs, all queues below its level are empty, because
only the scheduler fills queues; so the check's test of their lengths never succeeds
and a running process yields at a tick exactly when its slice is used up
(`mlfq_preemption_iff`).
-/

namespace Xv6.Sched.SingleCpu

open Table (Stamps Stamped InOrder stampLoop modify_proc level_modify setState)

/-- The channel `&ticks`. -/
def ticksChan : ℕ := 1

/-- `clockintr`, taken while `me` runs. -/
def clockintr (t : Table) (me : Option ℕ) : Table :=
  (Table.updateTime { t with ticks := (t.ticks + 1) % 2 ^ 32 }).wakeup me ticksChan

/-- The MLFQ check of `usertrap` and `kerneltrap`, and whether it calls `yield`. -/
def mlfqCheck (user : Bool) (t : Table) (p : ℕ) : Table × Bool :=
  if t.sliceUsed p then ((t.demote user p).setState p .runnable, true)
  else if t.higherQueued p then (t.setState p .runnable, true)
  else (t, false)

structure State where
  table : Table
  /-- `c->proc`. -/
  current : Option ℕ
  /-- When each process was enqueued; no kernel function reads it. -/
  stamps : Stamps

inductive Action where
  | schedule
  | tick (user : Bool)
  /-- `fork`; with `ok = false` it runs out of memory after `allocproc`. -/
  | fork (ok : Bool)
  | sleep (chan : ℕ)
  | wakeup (chan : ℕ)
  | kill (pid : ℤ)
  | yield
  | exit
  /-- `wait` reaps the zombie in slot `q`. -/
  | reap (q : ℕ)

/-- `fork`, as far as the table is concerned. -/
def fork (t : Table) (ok : Bool) : Table :=
  match t.freeSlot with
  | none => t
  | some q => if ok then (t.allocprocAt q).setState q .runnable else (t.allocprocAt q).freeproc q

/-- The trap handler of a timer interrupt in process `p`, after `clockintr`. -/
def trap (user : Bool) (t : Table) (p : ℕ) : Table × Option ℕ :=
  if user ∧ (t.proc p).killed then (t.exitAt p, none)
  else
    let check := mlfqCheck user t p
    (check.1, if check.2 then none else some p)

def exec (s : State) : Action → Option State
  | .schedule =>
    match s.current, s.table.schedule with
    | none, .ok (t, found) =>
      some ⟨t, found, stampLoop (List.range NPROC) s.table s.stamps⟩
    | _, _ => none
  | .tick user =>
    match s.current with
    | none => some { s with table := clockintr s.table none }
    | some p =>
      let after := trap user (clockintr s.table (some p)) p
      some { s with table := after.1, current := after.2 }
  | .fork ok => if s.current.isSome then some { s with table := fork s.table ok } else none
  | .sleep chan =>
    match s.current with
    | some p => some { s with table := s.table.sleep p chan, current := none }
    | none => none
  | .wakeup chan => some { s with table := s.table.wakeup s.current chan }
  | .kill pid => if s.current.isSome then some { s with table := s.table.kill pid } else none
  | .yield =>
    match s.current with
    | some p => some { s with table := s.table.setState p .runnable, current := none }
    | none => none
  | .exit =>
    match s.current with
    | some p => some { s with table := s.table.exitAt p, current := none }
    | none => none
  | .reap q =>
    if s.current.isSome ∧ (s.table.proc q).state = .zombie then
      some { s with table := s.table.freeproc q }
    else none

/-- After `userinit`. -/
def init : State where
  table := (Table.zero.allocprocAt 0).setState 0 .runnable
  current := none
  stamps := ⟨fun _ => 0, 0⟩

def Reachable : State → Prop := Run.Reachable (· = init) (Run.relOf exec)

/-! ### Changes that leave the running process alone -/

/-- From `t` to `t'` no process starts or stops RUNNING, a RUNNING one keeps its level,
processes only leave queues, and those that stay have waited for the same time more. -/
structure Keeps (t t' : Table) : Prop where
  consistent : t'.Consistent
  running : ∀ x, (t'.proc x).state = .running ↔ (t.proc x).state = .running
  priority : ∀ x, (t.proc x).state = .running → (t'.proc x).priority = (t.proc x).priority
  level : ∀ k, (t'.level k).Sublist (t.level k)
  count : ∃ n, ∀ k, ∀ x ∈ t'.level k, (t'.proc x).pid = (t.proc x).pid ∧
    (t'.proc x).currWtime = (t.proc x).currWtime + n

variable {t t' : Table} {p : ℕ}

theorem Keeps.refl (inv : t.Consistent) : Keeps t t :=
  ⟨inv, fun _ => Iff.rfl, fun _ _ => rfl, fun _ => .refl _, 0, fun _ _ _ => ⟨rfl, rfl⟩⟩

theorem Keeps.trans {t'' : Table} (h : Keeps t t') (h' : Keeps t' t'') : Keeps t t'' where
  consistent := h'.consistent
  running x := (h'.running x).trans (h.running x)
  priority x hx := (h'.priority x ((h.running x).mpr hx)).trans (h.priority x hx)
  level k := (h'.level k).trans (h.level k)
  count := by
    obtain ⟨n, hn⟩ := h.count
    obtain ⟨m, hm⟩ := h'.count
    refine ⟨n + m, fun k x hx => ?_⟩
    obtain ⟨hpid, hwait⟩ := hn k x ((h'.level k).subset hx)
    obtain ⟨hpid', hwait'⟩ := hm k x hx
    exact ⟨hpid'.trans hpid, by rw [hwait', hwait, Nat.add_assoc]⟩

theorem Keeps.inOrder (h : Keeps t t') (order : t.InOrder) : t'.InOrder := by
  obtain ⟨n, hn⟩ := h.count
  exact order.mono h.level hn

/-- A change of one record that is not RUNNING before or after, and not queued. -/
theorem Keeps.modify {f : Proc → Proc} (hcons : (t.modify p f).Consistent)
    (hbefore : (t.proc p).state ≠ .running) (hafter : (f (t.proc p)).state ≠ .running)
    (hnot : ∀ k, p ∉ t.level k) : Keeps t (t.modify p f) := by
  refine ⟨hcons, fun x => ?_, fun x hx => ?_, fun k => .refl _, 0, fun k x hx => ?_⟩
  · rw [modify_proc]
    split
    · next h =>
      subst h
      exact ⟨fun h => absurd h hafter, fun h => absurd h hbefore⟩
    · rfl
  · rw [modify_proc, if_neg]
    rintro rfl
    exact hbefore hx
  · rw [modify_proc, if_neg]
    · exact ⟨rfl, rfl⟩
    · rintro rfl
      exact hnot k hx

section

variable (inv : t.Consistent)
include inv

theorem keeps_updateTime (order : t.InOrder) : Keeps t t.updateTime := by
  obtain ⟨hcons, hlevel⟩ := inv.updateTimes List.nodup_range (order.agedFirst inv)
  have hproc := Table.foldl_updateTimeAt_proc (t := t) (List.nodup_range (n := NPROC))
  unfold Table.updateTime
  refine ⟨hcons, fun x => ?_, fun x hx => ?_, fun k => ?_, 1, fun k x hx => ?_⟩
  · rw [hproc]
    split
    · rw [Proc.ticked_state]
    · rfl
  · rw [hproc]
    split
    · rw [Proc.ticked, hx]
    · rfl
  · rw [hlevel]
    exact List.filter_sublist
  · have hq := ((hcons.mem_iff k x).mp hx).1
    have hmem : x ∈ List.range NPROC := List.mem_range.mpr (hcons.queued x hq).1
    rw [hproc, if_pos hmem] at hq ⊢
    rw [Table.ticked_of_queued (fun h => (inv.queued x h).2) hq]
    exact ⟨rfl, rfl⟩

theorem keeps_wakeup (me : Option ℕ) (chan : ℕ) : Keeps t (t.wakeup me chan) := by
  refine List.foldlRecOn (motive := Keeps t) _ _ (.refl inv) fun s hs p _ => hs.trans ?_
  have hcons := hs.consistent.wakeupAt chan p
  unfold Table.wakeupAt at hcons ⊢
  split
  · next h =>
    rw [if_pos h] at hcons
    exact .modify hcons (by simp [h.1]) (by simp) (hs.consistent.not_mem (by simp [h.1]))
  · exact .refl hs.consistent

theorem keeps_clockintr (order : t.InOrder) (me : Option ℕ) : Keeps t (clockintr t me) := by
  have htick : Table.Consistent { t with ticks := (t.ticks + 1) % 2 ^ 32 } := inv.congr rfl rfl
  obtain ⟨hcons, hrun, hpr, hlevel, hcount⟩ := keeps_updateTime htick order
  exact .trans ⟨hcons, hrun, hpr, hlevel, hcount⟩ (keeps_wakeup hcons me ticksChan)

theorem keeps_kill (pid : ℤ) : Keeps t (t.kill pid) := by
  unfold Table.kill
  split
  · next p _ =>
    by_cases hst : (t.proc p).state = .sleeping
    · exact .modify (inv.killAt p) (by simp [hst]) (by simp [hst]) (inv.not_mem (by simp [hst]))
    · have hproc : ∀ x, ((t.killAt p).proc x).state = (t.proc x).state ∧
          ((t.killAt p).proc x).priority = (t.proc x).priority ∧
          ((t.killAt p).proc x).pid = (t.proc x).pid ∧
          ((t.killAt p).proc x).currWtime = (t.proc x).currWtime := by
        intro x
        rw [Table.killAt, modify_proc]
        split
        · next hx => simp [hx, hst]
        · exact ⟨rfl, rfl, rfl, rfl⟩
      refine ⟨inv.killAt p, fun x => ?_, fun x _ => (hproc x).2.1, fun _ => .refl _, 0,
        fun _ x _ => (hproc x).2.2⟩
      rw [(hproc x).1]
  · exact .refl inv

theorem keeps_fork (ok : Bool) : Keeps t (fork t ok) := by
  unfold fork
  split
  · exact .refl inv
  · next q hfree =>
    have hst : (t.proc q).state = .unused := by
      simpa using List.find?_some hfree
    have hself : ((t.allocprocAt q).proc q).state = .used := by
      simp [Table.allocprocAt]
    have halloc := inv.allocprocAt hst
    have hother : ∀ x, x ≠ q → (t.allocprocAt q).proc x = t.proc x := fun x hx =>
      Function.update_of_ne hx _ _
    have hkeeps : Keeps t (t.allocprocAt q) := by
      have hne : ∀ x, (t.proc x).state = .running → x ≠ q := by
        rintro x hx rfl
        simp [hst] at hx
      refine ⟨halloc, fun x => ⟨fun hx => ?_, fun hx => ?_⟩, fun x hx => ?_, fun k => .refl _, 0,
        fun k x hx => ?_⟩
      · rwa [hother x (by rintro rfl; simp [hself] at hx)] at hx
      · rwa [hother x (hne x hx)]
      · rw [hother x (hne x hx)]
      · rw [hother x]
        · exact ⟨rfl, rfl⟩
        · rintro rfl
          exact inv.not_mem (by simp [hst]) k hx
    have hnot := halloc.not_mem (p := q) (by simp [hself])
    split
    · exact hkeeps.trans (.modify (halloc.setState (halloc.not_queued (by simp [hself])))
        (by simp [hself]) (by simp) hnot)
    · exact hkeeps.trans (.modify (halloc.freeproc (by simp [hself])) (by simp [hself]) (by simp) hnot)

theorem keeps_freeproc (hst : (t.proc p).state = .zombie) : Keeps t (t.freeproc p) :=
  .modify (inv.freeproc (by simp [hst])) (by simp [hst]) (by simp) (inv.not_mem (by simp [hst]))

end

/-! ### The invariant -/

structure Inv (s : State) : Prop where
  table : s.table.Consistent
  running_iff : ∀ x, (s.table.proc x).state = .running ↔ s.current = some x
  below : ∀ p, s.current = some p → ∀ k < (s.table.proc p).priority, s.table.level k = []
  stamped : Stamped s.table s.stamps
  order : s.table.InOrder

variable {s s' : State}

theorem inv_init : Inv init := by
  have halloc : (Table.zero.allocprocAt 0).Consistent := Table.zero_consistent.allocprocAt rfl
  have hcons : init.table.Consistent := halloc.setState rfl
  refine ⟨hcons, fun x => ⟨fun h => ?_, nofun⟩, nofun, ⟨fun k => .nil, nofun⟩, fun k => .nil⟩
  by_cases hx : x = 0
  · subst hx
    cases h
  · rw [init, setState, modify_proc, if_neg hx] at h
    have hzero : (Table.zero.allocprocAt 0).proc x = Proc.zero := Function.update_of_ne hx _ _
    rw [hzero] at h
    cases h

/-- A step that leaves the running process alone. -/
theorem Inv.keep (inv : Inv s) (h : Keeps s.table t) : Inv { s with table := t } where
  table := h.consistent
  running_iff x := (h.running x).trans (inv.running_iff x)
  below p hp k hk := by
    rw [h.priority p ((inv.running_iff p).mpr hp)] at hk
    exact List.sublist_nil.mp (inv.below p hp k hk ▸ h.level k)
  stamped := inv.stamped.of_sublist h.level
  order := h.inOrder inv.order

/-- The running process gives up the CPU. -/
theorem Inv.leave (inv : Inv s) {f : Proc → Proc} (hp : s.current = some p)
    (hcons : (s.table.modify p f).Consistent) (hst : (f (s.table.proc p)).state ≠ .running) :
    Inv { s with table := s.table.modify p f, current := none } where
  table := hcons
  running_iff x := by
    refine ⟨fun h => ?_, nofun⟩
    rw [modify_proc] at h
    split at h
    · exact absurd h hst
    · next hx =>
      have := (inv.running_iff x).mp h
      rw [hp] at this
      exact absurd (Option.some.inj this).symm hx
  below := nofun
  stamped := inv.stamped.of_sublist fun _ => .refl _
  order := by
    have hrun := (inv.running_iff p).mpr hp
    exact inv.order.modify (inv.table.not_mem (by simp [hrun]))

/-- While a process runs, no queue below its level has an entry. -/
theorem Inv.not_higherQueued (inv : Inv s) (hp : s.current = some p) :
    ¬ s.table.higherQueued p := by
  rintro ⟨i, hi, hlen⟩
  rw [inv.table.length_eq, inv.below p hp i hi] at hlen
  exact absurd hlen (by decide)

/-- So the check yields exactly when the slice is used up. -/
theorem Inv.mlfqCheck_yields (inv : Inv s) (hp : s.current = some p) (user : Bool) :
    (mlfqCheck user s.table p).2 = true ↔ s.table.sliceUsed p := by
  unfold mlfqCheck
  by_cases hslice : s.table.sliceUsed p
  · simp [hslice]
  · simp [hslice, inv.not_higherQueued hp]

/-- The four ways the trap handler ends: `exit`, demotion and `yield`, `yield`, or back to
the process. -/
theorem trap_cases (user : Bool) (t : Table) (p : ℕ) :
    (user ∧ (t.proc p).killed) ∧ trap user t p = (t.exitAt p, none) ∨
      ¬ (user ∧ (t.proc p).killed) ∧ t.sliceUsed p ∧
        trap user t p = ((t.demote user p).setState p .runnable, none) ∨
      ¬ (user ∧ (t.proc p).killed) ∧ ¬ t.sliceUsed p ∧ t.higherQueued p ∧
        trap user t p = (t.setState p .runnable, none) ∨
      ¬ (user ∧ (t.proc p).killed) ∧ ¬ t.sliceUsed p ∧ ¬ t.higherQueued p ∧
        trap user t p = (t, some p) := by
  by_cases hkilled : user ∧ (t.proc p).killed
  · exact .inl ⟨hkilled, if_pos hkilled⟩
  · by_cases hslice : t.sliceUsed p
    · exact .inr (.inl ⟨hkilled, hslice, by simp [trap, mlfqCheck, hkilled, hslice]⟩)
    · by_cases hhigher : t.higherQueued p
      · exact .inr (.inr (.inl ⟨hkilled, hslice, hhigher,
          by simp [trap, mlfqCheck, hkilled, hslice, hhigher]⟩))
      · exact .inr (.inr (.inr ⟨hkilled, hslice, hhigher,
          by simp [trap, mlfqCheck, hkilled, hslice, hhigher]⟩))

theorem consistent_trap (inv : t.Consistent) (hrun : (t.proc p).state = .running) (user : Bool) :
    (trap user t p).1.Consistent := by
  have hyield : ∀ {t' : Table}, t'.Consistent → (t'.proc p).state = .running →
      (t'.setState p .runnable).Consistent := fun hcons hst =>
    hcons.setState (hcons.not_queued (by simp [hst]))
  have hself : ((t.demote user p).proc p).state = .running := by
    cases user <;> simpa [Table.demote] using hrun
  rcases trap_cases user t p with ⟨-, h⟩ | ⟨-, -, h⟩ | ⟨-, -, -, h⟩ | ⟨-, -, -, h⟩ <;> rw [h]
  · exact inv.exitAt hrun
  · exact hyield (inv.demote user hrun) hself
  · exact hyield inv hrun
  · exact inv

theorem Inv.trap (inv : Inv s) (hp : s.current = some p) (user : Bool) :
    Inv { s with table := (trap user s.table p).1, current := (trap user s.table p).2 } := by
  have hcons := consistent_trap inv.table ((inv.running_iff p).mpr hp) user
  rcases trap_cases user s.table p with ⟨-, h⟩ | ⟨-, -, h⟩ | ⟨-, -, -, h⟩ | ⟨-, -, -, h⟩
  all_goals
    rw [h] at hcons ⊢
    dsimp only at hcons ⊢
  · exact inv.leave hp hcons (by simp)
  · rw [setState, Table.demote, Table.modify_modify] at hcons ⊢
    exact inv.leave hp hcons (by simp)
  · exact inv.leave hp hcons (by simp)
  · exact hp ▸ inv

theorem Inv.schedule (inv : Inv s) (h : exec s .schedule = some s') : Inv s' := by
  obtain ⟨filled, hfill, hinv, hfilled, hround⟩ := inv.table.schedule
  have hstamped : Stamped filled (stampLoop (List.range NPROC) s.table s.stamps) :=
    inv.stamped.fill inv.table (fun p hp => List.mem_range.mp hp) hfill
  have horder := inv.order.fill inv.table hfilled
  simp only [exec] at h
  split at h
  · next t found hcur hsched =>
    cases h
    have hnone : ∀ x, (filled.proc x).state ≠ .running := by
      intro x hx
      rw [hfilled.state_eq] at hx
      have := (inv.running_iff x).mp hx
      rw [hcur] at this
      cases this
    rcases hround with ⟨-, heq⟩ | ⟨k, p, l, q, hbelow, hl, hq, hdeq, hcons, heq⟩
    · rw [heq] at hsched
      cases hsched
      exact ⟨hinv, fun x => ⟨fun hx => absurd hx (hnone x), nofun⟩, nofun, hstamped, horder⟩
    · rw [heq] at hsched
      cases hsched
      set d := (filled.setQueue k q).modify p fun r => { r with inQueue := false } with hd
      have hlevel : ∀ i, (d.level i).Sublist (filled.level i) := by
        intro i
        rw [hd, level_modify, Table.level_setQueue]
        split
        · next hi => rw [hi, hl, hq]; exact List.sublist_cons_self p l
        · exact .refl _
      have hother : ∀ x, x ≠ p → d.proc x = filled.proc x := fun x hx => by
        rw [hd, modify_proc, if_neg hx, Table.setQueue_proc]
      have hmem := (hinv.mem_iff k p).mp (hl ▸ List.mem_cons_self)
      refine ⟨hcons.setState (by simp [hd]), fun x => ?_, fun x hx i hi => ?_,
        hstamped.of_sublist hlevel, horder.mono (n := 0) hlevel fun i x _ => ?_⟩
      · rw [setState, modify_proc]
        split
        · next h => simp [h]
        · next h =>
          rw [hother x h]
          exact ⟨fun hx => absurd hx (hnone x), fun hx => absurd (Option.some.inj hx).symm h⟩
      · cases hx
        have hpriority : ((d.setState p .running).proc p).priority = k := by
          simpa [setState, hd] using hmem.2
        rw [hpriority] at hi
        exact List.sublist_nil.mp (hbelow i hi ▸ hlevel i)
      · rw [setState, modify_proc]
        split
        · next h => simp [h, hd]
        · next h => simp [hother x h]
  · cases h

theorem Inv.step (inv : Inv s) {a : Action} (h : exec s a = some s') : Inv s' := by
  cases a with
  | schedule => exact inv.schedule h
  | tick user =>
    simp only [exec] at h
    split at h
    · exact Option.some.inj h ▸ inv.keep (keeps_clockintr inv.table inv.order none)
    · next p hcur =>
      have hclock := inv.keep (keeps_clockintr inv.table inv.order (some p))
      exact Option.some.inj h ▸ hclock.trap hcur user
  | fork ok =>
    obtain ⟨-, rfl⟩ := Run.of_guard h
    exact inv.keep (keeps_fork inv.table ok)
  | sleep chan =>
    simp only [exec] at h
    split at h
    · next p hcur =>
      cases h
      exact inv.leave hcur (inv.table.sleep chan ((inv.running_iff p).mpr hcur)) (by simp)
    · cases h
  | wakeup chan =>
    cases h
    exact inv.keep (keeps_wakeup inv.table s.current chan)
  | kill pid =>
    obtain ⟨-, rfl⟩ := Run.of_guard h
    exact inv.keep (keeps_kill inv.table pid)
  | yield =>
    simp only [exec] at h
    split at h
    · next p hcur =>
      cases h
      have hrun := (inv.running_iff p).mpr hcur
      have hyield : (s.table.setState p .runnable).Consistent :=
        inv.table.setState (inv.table.not_queued (by simp [hrun]))
      exact inv.leave hcur hyield (by simp)
    · cases h
  | exit =>
    simp only [exec] at h
    split at h
    · next p hcur =>
      cases h
      exact inv.leave hcur (inv.table.exitAt ((inv.running_iff p).mpr hcur)) (by simp)
    · cases h
  | reap q =>
    obtain ⟨hcond, rfl⟩ := Run.of_guard h
    exact inv.keep (keeps_freeproc inv.table hcond.2)

theorem Reachable.inv (h : Reachable s) : Inv s :=
  Run.ReachableUnder.invariant Inv (by rintro _ rfl; exact inv_init)
    (fun _ _ _ inv _ hstep => inv.step hstep) h

/-! ### Dispatch order -/

/-- A round from state `s` that fills the queues to `filled`, dispatches `p` and leaves
the table `t'`. -/
structure Dispatches (s : State) (filled t' : Table) (p : ℕ) : Prop where
  /-- The enqueue loop appends the RUNNABLE processes not yet queued at their levels. -/
  fills : s.table.enqueueLoop = .ok filled
  appends : ∀ k, filled.level k = s.table.level k ++
    (List.range NPROC).filter fun x => s.table.Waiting x ∧ (s.table.proc x).priority = k
  /-- No queued process would have to be skipped, and none is: one dequeue selects. -/
  all_runnable : ∀ k, ∀ x ∈ filled.level k, (filled.proc x).state = .runnable
  one_dequeue : ∃ d, filled.dequeue p = .ok d ∧ t' = d.setState p .running
  runnable : p < NPROC ∧ (s.table.proc p).state = .runnable
  least_level : ∀ x < NPROC, (s.table.proc x).state = .runnable →
    (s.table.proc p).priority ≤ (s.table.proc x).priority
  earliest : ∀ x < NPROC, x ≠ p → (s.table.proc x).state = .runnable →
    (s.table.proc x).priority = (s.table.proc p).priority →
      (stampLoop (List.range NPROC) s.table s.stamps).stamp p <
        (stampLoop (List.range NPROC) s.table s.stamps).stamp x
  /-- Every other RUNNABLE process stays RUNNABLE and queued at its own level. -/
  others : ∀ x < NPROC, x ≠ p → (s.table.proc x).state = .runnable →
    (t'.proc x).state = .runnable ∧ (t'.proc x).inQueue = true ∧
      (t'.proc x).priority = (s.table.proc x).priority ∧ x ∈ t'.level (s.table.proc x).priority
  /-- The queues lose `p` and nothing else, so their order is unchanged. -/
  order : ∀ k, t'.level k = (filled.level k).erase p

/-- **Dispatch order.** In every reachable state with a RUNNABLE process the round
dispatches the one enqueued earliest at the least level of all, and leaves every other
RUNNABLE process queued at its level in unchanged order. -/
theorem mlfq_dispatch (s : State) (h : Reachable s)
    (hsome : ∃ x < NPROC, (s.table.proc x).state = .runnable) :
    ∃ filled t' p, s.table.schedule = .ok (t', some p) ∧ Dispatches s filled t' p := by
  obtain ⟨filled, hfill, hinv, hfilled, hround⟩ := h.inv.table.schedule
  have hstamped : Stamped filled (stampLoop (List.range NPROC) s.table s.stamps) :=
    h.inv.stamped.fill h.inv.table (fun p hp => List.mem_range.mp hp) hfill
  rcases hround with ⟨hnone, -⟩ | ⟨k, p, l, q, hbelow, hl, hq, hdeq, hcons, heq⟩
  · obtain ⟨x, hx, hst⟩ := hsome
    exact absurd hst (hnone x hx)
  · have hmem : p ∈ filled.level k := hl ▸ List.mem_cons_self
    obtain ⟨hpq, hpk⟩ := (hinv.mem_iff k p).mp hmem
    obtain ⟨hpn, hprun⟩ := hinv.queued p hpq
    have hpk' : (s.table.proc p).priority = k := (hfilled.priority_eq p).symm.trans hpk
    set d := (filled.setQueue k q).modify p fun r => { r with inQueue := false } with hd
    have hother : ∀ x, x ≠ p → (d.setState p .running).proc x = filled.proc x := by
      intro x hx
      rw [setState, modify_proc, if_neg hx, hd, modify_proc, if_neg hx,
        Table.setQueue_proc]
    -- Every RUNNABLE process is queued at its level after the enqueue loop.
    have hqueued : ∀ x < NPROC, (s.table.proc x).state = .runnable →
        (filled.proc x).inQueue = true ∧ x ∈ filled.level (s.table.proc x).priority := by
      intro x hx hst
      have hxq := hfilled.queued hx hst
      exact ⟨hxq, (hinv.mem_iff _ x).mpr ⟨hxq, hfilled.priority_eq x⟩⟩
    have hlevel : ∀ i, (d.setState p .running).level i = (filled.level i).erase p := by
      intro i
      rw [setState, level_modify, hd, level_modify, Table.level_setQueue]
      split
      · next hi => rw [hi, hl, hq, List.erase_cons_head]
      · next hi =>
        refine (List.erase_of_not_mem fun hmem' => hi ?_).symm
        exact ((hinv.mem_iff i p).mp hmem').2.symm.trans hpk
    refine ⟨filled, d.setState p .running, p, heq, ?_⟩
    constructor
    · exact hfill
    · exact hfilled.level_eq
    · intro i x hx
      exact (hinv.queued x ((hinv.mem_iff i x).mp hx).1).2
    · exact ⟨d, hdeq, rfl⟩
    · exact ⟨hpn, (hfilled.state_eq p).symm.trans hprun⟩
    · intro x hx hst
      by_contra hlt
      have hx := (hqueued x hx hst).2
      rw [hbelow _ (by omega)] at hx
      cases hx
    · intro x hx hne hst hpr
      have hx := (hqueued x hx hst).2
      rw [hpr, hpk', hl] at hx
      have hsorted := hstamped.sorted k
      rw [hl, List.pairwise_cons] at hsorted
      exact hsorted.1 x ((List.mem_cons.mp hx).resolve_left hne)
    · intro x hx hne hst
      obtain ⟨hxq, hxmem⟩ := hqueued x hx hst
      rw [hother x hne, hlevel]
      exact ⟨(hfilled.state_eq x).trans hst, hxq, hfilled.priority_eq x,
        (List.mem_erase_of_ne hne).mpr hxmem⟩
    · exact hlevel

/-- The first process forks and yields: a round with an old and a new process. -/
def forkAndYield : List Action := [.schedule, .fork true, .yield]

theorem mlfq_dispatch_forkAndYield :
    ∃ s, Reachable s ∧ (s.table.proc 0).state = .runnable ∧ (s.table.proc 1).state = .runnable ∧
      ∃ filled t' p, s.table.schedule = .ok (t', some p) ∧ Dispatches s filled t' p := by
  obtain ⟨s, hreach, hfirst, hsecond⟩ : ∃ s, Reachable s ∧ (s.table.proc 0).state = .runnable ∧
      (s.table.proc 1).state = .runnable := Run.exists_reachable forkAndYield rfl (by decide +kernel)
  exact ⟨s, hreach, hfirst, hsecond, mlfq_dispatch s hreach ⟨0, by decide, hfirst⟩⟩

/-! ### Preemption -/

/-- Some other process is RUNNABLE at a smaller level than that of `p`. -/
def HigherRunnable (t : Table) (p : ℕ) : Prop :=
  ∃ x < NPROC, x ≠ p ∧ (t.proc x).state = .runnable ∧ (t.proc x).priority < (t.proc p).priority

instance (t : Table) (p : ℕ) : Decidable (HigherRunnable t p) := by
  unfold HigherRunnable; infer_instance

/-- The handler of a tick in `p` reaches the MLFQ check: `usertrap` first lets a killed
process exit. -/
def ChecksMlfq (user : Bool) (t : Table) (p : ℕ) : Prop := ¬ (user ∧ (t.proc p).killed)

instance (user : Bool) (t : Table) (p : ℕ) : Decidable (ChecksMlfq user t p) := by
  unfold ChecksMlfq; infer_instance

/-- **Preemption.** At every tick taken while `p` runs whose handler reaches the MLFQ
check, a RUNNABLE process at a smaller level makes `p` yield exactly when the time slice
of `p` is used up at that tick (or there is no such process). -/
theorem mlfq_preemption_iff (s s' : State) (p : ℕ) (user : Bool) (h : Reachable s)
    (hp : s.current = some p) (hstep : exec s (.tick user) = some s')
    (hcheck : ChecksMlfq user (clockintr s.table (some p)) p) :
    (HigherRunnable (clockintr s.table (some p)) p →
        s'.current = none ∧ (s'.table.proc p).state = .runnable) ↔
      (clockintr s.table (some p)).sliceUsed p ∨
        ¬ HigherRunnable (clockintr s.table (some p)) p := by
  set t := clockintr s.table (some p) with ht
  have hinv : Inv { s with table := t } := h.inv.keep (keeps_clockintr h.inv.table h.inv.order (some p))
  have hyields : (mlfqCheck user t p).2 = true ↔ t.sliceUsed p := hinv.mlfqCheck_yields hp user
  have hs' : s' = { s with
      table := (mlfqCheck user t p).1
      current := if (mlfqCheck user t p).2 then none else some p } := by
    simp only [exec, hp, ← ht, trap] at hstep
    rw [if_neg hcheck] at hstep
    exact (Option.some.inj hstep).symm
  have hleft : (s'.current = none ∧ (s'.table.proc p).state = .runnable) ↔ t.sliceUsed p := by
    rw [hs', ← hyields]
    by_cases hslice : t.sliceUsed p
    · simp [mlfqCheck, hslice, setState]
    · simp [mt hyields.mp hslice]
  rw [hleft]
  exact ⟨fun himp => or_iff_not_imp_right.mpr fun hh => himp (not_not.mp hh),
    fun hor hh => hor.resolve_right fun hno => hno hh⟩

/-- The parent is demoted at its first tick; the child runs, sleeps, and is woken while
the parent runs at level `1`. -/
def wokenBelow : List Action :=
  [.schedule, .fork true, .tick true, .schedule, .sleep 9, .schedule, .wakeup 9]

/-- At the second tick of its slice the parent yields to the woken child. -/
theorem mlfq_preemption_iff_wokenBelow :
    ∃ s s', Reachable s ∧ s.current = some 0 ∧
      HigherRunnable (clockintr s.table (some 0)) 0 ∧
      exec s (.tick true) = some s' ∧ s'.current = none := by
  obtain ⟨s, hreach, hcur, hcheck, hhigher, hslice, hsome⟩ : ∃ s, Reachable s ∧ s.current = some 0 ∧
      ChecksMlfq true (clockintr s.table (some 0)) 0 ∧
      HigherRunnable (clockintr s.table (some 0)) 0 ∧ (clockintr s.table (some 0)).sliceUsed 0 ∧
      (exec s (.tick true)).isSome :=
    Run.exists_reachable (wokenBelow ++ [.tick true]) rfl (by decide +kernel)
  obtain ⟨s', hstep⟩ := Option.isSome_iff_exists.mp hsome
  have hiff := mlfq_preemption_iff s s' 0 true hreach hcur hstep hcheck
  exact ⟨s, s', hreach, hcur, hhigher, hstep, (hiff.mpr (.inl hslice) hhigher).1⟩

/-- At the first tick of that slice it does not: the child is RUNNABLE at level `0`, but
in no queue, and the parent keeps running. -/
theorem higher_runnable_not_preempted :
    ((Run.execAll exec init wokenBelow).bind fun s =>
      (exec s (.tick true)).map fun s' => (s.current,
        decide (ChecksMlfq true (clockintr s.table (some 0)) 0),
        decide (HigherRunnable (clockintr s.table (some 0)) 0), s'.current)) =
      some (some 0, true, true, some 0) := by
  decide +kernel

end Xv6.Sched.SingleCpu
