import Mathlib.Algebra.Group.Int.Defs
import Xv6.Sched.Ticks

/-!
What the kernel counts over the life of a process, under each of the five schedulers.

A step is one section under a `p->lock`, or a whole `clockintr`. Any number of processes may
run at a time, and a scheduler may dispatch any RUNNABLE process, so the runs include those
of every number of CPUs and of every rule of selection. Beside the table a state counts, for
the process in each slot and since its `allocproc`, the ticks at which it was RUNNING, the
other ticks of its lifetime, and its dispatches; no kernel function reads these counts.
-/

namespace Xv6.Sched.Life

open Function (update)
open SingleCpu (ticksChan)

/-- One slot of `update_time`. -/
def updateTimeAt : Policy → Table → ℕ → Table
  | .mlfq, t, p => t.updateTimeAt p
  | pol, t, p => t.modify p (Proc.updateTime pol)

def clockintr (pol : Policy) (t : Table) (me : Option ℕ) : Table :=
  ((List.range NPROC).foldl (updateTimeAt pol) { t with ticks := (t.ticks + 1) % 2 ^ 32 }).wakeup
    me ticksChan

/-- The scheduler switches to `p`. MLFQ takes it from its queue. -/
def dispatch : Policy → Table → ℕ → Option Table
  | .mlfq, t, p => (t.dequeue p).toOption.map (·.setState p .running)
  | pol, t, p => some (t.modify p (Proc.dispatch pol))

inductive Action where
  /-- `clockintr`, taken while `me` runs. -/
  | tick (me : Option ℕ)
  /-- `allocproc` has found slot `p` UNUSED. -/
  | allocproc (p : ℕ)
  /-- The end of `fork` or `userinit`. -/
  | start (p : ℕ)
  /-- `freeproc` of a reaped process, or of one `fork` could not finish. -/
  | freeproc (p : ℕ)
  /-- The enqueue loop of MLFQ is at slot `p`. -/
  | fill (p : ℕ)
  | dispatch (p : ℕ)
  /-- The trap handler of MLFQ finds the slice of `p` used up. -/
  | demote (user : Bool) (p : ℕ)
  | yield (p : ℕ)
  | sleep (p chan : ℕ)
  | exit (p : ℕ)
  | wakeup (chan p : ℕ)
  | kill (p : ℕ)
  | setpriority (p : ℕ) (n : ℤ)
  | settickets (p : ℕ) (n : ℤ)

/-- A section that needs slot `p` to be in state `st`. -/
def whenIn (t : Table) (p : ℕ) (st : ProcState) (t' : Table) : Option Table :=
  if (t.proc p).state = st then some t' else none

def change (pol : Policy) (t : Table) : Action → Option Table
  | .tick me => some (clockintr pol t me)
  | .allocproc p => if p < NPROC then whenIn t p .unused (t.allocprocAt p) else none
  | .start p => whenIn t p .used (t.setState p .runnable)
  | .freeproc p =>
    if (t.proc p).state = .used ∨ (t.proc p).state = .zombie then some (t.freeproc p) else none
  | .fill p => match pol with
      | .mlfq => (t.enqueueAt p).toOption
      | _ => none
  | .dispatch p => if (t.proc p).state = .runnable then dispatch pol t p else none
  | .demote user p => whenIn t p .running (t.demote user p)
  | .yield p => whenIn t p .running (t.setState p .runnable)
  | .sleep p chan => whenIn t p .running (t.sleep p chan)
  | .exit p => whenIn t p .running (t.exitAt p)
  | .wakeup chan p => some (t.wakeupAt chan p)
  | .kill p => some (t.killAt p)
  | .setpriority p n => some (t.modify p fun r => { r with priorityPbs := n })
  | .settickets p n => some (t.modify p fun r => { r with tickets := n })

structure State where
  table : Table
  /-- Ticks at which the process was RUNNING. -/
  ran : ℕ → ℕ
  /-- The other ticks of its lifetime. -/
  idle : ℕ → ℕ
  dispatched : ℕ → ℕ

/-- Between `allocproc` and `exit`, and not on a CPU. -/
def Idle (st : ProcState) : Prop := st = .used ∨ st = .sleeping ∨ st = .runnable

instance (st : ProcState) : Decidable (Idle st) := by
  unfold Idle; infer_instance

/-- The counts after a step that leaves the table `t`. -/
def State.count (s : State) (t : Table) : Action → State
  | .tick _ =>
    { s with
      table := t
      ran := fun p => s.ran p + if (s.table.proc p).state = .running then 1 else 0
      idle := fun p => s.idle p + if Idle (s.table.proc p).state then 1 else 0 }
  | .allocproc p => ⟨t, update s.ran p 0, update s.idle p 0, update s.dispatched p 0⟩
  | .dispatch p => { s with table := t, dispatched := update s.dispatched p (s.dispatched p + 1) }
  | _ => { s with table := t }

def exec (pol : Policy) (s : State) (a : Action) : Option State :=
  (change pol s.table a).map fun t => s.count t a

/-- The empty table, before `userinit`. -/
def init : State := ⟨Table.zero, fun _ => 0, fun _ => 0, fun _ => 0⟩

def Reachable (pol : Policy) : State → Prop := Run.Reachable (· = init) (Run.relOf (exec pol))

/-! ### What a step does to a record -/

/-- The counters stay, and the process is neither allocated nor freed nor does it exit. -/
structure Same (r r' : Proc) : Prop where
  rtime : r'.rtime = r.rtime
  ctime : r'.ctime = r.ctime
  etime : r'.etime = r.etime
  times : r'.numberTimes = r.numberTimes
  unused : r'.state = .unused ↔ r.state = .unused
  zombie : r'.state = .zombie ↔ r.state = .zombie

theorem Same.refl (r : Proc) : Same r r := ⟨rfl, rfl, rfl, rfl, Iff.rfl, Iff.rfl⟩

/-- A section that does not allocate. -/
inductive Touched (ticks : ℕ) (r r' : Proc) : Prop where
  | same : Same r r' → Touched ticks r r'
  | freed : r'.state = .unused → Touched ticks r r'
  | exited : r.state = .running → r' = { r with state := .zombie, etime := ticks } →
      Touched ticks r r'

variable {pol : Policy} {t t' : Table} {s s' : State} {p x : ℕ}

theorem touched_modify {f : Proc → Proc} (h : Touched t.ticks (t.proc p) (f (t.proc p))) (x : ℕ) :
    Touched t.ticks (t.proc x) ((t.modify p f).proc x) := by
  rw [Table.modify_proc]
  split
  · next hx =>
    rw [hx]
    exact h
  · exact .same (.refl _)

theorem whenIn_eq_some {st : ProcState} {u : Table} (h : whenIn t p st u = some t') :
    (t.proc p).state = st ∧ t' = u := by
  unfold whenIn at h
  split at h
  · next hst => exact ⟨hst, (Option.some.inj h).symm⟩
  · cases h

/-- **One section**, other than a tick or an `allocproc`. -/
theorem change_proc {a : Action} (h : change pol t a = some t') (htick : ∀ me, a ≠ .tick me)
    (halloc : ∀ p, a ≠ .allocproc p) (x : ℕ) :
    t'.ticks = t.ticks ∧ Touched t.ticks (t.proc x) (t'.proc x) := by
  cases a with
  | tick me => exact absurd rfl (htick me)
  | allocproc p => exact absurd rfl (halloc p)
  | start | yield | sleep =>
    obtain ⟨hst, rfl⟩ := whenIn_eq_some h
    exact ⟨rfl, touched_modify (.same ⟨rfl, rfl, rfl, rfl, by simp [hst], by simp [hst]⟩) x⟩
  | freeproc p =>
    obtain ⟨-, rfl⟩ := Run.of_guard h
    exact ⟨rfl, touched_modify (.freed rfl) x⟩
  | fill p =>
    cases pol with
    | mlfq =>
      simp only [change, Table.enqueueAt] at h
      split at h
      · unfold Table.enqueue at h
        dsimp only at h
        split at h
        · cases h
        · cases h
          exact ⟨rfl, touched_modify (t := t.setQueue _ _) (.same ⟨rfl, rfl, rfl, rfl, Iff.rfl, Iff.rfl⟩) x⟩
      · cases h
        exact ⟨rfl, .same (.refl _)⟩
    | _ => cases h
  | dispatch p =>
    simp only [change] at h
    split at h
    · next hst =>
      cases pol with
      | mlfq =>
        obtain ⟨u, hu, rfl⟩ := Option.map_eq_some_iff.mp h
        have hd : t.dequeue p = .ok u := by
          cases hd : t.dequeue p with
          | error e => rw [hd] at hu; cases hu
          | ok v => rw [hd] at hu; cases hu; rfl
        obtain ⟨-, rfl⟩ := Table.dequeue_eq_ok.mp hd
        rw [Table.setState, Table.modify_modify]
        exact ⟨rfl, touched_modify (t := t.setQueue _ _)
          (.same ⟨rfl, rfl, rfl, rfl, by simp [hst], by simp [hst]⟩) x⟩
      | _ =>
        cases h
        exact ⟨rfl, touched_modify (.same ⟨rfl, rfl, rfl, rfl, by simp [hst], by simp [hst]⟩) x⟩
    · cases h
  | demote user p =>
    obtain ⟨hst, rfl⟩ := whenIn_eq_some h
    refine ⟨rfl, touched_modify (.same ?_) x⟩
    cases user <;> exact ⟨rfl, rfl, rfl, rfl, Iff.rfl, Iff.rfl⟩
  | exit p =>
    obtain ⟨hst, rfl⟩ := whenIn_eq_some h
    exact ⟨rfl, touched_modify (.exited hst rfl) x⟩
  | wakeup chan p =>
    cases h
    unfold Table.wakeupAt
    split
    · next hst => exact ⟨rfl, touched_modify (.same ⟨rfl, rfl, rfl, rfl, by simp [hst.1], by simp [hst.1]⟩) x⟩
    · exact ⟨rfl, .same (.refl _)⟩
  | kill p =>
    cases h
    refine ⟨rfl, touched_modify (.same ⟨rfl, rfl, rfl, rfl, ?_, ?_⟩) x⟩
    all_goals
      by_cases hst : (t.proc p).state = .sleeping
      all_goals simp [hst]
  | setpriority p n | settickets p n =>
    cases h
    exact ⟨rfl, touched_modify (.same ⟨rfl, rfl, rfl, rfl, Iff.rfl, Iff.rfl⟩) x⟩

/-! ### A tick -/

/-- `update_time` counts the tick of a RUNNING process and changes no state. -/
structure Counts (r r' : Proc) : Prop where
  state : r'.state = r.state
  rtime : r'.rtime = if r.state = .running then (r.rtime + 1) % 2 ^ 32 else r.rtime
  ctime : r'.ctime = r.ctime
  etime : r'.etime = r.etime
  times : r'.numberTimes = r.numberTimes

theorem counts_updateTimeAt (pol : Policy) (t : Table) (p : ℕ) :
    Counts (t.proc p) ((updateTimeAt pol t p).proc p) := by
  have hself : (updateTimeAt pol t p).proc p = (t.proc p).updateTime pol := by
    cases pol with
    | mlfq => exact Table.updateTimeAt_self t p
    | _ => exact Table.modify_proc_self ..
  rw [hself]
  cases hst : (t.proc p).state <;> cases pol <;> constructor <;>
    simp only [Proc.updateTime, Proc.ticked, hst] <;> (try split) <;> simp_all

theorem updateTimeAt_other (pol : Policy) (t : Table) (p : ℕ) (hx : x ≠ p) :
    (updateTimeAt pol t p).proc x = t.proc x := by
  cases pol with
  | mlfq => exact Table.updateTimeAt_other t p x hx
  | _ => exact (Table.modify_proc ..).trans (if_neg hx)

theorem ticks_updateTimeAt (pol : Policy) (t : Table) (p : ℕ) :
    (updateTimeAt pol t p).ticks = t.ticks := by
  cases pol with
  | mlfq =>
    have hcount : (t.countTick p).ticks = t.ticks := by
      unfold Table.countTick
      split <;> rfl
    rw [updateTimeAt, Table.updateTimeAt, ← hcount]
    unfold Table.age
    split
    · split <;> rfl
    · rfl
  | _ => rfl

theorem ticks_foldl {f : Table → ℕ → Table} (h : ∀ t p, (f t p).ticks = t.ticks) (ps : List ℕ) :
    (ps.foldl f t).ticks = t.ticks := by
  induction ps generalizing t with
  | nil => rfl
  | cons p ps ih => exact ih.trans (h t p)

theorem clockintr_ticks (pol : Policy) (t : Table) (me : Option ℕ) :
    (clockintr pol t me).ticks = (t.ticks + 1) % 2 ^ 32 := by
  unfold clockintr Table.wakeup
  rw [ticks_foldl, ticks_foldl (ticks_updateTimeAt pol)]
  intro t p
  unfold Table.wakeupAt
  split <;> rfl

theorem clockintr_proc (pol : Policy) (t : Table) (me : Option ℕ) (hx : x < NPROC) :
    ∃ r, Counts (t.proc x) r ∧ ((clockintr pol t me).proc x = r ∨
      (t.proc x).state = .sleeping ∧ (clockintr pol t me).proc x = { r with state := .runnable }) := by
  have hloop := Table.foldl_proc (t := { t with ticks := (t.ticks + 1) % 2 ^ 32 }) (x := x)
    (R := Counts) (counts_updateTimeAt pol) (fun t p y hy => updateTimeAt_other pol t p hy)
    (List.nodup_range (n := NPROC))
  have hcounts := hloop.1 (List.mem_range.mpr hx)
  refine ⟨_, hcounts, ?_⟩
  rw [← show _ = (t.proc x).state from hcounts.state]
  exact Table.wakeup_proc _ me ticksChan x

/-! ### Accounting -/

/-- The counters of the process in slot `x` say what has been counted. -/
structure Accounted (s : State) (x : ℕ) : Prop where
  rtime : (s.table.proc x).rtime = s.ran x % 2 ^ 32
  span : ((s.table.proc x).ctime + s.ran x + s.idle x) % 2 ^ 32 =
    if (s.table.proc x).state = .zombie then (s.table.proc x).etime else s.table.ticks
  times : (s.table.proc x).numberTimes = 0

structure Inv (s : State) : Prop where
  ticks : s.table.ticks < 2 ^ 32
  accounted : ∀ x < NPROC, (s.table.proc x).state ≠ .unused → Accounted s x

theorem inv_init : Inv init := ⟨by decide, fun x _ hx => absurd rfl hx⟩

theorem Inv.tick (inv : Inv s) (me : Option ℕ) :
    Inv (s.count (clockintr pol s.table me) (.tick me)) := by
  have hticks := clockintr_ticks pol s.table me
  refine ⟨hticks ▸ Nat.mod_lt _ (by decide), fun x hlt hx => ?_⟩
  change ((clockintr pol s.table me).proc x).state ≠ .unused at hx
  obtain ⟨r, hcounts, hr⟩ := clockintr_proc pol s.table me hlt
  have hstate : (s.table.proc x).state ≠ .unused ∧
      (((clockintr pol s.table me).proc x).state = .zombie ↔ (s.table.proc x).state = .zombie) := by
    rcases hr with hr | ⟨hsleep, hr⟩
    · rw [hr, hcounts.state] at hx
      exact ⟨hx, by rw [hr, hcounts.state]⟩
    · simp [hr, hsleep]
  have hfields : ((clockintr pol s.table me).proc x).rtime = r.rtime ∧
      ((clockintr pol s.table me).proc x).ctime = r.ctime ∧
      ((clockintr pol s.table me).proc x).etime = r.etime ∧
      ((clockintr pol s.table me).proc x).numberTimes = r.numberTimes := by
    rcases hr with hr | ⟨-, hr⟩
    · simp [hr]
    · simp [hr]
  obtain ⟨hrtime, hctime, hetime, htimes⟩ := hfields
  obtain ⟨hran, hspan, hzero⟩ := inv.accounted x hlt hstate.1
  refine ⟨?_, ?_, htimes.trans (hcounts.times.trans hzero)⟩
  · change ((clockintr pol s.table me).proc x).rtime = (s.ran x + if _ then 1 else 0) % 2 ^ 32
    rw [hrtime, hcounts.rtime, hran]
    split <;> omega
  · change (((clockintr pol s.table me).proc x).ctime + (s.ran x + if _ then 1 else 0) +
      (s.idle x + if Idle _ then 1 else 0)) % 2 ^ 32 =
      if ((clockintr pol s.table me).proc x).state = .zombie then
        ((clockintr pol s.table me).proc x).etime else (clockintr pol s.table me).ticks
    simp only [hstate.2, hctime, hetime, hcounts.ctime, hcounts.etime, hticks]
    -- a process that is neither free nor a zombie is RUNNING or idle, and not both
    cases hst : (s.table.proc x).state with
    | unused => exact absurd hst hstate.1
    | zombie => simpa [hst, Idle] using hspan
    | _ =>
      simp only [hst, Idle, reduceCtorEq, if_true, if_false, or_false, or_true] at hspan ⊢
      omega

theorem Inv.allocproc (inv : Inv s) (p : ℕ) : Inv (s.count (s.table.allocprocAt p) (.allocproc p)) := by
  refine ⟨inv.ticks, fun x hlt hx => ?_⟩
  by_cases hxp : x = p
  · subst hxp
    have hself : (s.count (s.table.allocprocAt x) (.allocproc x)).table.proc x = _ :=
      Function.update_self ..
    refine ⟨?_, ?_, ?_⟩
    · rw [hself]
      simp [State.count]
    · simpa [State.count, Table.allocprocAt, Table.modify] using Nat.mod_eq_of_lt inv.ticks
    · exact congrArg Proc.numberTimes hself
  · have hother : (s.count (s.table.allocprocAt p) (.allocproc p)).table.proc x = s.table.proc x :=
      Function.update_of_ne hxp _ _
    rw [hother] at hx
    obtain ⟨hran, hspan, hzero⟩ := inv.accounted x hlt hx
    refine ⟨?_, ?_, hother ▸ hzero⟩
    · rw [hother, hran]
      simp [State.count, hxp]
    · simpa [State.count, Table.allocprocAt, Table.modify, hxp] using hspan

/-- A section that allocates nothing leaves the counts of ticks alone. -/
theorem count_eq {a : Action} (htick : ∀ me, a ≠ .tick me) (halloc : ∀ p, a ≠ .allocproc p) :
    (s.count t a).table = t ∧ (s.count t a).ran = s.ran ∧ (s.count t a).idle = s.idle := by
  cases a with
  | tick me => exact absurd rfl (htick me)
  | allocproc p => exact absurd rfl (halloc p)
  | _ => exact ⟨rfl, rfl, rfl⟩

theorem Inv.section (inv : Inv s) {a : Action} (h : change pol s.table a = some t)
    (htick : ∀ me, a ≠ .tick me) (halloc : ∀ p, a ≠ .allocproc p) : Inv (s.count t a) := by
  obtain ⟨htable, hran, hidle⟩ := count_eq (s := s) (t := t) htick halloc
  have hticks := (change_proc h htick halloc 0).1
  refine ⟨by rw [htable, hticks]; exact inv.ticks, fun x hlt hx => ?_⟩
  rw [htable] at hx
  rcases (change_proc h htick halloc x).2 with hsame | hfree | ⟨hrun, hexit⟩
  · have hold := inv.accounted x hlt (mt hsame.unused.mpr hx)
    refine ⟨?_, ?_, ?_⟩
    · rw [htable, hsame.rtime, hran, hold.rtime]
    · simpa only [htable, hsame.ctime, hsame.etime, hsame.zombie, hran, hidle, hticks] using hold.span
    · rw [htable, hsame.times, hold.times]
  · exact absurd hfree hx
  · have hold := inv.accounted x hlt (by rw [hrun]; decide)
    have hspan := hold.span
    rw [if_neg (by rw [hrun]; decide)] at hspan
    refine ⟨?_, ?_, ?_⟩
    · rw [htable, hexit, hran, hold.rtime]
    · simpa only [htable, hexit, hran, hidle, if_true] using hspan
    · rw [htable, hexit, hold.times]

theorem Inv.step (inv : Inv s) {a : Action} (h : exec pol s a = some s') : Inv s' := by
  obtain ⟨t, ht, rfl⟩ := Option.map_eq_some_iff.mp h
  cases a with
  | tick me =>
    cases ht
    exact inv.tick me
  | allocproc p =>
    simp only [change] at ht
    split at ht
    · obtain ⟨-, rfl⟩ := whenIn_eq_some ht
      exact inv.allocproc p
    · cases ht
  | _ => exact inv.section ht nofun nofun

theorem Reachable.inv (h : Reachable pol s) : Inv s :=
  Run.ReachableUnder.invariant Inv (by rintro _ rfl; exact inv_init)
    (fun _ _ _ inv _ hstep => inv.step hstep) h

/-- `*rtime` and `*wtime` of `waitx`, in `uint` arithmetic. -/
def waitxTimes (r : Proc) : ℕ × ℤ :=
  (r.rtime, ((r.etime : ℤ) - r.ctime - r.rtime) % 2 ^ 32)

/-- **`waitx` accounting.** What `waitx` reports of a zombie are the ticks at which it was
RUNNING and the other ticks of its lifetime, modulo `2 ^ 32`; a lifetime of fewer ticks is
reported exactly, and is then the distance from `ctime` to `etime` on the clock. -/
theorem waitx_accounting (pol : Policy) (s : State) (p : ℕ) (h : Reachable pol s) (hp : p < NPROC)
    (hz : (s.table.proc p).state = .zombie) :
    let times := waitxTimes (s.table.proc p)
    times.1 = s.ran p % 2 ^ 32 ∧ times.2 = s.idle p % 2 ^ 32 ∧
      (s.ran p + s.idle p < 2 ^ 32 → times.1 = s.ran p ∧ times.2 = s.idle p ∧
        times.1 + times.2 = (((s.table.proc p).etime : ℤ) - (s.table.proc p).ctime) % 2 ^ 32) := by
  obtain ⟨hran, hspan, -⟩ := h.inv.accounted p hp (by rw [hz]; decide)
  rw [if_pos hz] at hspan
  dsimp only [waitxTimes]
  omega

/-- The first process runs for two ticks, waits for one and exits. -/
def shortLife : List Action :=
  [.allocproc 0, .start 0, .dispatch 0, .tick (some 0), .yield 0, .tick none, .dispatch 0,
    .tick (some 0), .exit 0]

theorem waitx_accounting_shortLife :
    ∃ s, Reachable .rr s ∧ waitxTimes (s.table.proc 0) = (2, 1) := by
  obtain ⟨s, hreach, hz, hran, hidle⟩ : ∃ s, Reachable .rr s ∧ (s.table.proc 0).state = .zombie ∧
      s.ran 0 = 2 ∧ s.idle 0 = 1 := Run.exists_reachable shortLife rfl (by decide +kernel)
  obtain ⟨-, -, hexact⟩ := waitx_accounting .rr s 0 hreach (by decide) hz
  obtain ⟨hr, hw, -⟩ := hexact (by rw [hran, hidle]; decide)
  exact ⟨s, hreach, Prod.ext (hr.trans hran) (hw.trans (congrArg Nat.cast hidle))⟩

/-- FCFS does not preempt: a process may run for any number of ticks. -/
theorem exists_running (n : ℕ) :
    ∃ s, Reachable .fcfs s ∧ (s.table.proc 0).state = .running ∧ s.ran 0 = n := by
  induction n with
  | zero => exact Run.exists_reachable [.allocproc 0, .start 0, .dispatch 0] rfl (by decide +kernel)
  | succ n ih =>
    obtain ⟨s, hs, hrun, hran⟩ := ih
    have htick : exec .fcfs s (.tick (some 0)) =
        some (s.count (clockintr .fcfs s.table (some 0)) (.tick (some 0))) := rfl
    refine ⟨_, .next hs trivial htick, ?_, ?_⟩
    · simp only [State.count]
      obtain ⟨r, hcounts, hr | ⟨hsleep, -⟩⟩ := clockintr_proc .fcfs s.table (some 0) NPROC_pos
      · rw [hr, hcounts.state, hrun]
      · cases hsleep.symm.trans hrun
    · simp only [State.count, if_pos hrun, hran]

/-- After `2 ^ 32` ticks on the CPU `waitx` reports none. -/
theorem waitx_wraps : ∃ s, Reachable .fcfs s ∧ (s.table.proc 0).state = .zombie ∧
    s.ran 0 = 2 ^ 32 ∧ (waitxTimes (s.table.proc 0)).1 = 0 := by
  obtain ⟨s, hs, hrun, hran⟩ := exists_running (2 ^ 32)
  have hexit : exec .fcfs s (.exit 0) = some { s with table := s.table.exitAt 0 } := by
    simp only [exec, change, whenIn, hrun, if_true]
    rfl
  have hreach : Reachable .fcfs { s with table := s.table.exitAt 0 } := .next hs trivial hexit
  have hz : ((s.table.exitAt 0).proc 0).state = .zombie := by simp [Table.exitAt]
  refine ⟨_, hreach, hz, hran, ?_⟩
  exact (hreach.inv.accounted 0 NPROC_pos (by rw [hz]; decide)).rtime.trans (by rw [hran]; decide)

/-- **PBS scheduling counts.** `number_times` is never raised: it is the number of dispatches
exactly of a process that has not been dispatched yet, and the dynamic priority of every
process is its static one. -/
theorem pbs_number_times (s : State) (p : ℕ) (h : Reachable .pbs s) (hp : p < NPROC)
    (hst : (s.table.proc p).state ≠ .unused) :
    ((s.table.proc p).numberTimes = s.dispatched p ↔ s.dispatched p = 0) ∧
      dynamicPriority (s.table.proc p) = (s.table.proc p).priorityPbs := by
  have htimes := (h.inv.accounted p hp hst).times
  refine ⟨by rw [htimes]; omega, ?_⟩
  unfold dynamicPriority
  rw [if_pos htimes]

theorem pbs_number_times_shortLife :
    ∃ s, Reachable .pbs s ∧ dynamicPriority (s.table.proc 0) = 60 := by
  obtain ⟨s, hreach, hz, hstatic⟩ : ∃ s, Reachable .pbs s ∧ (s.table.proc 0).state = .zombie ∧
      (s.table.proc 0).priorityPbs = 60 := Run.exists_reachable shortLife rfl (by decide +kernel)
  exact ⟨s, hreach, (pbs_number_times s 0 hreach NPROC_pos (by rw [hz]; decide)).2.trans hstatic⟩

/-- Two dispatches, and `number_times` is still zero. -/
theorem number_times_not_counted :
    (Run.execAll (exec .pbs) init shortLife).map
      (fun s => ((s.table.proc 0).numberTimes, s.dispatched 0)) = some (0, 2) := by
  decide +kernel

end Xv6.Sched.Life
