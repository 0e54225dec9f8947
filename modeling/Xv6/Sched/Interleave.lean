import Xv6.Lib.Run
import Xv6.Sched.Clock

/-!
The MLFQ scheduler on any number of CPUs, with everything else that touches the
process table in between.

A step is one section between `acquire` and `release` of a `p->lock`, or one unlocked
read or write. The scheduler's selection is therefore two steps: `select` reads the
front of a queue, `picked` takes that process's lock and dequeues it. Between the two
the process may be dequeued by another CPU or aged by `update_time`, and then
`dequeue` advances a queue whose front is another process, or that is empty.

Here `update_time` may be overtaken by a scheduler that appends to a queue, so queues are
not in the order of waiting times, and with two processes of one pid `delqueue` may take
out the wrong entry.

In every run whose `picked` steps all find their process still at the front of the
queue of its level, and whose `allocproc` steps all hand out a pid that no process has,
no queue operation panics and queues and process table agree in every state; a `picked`
step that does not find it so breaks one or the other at once.
-/

namespace Xv6.Sched.Interleave

open Function (update)
open Table (setState modify_proc)

/-- Where a CPU stands in the loop of `scheduler`, or the process it runs. -/
inductive Pc where
  /-- The enqueue loop is at slot `p`. -/
  | fill (p : ℕ)
  /-- The selection loops are at level `i` and iteration `j`. -/
  | select (i j : ℕ)
  /-- Process `p` was read from the front of level `i`. -/
  | picked (i j p : ℕ)
  | running (p : ℕ)
deriving DecidableEq, Repr

structure State where
  table : Table
  cpu : ℕ → Pc
  panicked : Option Panic

inductive Action where
  /-- The next step of `scheduler` on CPU `c`. -/
  | scheduler (c : ℕ)
  /-- The trap handler finds the slice of the process on CPU `c` used up. -/
  | demote (c : ℕ) (user : Bool)
  | yield (c : ℕ)
  | sleep (c chan : ℕ)
  | exit (c : ℕ)
  /-- `clockintr` counts a tick. -/
  | tick
  /-- `update_time` at slot `p`. -/
  | updateTime (p : ℕ)
  /-- `wakeup(chan)` at slot `p`. -/
  | wakeup (chan p : ℕ)
  /-- `kill` has found its process in slot `p`. -/
  | kill (p : ℕ)
  /-- `allocproc` has found slot `p` UNUSED. -/
  | allocproc (p : ℕ)
  /-- The end of `fork` or `userinit` for the process in slot `p`. -/
  | start (p : ℕ)
  /-- `freeproc` of a reaped process, or of one `fork` could not finish. -/
  | freeproc (p : ℕ)

namespace State

/-- CPU `c` goes on at `pc`, with the table changed. -/
def goto (s : State) (c : ℕ) (pc : Pc) (t : Table) : State :=
  { s with table := t, cpu := update s.cpu c pc }

def withTable (s : State) (t : Table) : State := { s with table := t }

def panic (s : State) (e : Panic) : State := { s with panicked := some e }

end State

/-- One step of the scheduler on CPU `c`. -/
def schedulerStep (s : State) (c : ℕ) : Option State :=
  match s.cpu c with
  | .fill p =>
    if p < NPROC then
      match s.table.enqueueAt p with
      | .error e => some (s.panic e)
      | .ok t => some (s.goto c (.fill (p + 1)) t)
    else some (s.goto c (.select 0 0) s.table)
  | .select i j =>
    if i < NQUEUE then
      if (j : ℤ) < (s.table.queues i).length then
        some (s.goto c (.picked i j (s.table.queues i).head) s.table)
      else some (s.goto c (.select (i + 1) 0) s.table)
    else some (s.goto c (.fill 0) s.table)
  | .picked i j p =>
    match s.table.dequeue p with
    | .error e => some (s.panic e)
    | .ok t =>
      if (t.proc p).state = .runnable then
        some (s.goto c (.running p) (t.setState p .running))
      else some (s.goto c (.select i (j + 1)) t)
  | .running _ => none

/-- A step of the process on CPU `c` that gives up the CPU. -/
def leave (s : State) (c : ℕ) (change : Table → ℕ → Table) : Option State :=
  match s.cpu c with
  | .running p => some (s.goto c (.fill 0) (change s.table p))
  | _ => none

/-- A section under the lock of slot `p`. -/
def locked (s : State) (p : ℕ) (enabled : Prop) [Decidable enabled] (t : Table) : Option State :=
  if p < NPROC ∧ enabled then some (s.withTable t) else none

def step (s : State) : Action → Option State
  | .scheduler c => schedulerStep s c
  | .demote c user =>
    match s.cpu c with
    | .running p =>
      if s.table.sliceUsed p then some (s.withTable (s.table.demote user p)) else none
    | _ => none
  | .yield c => leave s c fun t p => t.setState p .runnable
  | .sleep c chan => leave s c fun t p => t.sleep p chan
  | .exit c => leave s c Table.exitAt
  | .tick => some (s.withTable { s.table with ticks := (s.table.ticks + 1) % 2 ^ 32 })
  | .updateTime p => locked s p True (s.table.updateTimeAt p)
  | .wakeup chan p => locked s p True (s.table.wakeupAt chan p)
  | .kill p => locked s p True (s.table.killAt p)
  | .allocproc p => locked s p ((s.table.proc p).state = .unused) (s.table.allocprocAt p)
  | .start p => locked s p ((s.table.proc p).state = .used) (s.table.setState p .runnable)
  | .freeproc p =>
    locked s p ((s.table.proc p).state = .used ∨ (s.table.proc p).state = .zombie)
      (s.table.freeproc p)

/-- A panicked kernel makes no step. -/
def exec (s : State) (a : Action) : Option State :=
  if s.panicked = none then step s a else none

/-- All CPUs enter `scheduler`; the table is still empty. -/
def init : State := ⟨Table.zero, fun _ => .fill 0, none⟩

/-! ### What is claimed of every state -/

/-- Queues and process table agree: `length` is the distance from `front` to `back`, and
a process is in the queue of its level once, and in no other, exactly when `in_queue`
is set; otherwise it is in no queue. So every RUNNABLE process is queued or is left to
the next enqueue loop. -/
structure QueuesOk (t : Table) : Prop where
  length_eq : ∀ k < NQUEUE, (t.queues k).length =
    (((t.queues k).back : ℤ) - (t.queues k).front) % (NPROC + 1)
  in_queue_iff : ∀ p < NPROC, (t.proc p).inQueue = true ↔
    (t.proc p).priority < NQUEUE ∧ (t.level (t.proc p).priority).count p = 1 ∧
      ∀ k < NQUEUE, k ≠ (t.proc p).priority → p ∉ t.level k
  not_in_queue : ∀ p < NPROC, (t.proc p).inQueue = false → ∀ k < NQUEUE, p ∉ t.level k
  not_lost : ∀ p < NPROC, (t.proc p).state = .runnable →
    (t.proc p).inQueue = false ∨ p ∈ t.level (t.proc p).priority

/-- `p` is at the front of the queue of its level. -/
def StillFront (t : Table) (p : ℕ) : Prop :=
  0 < (t.queues (t.proc p).priority).length ∧ (t.queues (t.proc p).priority).head = p

instance (t : Table) (p : ℕ) : Decidable (StillFront t p) := by
  unfold StillFront; infer_instance

/-- The process the scheduler on CPU `c` is about to dequeue. -/
def pickedBy (s : State) (c : ℕ) : Option ℕ :=
  match s.cpu c with
  | .picked _ _ p => some p
  | _ => none

/-- A step that dequeues a process finds it still at the front, and one that creates a
process gives it a pid of its own. -/
def Picks (s : State) : Action → Prop
  | .scheduler c => ∀ p ∈ pickedBy s c, StillFront s.table p
  | .allocproc _ => s.table.FreshPid
  | _ => True

instance (s : State) (a : Action) : Decidable (Picks s a) := by
  cases a <;> unfold Picks <;> infer_instance

/-- The states of runs in which every process picked is still at the front and every new
process has a pid of its own. -/
def ReachablePicking : State → Prop :=
  Run.ReachableUnder (· = init) (Run.relOf exec) Picks

theorem QueuesOk.of_consistent {t : Table} (h : t.Consistent) : QueuesOk t where
  length_eq k _ := (h.queue_ok k).length_eq_emod
  in_queue_iff p _ := by
    constructor
    · intro hq
      refine ⟨h.level_lt p, ?_, fun k _ hk hmem => hk ((h.mem_iff k p).mp hmem).2.symm⟩
      exact List.count_eq_one_of_mem (h.nodup _) ((h.mem_iff _ p).mpr ⟨hq, rfl⟩)
    · rintro ⟨-, hcount, -⟩
      exact ((h.mem_iff _ p).mp (List.count_pos_iff.mp (hcount ▸ Nat.one_pos))).1
  not_in_queue p _ hq k _ hmem := by
    simp [((h.mem_iff k p).mp hmem).1] at hq
  not_lost p _ _ := by
    cases hq : (t.proc p).inQueue with
    | false => exact .inl rfl
    | true => exact .inr ((h.mem_iff _ p).mpr ⟨hq, rfl⟩)

/-! ### The invariant -/

structure Inv (s : State) : Prop where
  alive : s.panicked = none
  table : s.table.Consistent
  pids : s.table.DistinctPids
  running : ∀ c p, s.cpu c = .running p → (s.table.proc p).state = .running
  unique : ∀ c c' p, s.cpu c = .running p → s.cpu c' = .running p → c = c'

variable {s s' : State} {c p : ℕ}

theorem inv_init : Inv init where
  alive := rfl
  table := Table.zero_consistent
  pids _ _ _ _ h := absurd rfl h
  running _ _ h := by cases h
  unique _ _ _ h := by cases h

theorem goto_cpu (pc : Pc) (t : Table) (c' : ℕ) :
    (s.goto c pc t).cpu c' = if c' = c then pc else s.cpu c' :=
  Function.update_apply s.cpu c pc c'

/-- A step that moves no CPU to or from a process. -/
theorem Inv.withTable (inv : Inv s) {t : Table} (ht : t.Consistent) (hpids : t.DistinctPids)
    (hstate : ∀ x, (s.table.proc x).state = .running → (t.proc x).state = .running) :
    Inv (s.withTable t) :=
  ⟨inv.alive, ht, hpids, fun c p h => hstate p (inv.running c p h), inv.unique⟩

/-- A CPU goes on within the scheduler. -/
theorem Inv.goto (inv : Inv s) {t : Table} {pc : Pc} (ht : t.Consistent) (hpids : t.DistinctPids)
    (hpc : ∀ p, pc ≠ .running p)
    (hstate : ∀ x, (∀ p, s.cpu c = .running p → x ≠ p) →
      (s.table.proc x).state = .running → (t.proc x).state = .running) :
    Inv (s.goto c pc t) := by
  have hcpu : ∀ c' p, (s.goto c pc t).cpu c' = .running p → c' ≠ c ∧ s.cpu c' = .running p := by
    intro c' p h
    rw [goto_cpu] at h
    split at h
    · exact absurd h (hpc p)
    · next hc => exact ⟨hc, h⟩
  refine ⟨inv.alive, ht, hpids, fun c' p h => ?_, fun c₁ c₂ p h₁ h₂ => ?_⟩
  · obtain ⟨hc, h⟩ := hcpu c' p h
    refine hstate p (fun q hq => ?_) (inv.running c' p h)
    rintro rfl
    exact hc (inv.unique c' c p h hq)
  · exact inv.unique c₁ c₂ p (hcpu c₁ p h₁).2 (hcpu c₂ p h₂).2

/-- The front of a level is the process `select` reads. -/
theorem level_eq_cons (inv : s.table.Consistent) (h : StillFront s.table p) :
    ∃ l, s.table.level (s.table.proc p).priority = p :: l := by
  obtain ⟨hpos, hhead⟩ := h
  set q := s.table.queues (s.table.proc p).priority with hq
  have hok := inv.queue_ok (s.table.proc p).priority
  have hlen := hok.length_toList
  cases hl : q.toList with
  | nil =>
    rw [← hq, hl] at hlen
    simp [hlen] at hpos
  | cons x l =>
    have hx := hok.head_eq hl
    exact ⟨l, by rw [Table.level, ← hq, hl, ← hx, ← hq, hhead]⟩

/-- The process dispatched is RUNNABLE, so no CPU runs it. -/
theorem Inv.dispatch (inv : Inv s) {t : Table} (ht : t.Consistent) (hpids : t.DistinctPids)
    (hq : (t.proc p).inQueue = false) (hrun : (t.proc p).state = .runnable)
    (hsame : ∀ x, (t.proc x).state = (s.table.proc x).state) :
    Inv (s.goto c (.running p) (t.setState p .running)) := by
  have hfree : ∀ c', s.cpu c' ≠ .running p := by
    intro c' h
    have := (hsame p).trans (inv.running c' p h)
    simp [hrun] at this
  have hcpu : ∀ c' x, (s.goto c (.running p) (t.setState p .running)).cpu c' = .running x →
      c' = c ∧ x = p ∨ c' ≠ c ∧ x ≠ p ∧ s.cpu c' = .running x := by
    intro c' x h
    rw [goto_cpu] at h
    split at h
    · next hc =>
      cases h
      exact .inl ⟨hc, rfl⟩
    · next hc =>
      refine .inr ⟨hc, ?_, h⟩
      rintro rfl
      exact hfree c' h
  refine ⟨inv.alive, ht.setState hq, hpids.setState (by simp [hrun]),
    fun c' x h => ?_, fun c₁ c₂ x h₁ h₂ => ?_⟩
  · change ((t.setState p .running).proc x).state = .running
    rcases hcpu c' x h with ⟨-, rfl⟩ | ⟨-, hx, h⟩
    · simp [setState]
    · rw [setState, modify_proc, if_neg hx, hsame]
      exact inv.running c' x h
  · rcases hcpu c₁ x h₁ with ⟨rfl, rfl⟩ | ⟨-, hx, h₁⟩ <;>
      rcases hcpu c₂ x h₂ with ⟨rfl, hx'⟩ | ⟨-, hx', h₂⟩
    · rfl
    · exact absurd rfl hx'
    · exact absurd hx' hx
    · exact inv.unique c₁ c₂ x h₁ h₂

/-! ### Preservation -/

theorem Inv.schedulerStep (inv : Inv s) (hpick : ∀ p ∈ pickedBy s c, StillFront s.table p)
    (h : schedulerStep s c = some s') : Inv s' := by
  unfold Interleave.schedulerStep at h
  split at h
  · next p hcpu =>
    have hidle : ∀ x, (∀ p, s.cpu c = .running p → x ≠ p) → (s.table.proc x).state = .running →
        (s.table.proc x).state = .running := fun _ _ h => h
    split at h
    · next hp =>
      unfold Table.enqueueAt at h
      by_cases hcond : (s.table.proc p).state = .runnable ∧ (s.table.proc p).inQueue = false
      · obtain ⟨q, hok, -, hcons⟩ := inv.table.enqueue hp hcond.1 hcond.2
        rw [if_pos hcond, hok] at h
        cases h
        refine inv.goto hcons (inv.pids.requeue fun _ => ⟨rfl, rfl⟩) (by simp) fun x _ hx => ?_
        rw [modify_proc]
        split
        · next heq => simpa [heq] using heq ▸ hx
        · exact hx
      · rw [if_neg hcond] at h
        cases h
        exact inv.goto inv.table inv.pids (by simp) hidle
    · cases h
      exact inv.goto inv.table inv.pids (by simp) hidle
  · next i j hcpu =>
    split at h
    · split at h <;> cases h <;> exact inv.goto inv.table inv.pids (by simp) fun _ _ h => h
    · cases h
      exact inv.goto inv.table inv.pids (by simp) fun _ _ h => h
  · next i j p hcpu =>
    have hfront := hpick p (by simp [pickedBy, hcpu])
    obtain ⟨l, hl⟩ := level_eq_cons inv.table hfront
    obtain ⟨q, hok, -, hcons⟩ := inv.table.dequeue hl
    have hmem : p ∈ s.table.level (s.table.proc p).priority := hl ▸ List.mem_cons_self
    have hrun := (inv.table.queued p ((inv.table.mem_iff _ p).mp hmem).1).2
    rw [hok] at h
    simp only [Table.modify_proc_self, Table.setQueue_proc, hrun, if_true] at h
    cases h
    refine inv.dispatch hcons (inv.pids.requeue fun _ => ⟨rfl, rfl⟩) (by simp)
      (by simpa using hrun) fun x => ?_
    rw [modify_proc]
    split
    · next heq => simp [heq]
    · rfl
  · cases h

theorem Inv.leave (inv : Inv s) {change : Table → ℕ → Table}
    (hchange : ∀ p, (s.table.proc p).state = .running → (change s.table p).Consistent ∧
      (change s.table p).DistinctPids ∧ ∀ x, x ≠ p → (change s.table p).proc x = s.table.proc x)
    (h : leave s c change = some s') : Inv s' := by
  unfold Interleave.leave at h
  split at h
  · next p hcpu =>
    cases h
    obtain ⟨hcons, hpids, hother⟩ := hchange p (inv.running c p hcpu)
    refine inv.goto hcons hpids (by simp) fun x hx hrun => ?_
    rwa [hother x (hx p hcpu)]
  · cases h

theorem Inv.locked (inv : Inv s) {enabled : Prop} [Decidable enabled] {t : Table}
    (ht : enabled → t.Consistent) (hpids : enabled → t.DistinctPids)
    (hstate : enabled → ∀ x, (s.table.proc x).state = .running → (t.proc x).state = .running)
    (h : locked s p enabled t = some s') : Inv s' := by
  obtain ⟨hcond, rfl⟩ := Run.of_guard h
  exact inv.withTable (ht hcond.2) (hpids hcond.2) (hstate hcond.2)

/-- What a change of one record does to the states of the others. -/
theorem running_modify {t : Table} {f : Proc → Proc}
    (h : (t.proc p).state = .running → (f (t.proc p)).state = .running) (x : ℕ)
    (hx : (t.proc x).state = .running) : ((t.modify p f).proc x).state = .running := by
  rw [modify_proc]
  split
  · next heq => exact h (heq ▸ hx)
  · exact hx

/-- Every step that picks only what is still at the front keeps the invariant. -/
theorem Inv.step (inv : Inv s) {a : Action} (hpick : Picks s a) (h : exec s a = some s') :
    Inv s' := by
  rw [exec, if_pos inv.alive] at h
  cases a with
  | scheduler c => exact inv.schedulerStep hpick h
  | demote c user =>
    simp only [Interleave.step] at h
    split at h
    · next p hcpu =>
      obtain ⟨-, rfl⟩ := Run.of_guard h
      have hrun := inv.running c p hcpu
      refine inv.withTable (inv.table.demote user hrun) (inv.pids.modify fun _ => ⟨?_, ?_⟩)
        (running_modify fun _ => ?_)
      · simp [hrun]
      · cases user <;> rfl
      · cases user <;> exact hrun
    · cases h
  | yield c =>
    change Interleave.leave s c (fun t p => t.setState p .runnable) = some s' at h
    refine inv.leave (fun p hrun => ⟨?_, ?_, fun x hx => ?_⟩) h
    · exact inv.table.setState (inv.table.not_queued (by simp [hrun]))
    · exact inv.pids.setState (by simp [hrun])
    · rw [setState, modify_proc, if_neg hx]
  | sleep c chan =>
    change Interleave.leave s c (fun t p => t.sleep p chan) = some s' at h
    refine inv.leave (fun p hrun => ⟨inv.table.sleep chan hrun, ?_, fun x hx => ?_⟩) h
    · exact inv.pids.modify fun _ => ⟨by simp [hrun], rfl⟩
    · rw [Table.sleep, modify_proc, if_neg hx]
  | exit c =>
    refine inv.leave (fun p hrun => ⟨inv.table.exitAt hrun, ?_, fun x hx => ?_⟩) h
    · exact inv.pids.modify fun _ => ⟨by simp [hrun], rfl⟩
    · rw [Table.exitAt, modify_proc, if_neg hx]
  | tick =>
    cases h
    exact inv.withTable (inv.table.congr rfl rfl) inv.pids fun _ h => h
  | updateTime p =>
    refine inv.locked (fun _ => ?_) (fun _ => inv.pids.updateTimeAt p) (fun _ x hx => ?_) h
    · exact (inv.table.updateTimes (List.nodup_singleton p) (inv.pids.agedFirst inv.table)).1
    · by_cases hxp : x = p
      · rw [hxp] at hx ⊢
        rw [Table.updateTimeAt_self, Proc.ticked_state, hx]
      · rw [Table.updateTimeAt_other _ p x hxp, hx]
  | wakeup chan p =>
    refine inv.locked (fun _ => inv.table.wakeupAt chan p) (fun _ => ?_) (fun _ x hx => ?_) h
    · unfold Table.wakeupAt
      split
      · next hsleep => exact inv.pids.setState (by simp [hsleep.1])
      · exact inv.pids
    · unfold Table.wakeupAt
      split
      · next hsleep => exact running_modify (fun hrun => by simp [hsleep.1] at hrun) x hx
      · exact hx
  | kill p =>
    refine inv.locked (fun _ => inv.table.killAt p) (fun _ => inv.pids.modify fun hst => ⟨?_, rfl⟩)
      (fun _ => running_modify fun hrun => ?_) h
    · intro hunused
      simp [hunused] at hst
    · simp [hrun]
  | allocproc p =>
    refine inv.locked inv.table.allocprocAt (fun _ => inv.pids.allocprocAt hpick)
      (fun hst x hx => ?_) h
    have hne : x ≠ p := by
      rintro rfl
      simp [hst] at hx
    exact (congrArg Proc.state (Function.update_of_ne hne _ _)).trans hx
  | start p =>
    refine inv.locked (fun hst => ?_) (fun hst => inv.pids.setState (by simp [hst]))
      (fun hst => running_modify fun hrun => ?_) h
    · exact inv.table.setState (inv.table.not_queued (by simp [hst]))
    · simp [hst] at hrun
  | freeproc p =>
    refine inv.locked (fun hst => inv.table.freeproc ?_)
      (fun _ => inv.pids.modify fun h => absurd rfl h) (fun hst => running_modify fun hrun => ?_) h
    · rcases hst with hst | hst <;> simp [hst]
    · rcases hst with hst | hst <;> simp [hst] at hrun

theorem ReachablePicking.inv (h : ReachablePicking s) : Inv s :=
  Run.ReachableUnder.invariant Inv (by rintro _ rfl; exact inv_init)
    (fun _ _ _ inv hpick hstep => inv.step hpick hstep) h

/-- Dequeueing a process that is not at the front of its level empties an empty queue
or drops the process that is at the front. -/
theorem Inv.breaks (inv : Inv s) {i j : ℕ} (hcpu : s.cpu c = .picked i j p)
    (hnot : ¬ StillFront s.table p) (h : exec s (.scheduler c) = some s') :
    s'.panicked = none → ¬ QueuesOk s'.table := by
  rw [exec, if_pos inv.alive] at h
  simp only [Interleave.step, Interleave.schedulerStep, hcpu] at h
  cases hd : s.table.dequeue p with
  | error e =>
    rw [hd] at h
    cases h
    intro hnone
    cases hnone
  | ok t =>
    obtain ⟨hlen, rfl⟩ := Table.dequeue_eq_ok.mp hd
    set k := (s.table.proc p).priority with hk
    have hok := inv.table.queue_ok k
    obtain ⟨x, l, hl⟩ : ∃ x l, (s.table.queues k).toList = x :: l := by
      cases hl : (s.table.queues k).toList with
      | nil => exact absurd (by simpa [hl] using hok.length_toList) hlen
      | cons x l => exact ⟨x, l, rfl⟩
    -- The front `x` is another process, flagged as queued at this level.
    have hne : x ≠ p := by
      rintro rfl
      have hpos : 0 < (s.table.queues k).length := by
        rw [hok.length_toList, hl, List.length_cons]
        omega
      exact hnot ⟨hpos, hok.head_eq hl⟩
    have hmem : x ∈ s.table.level k := by rw [Table.level, hl]; exact List.mem_cons_self
    have hx := (inv.table.mem_iff k x).mp hmem
    have hxl : x ∉ l := (List.nodup_cons.mp (hl ▸ inv.table.nodup k)).1
    have hrec : s'.table.proc x = s.table.proc x ∧ s'.table.level k = l := by
      rw [hd] at h
      dsimp only at h
      split at h <;> cases h
      · simp [State.goto, setState, modify_proc, hne, Table.level_setQueue,
          (hok.pop hl).2]
      · simp [State.goto, modify_proc, hne, Table.level_setQueue, (hok.pop hl).2]
    intro _ hqueues
    have hcount := ((hqueues.in_queue_iff x (inv.table.queued x hx.1).1).mp
      (hrec.1 ▸ hx.1)).2.1
    rw [hrec.1, hx.2, hrec.2, List.count_eq_zero_of_not_mem hxl] at hcount
    exact absurd hcount (by decide)

/-- **Queue consistency under interleaving.** In every run in which each process picked by a
scheduler is still at the front of its level when its lock is taken and each new process has a pid
of its own, no queue operation panics and queues and process table agree. From any state of such a
run, a dequeue that does not find its process there panics or breaks the agreement. -/
theorem mlfq_queues_ok (s : State) (h : ReachablePicking s) :
    (s.panicked = none ∧ QueuesOk s.table) ∧
      ∀ c p s', pickedBy s c = some p → exec s (.scheduler c) = some s' →
        ((s'.panicked = none ∧ QueuesOk s'.table) ↔ StillFront s.table p) := by
  refine ⟨⟨h.inv.alive, .of_consistent h.inv.table⟩, fun c p s' hpick hstep => ⟨fun hok => ?_, ?_⟩⟩
  · obtain ⟨i, j, hcpu⟩ : ∃ i j, s.cpu c = .picked i j p := by
      unfold pickedBy at hpick
      split at hpick
      · next i j q hcpu =>
        cases hpick
        exact ⟨i, j, hcpu⟩
      · cases hpick
    by_contra hnot
    exact h.inv.breaks hcpu hnot hstep hok.1 hok.2
  · intro hfront
    have hinv : Inv s' := by
      refine h.inv.step (a := .scheduler c) (fun q hq => ?_) hstep
      rw [hpick] at hq
      cases hq
      exact hfront
    exact ⟨hinv.alive, .of_consistent hinv.table⟩

/-- The first process is created, and a CPU fills the queues and picks it. -/
def pickFirst (c : ℕ) : List Action := List.replicate (NPROC + 2) (.scheduler c)

/-- One CPU creates, picks and dispatches a process, which then yields and is picked and
dispatched again. -/
theorem mlfq_queues_ok_oneCpu :
    ∃ s : State, s.cpu 0 = .running 0 ∧ (s.table.proc 0).inQueue = false ∧ s.panicked = none ∧
      QueuesOk s.table := by
  obtain ⟨s, hreach, hcpu, hq⟩ : ∃ s, ReachablePicking s ∧ s.cpu 0 = .running 0 ∧
      (s.table.proc 0).inQueue = false :=
    Run.exists_reachableUnder ([.allocproc 0, .start 0] ++ pickFirst 0 ++
      [.scheduler 0, .yield 0] ++ pickFirst 0 ++ [.scheduler 0]) rfl (by decide +kernel)
  obtain ⟨halive, hqueues⟩ := (mlfq_queues_ok s hreach).1
  exact ⟨s, hcpu, hq, halive, hqueues⟩

/-- Two CPUs read the same front of level `0`; the second to take its lock dequeues from
an empty queue. -/
theorem dequeue_panics_twoCpus :
    (Run.execAll exec init
      ([.allocproc 0, .start 0] ++ pickFirst 0 ++ pickFirst 1 ++ [.scheduler 0, .scheduler 1])).map
        (fun s => (s.cpu 0, s.cpu 1, s.panicked)) =
      some (.running 0, .picked 0 0 0, some .emptyQueue) := by
  decide +kernel

end Xv6.Sched.Interleave
