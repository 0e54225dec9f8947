import Xv6.Sched.Interleave
import Xv6.Sched.Ticks

/-!
Aging and the order of the queues.

Aging takes a process out of its queue; the next enqueue loop puts it at the end of the
queue one level up. So it stays ahead of a process that was behind it and is still queued,
provided there is a level up: at level `0` it is sent to the end of the queue they are both in.
A process that has left its queue meanwhile comes back in the same enqueue loop, and then the
order of the slots decides between two processes of one level.
-/

namespace Xv6.Sched.SingleCpu

open Proc (ticked)

variable {s s' : State} {p q x : ℕ}

/-- Both are queued, `p` at a smaller level than `q` or before it in the same queue. -/
def Ahead (t : Table) (p q : ℕ) : Prop :=
  (t.proc p).inQueue = true ∧ (t.proc q).inQueue = true ∧
    ((t.proc p).priority < (t.proc q).priority ∨ (t.proc p).priority = (t.proc q).priority ∧
      [p, q].Sublist (t.level (t.proc p).priority))

/-- The kernel as a CPU sees it in a reachable state: the only CPU, or one of several whose
schedulers always find the process they picked still queued. -/
def Seen (s : State) : Prop :=
  Reachable s ∨ ∃ m c, Interleave.ReachablePicking m ∧ s.table = m.table ∧
    ∀ p, s.current = some p → m.cpu c = .running p

theorem Seen.attended (h : Seen s) : Attended s := by
  rcases h with h | ⟨m, c, hm, htable, hcpu⟩
  · exact ⟨h.inv.table, h.inv.order, fun p hp => (h.inv.running_iff p).mpr hp⟩
  · have horder := hm.inv.pids.inOrder hm.inv.table
    exact ⟨htable ▸ hm.inv.table, htable ▸ horder, fun p hp => htable ▸ hm.inv.running c p (hcpu p hp)⟩

/-- What a tick does to a process that waits. -/
theorem Attended.tick_proc (h : Attended s) {user : Bool} (hexec : exec s (.tick user) = some s')
    (hx : x < NPROC) (hst : (s.table.proc x).state = .runnable) :
    s'.table.proc x = ticked (s.table.proc x) := by
  have hclock : ∀ me, (clockintr s.table me).proc x = ticked (s.table.proc x) := by
    intro me
    rcases clockintr_proc s.table me hx with h | ⟨hsleep, -⟩
    · exact h
    · cases hst.symm.trans hsleep
  simp only [exec] at hexec
  split at hexec
  · obtain rfl := Option.some.inj hexec
    dsimp only
    exact hclock none
  · next r hcur =>
    obtain rfl := Option.some.inj hexec
    have hne : x ≠ r := by
      rintro rfl
      cases hst.symm.trans (h.running x hcur)
    exact (trap_proc_of_ne user hne).trans (hclock (some r))

/-- Until the next round a process that waits goes on waiting at its level or a smaller one,
and a process still queued has stayed at its level. -/
theorem Attended.run (h : Attended s) {as : List Action} (hno : .schedule ∉ as)
    (hrun : Run.execAll exec s as = some s') :
    Attended s' ∧ ∀ x < NPROC,
      ((s.table.proc x).state = .runnable → (s'.table.proc x).state = .runnable ∧
        (s'.table.proc x).priority ≤ (s.table.proc x).priority) ∧
      ((s'.table.proc x).inQueue = true → (s.table.proc x).inQueue = true ∧
        (s'.table.proc x).priority = (s.table.proc x).priority) := by
  induction as generalizing s with
  | nil =>
    cases hrun
    exact ⟨h, fun x _ => ⟨fun hst => ⟨hst, Nat.le_refl _⟩, fun hq => ⟨hq, rfl⟩⟩⟩
  | cons a as ih =>
    obtain ⟨s₁, hexec, hrest⟩ := Option.bind_eq_some_iff.mp hrun
    obtain ⟨ha, hno⟩ := not_or.mp (List.mem_cons.not.mp hno)
    obtain ⟨h₁, -, hmoves⟩ := h.step (Ne.symm ha) hexec
    obtain ⟨h', hlater⟩ := ih h₁ hno hrest
    refine ⟨h', fun x hx => ⟨fun hst => ?_, fun hq => ?_⟩⟩
    · obtain ⟨hst', hle⟩ := (hlater x hx).1 ((hmoves x hx).runnable hst)
      exact ⟨hst', hle.trans ((hmoves x hx).priority (.inr (by rw [hst]; decide)))⟩
    · obtain ⟨hq₁, heq⟩ := (hlater x hx).2 hq
      obtain ⟨hq₀, heq₀, -⟩ := (hmoves x hx).queued hq₁
      exact ⟨hq₀, heq.trans heq₀⟩

/-- Two members of a list in increasing order. -/
theorem pair_sublist_iff {l : List ℕ} (hl : l.Pairwise (· < ·)) {a b : ℕ} (ha : a ∈ l) (hb : b ∈ l) :
    [a, b].Sublist l ↔ a < b := by
  constructor
  · intro hsub
    simpa using hl.sublist hsub
  · intro hlt
    have hpair : [a, b].Pairwise (· < ·) := by simpa using hlt
    have hnodup : [a, b].Nodup := hpair.imp Nat.ne_of_lt
    have hsub : [a, b] ⊆ l := by simp [ha, hb]
    exact List.sublist_of_subperm_of_pairwise (hnodup.subperm hsub) hpair hl

/-- The enqueue loop puts a waiting process behind those queued at its level, and among those
that wait the order is that of the slots. -/
theorem ahead_fill_iff {t filled : Table} (inv : t.Consistent) (hfilled : Table.Filled t filled)
    (hx : x < NPROC) (hst : (t.proc x).state = .runnable) (hp : p < NPROC) (hwait : t.Waiting p) :
    Ahead filled x p ↔ (t.proc x).priority < (t.proc p).priority ∨
      (t.proc x).priority = (t.proc p).priority ∧ ((t.proc x).inQueue = true ∨ x < p) := by
  have hqueued := fun {y} (hy : y < NPROC) => hfilled.queued (p := y) hy
  simp only [Ahead, hqueued hx hst, hqueued hp hwait.1, hfilled.priority_eq, true_and]
  refine or_congr_right (and_congr_right fun heq => ?_)
  rw [hfilled.level_eq]
  set k := (t.proc x).priority with hk
  set new := (List.range NPROC).filter fun y => t.Waiting y ∧ (t.proc y).priority = k with hnew
  have hsorted : new.Pairwise (· < ·) := List.pairwise_lt_range.filter _
  have hpnew : p ∈ new := by simp [hnew, hp, hwait, heq]
  by_cases hq : (t.proc x).inQueue = true
  · have hxold : x ∈ t.level k := (inv.mem_iff k x).mpr ⟨hq, rfl⟩
    simp only [hq, true_or, iff_true]
    exact (List.singleton_sublist.mpr hxold).append (List.singleton_sublist.mpr hpnew)
  · have hxnew : x ∈ new := by simp [hnew, hx, Table.Waiting, hst, hq, hk]
    have hxold : x ∉ t.level k := fun h => hq ((inv.mem_iff k x).mp h).1
    rw [← pair_sublist_iff hsorted hxnew hpnew]
    rw [or_iff_right hq]
    refine ⟨fun hsub => ?_, fun hsub => hsub.trans (List.sublist_append_right _ _)⟩
    obtain ⟨l, l', heq, hl, hl'⟩ := List.sublist_append_iff.mp hsub
    cases l with
    | nil => rwa [heq]
    | cons y l =>
      obtain rfl := (List.cons.inj heq).1
      exact absurd (hl.subset List.mem_cons_self) hxold

/-- **Aging keeps the order** of `p` and a process `q` that was behind it, up to the CPU's next
enqueue loop, exactly if `q` is still queued then and was not at level `0`, or has left its queue
as well and comes back behind `p` in the order of levels and slots. -/
theorem aging_keeps_ahead_iff (s s' s'' : State) (user : Bool) (as : List Action) (p q : ℕ)
    (hs : Seen s) (htick : exec s (.tick user) = some s') (hno : .schedule ∉ as)
    (hrun : Run.execAll exec s' as = some s'') (haged : s.table.Aged p)
    (hahead : Ahead s.table p q) :
    ∃ filled, s''.table.enqueueLoop = .ok filled ∧ (¬ Ahead filled q p ↔
      (s''.table.proc q).inQueue = true ∧ 0 < (s.table.proc q).priority ∨
      (s''.table.proc q).inQueue = false ∧
        ((s''.table.proc p).priority < (s''.table.proc q).priority ∨
          (s''.table.proc p).priority = (s''.table.proc q).priority ∧ p < q)) := by
  have hattended := hs.attended
  obtain ⟨hattended', -, hmoves⟩ := hattended.tick htick
  obtain ⟨hattended'', hlater⟩ := hattended'.run hno hrun
  obtain ⟨filled, hfill, -, hfilled⟩ := hattended''.table.fill (List.range NPROC)
    (fun p hp => List.mem_range.mp hp) List.nodup_range
  obtain ⟨hpq, hqq, hahead⟩ := hahead
  obtain ⟨hp, -⟩ := hattended.table.queued p hpq
  obtain ⟨hqn, hqst⟩ := hattended.table.queued q hqq
  have hne : p ≠ q := by
    rintro rfl
    rcases hahead with hlt | ⟨-, hsub⟩
    · exact Nat.lt_irrefl _ hlt
    · simpa using (hattended.table.nodup _).sublist hsub
  -- `p` is out of its queue from the tick on, and has moved up if it could
  have hticked := hattended.tick_proc htick hp haged.1
  obtain ⟨hst'', hup⟩ := (hlater p hp).1 ((hmoves p hp).runnable haged.1)
  have hone : (s'.table.proc p).priority = (s.table.proc p).priority - 1 := by
    simp [hticked, ticked, haged.1, haged.2]
  have hwait : s''.table.Waiting p := by
    refine ⟨hst'', Bool.eq_false_iff.mpr fun hq'' => ?_⟩
    have hq' := ((hlater p hp).2 hq'').1
    simp [hticked, ticked, haged.1, haged.2] at hq'
  have hqst'' := ((hlater q hqn).1 ((hmoves q hqn).runnable hqst)).1
  refine ⟨filled, hfill, ?_⟩
  rw [ahead_fill_iff hattended''.table hfilled hqn hqst'' hp hwait]
  by_cases hq : (s''.table.proc q).inQueue = true
  · -- `q` has stayed at its level
    have hsame : (s''.table.proc q).priority = (s.table.proc q).priority := by
      obtain ⟨hq', heq⟩ := (hlater q hqn).2 hq
      exact heq.trans ((hmoves q hqn).queued hq').2.1
    simp only [hq, hsame, true_or, and_true, true_and, Bool.true_eq_false, false_and, or_false]
    omega
  · simp only [hq, Bool.false_eq_true, false_or, false_and, true_and]
    omega

/-! ### A queue of thirty processes -/

/-- The first process forks thirty-one children and is demoted; twenty-eight of them have
used up their slices, the next one forks again and uses its slice up too. -/
def busy : List Action :=
  .schedule :: List.replicate 31 (.fork true) ++ .tick true ::
    (List.replicate 28 [.schedule, .tick true]).flatten ++ [.schedule, .fork true, .tick true, .schedule]

/-- The process in slot 31 has waited for 29 ticks at the front of level `0`, and that in
slot 0 at the front of level `1`. If the one that runs goes to sleep, slot 31 is dispatched
with its count of 29. -/
theorem exists_busy : ∃ s, Reachable s ∧
    (s.table.level 0 = [31, 32] ∧ (s.table.proc 31).currWtime = 29 ∧
      (s.table.proc 32).currWtime = 0) ∧
    ((s.table.level 1).take 2 = [0, 1] ∧ (s.table.proc 0).currWtime = 29 ∧
      (s.table.proc 1).currWtime = 28) ∧
    (Run.execAll exec s [.sleep 9, .schedule]).any fun s₁ => s₁.current = some 31 ∧
      (s₁.table.proc 31).currWtime = 29 ∧ (s₁.table.proc 31).priority = 0 :=
  Run.exists_reachable busy rfl (by decide +kernel)

theorem exists_tick (s : State) (user : Bool) : ∃ s', exec s (.tick user) = some s' := by
  unfold exec
  cases s.current <;> exact ⟨_, rfl⟩

/-- A process that waits, but not for long, stays queued at a tick. -/
theorem Attended.tick_queued (h : Attended s) {user : Bool} (hexec : exec s (.tick user) = some s')
    (hq : (s.table.proc x).inQueue = true) (hyoung : (s.table.proc x).currWtime < 29) :
    (s'.table.proc x).inQueue = true ∧ (s'.table.proc x).priority = (s.table.proc x).priority := by
  obtain ⟨hx, hst⟩ := h.table.queued x hq
  have hnot : ¬ 30 ≤ (s.table.proc x).currWtime + 1 := by omega
  simp [h.tick_proc hexec hx hst, ticked, hst, hnot, hq]

theorem aging_keeps_ahead_iff_busy : ∃ s s' filled, Reachable s ∧ exec s (.tick true) = some s' ∧
    s.table.Aged 0 ∧ Ahead s.table 0 1 ∧ s'.table.enqueueLoop = .ok filled ∧
    ¬ Ahead filled 1 0 := by
  obtain ⟨s, hs, -, ⟨hlevel, hzero, hone⟩, -⟩ := exists_busy
  obtain ⟨s', hs'⟩ := exists_tick s true
  have hsub : [0, 1].Sublist (s.table.level 1) := hlevel ▸ List.take_sublist 2 _
  obtain ⟨hq₀, hpr₀⟩ := (hs.inv.table.mem_iff 1 0).mp (hsub.subset (by simp))
  obtain ⟨hq₁, hpr₁⟩ := (hs.inv.table.mem_iff 1 1).mp (hsub.subset (by simp))
  have haged : s.table.Aged 0 := ⟨(hs.inv.table.queued 0 hq₀).2, by rw [hzero]⟩
  have hahead : Ahead s.table 0 1 := ⟨hq₀, hq₁, .inr ⟨hpr₀.trans hpr₁.symm, by rwa [hpr₀]⟩⟩
  have hseen : Seen s := .inl hs
  have hq₁' := (hseen.attended.tick_queued hs' hq₁ (by rw [hone]; decide)).1
  obtain ⟨filled, hfill, hback⟩ := aging_keeps_ahead_iff s s' s' true [] 0 1 hseen hs' (by simp) rfl
    haged hahead
  exact ⟨s, s', filled, hs, hs', haged, hahead, hfill, hback.mpr (.inl ⟨hq₁', by rw [hpr₁]; decide⟩)⟩

/-- At level `0` the aged process is put behind the process that was behind it. -/
theorem aging_sets_back : ∃ s s' filled, Reachable s ∧ exec s (.tick true) = some s' ∧
    s.table.Aged 31 ∧ ¬ s.table.Aged 32 ∧ Ahead s.table 31 32 ∧
    s'.table.enqueueLoop = .ok filled ∧ Ahead filled 32 31 := by
  obtain ⟨s, hs, ⟨hlevel, hold, hnew⟩, -⟩ := exists_busy
  obtain ⟨s', hs'⟩ := exists_tick s true
  have hseen : Seen s := .inl hs
  obtain ⟨hq₁, hpr₁⟩ := (hs.inv.table.mem_iff 0 31).mp (by rw [hlevel]; simp)
  obtain ⟨hq₂, hpr₂⟩ := (hs.inv.table.mem_iff 0 32).mp (by rw [hlevel]; simp)
  have hst := (hs.inv.table.queued 31 hq₁).2
  have haged : s.table.Aged 31 := ⟨hst, by rw [hold]⟩
  have hahead : Ahead s.table 31 32 :=
    ⟨hq₁, hq₂, .inr ⟨hpr₁.trans hpr₂.symm, by rw [hpr₁, hlevel]⟩⟩
  have hattended := (hseen.attended.tick hs').attended
  obtain ⟨hq₂', hpr₂'⟩ := hseen.attended.tick_queued hs' hq₂ (by rw [hnew]; decide)
  rw [hpr₂] at hpr₂'
  -- slot 31 waits outside of the queues for the enqueue loop
  have hticked := hseen.attended.tick_proc hs' (show 31 < NPROC by decide) hst
  have hwait : s'.table.Waiting 31 ∧ (s'.table.proc 31).priority = 0 := by
    simp [Table.Waiting, hticked, ticked, hst, hold, hpr₁]
  obtain ⟨filled, hfill, -, hfilled⟩ := hattended.table.fill (List.range NPROC)
    (fun p hp => List.mem_range.mp hp) List.nodup_range
  refine ⟨s, s', filled, hs, hs', haged, fun h => ?_, hahead, hfill, ?_⟩
  · have := h.2
    omega
  · have hst₂ := (hattended.table.queued 32 hq₂').2
    exact (ahead_fill_iff hattended.table hfilled (by decide) hst₂ (by decide) hwait.1).mpr
      (.inr ⟨hpr₂'.trans hwait.2.symm, .inl hq₂'⟩)

end Xv6.Sched.SingleCpu
