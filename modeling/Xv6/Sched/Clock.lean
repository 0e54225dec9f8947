import Xv6.Sched.Invariant

/-!
What `update_time` does to records and queues.

The loop changes one record at a time, each of them once, so its effect on the records is its
effect on each (`ticked`). The queues are another matter. `delqueue` knows a process by its pid,
and `nextpid` wraps around: two processes may have the same pid, and then the call for one of
them takes out the entry of the other. The loop as a whole still takes out the entries of the
aged processes and no others when, among the entries of a queue with one pid, those of aged
processes come first (`AgedFirst`). Different pids give this, and so do queues in the order of
the time spent in them (`InOrder`).
-/

namespace Xv6.Sched.Table

open Function (update)
open Proc (ticked ticked_state ticked_pid ticked_priority_le)

variable {t t' : Table} {p x k : ℕ} {ps : List ℕ}

/-! ### The records -/

/-- A loop over distinct slots whose body changes only the slot it visits. -/
theorem foldl_proc {f : Table → ℕ → Table} {R : Proc → Proc → Prop}
    (self : ∀ t p, R (t.proc p) ((f t p).proc p))
    (other : ∀ t p x, x ≠ p → (f t p).proc x = t.proc x) (nodup : ps.Nodup) :
    (x ∈ ps → R (t.proc x) ((ps.foldl f t).proc x)) ∧
      (x ∉ ps → (ps.foldl f t).proc x = t.proc x) := by
  induction ps generalizing t with
  | nil => exact ⟨fun hx => absurd hx List.not_mem_nil, fun _ => rfl⟩
  | cons p ps ih =>
    obtain ⟨hp, nodup⟩ := List.nodup_cons.mp nodup
    obtain ⟨hin, hout⟩ := ih (t := f t p) nodup
    rw [List.foldl_cons, List.mem_cons]
    refine ⟨fun hx => ?_, fun hx => ?_⟩
    · by_cases hxp : x = p
      · subst hxp
        rw [hout hp]
        exact self t x
      · rw [← other t p x hxp]
        exact hin (hx.resolve_left hxp)
    · rw [not_or] at hx
      rw [hout hx.2, other t p x hx.1]

theorem updateTimeAt_self (t : Table) (p : ℕ) : (t.updateTimeAt p).proc p = ticked (t.proc p) := by
  have hpred : ∀ n : ℕ, (if n ≠ 0 then n - 1 else n) = n - 1 := fun n => by split <;> omega
  unfold updateTimeAt countTick ticked
  cases hst : (t.proc p).state with
  | runnable =>
    by_cases hage : 30 ≤ (t.proc p).currWtime + 1
    · by_cases hq : (t.proc p).inQueue = true
      · simp [age, delqueue, hst, hage, hq, hpred]
      · simp [age, hst, hage, hq, hpred]
    · simp [age, hst, hage]
  | _ => simp [age, hst]

theorem updateTimeAt_other (t : Table) (p x : ℕ) (hx : x ≠ p) :
    (t.updateTimeAt p).proc x = t.proc x := by
  have hcount : (t.countTick p).proc x = t.proc x := by
    unfold countTick
    split
    · rw [modify_proc, if_neg hx]
    · rw [modify_proc, if_neg hx]
    · rfl
  rw [updateTimeAt, ← hcount]
  unfold age
  split
  · split
    · rw [modify_proc, if_neg hx, modify_proc, if_neg hx, delqueue, modify_proc, if_neg hx,
        setQueue_proc]
    · rw [modify_proc, if_neg hx]
  · rfl

/-- `update_time` over the slots `ps`. -/
theorem foldl_updateTimeAt_proc (nodup : ps.Nodup) (x : ℕ) :
    (ps.foldl updateTimeAt t).proc x = if x ∈ ps then ticked (t.proc x) else t.proc x := by
  have hloop := foldl_proc (t := t) (x := x) (f := updateTimeAt) (R := fun r r' => r' = ticked r)
    updateTimeAt_self updateTimeAt_other nodup
  split
  · next hx => exact hloop.1 hx
  · next hx => exact hloop.2 hx

theorem updateTime_proc (hx : x < NPROC) : t.updateTime.proc x = ticked (t.proc x) := by
  rw [updateTime, foldl_updateTimeAt_proc List.nodup_range, if_pos (List.mem_range.mpr hx)]

/-! ### The queues -/

/-- `update_time` ages the process at the next tick. -/
def Aged (t : Table) (p : ℕ) : Prop :=
  (t.proc p).state = .runnable ∧ 30 ≤ (t.proc p).currWtime + 1

instance (t : Table) (p : ℕ) : Decidable (t.Aged p) := by
  unfold Aged; infer_instance

theorem ticked_inQueue (hq : (t.proc p).inQueue = true → (t.proc p).state = .runnable) :
    (ticked (t.proc p)).inQueue = true ↔ (t.proc p).inQueue = true ∧ ¬ t.Aged p := by
  unfold ticked Aged
  split
  · next hst => simp [hst]
  · next hst => split <;> simp_all
  · next hwait => exact ⟨fun h => absurd (hq h) hwait, And.left⟩

/-- What is left of a record whose process stays queued. -/
theorem ticked_of_queued (hq : (t.proc p).inQueue = true → (t.proc p).state = .runnable)
    (hq' : (ticked (t.proc p)).inQueue = true) :
    ticked (t.proc p) = { t.proc p with currWtime := (t.proc p).currWtime + 1 } := by
  obtain ⟨hold, hyoung⟩ := (ticked_inQueue hq).mp hq'
  have hst := hq hold
  have hnot : ¬ 30 ≤ (t.proc p).currWtime + 1 := fun h => hyoung ⟨hst, h⟩
  unfold ticked
  split
  · next h => cases hst.symm.trans h
  · rw [if_neg hnot]
  · next h => exact absurd hst h

theorem updateTimeAt_queues (t : Table) (p : ℕ) : (t.updateTimeAt p).queues =
    if t.Aged p ∧ (t.proc p).inQueue = true then
      update t.queues (t.proc p).priority ((t.queues (t.proc p).priority).remove
        (fun r => (t.proc r).pid) (t.proc p).pid)
    else t.queues := by
  have hpid : ∀ f : Proc → Proc, (∀ r, (f r).pid = r.pid) →
      (fun r => ((t.modify p f).proc r).pid) = fun r => (t.proc r).pid := by
    intro f hf
    funext r
    rw [modify_proc]
    split
    · next h => rw [hf, h]
    · rfl
  unfold updateTimeAt countTick
  split
  · next hst => simp [age, Aged, hst]
  · next hst =>
    by_cases hage : 30 ≤ (t.proc p).currWtime + 1
    · by_cases hq : (t.proc p).inQueue = true
      · simp [age, Aged, delqueue, hst, hage, hq, hpid]
      · simp [age, Aged, hst, hage, hq]
    · simp [age, Aged, hst, hage]
  · next hwait =>
    have hst : (t.proc p).state ≠ .runnable := hwait
    simp [age, Aged, hst]

/-- The loop takes the entries `hit` out of the queues: the calls of `delqueue` come with the pids
of those entries, in another order. -/
theorem foldl_updateTimeAt_level (hit : ℕ → Bool) (nodup : ps.Nodup)
    (queue_ok : ∀ k, (t.queues k).Ok)
    (order : ∀ k, (t.level k).Pairwise fun a b => (t.proc a).pid = (t.proc b).pid →
      hit b = true → hit a = true)
    (perm : ∀ k, ((ps.filter fun x => (t.Aged x ∧ (t.proc x).inQueue = true) ∧
        (t.proc x).priority = k).map fun x => (t.proc x).pid).Perm
      (((t.level k).filter hit).map fun x => (t.proc x).pid)) (k : ℕ) :
    ((ps.foldl updateTimeAt t).queues k).Ok ∧
      (ps.foldl updateTimeAt t).level k = (t.level k).filter fun x => !hit x := by
  induction ps generalizing t with
  | nil =>
    refine ⟨queue_ok k, (List.filter_eq_self.mpr fun x hx => ?_).symm⟩
    have hnone := List.map_eq_nil_iff.mp (List.nil_perm.mp (perm k))
    simpa using List.filter_eq_nil_iff.mp hnone x hx
  | cons p ps ih =>
    obtain ⟨hp, nodup⟩ := List.nodup_cons.mp nodup
    have hpid : ∀ x, ((t.updateTimeAt p).proc x).pid = (t.proc x).pid := by
      intro x
      by_cases hx : x = p
      · rw [hx, updateTimeAt_self, ticked_pid]
      · rw [updateTimeAt_other t p x hx]
    have hrest : ∀ i, (ps.filter fun x => ((t.updateTimeAt p).Aged x ∧
          ((t.updateTimeAt p).proc x).inQueue = true) ∧ ((t.updateTimeAt p).proc x).priority = i) =
        ps.filter fun x => (t.Aged x ∧ (t.proc x).inQueue = true) ∧ (t.proc x).priority = i := by
      intro i
      refine List.filter_congr fun x hx => ?_
      have hother := updateTimeAt_other t p x fun h => hp (h ▸ hx)
      rw [decide_eq_decide, Aged, Aged, hother]
    have hqueues := updateTimeAt_queues t p
    -- one call of `delqueue`, or none
    have hstep : ∀ i, ((t.updateTimeAt p).queues i).Ok ∧
        ((ps.filter fun x => (t.Aged x ∧ (t.proc x).inQueue = true) ∧
          (t.proc x).priority = i).map fun x => (t.proc x).pid).Perm
          ((((t.updateTimeAt p).level i).filter hit).map fun x => (t.proc x).pid) ∧
        ((t.updateTimeAt p).level i).filter (fun x => !hit x) =
          (t.level i).filter (fun x => !hit x) ∧
        ((t.updateTimeAt p).level i).Sublist (t.level i) := by
      intro i
      have hperm := perm i
      by_cases hgo : (t.Aged p ∧ (t.proc p).inQueue = true) ∧ (t.proc p).priority = i
      · obtain ⟨hgo, rfl⟩ := hgo
        rw [List.filter_cons_of_pos (by simpa using hgo), List.map_cons] at hperm
        obtain ⟨hmem, hkeys, hstay⟩ := Ring.eraseP_key (order _) hperm
        obtain ⟨hok, hlist⟩ := (queue_ok _).remove (fun r => (t.proc r).pid) hmem
        rw [level, hqueues, if_pos hgo, Function.update_self, hlist]
        exact ⟨hok, hkeys, hstay, List.eraseP_sublist⟩
      · rw [List.filter_cons_of_neg (by simpa using hgo)] at hperm
        have hsame : (t.updateTimeAt p).queues i = t.queues i := by
          rw [hqueues]
          split
          · next h => exact Function.update_of_ne (fun hi => hgo ⟨h, hi.symm⟩) _ _
          · rfl
        rw [level, hsame]
        exact ⟨queue_ok i, hperm, rfl, .refl _⟩
    obtain ⟨hok, hlevel⟩ := ih nodup (fun i => (hstep i).1)
      (fun i => by simp only [hpid]; exact (order i).sublist (hstep i).2.2.2)
      (fun i => by simp only [hpid, hrest]; exact (hstep i).2.1)
    exact ⟨hok, hlevel.trans (hstep k).2.2.1⟩

/-! ### The loop -/

/-- In every queue, of the entries with one pid those of aged processes come first. -/
def AgedFirst (ps : List ℕ) (t : Table) : Prop :=
  ∀ k, (t.level k).Pairwise fun a b => (t.proc a).pid = (t.proc b).pid →
    b ∈ ps ∧ t.Aged b → a ∈ ps ∧ t.Aged a

/-- **`update_time`.** The entries of the aged processes leave their queues, the order of all
others is kept, and the table stays consistent. -/
theorem Consistent.updateTimes (inv : t.Consistent) (nodup : ps.Nodup) (first : AgedFirst ps t) :
    (ps.foldl updateTimeAt t).Consistent ∧ ∀ k, (ps.foldl updateTimeAt t).level k =
      (t.level k).filter fun x => ¬ (x ∈ ps ∧ t.Aged x) := by
  have hloop : ∀ k, ((ps.foldl updateTimeAt t).queues k).Ok ∧
      (ps.foldl updateTimeAt t).level k = (t.level k).filter fun x => ¬ (x ∈ ps ∧ t.Aged x) := by
    intro k
    have hhit := foldl_updateTimeAt_level (t := t) (fun x => decide (x ∈ ps ∧ t.Aged x))
      nodup inv.queue_ok (fun i => by simpa only [decide_eq_true_iff] using first i) (fun i => ?_) k
    · simpa only [decide_not] using hhit
    · refine List.Perm.map _ ((List.perm_ext_iff_of_nodup (nodup.filter _)
        ((inv.nodup i).filter _)).mpr fun x => ?_)
      simp only [List.mem_filter, decide_eq_true_iff, inv.mem_iff i x]
      tauto
  have hrec := foldl_updateTimeAt_proc (t := t) nodup
  refine ⟨⟨fun k => (hloop k).1, fun k => ?_, fun k x => ?_, fun x hx => ?_, fun x => ?_⟩,
    fun k => (hloop k).2⟩
  · rw [(hloop k).2]
    exact (inv.nodup k).filter _
  · rw [(hloop k).2, List.mem_filter, inv.mem_iff, hrec, decide_eq_true_iff]
    have hq := fun h => (inv.queued x h).2
    split
    · next hx =>
      rw [ticked_inQueue hq]
      constructor
      · rintro ⟨⟨hold, hk⟩, hyoung⟩
        have hstay : ¬ t.Aged x := fun h => hyoung ⟨hx, h⟩
        rw [ticked_of_queued hq ((ticked_inQueue hq).mpr ⟨hold, hstay⟩)]
        exact ⟨⟨hold, hstay⟩, hk⟩
      · rintro ⟨⟨hold, hstay⟩, hk⟩
        rw [ticked_of_queued hq ((ticked_inQueue hq).mpr ⟨hold, hstay⟩)] at hk
        exact ⟨⟨hold, hk⟩, fun h => hstay h.2⟩
    · next hx => simp [hx]
  · rw [hrec] at hx ⊢
    split at hx
    · next hmem =>
      rw [if_pos hmem, ticked_state]
      exact inv.queued x ((ticked_inQueue fun h => (inv.queued x h).2).mp hx).1
    · next hmem =>
      rw [if_neg hmem]
      exact inv.queued x hx
  · rw [hrec]
    split
    · exact Nat.lt_of_le_of_lt (ticked_priority_le _) (inv.level_lt x)
    · exact inv.level_lt x

/-! ### Where it applies -/

/-- No two processes have the same pid. -/
def DistinctPids (t : Table) : Prop :=
  ∀ p < NPROC, ∀ p' < NPROC, (t.proc p).state ≠ .unused → (t.proc p').state ≠ .unused →
    (t.proc p).pid = (t.proc p').pid → p = p'

/-- In every queue the processes with one pid are in the order of the time spent there. -/
def InOrder (t : Table) : Prop :=
  ∀ k, (t.level k).Pairwise fun a b => (t.proc a).pid = (t.proc b).pid →
    (t.proc b).currWtime ≤ (t.proc a).currWtime

/-- Entries leave queues, and the processes still queued have spent the same time more there. -/
theorem InOrder.mono (h : t.InOrder) {n : ℕ} (hlevel : ∀ k, (t'.level k).Sublist (t.level k))
    (hcount : ∀ k, ∀ x ∈ t'.level k, (t'.proc x).pid = (t.proc x).pid ∧
      (t'.proc x).currWtime = (t.proc x).currWtime + n) : t'.InOrder := by
  intro k
  refine ((h k).sublist (hlevel k)).imp_of_mem fun ha hb hab hpid => ?_
  obtain ⟨hapid, hawait⟩ := hcount k _ ha
  obtain ⟨hbpid, hbwait⟩ := hcount k _ hb
  rw [hapid, hbpid] at hpid
  rw [hawait, hbwait]
  exact Nat.add_le_add_right (hab hpid) n

/-- A change of a record that is not queued. -/
theorem InOrder.modify (h : t.InOrder) {f : Proc → Proc} (hp : ∀ k, p ∉ t.level k) :
    (t.modify p f).InOrder := by
  refine h.mono (n := 0) (fun _ => .refl _) fun k x hx => ?_
  have hne : x ≠ p := by
    rintro rfl
    exact hp k hx
  rw [modify_proc, if_neg hne]
  exact ⟨rfl, rfl⟩

theorem InOrder.agedFirst (h : t.InOrder) (inv : t.Consistent) : AgedFirst (List.range NPROC) t := by
  intro k
  refine (h k).imp_of_mem fun {a b} ha _ hab hpid haged => ?_
  obtain ⟨hlt, hst⟩ := inv.queued a ((inv.mem_iff k a).mp ha).1
  exact ⟨List.mem_range.mpr hlt, hst, Nat.le_trans haged.2.2 (Nat.succ_le_succ (hab hpid))⟩

theorem DistinctPids.pairwise (h : t.DistinctPids) (inv : t.Consistent) (R : ℕ → ℕ → Prop) (k : ℕ) :
    (t.level k).Pairwise fun a b => (t.proc a).pid = (t.proc b).pid → R a b := by
  have hlive : ∀ {x}, x ∈ t.level k → x < NPROC ∧ (t.proc x).state ≠ .unused := by
    intro x hx
    obtain ⟨hlt, hst⟩ := inv.queued x ((inv.mem_iff k x).mp hx).1
    exact ⟨hlt, by rw [hst]; nofun⟩
  refine (inv.nodup k).imp_of_mem fun ha hb hne hpid => ?_
  obtain ⟨ha, hast⟩ := hlive ha
  obtain ⟨hb, hbst⟩ := hlive hb
  exact absurd (h _ ha _ hb hast hbst hpid) hne

theorem DistinctPids.inOrder (h : t.DistinctPids) (inv : t.Consistent) : t.InOrder :=
  h.pairwise inv _

theorem DistinctPids.agedFirst (h : t.DistinctPids) (inv : t.Consistent) : AgedFirst ps t :=
  h.pairwise inv _

theorem DistinctPids.of_live (h : t.DistinctPids)
    (hlive : ∀ x, (t'.proc x).state ≠ .unused →
      (t.proc x).state ≠ .unused ∧ (t'.proc x).pid = (t.proc x).pid) : t'.DistinctPids := by
  intro x hx y hy hxst hyst hpid
  obtain ⟨hxst, hxpid⟩ := hlive x hxst
  obtain ⟨hyst, hypid⟩ := hlive y hyst
  exact h x hx y hy hxst hyst (hxpid.symm.trans (hpid.trans hypid))

theorem DistinctPids.modify (h : t.DistinctPids) {f : Proc → Proc}
    (hlive : (f (t.proc p)).state ≠ .unused →
      (t.proc p).state ≠ .unused ∧ (f (t.proc p)).pid = (t.proc p).pid) :
    (t.modify p f).DistinctPids := by
  refine h.of_live fun x hx => ?_
  by_cases hxp : x = p
  · subst hxp
    rw [modify_proc_self] at hx ⊢
    exact hlive hx
  · rw [modify_proc, if_neg hxp] at hx ⊢
    exact ⟨hx, rfl⟩

theorem DistinctPids.setState (h : t.DistinctPids) {st : ProcState}
    (hlive : (t.proc p).state ≠ .unused) : (t.setState p st).DistinctPids :=
  h.modify fun _ => ⟨hlive, rfl⟩

theorem DistinctPids.requeue (h : t.DistinctPids) {q : Queue} {f : Proc → Proc}
    (hf : ∀ r, (f r).state = r.state ∧ (f r).pid = r.pid) :
    ((t.setQueue k q).modify p f).DistinctPids :=
  modify (t := t.setQueue k q) h fun hst => ⟨(hf _).1 ▸ hst, (hf _).2⟩

/-- No process has the pid that `allocproc` hands out next. -/
def FreshPid (t : Table) : Prop :=
  ∀ q < NPROC, (t.proc q).state ≠ .unused → (t.proc q).pid ≠ t.nextpid

instance (t : Table) : Decidable t.FreshPid := by
  unfold FreshPid; infer_instance

theorem DistinctPids.allocprocAt (h : t.DistinctPids) (hfresh : t.FreshPid) :
    (t.allocprocAt p).DistinctPids := by
  have hself : ((t.allocprocAt p).proc p).pid = t.nextpid := by simp [Table.allocprocAt]
  have hother : ∀ x, x ≠ p → (t.allocprocAt p).proc x = t.proc x := fun x hx =>
    Function.update_of_ne hx _ _
  intro x hx y hy hxst hyst hpid
  by_cases hxp : x = p <;> by_cases hyp : y = p
  · rw [hxp, hyp]
  · rw [hother y hyp] at hyst hpid
    rw [hxp, hself] at hpid
    exact absurd hpid.symm (hfresh y hy hyst)
  · rw [hother x hxp] at hxst hpid
    rw [hyp, hself] at hpid
    exact absurd hpid (hfresh x hx hxst)
  · rw [hother x hxp] at hxst hpid
    rw [hother y hyp] at hyst hpid
    exact h x hx y hy hxst hyst hpid

theorem DistinctPids.updateTimeAt (h : t.DistinctPids) (p : ℕ) : (t.updateTimeAt p).DistinctPids := by
  refine h.of_live fun x hx => ?_
  by_cases hxp : x = p
  · subst hxp
    rw [updateTimeAt_self, ticked_state] at hx
    rw [updateTimeAt_self]
    exact ⟨hx, ticked_pid _⟩
  · rw [updateTimeAt_other t p x hxp] at hx ⊢
    exact ⟨hx, rfl⟩

end Xv6.Sched.Table
