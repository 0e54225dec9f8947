import Mathlib.Data.List.Sort
import Xv6.Lib.Scan
import Xv6.Sched.Clock

/-!
What one undisturbed MLFQ scheduler round does to a consistent table.

The enqueue loop appends, at each level, the RUNNABLE processes that were not queued,
in slot order (`Filled`); after it every RUNNABLE process is queued. The selection
loops then dequeue exactly once, the front of the first non-empty level, because every
queued process is RUNNABLE. `Stamps` gives each queued process the position of its
`enqueue` in the sequence of all of them, so that the order of a queue can be stated
as the order of enqueueing.
-/

namespace Xv6.Sched.Table

open Function (update)

variable {t t' filled : Table} {p k : ℕ}

/-! ### The enqueue loop -/

/-- RUNNABLE and not queued: what the enqueue loop looks for. -/
def Waiting (t : Table) (p : ℕ) : Prop :=
  (t.proc p).state = .runnable ∧ (t.proc p).inQueue = false

instance (t : Table) (p : ℕ) : Decidable (t.Waiting p) := by
  unfold Waiting; infer_instance

theorem enqueueAt_of_waiting (h : t.Waiting p) : t.enqueueAt p = t.enqueue p := if_pos h

theorem enqueueAt_of_not_waiting (h : ¬ t.Waiting p) : t.enqueueAt p = .ok t := if_neg h

/-- What `enqueue` does to a record. -/
def enqueued (r : Proc) : Proc := { r with currRtime := 0, currWtime := 0, inQueue := true }

/-- The table after the enqueue loop has visited the slots `ps`. -/
structure FilledBy (ps : List ℕ) (t filled : Table) : Prop where
  proc_eq : ∀ x, filled.proc x = if x ∈ ps ∧ t.Waiting x then enqueued (t.proc x) else t.proc x
  level_eq : ∀ k, filled.level k =
    t.level k ++ ps.filter fun p => t.Waiting p ∧ (t.proc p).priority = k

theorem FilledBy.nil (t : Table) : FilledBy [] t t := ⟨by simp, by simp⟩

/-- A slot that is not waiting is passed over. -/
theorem FilledBy.cons_skip {ps : List ℕ} (hp : ¬ t.Waiting p) (h : FilledBy ps t filled) :
    FilledBy (p :: ps) t filled := by
  refine ⟨fun x => ?_, fun k => ?_⟩
  · rw [h.proc_eq]
    by_cases hx : x = p
    · subst hx
      simp [hp]
    · simp [hx]
  · simp [h.level_eq, hp]

/-- A waiting slot is appended to its level. -/
theorem FilledBy.cons_enqueue {ps : List ℕ} {q : Queue} (hfresh : p ∉ ps) (hp : t.Waiting p)
    (hq : q.toList = t.level (t.proc p).priority ++ [p])
    (h : FilledBy ps ((t.setQueue (t.proc p).priority q).modify p enqueued) filled) :
    FilledBy (p :: ps) t filled := by
  set s := (t.setQueue (t.proc p).priority q).modify p enqueued with hs
  have hrec : ∀ x, x ≠ p → s.proc x = t.proc x := fun x hx => by
    rw [hs, modify_proc, if_neg hx, setQueue_proc]
  have hwait : ∀ x, x ≠ p → (s.Waiting x ↔ t.Waiting x) := fun x hx => by
    simp only [Waiting, hrec x hx]
  refine ⟨fun x => ?_, fun k => ?_⟩
  · rw [h.proc_eq]
    by_cases hx : x = p
    · subst hx
      rw [if_neg fun hmem => hfresh hmem.1, if_pos ⟨List.mem_cons_self, hp⟩, hs,
        modify_proc_self, setQueue_proc]
    · rw [hrec x hx]
      simp only [List.mem_cons, hx, false_or, hwait x hx]
  · have hfilter : (ps.filter fun x => s.Waiting x ∧ (s.proc x).priority = k) =
        ps.filter fun x => t.Waiting x ∧ (t.proc x).priority = k := by
      refine List.filter_congr fun x hx => ?_
      have hxp : x ≠ p := fun heq => hfresh (heq ▸ hx)
      rw [hrec x hxp]
      simp only [hwait x hxp]
    rw [h.level_eq, hfilter, hs, level_modify, level_setQueue, List.filter_cons]
    by_cases hk : k = (t.proc p).priority
    · simp [hk, hp, hq]
    · simp [hk, Ne.symm hk]

/-- The enqueue loop over the slots `ps` never panics and keeps the table consistent. -/
theorem Consistent.fill (inv : t.Consistent) (ps : List ℕ) (hps : ∀ p ∈ ps, p < NPROC)
    (nodup : ps.Nodup) :
    ∃ filled, ps.foldlM enqueueAt t = .ok filled ∧ filled.Consistent ∧ FilledBy ps t filled := by
  induction ps generalizing t with
  | nil => exact ⟨t, rfl, inv, .nil t⟩
  | cons p ps ih =>
    obtain ⟨hfresh, nodup⟩ := List.nodup_cons.mp nodup
    have hps' : ∀ x ∈ ps, x < NPROC := fun x hx => hps x (List.mem_cons_of_mem p hx)
    rw [List.foldlM_cons]
    by_cases hwait : t.Waiting p
    · obtain ⟨q, hok, hq, hcons⟩ := inv.enqueue (hps p List.mem_cons_self) hwait.1 hwait.2
      obtain ⟨filled, hfold, hinv, hfilled⟩ := ih hcons hps' nodup
      refine ⟨filled, ?_, hinv, .cons_enqueue hfresh hwait hq hfilled⟩
      rw [enqueueAt_of_waiting hwait, hok]
      exact hfold
    · obtain ⟨filled, hfold, hinv, hfilled⟩ := ih inv hps' nodup
      refine ⟨filled, ?_, hinv, .cons_skip hwait hfilled⟩
      rw [enqueueAt_of_not_waiting hwait]
      exact hfold

/-- The table after the whole enqueue loop. -/
abbrev Filled (t filled : Table) : Prop := FilledBy (List.range NPROC) t filled

namespace FilledBy

theorem state_eq (h : Filled t filled) (x : ℕ) : (filled.proc x).state = (t.proc x).state := by
  rw [h.proc_eq]
  split <;> rfl

theorem priority_eq (h : Filled t filled) (x : ℕ) :
    (filled.proc x).priority = (t.proc x).priority := by
  rw [h.proc_eq]
  split <;> rfl

/-- After the loop every RUNNABLE process is queued. -/
theorem queued (h : Filled t filled) (hp : p < NPROC) (hst : (t.proc p).state = .runnable) :
    (filled.proc p).inQueue = true := by
  rw [h.proc_eq]
  split
  · rfl
  · next hnot =>
    by_contra hq
    exact hnot ⟨List.mem_range.mpr hp, hst, by simpa using hq⟩

end FilledBy

/-- The processes appended have spent no time in their queues. -/
theorem InOrder.fill (h : t.InOrder) (inv : t.Consistent) (hfilled : Filled t filled) :
    filled.InOrder := by
  intro k
  have hold : ∀ x ∈ t.level k, filled.proc x = t.proc x := by
    intro x hx
    rw [hfilled.proc_eq, if_neg]
    rintro ⟨-, -, hq⟩
    cases hq.symm.trans ((inv.mem_iff k x).mp hx).1
  have hnew : ∀ x ∈ (List.range NPROC).filter fun p => t.Waiting p ∧ (t.proc p).priority = k,
      (filled.proc x).currWtime = 0 := by
    intro x hx
    obtain ⟨hx, hwait⟩ := List.mem_filter.mp hx
    rw [hfilled.proc_eq, if_pos ⟨hx, (of_decide_eq_true hwait).1⟩, enqueued]
  rw [hfilled.level_eq, List.pairwise_append]
  refine ⟨(h k).imp_of_mem fun ha hb hab => ?_, List.pairwise_of_forall_mem_list ?_, ?_⟩
  · rwa [hold _ ha, hold _ hb]
  · intro a _ b hb _
    rw [hnew b hb]
    exact Nat.zero_le _
  · intro a _ b hb _
    rw [hnew b hb]
    exact Nat.zero_le _

/-! ### The selection loops -/

section

variable (inv : t.Consistent)
include inv

theorem Consistent.length_eq (k : ℕ) :
    (t.queues k).length = (t.level k).length := (inv.queue_ok k).length_toList

theorem Consistent.selectLevel_nil (h : t.level k = []) (fuel j : ℕ) :
    selectLevel k fuel j t = .ok (t, none) := by
  cases fuel with
  | zero => rfl
  | succ fuel =>
    have hlen : ¬ (j : ℤ) < (t.queues k).length := by
      rw [inv.length_eq, h, List.length_nil]
      omega
    rw [selectLevel, if_neg hlen]

/-- At a non-empty level the first iteration finds a RUNNABLE process. -/
theorem Consistent.selectLevel_cons {l : List ℕ} (h : t.level k = p :: l)
    (hd : t.dequeue p = .ok t') :
    selectLevel k (t.queues k).length.toNat 0 t = .ok (t', some p) := by
  have hlen : (t.queues k).length = (l.length : ℤ) + 1 := by
    rw [inv.length_eq, h, List.length_cons]
    rfl
  have hfuel : (t.queues k).length.toNat = l.length + 1 := by omega
  have hhead : (t.queues k).head = p := (inv.queue_ok k).head_eq h
  have hmem : p ∈ t.level k := h ▸ List.mem_cons_self
  have hrun : (t'.proc p).state = .runnable := by
    obtain ⟨-, rfl⟩ := dequeue_eq_ok.mp hd
    simpa using (inv.queued p ((inv.mem_iff k p).mp hmem).1).2
  rw [hfuel, selectLevel, if_pos (by omega)]
  simp only [hhead, hd, hrun, if_true]

theorem Consistent.selectFrom_nil {is : List ℕ}
    (h : ∀ i ∈ is, t.level i = []) : selectFrom is t = .ok (t, none) := by
  induction is with
  | nil => rfl
  | cons i is ih =>
    rw [selectFrom, inv.selectLevel_nil (h i List.mem_cons_self)]
    exact ih fun x hx => h x (List.mem_cons_of_mem i hx)

/-- The selection takes the front of the first non-empty level. -/
theorem Consistent.selectFrom_cons {before l : List ℕ} (after : List ℕ)
    (hbefore : ∀ i ∈ before, t.level i = []) (h : t.level k = p :: l)
    (hd : t.dequeue p = .ok t') : selectFrom (before ++ k :: after) t = .ok (t', some p) := by
  induction before with
  | nil => simp only [List.nil_append, selectFrom, inv.selectLevel_cons h hd]
  | cons i is ih =>
    rw [List.cons_append, selectFrom, inv.selectLevel_nil (hbefore i List.mem_cons_self)]
    exact ih fun x hx => hbefore x (List.mem_cons_of_mem i hx)

end

/-! ### The round -/

/-- The levels of `range NQUEUE` up to the first that is not empty. -/
theorem exists_first_level (h : ∃ k < NQUEUE, t.level k ≠ []) :
    ∃ k < NQUEUE, t.level k ≠ [] ∧ (∀ i < k, t.level i = []) ∧
      ∃ after, List.range NQUEUE = List.range k ++ k :: after := by
  classical
  obtain ⟨hk, hne⟩ := Nat.find_spec h
  set k := Nat.find h with hkdef
  refine ⟨k, hk, hne, fun i hi => ?_, ?_⟩
  · by_contra hi'
    exact Nat.find_min h hi ⟨hi.trans hk, hi'⟩
  · exact Scan.range_eq_append hk

/-- **One round.** From a consistent table the round fills the queues without panicking.
If no process is RUNNABLE it selects none; otherwise it dequeues once, the front of
the least non-empty level, and sets that process RUNNING. -/
theorem Consistent.schedule (inv : t.Consistent) :
    ∃ filled, t.enqueueLoop = .ok filled ∧ filled.Consistent ∧ Filled t filled ∧
      ((∀ x < NPROC, (t.proc x).state ≠ .runnable) ∧ t.schedule = .ok (filled, none) ∨
        ∃ k p l q, (∀ i < k, filled.level i = []) ∧ filled.level k = p :: l ∧ q.toList = l ∧
          filled.dequeue p = .ok ((filled.setQueue k q).modify p fun r =>
            { r with inQueue := false }) ∧
          Consistent ((filled.setQueue k q).modify p fun r => { r with inQueue := false }) ∧
          t.schedule = .ok (((filled.setQueue k q).modify p fun r =>
            { r with inQueue := false }).setState p .running, some p)) := by
  obtain ⟨filled, hfill, hinv, hfilled⟩ :=
    inv.fill (List.range NPROC) (fun p hp => List.mem_range.mp hp) List.nodup_range
  refine ⟨filled, hfill, hinv, hfilled, ?_⟩
  by_cases hsome : ∃ k < NQUEUE, filled.level k ≠ []
  · obtain ⟨k, hk, hne, hbelow, after, hrange⟩ := exists_first_level hsome
    obtain ⟨p, l, hl⟩ := List.exists_cons_of_ne_nil hne
    have hmem : p ∈ filled.level k := hl ▸ List.mem_cons_self
    obtain ⟨hq, hpk⟩ := (hinv.mem_iff k p).mp hmem
    obtain ⟨q, hd, hqlist, hcons⟩ := hinv.dequeue (p := p) (hpk.symm ▸ hl)
    rw [hpk] at hd hcons
    refine .inr ⟨k, p, l, q, hbelow, hl, hqlist, hd, hcons, ?_⟩
    have hselect := hinv.selectFrom_cons after
      (fun i hi => hbelow i (List.mem_range.mp hi)) hl hd
    simp only [Table.schedule, enqueueLoop, hfill, hrange, hselect]
  · have hempty : ∀ k < NQUEUE, filled.level k = [] := by
      intro k hk
      by_contra hne
      exact hsome ⟨k, hk, hne⟩
    refine .inl ⟨fun x hx hst => ?_, ?_⟩
    · have hmem := (hinv.mem_iff _ x).mpr ⟨hfilled.queued hx hst, rfl⟩
      rw [hempty _ (hinv.level_lt x)] at hmem
      cases hmem
    · have hselect : filled.selectFrom (List.range NQUEUE) = .ok (filled, none) :=
        hinv.selectFrom_nil fun i hi => hempty i (List.mem_range.mp hi)
      simp only [Table.schedule, enqueueLoop, hfill, hselect]

/-! ### The order of enqueueing -/

/-- When each process was last enqueued, counted in `enqueue` calls. -/
structure Stamps where
  stamp : ℕ → ℕ
  next : ℕ

/-- The stamps after the enqueue loop has visited the slots `ps`. -/
def stampLoop : List ℕ → Table → Stamps → Stamps
  | [], _, g => g
  | p :: ps, t, g =>
    match t.enqueueAt p with
    | .error _ => g
    | .ok t' => stampLoop ps t'
        (if t.Waiting p then ⟨update g.stamp p g.next, g.next + 1⟩ else g)

/-- Every queue is in the order of enqueueing. -/
structure Stamped (t : Table) (g : Stamps) : Prop where
  sorted : ∀ k, (t.level k).Pairwise fun a b => g.stamp a < g.stamp b
  lt_next : ∀ k, ∀ p ∈ t.level k, g.stamp p < g.next

theorem Stamped.of_sublist {g : Stamps} (h : Stamped t g)
    (hsub : ∀ k, (t'.level k).Sublist (t.level k)) : Stamped t' g :=
  ⟨fun k => (h.sorted k).sublist (hsub k), fun k p hp => h.lt_next k p ((hsub k).subset hp)⟩

/-- Enqueueing a process with the next stamp. -/
theorem Stamped.enqueue {g : Stamps} {q : Queue} (h : Stamped t g) (f : Proc → Proc)
    (hfresh : ∀ k, p ∉ t.level k) (hq : q.toList = t.level k ++ [p]) :
    Stamped ((t.setQueue k q).modify p f) ⟨update g.stamp p g.next, g.next + 1⟩ := by
  have hold : ∀ i, ∀ x ∈ t.level i, update g.stamp p g.next x = g.stamp x := by
    intro i x hx
    refine Function.update_of_ne ?_ _ _
    rintro rfl
    exact hfresh i hx
  have hsorted : ∀ i, (t.level i).Pairwise fun a b =>
      update g.stamp p g.next a < update g.stamp p g.next b := by
    intro i
    refine (h.sorted i).imp_of_mem fun ha hb hab => ?_
    rwa [hold i _ ha, hold i _ hb]
  refine ⟨fun i => ?_, fun i x hx => ?_⟩
  · rw [level_modify, level_setQueue]
    split
    · rw [hq, List.pairwise_append]
      refine ⟨hsorted k, List.pairwise_singleton _ _, fun a ha b hb => ?_⟩
      have hself := Function.update_self p g.next g.stamp
      rw [List.mem_singleton.mp hb]
      exact (hold k a ha).trans_lt ((h.lt_next k a ha).trans_eq hself.symm)
    · exact hsorted i
  · have hlt : ∀ j, ∀ y ∈ t.level j, update g.stamp p g.next y < g.next + 1 := by
      intro j y hy
      rw [hold j y hy]
      exact Nat.lt_succ_of_lt (h.lt_next j y hy)
    rw [level_modify, level_setQueue] at hx
    split at hx
    · rw [hq, List.mem_append, List.mem_singleton] at hx
      rcases hx with hx | rfl
      · exact hlt k x hx
      · exact (Function.update_self x g.next g.stamp).trans_lt (Nat.lt_succ_self _)
    · exact hlt i x hx

/-- The enqueue loop keeps every queue in the order of enqueueing. -/
theorem Stamped.fill {g : Stamps} {ps : List ℕ} (inv : t.Consistent) (h : Stamped t g)
    (hps : ∀ p ∈ ps, p < NPROC) (hfold : ps.foldlM enqueueAt t = .ok filled) :
    Stamped filled (stampLoop ps t g) := by
  induction ps generalizing t g with
  | nil =>
    cases hfold
    exact h
  | cons p ps ih =>
    have hps' : ∀ x ∈ ps, x < NPROC := fun x hx => hps x (List.mem_cons_of_mem p hx)
    rw [List.foldlM_cons] at hfold
    by_cases hwait : t.Waiting p
    · obtain ⟨q, hok, hq, hcons⟩ := inv.enqueue (hps p List.mem_cons_self) hwait.1 hwait.2
      have hat := (enqueueAt_of_waiting hwait).trans hok
      rw [hat] at hfold
      simp only [stampLoop, hat, if_pos hwait]
      refine ih hcons (h.enqueue _ (fun i hi => ?_) hq) hps' hfold
      have := ((inv.mem_iff i p).mp hi).1
      simp [hwait.2] at this
    · have hat := enqueueAt_of_not_waiting hwait
      rw [hat] at hfold
      simp only [stampLoop, hat, if_neg hwait]
      exact ih inv h hps' hfold

end Xv6.Sched.Table
