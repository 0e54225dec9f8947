import Mathlib.Data.List.Nodup
import Mathlib.Data.List.Perm.Subperm
import Xv6.Sched.Mlfq

/-!
When the MLFQ queues and the process table agree, and which operations keep them so.

`Consistent` couples the ring indices, the `in_queue` flags and the levels: a process is
queued exactly when its flag is set, once, at its own level, and then it is RUNNABLE.
Every operation of the model that changes one process record keeps it under the
conditions of `Consistent.modify`; `enqueue` and `dequeue` have their own lemmas, which
also give the queue's new list. `dequeue` is the one operation that asks for more than
its caller has checked: the process must be the front of the queue of its current level.

`queue_is_list` needs none of this: whatever the callers do, the three operations on a
ring are those of a list as long as the queued processes have different pids.
-/

namespace Xv6.Sched.Table

open Function (update)

/-- The processes queued at a level, front first. -/
def level (t : Table) (k : ℕ) : List ℕ := (t.queues k).toList

@[simp] theorem level_modify (t : Table) (p : ℕ) (f : Proc → Proc) (k : ℕ) :
    (t.modify p f).level k = t.level k := rfl

theorem level_setQueue (t : Table) (k : ℕ) (q : Queue) (i : ℕ) :
    (t.setQueue k q).level i = if i = k then q.toList else t.level i := by
  by_cases h : i = k
  · subst h
    simp [level]
  · simp [level, h]

/-! ### Consistency -/

/-- Queues and process table agree. -/
structure Consistent (t : Table) : Prop where
  queue_ok : ∀ k, (t.queues k).Ok
  nodup : ∀ k, (t.level k).Nodup
  mem_iff : ∀ k p, p ∈ t.level k ↔ (t.proc p).inQueue = true ∧ (t.proc p).priority = k
  queued : ∀ p, (t.proc p).inQueue = true → p < NPROC ∧ (t.proc p).state = .runnable
  level_lt : ∀ p, (t.proc p).priority < NQUEUE

/-- Deleting by a test that only one member passes deletes that member. -/
theorem eraseP_eq_erase {p : ℕ} {hit : ℕ → Bool} {l : List ℕ}
    (h : ∀ x ∈ l, hit x = true ↔ x = p) : l.eraseP hit = l.erase p := by
  induction l with
  | nil => rfl
  | cons a l ih =>
    have ha := h a List.mem_cons_self
    have ih := ih fun x hx => h x (List.mem_cons_of_mem a hx)
    by_cases hap : a = p
    · rw [List.eraseP_cons_of_pos (ha.mpr hap), hap, List.erase_cons_head]
    · have : hit a = false := by simpa using mt ha.mp hap
      simp [this, hap, ih]

/-! ### Rings as lists -/

/-- An operation on a queue, or any change of the process records that leaves the pids of queued
processes alone. The operations know a process by its pid. -/
inductive QueueStep (t : Table) : Table → Prop
  | enqueue {p : ℕ} {t' : Table} :
      (∀ x ∈ t.level (t.proc p).priority, (t.proc x).pid ≠ (t.proc p).pid) →
      (t.level (t.proc p).priority).length < NPROC → t.enqueue p = .ok t' → QueueStep t t'
  | dequeue {p : ℕ} {l : List ℕ} {t' : Table} :
      t.level (t.proc p).priority = p :: l → t.dequeue p = .ok t' → QueueStep t t'
  | delqueue {p : ℕ} : p ∈ t.level (t.proc p).priority → QueueStep t (t.delqueue p)
  | other {proc : ℕ → Proc} : (∀ k, ∀ x ∈ t.level k, (proc x).pid = (t.proc x).pid) →
      QueueStep t { t with proc := proc }

variable {t t' : Table} {p k : ℕ} {l : List ℕ}

/-- The queues are well-formed, and no two entries of one have the same pid. -/
structure Rings (t : Table) : Prop where
  ok : ∀ k, (t.queues k).Ok
  pids : ∀ k, ((t.level k).map fun x => (t.proc x).pid).Nodup

namespace Rings

variable (h : Rings t)
include h

theorem setQueue {q : Queue} {f : Proc → Proc} (hq : q.Ok)
    (hpids : (q.toList.map fun x => (t.proc x).pid).Nodup) (hf : ∀ r, (f r).pid = r.pid) :
    Rings ((t.setQueue k q).modify p f) := by
  have hsame : ∀ x, (((t.setQueue k q).modify p f).proc x).pid = (t.proc x).pid := by
    intro x
    rw [modify_proc]
    split
    next hx => rw [hf, hx, setQueue_proc]
    next => rfl
  constructor
  · intro j
    rw [modify_queues, setQueue_queues, Function.update_apply]
    split
    · exact hq
    · exact h.ok j
  · intro j
    simp only [hsame, level_modify, level_setQueue]
    split
    · exact hpids
    · exact h.pids j

theorem enqueue (hnew : ∀ x ∈ t.level (t.proc p).priority, (t.proc x).pid ≠ (t.proc p).pid)
    (room : (t.level (t.proc p).priority).length < NPROC) :
    ∃ t', t.enqueue p = .ok t' ∧ Rings t' ∧
      ∀ j, t'.level j = if j = (t.proc p).priority then t.level j ++ [p] else t.level j := by
  obtain ⟨hok, hlist⟩ := (h.ok (t.proc p).priority).push p room
  refine ⟨_, if_neg ((h.ok _).length_ne room), h.setQueue hok ?_ fun _ => rfl, fun j => ?_⟩
  · rw [hlist, List.map_append]
    refine (h.pids _).append (List.nodup_singleton _) ?_
    simpa [List.disjoint_singleton] using hnew
  · rw [level_modify, level_setQueue, hlist]
    split
    next hj => rw [hj, level]
    next => rfl

theorem dequeue (hl : t.level (t.proc p).priority = p :: l) :
    ∃ t', t.dequeue p = .ok t' ∧ Rings t' ∧
      ∀ j, t'.level j = if j = (t.proc p).priority then l else t.level j := by
  obtain ⟨hok, hlist⟩ := (h.ok (t.proc p).priority).pop hl
  refine ⟨_, if_neg ((h.ok _).length_ne_zero hl), h.setQueue hok ?_ fun _ => rfl, fun j => ?_⟩
  · have := h.pids (t.proc p).priority
    rw [hl, List.map_cons, List.nodup_cons] at this
    rw [hlist]
    exact this.2
  · rw [level_modify, level_setQueue, hlist]

theorem delqueue (hp : p ∈ t.level (t.proc p).priority) : Rings (t.delqueue p) ∧
    ∀ j, (t.delqueue p).level j =
      if j = (t.proc p).priority then (t.level j).erase p else t.level j := by
  obtain ⟨hok, hlist⟩ := (h.ok (t.proc p).priority).remove (fun r => (t.proc r).pid) ⟨p, hp, rfl⟩
  have herase := hlist.trans (eraseP_eq_erase fun x hx => by
    rw [decide_eq_true_iff]
    exact ⟨fun heq => List.inj_on_of_nodup_map (h.pids _) hx hp heq, fun heq => heq ▸ rfl⟩)
  constructor
  · rw [Table.delqueue]
    refine h.setQueue hok ?_ fun _ => rfl
    rw [herase]
    exact (h.pids _).sublist (List.erase_sublist.map _)
  · intro j
    rw [Table.delqueue, level_modify, level_setQueue, herase]
    split
    next hj => rw [hj, level]
    next => rfl

theorem step (hs : QueueStep t t') : Rings t' := by
  cases hs with
  | enqueue hnew room heq =>
    obtain ⟨u, hu, hrings, -⟩ := h.enqueue hnew room
    cases heq.symm.trans hu
    exact hrings
  | dequeue hl heq =>
    obtain ⟨u, hu, hrings, -⟩ := h.dequeue hl
    cases heq.symm.trans hu
    exact hrings
  | delqueue hp => exact (h.delqueue hp).1
  | other hpid =>
    refine ⟨h.ok, fun k => ?_⟩
    have hmap := h.pids k
    rwa [← List.map_congr_left (hpid k)] at hmap

end Rings

/-- `enqueue` of slot `p`, when there is room. -/
def entered (t : Table) (p : ℕ) : Table :=
  match t.enqueue p with
  | .ok t' => t'
  | .error _ => t

theorem zero_consistent : zero.Consistent where
  queue_ok _ := Queue.zero_ok
  nodup _ := List.nodup_nil
  mem_iff _ _ := by simp [zero, level, Proc.zero]
  queued _ h := by cases h
  level_lt p := Nat.zero_lt_succ 4

namespace Consistent

section

variable (inv : t.Consistent)
include inv

theorem not_queued (h : (t.proc p).state ≠ .runnable) : (t.proc p).inQueue = false := by
  by_contra hq
  exact h (inv.queued p (by simpa using hq)).2

theorem not_mem (h : (t.proc p).state ≠ .runnable) (k : ℕ) : p ∉ t.level k := by
  intro hmem
  exact h (inv.queued p ((inv.mem_iff k p).mp hmem).1).2

/-! ### Operations on one record -/

/-- Only the records and the queues matter. -/
theorem congr (hproc : t'.proc = t.proc) (hqueues : t'.queues = t.queues) : t'.Consistent := by
  have hlevel : t'.level = t.level := by
    funext k
    rw [level, hqueues, level]
  constructor
  · exact hqueues ▸ inv.queue_ok
  · exact hlevel ▸ inv.nodup
  · rw [hproc, hlevel]
    exact inv.mem_iff
  · exact hproc ▸ inv.queued
  · exact hproc ▸ inv.level_lt

/-- A change of one record that keeps the flag, keeps the level of a queued process
and its being RUNNABLE, and stays within the levels. -/
theorem modify {f : Proc → Proc} (hflag : (f (t.proc p)).inQueue = (t.proc p).inQueue)
    (hqueued : (t.proc p).inQueue = true →
      (f (t.proc p)).priority = (t.proc p).priority ∧ (f (t.proc p)).state = .runnable)
    (hlevel : (f (t.proc p)).priority < NQUEUE) : (t.modify p f).Consistent := by
  refine ⟨inv.queue_ok, inv.nodup, fun k x => ?_, fun x hx => ?_, fun x => ?_⟩
  · rw [level_modify, inv.mem_iff, modify_proc]
    split
    · next h =>
      subst h
      rw [hflag]
      refine and_congr_right fun hq => ?_
      rw [(hqueued hq).1]
    · rfl
  · by_cases h : x = p
    · subst h
      rw [modify_proc_self] at hx ⊢
      rw [hflag] at hx
      exact ⟨(inv.queued x hx).1, (hqueued hx).2⟩
    · rw [modify_proc, if_neg h] at hx ⊢
      exact inv.queued x hx
  · rw [modify_proc]
    split
    · exact hlevel
    · exact inv.level_lt x

/-- A state change of a process that is not queued. -/
theorem setState {st : ProcState} (hq : (t.proc p).inQueue = false) :
    (t.setState p st).Consistent :=
  inv.modify rfl (fun h => by simp [hq] at h) (inv.level_lt p)

theorem demote (user : Bool) (hrun : (t.proc p).state = .running) :
    (t.demote user p).Consistent := by
  have hq := inv.not_queued (p := p) (by simp [hrun])
  have hlt := inv.level_lt p
  refine inv.modify ?_ (fun h => by simp [hq] at h) ?_
  · cases user <;> rfl
  · unfold NQUEUE at *
    cases user <;> simp only [Proc.demote, Bool.false_eq_true, if_false, if_true] <;>
      split <;> omega

theorem sleep (chan : ℕ) (hrun : (t.proc p).state = .running) : (t.sleep p chan).Consistent := by
  have hq := inv.not_queued (p := p) (by simp [hrun])
  exact inv.modify rfl (fun h => by simp [hq] at h) (inv.level_lt p)

theorem exitAt (hrun : (t.proc p).state = .running) : (t.exitAt p).Consistent := by
  have hq := inv.not_queued (p := p) (by simp [hrun])
  exact inv.modify rfl (fun h => by simp [hq] at h) (inv.level_lt p)

theorem wakeupAt (chan p : ℕ) : (t.wakeupAt chan p).Consistent := by
  unfold Table.wakeupAt
  split
  · next h => exact inv.setState (inv.not_queued (by simp [h.1]))
  · exact inv

theorem killAt (p : ℕ) : (t.killAt p).Consistent := by
  refine inv.modify rfl (fun hq => ⟨rfl, ?_⟩) (inv.level_lt p)
  simp [(inv.queued p hq).2]

theorem freeproc (hst : (t.proc p).state ≠ .runnable) : (t.freeproc p).Consistent := by
  have hq := inv.not_queued hst
  exact inv.modify rfl (fun h => by simp [hq] at h) (inv.level_lt p)

theorem allocprocAt (hst : (t.proc p).state = .unused) : (t.allocprocAt p).Consistent := by
  have hq := inv.not_queued (p := p) (by simp [hst])
  have hmodify : ∀ {f n}, (t.modify p f).Consistent → Consistent { t.modify p f with nextpid := n } :=
    fun h => h.congr rfl rfl
  refine hmodify (inv.modify hq.symm (fun h => ?_) (Nat.zero_lt_succ 4))
  simp [hq] at h

/-! ### Operations on queues -/

/-- Consistency of a table whose queue `k` and record `p` changed together: the queue's
new list has no duplicates and differs from the old one at `p` only. -/
theorem requeue {q : Queue} {f : Proc → Proc} (hq : q.Ok) (hnodup : q.toList.Nodup)
    (hother : ∀ x, x ≠ p → (x ∈ q.toList ↔ x ∈ t.level (t.proc p).priority))
    (hself : p ∈ q.toList ↔ (f (t.proc p)).inQueue = true)
    (hpriority : (f (t.proc p)).priority = (t.proc p).priority)
    (hqueued : (f (t.proc p)).inQueue = true → p < NPROC ∧ (f (t.proc p)).state = .runnable) :
    ((t.setQueue (t.proc p).priority q).modify p f).Consistent := by
  have hrec : ∀ x, (((t.setQueue (t.proc p).priority q).modify p f).proc x) =
      if x = p then f (t.proc p) else t.proc x := modify_proc _ p f
  refine ⟨fun k => ?_, fun k => ?_, fun k x => ?_, fun x hx => ?_, fun x => ?_⟩
  · by_cases h : k = (t.proc p).priority
    · subst h
      simpa using hq
    · simpa [h] using inv.queue_ok k
  · rw [level_modify, level_setQueue]
    split
    · exact hnodup
    · exact inv.nodup k
  · rw [level_modify, level_setQueue, hrec]
    by_cases hk : k = (t.proc p).priority
    · subst hk
      rw [if_pos rfl]
      by_cases h : x = p
      · subst h
        rw [if_pos rfl, hself, hpriority]
        simp
      · rw [if_neg h, hother x h, inv.mem_iff]
    · rw [if_neg hk, inv.mem_iff]
      by_cases h : x = p
      · subst h
        rw [if_pos rfl, hpriority]
        simp [Ne.symm hk]
      · rw [if_neg h]
  · rw [hrec] at hx ⊢
    split at hx
    · next h =>
      subst h
      rw [if_pos rfl]
      exact hqueued hx
    · next h =>
      rw [if_neg h]
      exact inv.queued x hx
  · rw [hrec]
    split
    · rw [hpriority]
      exact inv.level_lt p
    · exact inv.level_lt x

/-- `enqueue` of a RUNNABLE process that is not queued never panics and appends it at
its level. -/
theorem enqueue (hp : p < NPROC) (hst : (t.proc p).state = .runnable)
    (hq : (t.proc p).inQueue = false) :
    ∃ q, t.enqueue p = .ok ((t.setQueue (t.proc p).priority q).modify p Proc.enqueue) ∧
      q.toList = t.level (t.proc p).priority ++ [p] ∧
      Consistent ((t.setQueue (t.proc p).priority q).modify p Proc.enqueue) := by
  set k := (t.proc p).priority with hk
  have hnot : p ∉ t.level k := fun h => by simp [((inv.mem_iff k p).mp h).1] at hq
  have hroom : (t.level k).length < NPROC := by
    have hsub : p :: t.level k ⊆ List.range NPROC := by
      intro x hx
      rcases List.mem_cons.mp hx with rfl | hx
      · exact List.mem_range.mpr hp
      · exact List.mem_range.mpr (inv.queued x ((inv.mem_iff k x).mp hx).1).1
    have := ((List.nodup_cons.mpr ⟨hnot, inv.nodup k⟩).subperm hsub).length_le
    rwa [List.length_cons, List.length_range] at this
  obtain ⟨hok, hlist⟩ := (inv.queue_ok k).push p hroom
  refine ⟨(t.queues k).push p, ?_, hlist, ?_⟩
  · simp only [Table.enqueue, ← hk, if_neg ((inv.queue_ok k).length_ne hroom)]
  · refine inv.requeue hok ?_ (fun x hx => ?_) ?_ rfl (fun _ => ⟨hp, hst⟩)
    · rw [hlist]
      exact (inv.nodup k).append (List.nodup_singleton p) (by simpa using hnot)
    · rw [hlist]
      simp [hx, level, ← hk]
    · rw [hlist]
      simp

/-- `dequeue` of the front of its own level never panics and removes it. -/
theorem dequeue (hfront : t.level (t.proc p).priority = p :: l) :
    ∃ q, t.dequeue p = .ok ((t.setQueue (t.proc p).priority q).modify p fun r =>
        { r with inQueue := false }) ∧
      q.toList = l ∧
      Consistent ((t.setQueue (t.proc p).priority q).modify p fun r =>
        { r with inQueue := false }) := by
  set k := (t.proc p).priority with hk
  have hmem : p ∈ t.level k := hfront ▸ List.mem_cons_self
  obtain ⟨hnot, hnodup⟩ := List.nodup_cons.mp (hfront ▸ inv.nodup k)
  obtain ⟨hok, hlist⟩ := (inv.queue_ok k).pop hfront
  refine ⟨(t.queues k).pop, dequeue_eq_ok.mpr ⟨(inv.queue_ok k).length_ne_zero hfront, rfl⟩, hlist, ?_⟩
  refine inv.requeue hok ?_ (fun x hx => ?_) ?_ rfl (by simp)
  · rw [hlist]
    exact hnodup
  · rw [hlist, ← hk, hfront]
    simp [hx]
  · rw [hlist]
    simpa using hnot

end

end Consistent

end Xv6.Sched.Table
