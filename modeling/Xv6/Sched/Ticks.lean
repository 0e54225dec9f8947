import Xv6.Sched.SingleCpu

/-!
What a clock tick, and every other step that dispatches nobody, does to each process record.

Between two rounds of a scheduler no process enters a queue or starts to run, and levels grow at
the end of a time slice only (`Moves`). This is said of a CPU that may not be the only one
(`Attended`). -/

namespace Xv6.Sched.Table

variable {t : Table} {x : ℕ}

theorem wakeup_proc (t : Table) (me : Option ℕ) (chan x : ℕ) :
    (t.wakeup me chan).proc x = t.proc x ∨ (t.proc x).state = .sleeping ∧
      (t.wakeup me chan).proc x = { t.proc x with state := .runnable } := by
  have hloop := foldl_proc (t := t) (x := x) (f := fun t p => t.wakeupAt chan p)
    (R := fun r r' => r' = r ∨ r.state = .sleeping ∧ r' = { r with state := .runnable }) ?_ ?_
    ((List.nodup_range (n := NPROC)).filter fun p => some p ≠ me)
  · by_cases hmem : x ∈ (List.range NPROC).filter fun p => some p ≠ me
    · exact hloop.1 hmem
    · exact .inl (hloop.2 hmem)
  · intro t p
    dsimp only [wakeupAt]
    split
    · next hsleep => exact .inr ⟨hsleep.1, modify_proc_self ..⟩
    · exact .inl rfl
  · intro t p y hy
    dsimp only [wakeupAt]
    split
    · rw [setState, modify_proc, if_neg hy]
    · rfl

end Xv6.Sched.Table

namespace Xv6.Sched.SingleCpu

open Table (setState exitAt)
open Proc (ticked)

/-- `clockintr` counts the tick in every record and wakes those that sleep for it. -/
theorem clockintr_proc (t : Table) (me : Option ℕ) {x : ℕ} (hx : x < NPROC) :
    (clockintr t me).proc x = ticked (t.proc x) ∨ (t.proc x).state = .sleeping ∧
      (clockintr t me).proc x = { ticked (t.proc x) with state := .runnable } := by
  have hupdate := Table.updateTime_proc (t := { t with ticks := (t.ticks + 1) % 2 ^ 32 }) hx
  have hwake := Table.wakeup_proc (Table.updateTime { t with ticks := (t.ticks + 1) % 2 ^ 32 }) me
    ticksChan x
  rwa [hupdate, Proc.ticked_state] at hwake

/-! ### Between two rounds -/

/-- The clock ticks a step counts. -/
def Action.ticks : Action → ℕ
  | .tick _ => 1
  | _ => 0

/-- How a record changes over `n` ticks without a dispatch. -/
structure Moves (n : ℕ) (r r' : Proc) : Prop where
  runnable : r.state = .runnable → r'.state = .runnable
  priority : n = 0 ∨ r.state ≠ .running → r'.priority ≤ r.priority
  queued : r'.inQueue = true → r.inQueue = true ∧ r'.priority = r.priority ∧
    r'.currWtime = r.currWtime + n ∧ r'.currRtime = r.currRtime
  running : r'.state = .running → r.state = .running ∧ r'.priority = r.priority ∧
    r'.currRtime = r.currRtime + n

variable {t : Table} {p x : ℕ}

theorem Moves.refl (r : Proc) : Moves 0 r r :=
  ⟨id, fun _ => Nat.le_refl _, fun h => ⟨h, rfl, rfl, rfl⟩, fun h => ⟨h, rfl, rfl⟩⟩

theorem Moves.modify {f : Proc → Proc} (h : Moves 0 (t.proc p) (f (t.proc p))) (x : ℕ) :
    Moves 0 (t.proc x) ((t.modify p f).proc x) := by
  rw [Table.modify_proc]
  split
  · next hx => exact hx ▸ h
  · exact .refl _

/-- The running process leaves the CPU; a tick may have moved it down. -/
theorem Moves.leave {r r' : Proc} {n : ℕ} (hrun : r.state = .running) (hst : r'.state ≠ .running)
    (hq : r'.inQueue = false) (hpr : n = 0 → r'.priority = r.priority) : Moves n r r' := by
  constructor
  · intro h
    cases hrun.symm.trans h
  · rintro (hn | h)
    · exact Nat.le_of_eq (hpr hn)
    · exact absurd hrun h
  · intro h
    cases hq.symm.trans h
  · exact fun h => absurd h hst

/-- A process wakes up. -/
theorem Moves.wake {r r' : Proc} {n : ℕ} (hq : r.inQueue = false)
    (hr' : r' = { r with state := .runnable }) : Moves n r r' := by
  subst hr'
  refine ⟨fun _ => rfl, fun _ => Nat.le_refl _, fun h => ?_, nofun⟩
  cases hq.symm.trans h

theorem moves_wakeup (inv : t.Consistent) (me : Option ℕ) (chan x : ℕ) :
    Moves 0 (t.proc x) ((t.wakeup me chan).proc x) := by
  rcases Table.wakeup_proc t me chan x with hx | ⟨hsleep, hx⟩
  · exact hx ▸ .refl _
  · exact .wake (inv.not_queued (by simp [hsleep])) hx

theorem moves_ticked (r : Proc) (hq : r.inQueue = true → r.state = .runnable) :
    Moves 1 r (ticked r) := by
  unfold ticked
  split
  · next hst =>
    refine ⟨id, fun _ => Nat.le_refl _, fun h => ?_, fun h => ⟨h, rfl, rfl⟩⟩
    cases hst.symm.trans (hq h)
  · next hst =>
    split
    · exact ⟨id, fun _ => Nat.sub_le _ _, nofun, fun h => by cases hst.symm.trans h⟩
    · exact ⟨id, fun _ => Nat.le_refl _, fun h => ⟨h, rfl, rfl, rfl⟩,
        fun h => by cases hst.symm.trans h⟩
  · next hrun hwait =>
    exact ⟨id, fun _ => Nat.le_refl _, fun h => absurd (hq h) hwait, fun h => absurd h hrun⟩

theorem moves_clockintr (inv : t.Consistent) (me : Option ℕ) (hx : x < NPROC) :
    Moves 1 (t.proc x) ((clockintr t me).proc x) := by
  rcases clockintr_proc t me hx with h | ⟨hsleep, h⟩
  · exact h ▸ moves_ticked _ fun hq => (inv.queued x hq).2
  · have hticked : ticked (t.proc x) = t.proc x := by
      unfold ticked
      rw [hsleep]
    exact .wake (inv.not_queued (by simp [hsleep])) (by rw [h, hticked])

theorem moves_fork (ok : Bool) (x : ℕ) : Moves 0 (t.proc x) ((fork t ok).proc x) := by
  unfold fork
  split
  · exact .refl _
  · next q hfree =>
    have hst : (t.proc q).state = .unused := by simpa using List.find?_some hfree
    by_cases hx : x = q
    · subst hx
      cases ok <;> constructor <;>
        simp [Table.allocprocAt, setState, Table.freeproc, hst]
    · have hsame : ((if ok then (t.allocprocAt q).setState q .runnable
          else (t.allocprocAt q).freeproc q).proc x) = t.proc x := by
        cases ok <;>
          simp [Table.allocprocAt, setState, Table.freeproc, Table.modify_proc, hx]
      exact hsame ▸ .refl _

theorem moves_kill (pid : ℤ) (x : ℕ) : Moves 0 (t.proc x) ((t.kill pid).proc x) := by
  unfold Table.kill
  split
  · refine .modify ⟨fun h => ?_, fun _ => Nat.le_refl _, fun h => ⟨h, rfl, rfl, rfl⟩,
      fun h => ⟨?_, rfl, rfl⟩⟩ x
    · simp [h]
    · unfold Proc.kill at h
      split at h
      · cases h
      · exact h
  · exact .refl _

theorem moves_freeproc (hst : (t.proc p).state = .zombie) (hq : (t.proc p).inQueue = false) (x : ℕ) :
    Moves 0 (t.proc x) ((t.freeproc p).proc x) := by
  refine .modify ⟨fun h => ?_, fun _ => Nat.le_refl _, fun h => ?_, fun h => ?_⟩ x
  · cases hst.symm.trans h
  · cases hq.symm.trans h
  · cases h

/-- Queues and table agree, `update_time` takes the right entries out of the queues, and the
process on this CPU is RUNNING. -/
structure Attended (s : State) : Prop where
  table : s.table.Consistent
  order : s.table.InOrder
  running : ∀ p, s.current = some p → (s.table.proc p).state = .running

variable {s s' : State} {a : Action}

theorem Attended.keep (h : Attended s) (hkeeps : Keeps s.table t) : Attended { s with table := t } :=
  ⟨hkeeps.consistent, hkeeps.inOrder h.order, fun p hp => (hkeeps.running p).mpr (h.running p hp)⟩

theorem trap_proc_of_ne (user : Bool) (hx : x ≠ p) : (trap user t p).1.proc x = t.proc x := by
  rcases trap_cases user t p with ⟨-, h⟩ | ⟨-, -, h⟩ | ⟨-, -, -, h⟩ | ⟨-, -, -, h⟩ <;> rw [h] <;>
    simp [exitAt, Table.demote, setState, Table.modify_proc, hx]

theorem inOrder_trap (order : t.InOrder) (hp : ∀ k, p ∉ t.level k) (user : Bool) :
    (trap user t p).1.InOrder := by
  rcases trap_cases user t p with ⟨-, h⟩ | ⟨-, -, h⟩ | ⟨-, -, -, h⟩ | ⟨-, -, -, h⟩ <;> rw [h] <;>
    dsimp only
  · exact order.modify hp
  · exact Table.InOrder.modify (t := t.demote user p) (order.modify hp) hp
  · exact order.modify hp
  · exact order

/-- What a step over `n` ticks that dispatches nobody leaves as it was. -/
structure Between (n : ℕ) (s s' : State) : Prop where
  attended : Attended s'
  current : ∀ p, s'.current = some p → s.current = some p
  moves : ∀ x < NPROC, Moves n (s.table.proc x) (s'.table.proc x)

/-- The running process gives up the CPU. -/
theorem Attended.leave (h : Attended s) {f : Proc → Proc} (hcur : s.current = some p)
    (hcons : (s.table.modify p f).Consistent) (hst : (f (s.table.proc p)).state ≠ .running)
    (hq : (f (s.table.proc p)).inQueue = (s.table.proc p).inQueue)
    (hpr : (f (s.table.proc p)).priority = (s.table.proc p).priority) :
    Between 0 s { s with table := s.table.modify p f, current := none } := by
  have hrun := h.running p hcur
  have hnot := h.table.not_queued (p := p) (by rw [hrun]; decide)
  have horder := h.order.modify (f := f) (h.table.not_mem (p := p) (by rw [hrun]; decide))
  exact ⟨⟨hcons, horder, nofun⟩, nofun,
    fun x _ => .modify (.leave hrun hst (hq.trans hnot) fun _ => hpr) x⟩

theorem Attended.tick (h : Attended s) {user : Bool} (hexec : exec s (.tick user) = some s') :
    Between 1 s s' := by
  simp only [exec] at hexec
  split at hexec
  · obtain rfl := Option.some.inj hexec
    refine ⟨h.keep (keeps_clockintr h.table h.order none), fun p hp => hp, fun x hx => ?_⟩
    dsimp only
    exact moves_clockintr h.table none hx
  · next p hcur =>
    cases hexec
    have hclock := h.keep (keeps_clockintr h.table h.order (some p))
    have hrun : ((clockintr s.table (some p)).proc p).state = .running := hclock.running p hcur
    have hq := hclock.table.not_queued (p := p) (by rw [hrun]; decide)
    have hmoves := fun x (hx : x < NPROC) => moves_clockintr h.table (some p) hx
    -- only the running process is touched by the trap handler
    have hrest : ∀ {t' : Table}, (∀ x, x ≠ p → t'.proc x = (clockintr s.table (some p)).proc x) →
        (t'.proc p).state ≠ .running → (t'.proc p).inQueue = false →
        ∀ x < NPROC, Moves 1 (s.table.proc x) (t'.proc x) := by
      intro t' hother hst hq' x hx
      by_cases hxp : x = p
      · exact hxp ▸ .leave (h.running p hcur) hst hq' (by simp)
      · exact hother x hxp ▸ hmoves x hx
    have hother := fun x (hx : x ≠ p) => trap_proc_of_ne (t := clockintr s.table (some p)) user hx
    have htrap := consistent_trap hclock.table hrun user
    have horder := inOrder_trap hclock.order (hclock.table.not_mem (p := p) (by rw [hrun]; decide)) user
    rcases trap_cases user (clockintr s.table (some p)) p with
      ⟨-, htr⟩ | ⟨-, -, htr⟩ | ⟨-, -, -, htr⟩ | ⟨-, -, -, htr⟩ <;>
      rw [htr] at hother htrap horder ⊢
    · exact ⟨⟨htrap, horder, by simp⟩, by simp,
        hrest hother (by simp [exitAt]) (by simpa [exitAt] using hq)⟩
    · refine ⟨⟨htrap, horder, by simp⟩, by simp, hrest hother (by simp [setState]) ?_⟩
      cases user <;> simpa [setState, Table.demote] using hq
    · exact ⟨⟨htrap, horder, by simp⟩, by simp, hrest hother (by simp [setState])
        (by simpa [setState] using hq)⟩
    · exact ⟨⟨htrap, hclock.order, fun x hx => Option.some.inj hx ▸ hrun⟩,
        fun x hx => hcur.trans hx, hmoves⟩

/-- A step of this CPU that is not a round of its scheduler. -/
theorem Attended.step (h : Attended s) (ha : a ≠ .schedule) (hexec : exec s a = some s') :
    Between a.ticks s s' := by
  cases a with
  | schedule => exact absurd rfl ha
  | tick user => exact h.tick hexec
  | fork ok =>
    obtain ⟨-, rfl⟩ := Run.of_guard hexec
    exact ⟨h.keep (keeps_fork h.table ok), fun _ => id, fun x _ => moves_fork ok x⟩
  | wakeup chan =>
    cases hexec
    exact ⟨h.keep (keeps_wakeup h.table _ chan), fun _ => id,
      fun x _ => moves_wakeup h.table _ chan x⟩
  | kill pid =>
    obtain ⟨-, rfl⟩ := Run.of_guard hexec
    exact ⟨h.keep (keeps_kill h.table pid), fun _ => id, fun x _ => moves_kill pid x⟩
  | reap q =>
    obtain ⟨hq, rfl⟩ := Run.of_guard hexec
    have hnot := h.table.not_queued (p := q) (by rw [hq.2]; decide)
    exact ⟨h.keep (keeps_freeproc h.table hq.2), fun _ => id,
      fun x _ => moves_freeproc hq.2 hnot x⟩
  | sleep chan =>
    simp only [exec] at hexec
    split at hexec
    · next p hcur =>
      cases hexec
      exact h.leave hcur (h.table.sleep chan (h.running p hcur)) (by simp) rfl rfl
    · cases hexec
  | yield =>
    simp only [exec] at hexec
    split at hexec
    · next p hcur =>
      cases hexec
      have hrun := h.running p hcur
      exact h.leave hcur (h.table.setState (h.table.not_queued (by simp [hrun]))) (by simp) rfl rfl
    · cases hexec
  | exit =>
    simp only [exec] at hexec
    split at hexec
    · next p hcur =>
      cases hexec
      exact h.leave hcur (h.table.exitAt (h.running p hcur)) (by simp) rfl rfl
    · cases hexec

end Xv6.Sched.SingleCpu
