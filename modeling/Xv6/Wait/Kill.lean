import Mathlib.Data.List.FinRange
import Mathlib.Tactic.NormNum
import Xv6.Wait.Protocol

/-!
Process ids, and `kill` by process id.

`kill` goes through the table and acts on the first slot whose `pid` is the one it was given;
the slots before it are only read, so the call is one step here. Everything else is the
interleaved system of `fork`, `exit`, `wait` and the scheduler.

The n-th process of a run gets the pid n, as an `int`. So pids of live processes differ while
fewer than 2^31 processes have been forked (`State.Pids`). A slot that is UNUSED has pid 0,
and `kill` does not look at the state of a slot: `kill(0)` finds one.

* `pids_and_kill`: what holds in runs in which `kill` is not called with 0.
* `kill_zero`: what `kill(0)` does.
-/

namespace Xv6.Wait

open Function (update update_of_ne)

variable {s t u : State} {p q : Slot}

/-! ### kill -/

/-- What `kill` does to the slot it stops at. -/
def State.killAt (s : State) (q : Slot) : State :=
  let t := { s with killed := update s.killed q true }
  if s.state q = .sleeping then t.setState q .runnable else t

/-- `kill(pid)`: its result and the table after it. -/
def State.kill (s : State) (pid : ℤ) : ℤ × State :=
  match (List.finRange NPROC).find? fun q => s.pid q = pid with
  | some q => (0, s.killAt q)
  | none => (-1, s)

inductive Event where
  | step (a : Action)
  | kill (pid : ℤ)

/-- The system with `kill` by pid in place of `kill` by slot. -/
def next (s : State) : Event → Option State
  | .step (.kill _) => none
  | .step a => exec s a
  | .kill pid => some (s.kill pid).2

/-- `kill` is not called with 0. -/
def Careful (_ : State) : Event → Prop
  | .step _ => True
  | .kill pid => pid ≠ 0

theorem exec_of_next {a : Action} (h : next s (.step a) = some t) :
    exec s a = some t ∧ ∀ q, a ≠ .kill q := by
  cases a with
  | kill q => cases h
  | _ => exact ⟨h, fun _ => Action.noConfusion⟩

/-! ### The invariant -/

/-- The process that was forked as number `n` has pid `n + 1`; an UNUSED slot has pid 0 and is
not marked as killed. -/
structure State.Pids (s : State) : Prop where
  nextpid : s.nextpid = int32 (s.nextid + 1)
  pid : ∀ q, s.state q ≠ .unused → s.pid q = int32 (s.id q + 1)
  unused : ∀ q, s.state q = .unused → s.pid q = 0 ∧ s.killed q = false

namespace State.Pids

theorem boot_pids : boot.Pids := by
  refine ⟨by decide +kernel, fun q hq => ?_, fun q hq => ?_⟩
  · have hinit : q = initproc := by
      by_contra hne
      simp [boot, update_of_ne hne] at hq
    subst hinit
    decide +kernel
  · have hne : q ≠ initproc := by
      rintro rfl
      simp [boot] at hq
    simp [boot, update_of_ne hne]

theorem same (h : s.Pids) (hst : SameIds s t) : t.Pids := by
  refine ⟨by rw [hst.nextpid, hst.nextid, h.nextpid], fun q hq => ?_, fun q hq => ?_⟩
  · rw [hst.pid, hst.id]
    exact h.pid q fun h0 => hq ((hst.unused q).mpr h0)
  · rw [hst.pid, hst.killed]
    exact h.unused q ((hst.unused q).mp hq)

theorem int32_succ (n : ℤ) : int32 (int32 n + 1) = int32 (n + 1) := Int.bmod_add_bmod

theorem allocproc (h : s.Pids) : (s.allocproc q).Pids := by
  refine ⟨?_, fun p hp => ?_, fun p hp => ?_⟩
  · simp only [State.allocproc, h.nextpid, int32_succ, Nat.cast_add, Nat.cast_one]
  · by_cases hpq : p = q
    · subst hpq
      simp only [State.allocproc, Function.update_self, h.nextpid]
    · simp only [State.allocproc, update_of_ne hpq]
      apply h.pid
      simpa [State.allocproc, State.setState, update_of_ne hpq] using hp
  · have hpq : p ≠ q := by
      rintro rfl
      simp [State.allocproc, State.setState] at hp
    simp only [State.allocproc, State.setState, update_of_ne hpq] at hp ⊢
    exact h.unused p hp

theorem freeproc (h : s.Pids) : (s.freeproc q).Pids := by
  refine ⟨h.nextpid, fun p hp => ?_, fun p hp => ?_⟩
  · have hpq : p ≠ q := by
      rintro rfl
      simp [State.freeproc, State.setState, State.setParent, State.setChan] at hp
    simp only [State.freeproc, State.setState, State.setParent, State.setChan,
      update_of_ne hpq] at hp ⊢
    exact h.pid p hp
  · by_cases hpq : p = q
    · subst hpq
      simp [State.freeproc]
    · simp only [State.freeproc, State.setState, State.setParent, State.setChan,
        update_of_ne hpq] at hp ⊢
      exact h.unused p hp

theorem idEvent (h : s.Pids) (hst : IdEvent s t) : t.Pids := by
  cases hst with
  | same hst _ => exact h.same hst
  | alloc q _ hst _ => exact h.allocproc.same hst
  | fail q _ hst _ => exact h.allocproc.freeproc.same hst
  | report q r _ _ hst _ => exact h.freeproc.same hst

/-- A slot that is not UNUSED may be marked. -/
theorem killAt (h : s.Pids) (hq : s.state q ≠ .unused) : (s.killAt q).Pids := by
  have hkilled : State.Pids { s with killed := update s.killed q true } := by
    refine ⟨h.nextpid, h.pid, fun p hp => ?_⟩
    have hpq : p ≠ q := fun he => hq (he ▸ hp)
    simp only [update_of_ne hpq]
    exact h.unused p hp
  unfold State.killAt
  split
  · exact hkilled.same (.setState hq (by decide))
  · exact hkilled

end State.Pids

/-! ### Whole runs -/

/-- The invariant of runs in which `kill` is not called with 0. -/
structure State.Good (s : State) : Prop where
  inv : s.Inv
  ids : s.Ids
  pids : s.Pids

theorem find_pid {pid : ℤ} (h : (List.finRange NPROC).find? (fun q => s.pid q = pid) = some q) :
    s.pid q = pid := by
  simpa using List.find?_some h

theorem State.Good.next (h : s.Good) {e : Event} (hc : Careful s e) (ht : next s e = some t) :
    t.Good := by
  cases e with
  | step a =>
    obtain ⟨hexec, hkill⟩ := exec_of_next ht
    exact ⟨h.inv.step hexec, h.ids.step h.inv hexec, h.pids.idEvent (idEvent h.inv hexec hkill)⟩
  | kill pid =>
    obtain rfl : (s.kill pid).2 = t := Option.some.inj ht
    unfold State.kill
    split
    next q hq =>
      have hexec : exec s (.kill q) = some (s.killAt q) := rfl
      have hused : s.state q ≠ .unused := fun h0 =>
        hc ((find_pid hq).symm.trans (h.pids.unused q h0).1)
      exact ⟨h.inv.step hexec, h.ids.step h.inv hexec, h.pids.killAt hused⟩
    next => exact h

theorem good_of_reachable (hs : Run.ReachableUnder (· = boot) (Run.relOf next) Careful s) : s.Good :=
  hs.invariant State.Good
    (fun s heq => (show s = boot from heq) ▸
      ⟨State.Inv.boot_inv, State.Ids.boot_ids, State.Pids.boot_pids⟩)
    fun _ _ _ h hc ht => h.next hc ht

/-- The first 2^31 pids differ from each other and from 0. -/
theorem int32_inj {m n : ℤ} (hm : 0 ≤ m ∧ m ≤ 2147483648) (hn : 0 ≤ n ∧ n ≤ 2147483648)
    (h : int32 m = int32 n) : m = n := by
  have hzero : int32 (m - n) = 0 := by
    have hsub : int32 (m - n) = int32 (int32 m - int32 n) :=
      (Int.sub_bmod_bmod.trans Int.bmod_sub_bmod).symm
    rw [hsub, h, sub_self]
    rfl
  have hdvd : ((2 ^ 32 : ℕ) : ℤ) ∣ m - n := Int.dvd_iff_bmod_eq_zero.mpr hzero
  norm_num at hdvd
  omega

theorem State.Good.pid_unique (h : s.Good) (hforks : s.nextid ≤ 2147483648) {q' : Slot}
    (hq : s.state q ≠ .unused) (hq' : s.state q' ≠ .unused) (he : s.pid q = s.pid q') : q = q' := by
  rw [h.pids.pid q hq, h.pids.pid q' hq'] at he
  have hlt := h.ids.id_lt q hq
  have hlt' := h.ids.id_lt q' hq'
  have hid := int32_inj (by omega) (by omega) he
  exact h.ids.unique q q' hq hq' (by omega)

/-- **Pids and kill.** In runs with fewer than 2^31 forks in which `kill` is not called with
0: processes that are not UNUSED have different pids; `kill` marks exactly the one with its
pid, and returns -1 with the table unchanged if there is none; and `fork` makes a child that
is not marked. -/
theorem pids_and_kill (hs : Run.ReachableUnder (· = boot) (Run.relOf next) Careful s)
    (hforks : s.nextid ≤ 2147483648) :
    (∀ q q', s.state q ≠ .unused → s.state q' ≠ .unused → s.pid q = s.pid q' → q = q') ∧
    (∀ pid, pid ≠ 0 →
      (∀ q, s.state q ≠ .unused → s.pid q = pid →
        (s.kill pid).1 = 0 ∧ (s.kill pid).2 = { s with
          killed := update s.killed q true
          state := if s.state q = .sleeping then update s.state q .runnable else s.state }) ∧
      ((∀ q, s.state q ≠ .unused → s.pid q ≠ pid) → s.kill pid = (-1, s))) ∧
    (∀ p q t, exec s (.fork p q true) = some t → t.state q = .used ∧ t.killed q = false) := by
  have hgood := good_of_reachable hs
  refine ⟨fun q q' hq hq' he => hgood.pid_unique hforks hq hq' he, fun pid hpid => ⟨?_, ?_⟩, ?_⟩
  · intro q hq he
    obtain ⟨q', hfind⟩ : ∃ q', (List.finRange NPROC).find? (fun q => s.pid q = pid) = some q' := by
      rw [← Option.isSome_iff_exists, List.find?_isSome]
      exact ⟨q, List.mem_finRange q, decide_eq_true he⟩
    have hused : s.state q' ≠ .unused := fun h0 =>
      hpid ((find_pid hfind).symm.trans (hgood.pids.unused q' h0).1)
    obtain rfl : q' = q := hgood.pid_unique hforks hused hq ((find_pid hfind).trans he.symm)
    rw [State.kill, hfind]
    refine ⟨rfl, ?_⟩
    simp only [State.killAt]
    split <;> rfl
  · intro hnone
    have hfind : (List.finRange NPROC).find? (fun q => s.pid q = pid) = none := by
      rw [List.find?_eq_none]
      intro q _ he
      have hq := of_decide_eq_true he
      by_cases h0 : s.state q = .unused
      · exact hpid (hq.symm.trans (hgood.pids.unused q h0).1)
      · exact hnone q h0 hq
    rw [State.kill, hfind]
  · intro p q t ht
    obtain ⟨hen, rfl⟩ := Run.of_guard ht
    exact ⟨by simp [State.allocproc, State.setState, State.setPc],
      (hgood.pids.unused q hen.2.2).2⟩

/-- `initproc` runs and forks; the child is killed. -/
theorem pids_and_kill_child : ∃ s : State,
    Run.ReachableUnder (· = boot) (Run.relOf next) Careful s ∧ s.nextid ≤ 2147483648 ∧
      (s.kill 2).1 = 0 ∧ (s.kill 2).2.killed firstChild = true := by
  have hsome : ((next boot (.step (.dispatch initproc))).bind fun s =>
      next s (.step (.fork initproc firstChild true))).map
        (fun s => (s.nextid, s.state firstChild, s.pid firstChild)) = some (2, .used, 2) := by decide +kernel
  obtain ⟨s, hs, heq⟩ := Option.map_eq_some_iff.mp hsome
  obtain ⟨s₁, hs₁, hs₂⟩ := Option.bind_eq_some_iff.mp hs
  have hreach : Run.ReachableUnder (· = boot) (Run.relOf next) Careful s :=
    .next (.next (.start rfl) (show Careful boot (.step _) from trivial) hs₁)
      (show Careful s₁ (.step _) from trivial) hs₂
  obtain ⟨hnext, hrest⟩ := Prod.mk.inj heq
  obtain ⟨hstate, hpid⟩ := Prod.mk.inj hrest
  have hforks : s.nextid ≤ 2147483648 := by omega
  obtain ⟨hret, htable⟩ := ((pids_and_kill hreach hforks).2.1 2 (by decide)).1 firstChild
    (by rw [hstate]; decide) hpid
  refine ⟨s, hreach, hforks, hret, ?_⟩
  rw [htable]
  exact Function.update_self firstChild true s.killed

/-- `kill(0)` returns 0 and marks a slot that is UNUSED, although no process has pid 0, and
the next child is made with the mark. -/
theorem kill_zero :
    (∀ q, boot.state q ≠ .unused → boot.pid q ≠ 0) ∧ (boot.kill 0).1 = 0 ∧
      (boot.kill 0).2.killed firstChild = true ∧
      (((next boot (.kill 0)).bind fun s => next s (.step (.dispatch initproc))).bind fun s =>
        next s (.step (.fork initproc firstChild true))).map (fun s => (s.state firstChild, s.killed firstChild)) =
          some (.used, true) := by
  decide +kernel

end Xv6.Wait
