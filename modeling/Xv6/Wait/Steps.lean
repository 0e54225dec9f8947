import Mathlib.Order.Fin.Basic
import Xv6.Lib.Run
import Xv6.Wait.Invariant

/-!
Every step of `fork`, `exit`, `wait`, `waitx`, `kill` and the scheduler keeps the
invariant of `Xv6.Wait.Invariant` (`State.Inv.step`).

The steps that matter are those of `exit`: `reparent` may give a ZOMBIE to an `initproc`
that is asleep, which `wakeup(initproc)` then wakes first of all slots (`moveChild`,
`wakeInit`), and the process itself becomes a ZOMBIE only after `wakeup(p->parent)` has
passed its parent (`wakeParent`, `zombie`).
-/

namespace Xv6.Wait

open Function (update update_self update_of_ne)

namespace State.Inv

variable {s t : State} {p q r : Slot} {status : ℤ} {e e' : Exit}

/-! ### `wakeup` -/

theorem wakeupAt (h : s.Inv) (chan : Option Chan) : (s.wakeupAt p chan q).Inv := by
  unfold State.wakeupAt
  split
  next hq =>
    apply h.setLive (.inl hq.2.1) (.inr (.inl rfl))
    · intro hholds
      rw [h.holds_running hholds] at hq
      cases hq.2.1
    · simp
  next => exact h

theorem asleep_of_wakeupAt {chan : Option Chan} (h : (s.wakeupAt p chan q).Asleep r) :
    s.Asleep r ∧ ¬ (r = q ∧ q ≠ p ∧ s.chan q = chan) := by
  unfold State.wakeupAt at h
  split at h
  next hq =>
    obtain ⟨hsl, hpc⟩ := h
    have hrq : r ≠ q := by
      rintro rfl
      simp [State.setState] at hsl
    exact ⟨⟨by simpa [State.setState, update_of_ne hrq] using hsl, hpc⟩, fun hr => hrq hr.1⟩
  next hq =>
    refine ⟨h, ?_⟩
    rintro ⟨rfl, hp, hchan⟩
    exact hq ⟨hp, h.1, hchan⟩

/-- Whoever slept in `wait` is awake after `wakeup` of its channel. -/
theorem not_asleep_wakeupAt (h : s.Inv) (hrp : r ≠ p) :
    ¬ (s.wakeupAt p (some (.proc r)) r).Asleep r := by
  intro hsl
  obtain ⟨hold, hnot⟩ := asleep_of_wakeupAt hsl
  exact hnot ⟨rfl, hrp, h.asleep_chan hold⟩

theorem wakeupAt_zombie {chan : Option Chan} (h : (s.wakeupAt p chan q).state r = .zombie) :
    s.state r = .zombie := by
  unfold State.wakeupAt at h
  split at h
  next =>
    have hrq : r ≠ q := by
      rintro rfl
      simp [State.setState] at h
    simpa [State.setState, update_of_ne hrq] using h
  next => exact h

theorem wakeupAt_parent {chan : Option Chan} : (s.wakeupAt p chan q).parent = s.parent := by
  unfold State.wakeupAt
  split <;> rfl

theorem wakeupAt_pc {chan : Option Chan} : (s.wakeupAt p chan q).pc = s.pc := by
  unfold State.wakeupAt
  split <;> rfl

theorem awake (hst : s.state p = .running) : s.state p ≠ .sleeping := by
  rw [hst]
  decide

/-! ### `exit` -/

section

variable (h : s.Inv)
include h

/-- `exit` goes on under `wait_lock`. -/
theorem exitTo (hpc : s.pc p = .exit status e) (hholds : (Pc.exit status e).holds = true)
    (hok : e'.Ok s p) (hwoken : ∀ i, e = .wakeInit i 0 → NoneStuck s) :
    (s.setPc p (.exit status e')).Inv := by
  have hp : (s.pc p).holds = true := by rwa [hpc]
  have hrunning := h.holds_running hp
  refine h.setPc (awake hrunning) (fun _ => ⟨h.holds_lock hp, hrunning⟩)
    ⟨(h.ok_at hpc).1, hok⟩ nofun fun st i heq => ?_
  rw [hpc] at heq
  cases heq
  exact hwoken i rfl

/-- A process goes to a point where no call has seen anything of the table yet. -/
theorem setPlain {pc : Pc} (hst : s.state p ≠ .sleeping)
    (hpc : ∀ st i, s.pc p ≠ .exit st (.wakeInit i 0))
    (hnew : pc = .free ∨ pc = .dead ∨ ∃ x, pc = .wait x .acquire ∨ pc = .wait x .asleep) :
    (s.setPc p pc).Inv := by
  have hwoken : ∀ st i, s.pc p = .exit st (.wakeInit i 0) → NoneStuck s :=
    fun st i heq => absurd heq (hpc st i)
  rcases hnew with rfl | rfl | ⟨x, rfl | rfl⟩ <;> exact h.setPc hst nofun trivial nofun hwoken

/-- Another process knows nothing of the table while `p` holds `wait_lock`. -/
theorem knows_nothing (hp : (s.pc p).holds = true) (hq : q ≠ p) : (s.pc q).holds = false := by
  by_contra hholds
  exact hq (h.holds_unique hp ((Bool.not_eq_false _).mp hholds))

/-- The process that held `wait_lock` has left its section. -/
theorem none_holds (pc : Pc) (hp : (s.pc p).holds = true) (hpc : pc.holds = false) (q : Slot) :
    ((s.setPc p pc).pc q).holds = false := by
  by_cases hqp : q = p
  · subst hqp
    simpa [State.setPc] using hpc
  · rw [show (s.setPc p pc).pc q = s.pc q from update_of_ne hqp ..]
    exact h.knows_nothing hp hqp

/-- `reparent` gives a child to `initproc`, and `wakeup(initproc)` begins. -/
theorem moveChild {i : ℕ} (hi : i < NPROC) (hpc : s.pc p = .exit status (.reparent i))
    (hchild : s.parent ⟨i, hi⟩ = some p) :
    ((s.setParent ⟨i, hi⟩ (some initproc)).setPc p (.exit status (.wakeInit i 0))).Inv := by
  have hholds : (s.pc p).holds = true := by
    rw [hpc]
    rfl
  obtain ⟨hinit, hok⟩ := h.ok_at hpc
  have hcases : ∀ q, q = p ∨ q ≠ p ∧ update s.pc p (.exit status (.wakeInit i 0)) q = s.pc q :=
    fun q => (eq_or_ne q p).imp_right fun hq => ⟨hq, update_of_ne hq ..⟩
  have hself : update s.pc p (.exit status (.wakeInit i 0)) p = .exit status (.wakeInit i 0) :=
    update_self ..
  have hparent : ∀ {q r}, update s.parent ⟨i, hi⟩ (some initproc) q = some r →
      q = ⟨i, hi⟩ ∧ r = initproc ∨ q ≠ ⟨i, hi⟩ ∧ s.parent q = some r := by
    intro q r hq
    by_cases hqi : q = ⟨i, hi⟩
    · subst hqi
      exact .inl ⟨rfl, by simpa using hq.symm⟩
    · exact .inr ⟨hqi, by simpa [update_of_ne hqi] using hq⟩
  have hother : ∀ {q}, (update s.pc p (.exit status (.wakeInit i 0)) q).holds = true → q = p := by
    intro q hq
    rcases hcases q with hqp | ⟨-, hpc'⟩
    · exact hqp
    · exact h.holds_unique hholds (hpc' ▸ hq)
  have hnew : ∀ {q r}, (update s.pc p (.exit status (.wakeInit i 0)) q).child = some r →
      (s.pc q).child = some r := by
    intro q r hq
    rcases hcases q with rfl | ⟨-, hpc'⟩
    · rw [hself] at hq
      cases hq
    · rwa [hpc'] at hq
  have hasleep : ∀ {q}, State.Asleep ((s.setParent ⟨i, hi⟩ (some initproc)).setPc p
      (.exit status (.wakeInit i 0))) q → s.Asleep q := by
    rintro q ⟨hsl, x, hwait⟩
    rcases hcases q with rfl | ⟨-, hpc'⟩
    · cases hself.symm.trans hwait
    · exact ⟨hsl, x, hpc'.symm.trans hwait⟩
  constructor
  · intro q r hq
    rcases hparent hq with ⟨-, rfl⟩ | ⟨-, hq⟩
    · exact h.init_live
    · exact h.parent_live hq
  · intro q hq hlz
    by_cases hqi : q = ⟨i, hi⟩
    · subst hqi
      simp [State.setPc, State.setParent]
    · simpa [State.setPc, State.setParent, update_of_ne hqi] using h.has_parent hq hlz
  · exact h.init_live
  · intro q hq
    rw [hother hq]
    exact h.holds_lock hholds
  · intro q hq
    rw [hother hq]
    exact h.holds_running hholds
  · exact fun h₁ h₂ => h.child_unique (hnew h₁) (hnew h₂)
  · intro q
    rcases hcases q with rfl | ⟨hqp, hpc'⟩
    · rw [show State.pc _ q = _ from hself]
      refine ⟨hinit, fun r hr hrq => ?_⟩
      rcases hparent hrq with ⟨-, hqi⟩ | ⟨hri, hrq⟩
      · exact hinit hqi
      · have hlt : r < i := lt_of_le_of_ne (Nat.lt_succ_iff.mp hr) fun heq => hri (Fin.ext heq)
        exact hok r hlt hrq
    · rw [show State.pc _ q = _ from hpc']
      refine (h.ok q).transfer (fun _ _ hst => hst) (fun r _ _ hr => ?_) fun hq =>
        absurd (h.holds_unique hholds hq) hqp
      have hri : r ≠ ⟨i, hi⟩ := by
        rintro rfl
        exact hqp (Option.some.inj (hr.symm.trans hchild))
      exact (update_of_ne hri ..).trans hr
  · exact fun hq => h.asleep_chan (hasleep hq)
  · intro r q hz hpar hsl
    rcases hparent hpar with ⟨-, rfl⟩ | ⟨-, hpar⟩
    · exact ⟨rfl, p, status, i, h.holds_lock hholds, hself⟩
    · obtain ⟨-, e, st, j, hlock, he⟩ := h.woken hz hpar (hasleep hsl)
      have hep : e = p := Option.some.inj (hlock.symm.trans (h.holds_lock hholds))
      rw [hep, hpc] at he
      cases he

/-- One slot of `wakeup(initproc)`. -/
theorem wakeInit {i j : ℕ} (hj : j < NPROC) (hpc : s.pc p = .exit status (.wakeInit i j)) :
    ((s.wakeupAt p (some (.proc initproc)) ⟨j, hj⟩).setPc p
      (.exit status (.wakeInit i (j + 1)))).Inv := by
  obtain ⟨hinit, hok⟩ := h.ok_at hpc
  have hwoken : NoneStuck (s.wakeupAt p (some (.proc initproc)) ⟨j, hj⟩) := by
    intro r q hz hpar hsl
    rw [wakeupAt_parent] at hpar
    obtain ⟨rfl, e, st, i', hlock, he⟩ := h.woken (wakeupAt_zombie hz) hpar (asleep_of_wakeupAt hsl).1
    have hep : e = p :=
      Option.some.inj (hlock.symm.trans (h.holds_lock (p := p) (by rw [hpc]; rfl)))
    rw [hep, hpc] at he
    cases he
    exact h.not_asleep_wakeupAt hinit.symm hsl
  refine (h.wakeupAt _).exitTo (e := .wakeInit i j) (by rw [wakeupAt_pc, hpc]) rfl ?_ fun _ _ => hwoken
  exact fun q hq => by rw [wakeupAt_parent]; exact hok q hq

/-- One slot of `wakeup(p->parent)`. -/
theorem wakeParent {r : Option Slot} {j : ℕ} (hj : j < NPROC)
    (hpc : s.pc p = .exit status (.wakeParent r j)) :
    ((s.wakeupAt p (r.map .proc) ⟨j, hj⟩).setPc p
      (.exit status (.wakeParent r (j + 1)))).Inv := by
  obtain ⟨-, hmoved, hparent, hawake⟩ := h.ok_at hpc
  refine (h.wakeupAt _).exitTo (e := .wakeParent r j) (by rw [wakeupAt_pc, hpc]) rfl
    ⟨fun q hq => ?_, ?_, ?_⟩ nofun
  · rw [wakeupAt_parent]
    exact hmoved q hq
  · rwa [wakeupAt_parent]
  · rintro q rfl hlt hsl
    obtain ⟨hold, hnot⟩ := asleep_of_wakeupAt hsl
    rcases Nat.lt_succ_iff_lt_or_eq.mp hlt with hlt | heq
    · exact hawake q rfl hlt hold
    · have hqj : q = ⟨j, hj⟩ := Fin.ext heq
      subst hqj
      refine hnot ⟨rfl, ?_, h.asleep_chan hold⟩
      rintro rfl
      have hrunning := h.holds_running (by rw [hpc]; rfl)
      rw [hold.1] at hrunning
      cases hrunning

/-- The last statements of `exit`. -/
theorem zombie {r : Option Slot} (hpc : s.pc p = .exit status (.zombie r)) :
    State.Inv { (s.setState p .zombie).release.setPc p .dead with
      xstate := update s.xstate p status } := by
  have hholds : (s.pc p).holds = true := by
    rw [hpc]
    rfl
  have hrunning := h.holds_running hholds
  have hdead : (s.setPc p .dead).Inv :=
    h.setPlain (awake hrunning) (by simp [hpc]) (.inr (.inl rfl))
  have hnone := h.none_holds .dead hholds rfl
  obtain ⟨hinit, hmoved, hparent, hawake⟩ := h.ok_at hpc
  have hzombie := hdead.setZombie hinit hrunning (update_self ..) (fun q => hmoved q q.isLt) (by
      rintro q hq ⟨hsl, x, hwait⟩
      have hqp : q ≠ p := by
        rintro rfl
        rw [show s.state q = _ from hsl] at hrunning
        cases hrunning
      rw [show (s.setPc p .dead).pc q = s.pc q from update_of_ne hqp ..] at hwait
      exact hawake q (hparent.symm.trans hq) ⟨hsl, x, hwait⟩) hnone
  have hreleased := hzombie.release hnone
  exact { hreleased with }

theorem runExit (hst : s.state p = .running) (hpc : s.pc p = .exit status e)
    (ht : s.runExit p status e = some t) : t.Inv := by
  obtain ⟨hinit, hok⟩ := h.ok_at hpc
  cases e with
  | acquire =>
    obtain ⟨hfree, rfl⟩ := Run.of_guard ht
    refine (h.acquire (p := p) hfree).setPc (awake hst) (fun _ => ⟨rfl, hst⟩)
      ⟨hinit, fun q hq => absurd hq (Nat.not_lt_zero _)⟩ nofun fun st i heq => ?_
    rw [show (s.acquire p).pc p = _ from hpc] at heq
    cases heq
  | reparent i =>
    simp only [State.runExit] at ht
    split at ht
    next hi =>
      split at ht
      next hchild =>
        cases ht
        exact h.moveChild hi hpc hchild
      next hchild =>
        cases ht
        refine h.exitTo hpc rfl (fun q hq => ?_) nofun
        rcases Nat.lt_succ_iff_lt_or_eq.mp hq with hlt | heq
        · exact hok q hlt
        · have hqi : q = ⟨i, hi⟩ := Fin.ext heq
          rwa [hqi]
    next hi =>
      cases ht
      exact h.exitTo hpc rfl ⟨fun q _ => hok q (lt_of_lt_of_le q.isLt (Nat.not_lt.mp hi)), rfl,
        fun q _ hlt => absurd hlt (Nat.not_lt_zero _)⟩ nofun
  | wakeInit i j =>
    simp only [State.runExit] at ht
    split at ht
    next hj =>
      cases ht
      exact h.wakeInit hj hpc
    next hj =>
      cases ht
      refine h.exitTo hpc rfl hok fun i' heq => ?_
      cases heq
      exact absurd (by decide) hj
  | wakeParent r j =>
    simp only [State.runExit] at ht
    split at ht
    next hj =>
      cases ht
      exact h.wakeParent hj hpc
    next hj =>
      cases ht
      obtain ⟨hmoved, hparent, hawake⟩ := hok
      exact h.exitTo hpc rfl ⟨hmoved, hparent, fun q hq =>
        hawake q hq (lt_of_lt_of_le q.isLt (Nat.not_lt.mp hj))⟩ nofun
  | zombie r =>
    cases ht
    exact h.zombie hpc

/-! ### `wait` and `waitx` -/

/-- `wait` returns, or goes to sleep, and releases `wait_lock`. -/
theorem leaveWait (pc : Pc) (hp : (s.pc p).holds = true) {x : Bool} {w : WaitAt}
    (hpc : s.pc p = .wait x w) (hnew : pc = .free ∨ pc = .wait x .asleep) :
    (s.setPc p pc).Inv ∧ ∀ q, ((s.setPc p pc).pc q).holds = false := by
  have hrunning := h.holds_running hp
  constructor
  · apply h.setPlain (awake hrunning) (by simp [hpc])
    rcases hnew with rfl | rfl
    · exact .inl rfl
    · exact .inr (.inr ⟨x, .inr rfl⟩)
  · apply h.none_holds _ hp
    rcases hnew with rfl | rfl <;> rfl

theorem scanTo {x kids kids' : Bool} {i : ℕ} (hi : i < NPROC)
    (hpc : s.pc p = .wait x (.scan i kids))
    (hzombie : s.parent ⟨i, hi⟩ = some p → s.state ⟨i, hi⟩ ≠ .zombie) :
    (s.setPc p (.wait x (.scan (i + 1) kids'))).Inv := by
  have hholds : (s.pc p).holds = true := by
    rw [hpc]
    rfl
  have hrunning := h.holds_running hholds
  refine h.setPc (awake hrunning) (fun _ => ⟨h.holds_lock hholds, hrunning⟩)
    (fun q hq hpar => ?_) nofun (by simp [hpc])
  rcases Nat.lt_succ_iff_lt_or_eq.mp hq with hlt | heq
  · exact h.ok_at hpc q hlt hpar
  · have hqi : q = ⟨i, hi⟩ := Fin.ext heq
    subst hqi
    exact hzombie hpar

theorem runWait (hst : s.state p = .running) {x copied : Bool} {w : WaitAt}
    (hpc : s.pc p = .wait x w) (ht : s.runWait p x copied w = some t) : t.Inv := by
  cases w with
  | acquire =>
    obtain ⟨hfree, rfl⟩ := Run.of_guard ht
    refine (h.acquire (p := p) hfree).setPc (awake hst) (fun _ => ⟨rfl, hst⟩)
      (fun q hq => absurd hq (Nat.not_lt_zero _)) nofun fun st i heq => ?_
    rw [show (s.acquire p).pc p = _ from hpc] at heq
    cases heq
  | scan i kids =>
    have hholds : (s.pc p).holds = true := by
      rw [hpc]
      rfl
    obtain ⟨hfree, hnone⟩ := h.leaveWait .free hholds hpc (.inl rfl)
    simp only [State.runWait] at ht
    split at ht
    next hi =>
      split at ht
      next hpar =>
        split at ht
        next hz =>
          split at ht
          · cases ht
            have hreaped := (hfree.freeproc (q := ⟨i, hi⟩) (by
              rw [show (s.setPc p .free).state _ = _ from hz]
              simp [Live]) (by
              intro q hq
              have hused := hfree.child_used hq
              rw [show (s.setPc p .free).state _ = _ from hz] at hused
              cases hused)).release hnone
            exact { hreaped with }
          · cases ht
            exact hfree.release hnone
        next hz =>
          cases ht
          exact h.scanTo hi hpc fun _ => hz
      next hpar =>
        cases ht
        exact h.scanTo hi hpc fun hp => absurd hp hpar
    next hi =>
      split at ht
      · cases ht
        exact hfree.release hnone
      · cases ht
        obtain ⟨hasleep, hnone⟩ := h.leaveWait (.wait x .asleep) hholds hpc (.inr rfl)
        have hnot : ¬ (s.setPc p (.wait x .asleep)).Asleep p := by
          rintro ⟨hsl, -⟩
          rw [show s.state p = _ from hsl] at hst
          cases hst
        have hchan := hasleep.setChan (some (.proc p)) hnot
        have hslept := hchan.setAsleep (x := x) hst (update_self ..) (update_self ..) (by
          intro q hq
          exact h.ok_at hpc q (lt_of_lt_of_le q.isLt (Nat.not_lt.mp hi)) hq) hnone
        exact hslept.release hnone
  | asleep =>
    cases ht
    exact h.setPlain (awake hst) (by simp [hpc]) (.inr (.inr ⟨x, .inl rfl⟩))

/-! ### `fork` -/

theorem runFork (hst : s.state p = .running) {f : Fork} (hpc : s.pc p = .fork f)
    (ht : s.runFork p f = some t) : t.Inv := by
  cases f with
  | link q =>
    obtain ⟨hfree, rfl⟩ := Run.of_guard ht
    have hchild : (s.pc p).child = some q := by
      rw [hpc]
      rfl
    refine (h.link hfree hst hpc).setPc (awake hst) nofun ⟨h.child_used hchild, update_self ..⟩
      (fun q' hq' p' hp' hq => ?_) fun st i heq => ?_
    · cases hq'
      exact hp' (h.child_unique hchild hq)
    · rw [show (s.setParent q (some p)).pc p = _ from hpc] at heq
      cases heq
  | run q =>
    cases ht
    have hchild : (s.pc p).child = some q := by
      rw [hpc]
      rfl
    have hfree : (s.setPc p .free).Inv :=
      h.setPlain (awake hst) (by simp [hpc]) (.inl rfl)
    apply hfree.setRunnable (h.child_used hchild)
    · rw [show (s.setPc p .free).parent q = _ from (h.ok_at hpc).2]
      simp
    · intro p' hp'
      by_cases hpp : p' = p
      · subst hpp
        simp [State.setPc, Pc.child] at hp'
      · rw [show (s.setPc p .free).pc p' = s.pc p' from update_of_ne hpp ..] at hp'
        exact hpp (h.child_unique hchild hp')

/-- **Every step keeps the invariant.** -/
theorem step {a : Action} (ht : exec s a = some t) : t.Inv := by
  cases a with
  | fork p q ok =>
    obtain ⟨⟨hst, hpc, hq⟩, rfl⟩ := Run.of_guard ht
    have halloc := h.allocproc hq
    have hqp : p ≠ q := by
      rintro rfl
      rw [hst] at hq
      cases hq
    have hself : (s.allocproc q).state q = .used := update_self ..
    have hnochild : ∀ p', ((s.allocproc q).pc p').child ≠ some q := by
      intro p' hp'
      by_cases hpq : p' = q
      · subst hpq
        simp [State.allocproc, Pc.child] at hp'
      · rw [show (s.allocproc q).pc p' = s.pc p' from update_of_ne hpq ..] at hp'
        have hused := h.child_used hp'
        rw [hq] at hused
        cases hused
    split
    · have hrunning : (s.allocproc q).state p = .running := by
        rw [← hst]
        exact update_of_ne hqp ..
      refine halloc.setPc (awake hrunning) (fun hh => by cases hh) hself (fun q' hq' p' _ => ?_)
        fun st i heq => ?_
      · cases hq'
        exact hnochild p'
      · rw [show (s.allocproc q).pc p = s.pc p from update_of_ne hqp .., hpc] at heq
        cases heq
    · exact halloc.freeproc (by rw [hself]; simp [Live]) hnochild
  | exit p status =>
    obtain ⟨⟨hst, hpc, hinit⟩, rfl⟩ := Run.of_guard ht
    exact h.setPc (awake hst) (fun hh => by cases hh) ⟨hinit, trivial⟩ (fun _ hq => by cases hq)
      (by simp [hpc])
  | wait p x =>
    obtain ⟨hen, rfl⟩ := Run.of_guard ht
    exact h.setPlain (awake hen.1) (by simp [hen.2]) (.inr (.inr ⟨x, .inl rfl⟩))
  | run p copied =>
    simp only [exec] at ht
    split at ht
    next hst =>
      split at ht
      next f hpc => exact h.runFork hst hpc ht
      next status e hpc => exact h.runExit hst hpc ht
      next x w hpc => exact h.runWait hst hpc ht
      next => cases ht
    next => cases ht
  | dispatch q =>
    obtain ⟨hst, rfl⟩ := Run.of_guard ht
    have hrun : (s.setState q .running).Inv :=
      h.setLive (.inr (.inl hst)) (.inr (.inr rfl)) (fun _ => rfl) (by simp)
    apply hrun.setChan none
    rintro ⟨hsl, -⟩
    simp [State.setState] at hsl
  | yield p =>
    obtain ⟨hen, rfl⟩ := Run.of_guard ht
    apply h.setLive (.inr (.inr hen.1)) (.inr (.inl rfl)) _ (by simp)
    intro hholds
    exact absurd (h.holds_lock hholds) hen.2
  | sleep p n =>
    obtain ⟨hen, rfl⟩ := Run.of_guard ht
    have hnot : ∀ x, s.pc p ≠ .wait x .asleep := by simp [hen.2]
    have hslept : (s.setState p .sleeping).Inv := by
      apply h.setLive (.inr (.inr hen.1)) (.inl rfl) _ fun _ => hnot
      simp [hen.2, Pc.holds]
    apply hslept.setChan (some (.other n))
    rintro ⟨-, x, hpc⟩
    exact hnot x hpc
  | wakeup n q =>
    cases ht
    split
    next hq =>
      apply h.setLive (.inl hq.1) (.inr (.inl rfl)) _ (by simp)
      intro hholds
      rw [h.holds_running hholds] at hq
      cases hq.1
    next => exact h
  | kill q =>
    simp only [exec, Option.some.injEq] at ht
    subst ht
    have hkilled : State.Inv { s with killed := update s.killed q true } := { h with }
    split
    next hq =>
      apply hkilled.setLive (.inl hq) (.inr (.inl rfl)) _ (by simp)
      intro hholds
      rw [h.holds_running hholds] at hq
      cases hq
    next => exact hkilled

end

end State.Inv

end Xv6.Wait
