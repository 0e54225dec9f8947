import Mathlib.Order.Fin.Basic
import Xv6.Lib.Run
import Xv6.Sleep.Invariant

/-!
No wakeup is lost.

Every statement of `sleep`, `wakeup`, `yield`, `kill` and the scheduler keeps the
invariant of `Xv6.Sleep.Invariant` (`State.Inv.step`). When the lock of a channel is free
there is no CPU left to pass a waiting process, so nobody waits for a condition that
holds (`no_lost_wakeup`).
-/

namespace Xv6.Sleep

open Function (update update_self update_of_ne)

namespace State.Inv

variable {s t : State} {c k : ℕ} {p : Slot} {w : Work}

/-! ### What a CPU that holds a `p->lock` can rely on -/

/-- What it means that interrupts are on. -/
theorem interruptible_iff : s.interruptible c = true ↔ s.sect c = none ∧
    (s.mode c = .sched [] ∨ ∃ p back, s.mode c = .run p ∧ s.pc p = .idle back) := by
  unfold State.interruptible
  cases s.sect c with
  | some kw => simp
  | none =>
    cases hm : s.mode c with
    | sched held => simp
    | enter p => simp
    | run p => cases hpc : s.pc p <;> simp [hpc]

/-- A CPU that is in a section, or in the scheduler, and holds `p->lock` does not share it
with the process. -/
theorem not_owns (h : s.Inv) (hp : s.plock p = some c)
    (hctx : (∃ held, s.mode c = .sched held) ∨ ∃ q back, s.mode c = .run q ∧ s.pc q = .idle back)
    {c' : ℕ} (hm : s.mode c' = .run p) : (s.pc p).owns = false := by
  by_contra howns
  have howns : (s.pc p).owns = true := (Bool.not_eq_false _).mp howns
  have hcc : c' = c := Option.mem_unique (h.run_held hm howns) hp
  subst hcc
  rcases hctx with ⟨held, hsched⟩ | ⟨q, back, hrun, hpc⟩
  · rw [hm] at hsched
    cases hsched
  · rw [hm] at hrun
    cases hrun
    rw [hpc] at howns
    cases howns

theorem sect_context (h : s.Inv) (hs : s.sect c = some (k, w)) :
    (∃ held, s.mode c = .sched held) ∨ ∃ q back, s.mode c = .run q ∧ s.pc q = .idle back := by
  rcases (h.sect hs).ctx with hsched | hrun
  · exact .inl ⟨_, hsched⟩
  · exact .inr hrun

theorem falling_owns {pc : Pc} (h : pc.falling = some k) : pc.owns = true ∧ pc.parked = false := by
  cases pc <;> first | exact ⟨rfl, rfl⟩ | cases h

/-- A process whose `p->lock` a section holds waits only if it is switched out. -/
theorem asleep_of_waits (h : s.Inv) (hs : s.sect c = some (k, w)) (hp : w.target = some p)
    {k' : ℕ} (hw : s.waits p k') : s.pc p = .asleep k' ∧ s.state p = .sleeping := by
  rcases hw with hfall | hasleep
  · obtain ⟨howns, hparked⟩ := falling_owns hfall
    obtain ⟨c', hm⟩ := h.run_exists hparked
    have hnot := h.not_owns ((h.sect hs).target hp) (h.sect_context hs) hm
    rw [howns] at hnot
    cases hnot
  · exact hasleep

/-- A process whose `p->lock` is held by a CPU that does not run it, or by none, is
switched out if it is SLEEPING. -/
theorem parked_of_sleeping (h : s.Inv) (hst : s.state p = .sleeping)
    (hrun : ∀ c, s.mode c = .run p → (s.pc p).owns = false) : (s.pc p).parked = true := by
  obtain ⟨k, hk | hk⟩ := h.sleeping_ok hst
  · obtain ⟨c, hm⟩ := h.run_exists (p := p) (by rw [hk]; rfl)
    have hnot := hrun c hm
    rw [hk] at hnot
    cases hnot
  · rw [hk]
    rfl

/-- The section's hold on a `p->lock` excludes the schedulers. -/
theorem not_entered (h : s.Inv) (hs : s.sect c = some (k, w)) (hp : s.plock p = some c) (c' : ℕ) :
    s.mode c' ≠ .enter p := by
  intro hm
  have hcc : c' = c := Option.mem_unique (h.enter_held hm) hp
  subst hcc
  rcases (h.sect hs).ctx with hsched | ⟨q, back, hrun, -⟩
  · rw [hm] at hsched
    cases hsched
  · rw [hm] at hrun
    cases hrun

theorem unneeded_of_sect (h : s.Inv) (hs : s.sect c = some (k, w)) (hp : s.plock p = some c)
    (hw : w.target ≠ some p) : Unneeded s p where
  target := by
    intro c' k' w' hs' htarget
    have hcc : c' = c := Option.mem_unique ((h.sect hs').target htarget) hp
    rw [hcc, hs] at hs'
    cases hs'
    exact hw htarget
  sched := by
    intro c' held hm hmem
    have hcc : c' = c := Option.mem_unique (h.sched_held hm hmem) hp
    subst hcc
    rcases (h.sect hs).ctx with hsched | ⟨q, back, hrun, -⟩
    · rw [hm] at hsched
      cases hsched
      cases hmem
    · rw [hm] at hrun
      cases hrun
  enter := h.not_entered hs hp _
  run := h.not_owns hp (h.sect_context hs)

/-! ### `wakeup` and `sleep` in a section -/

theorem not_waits_of_idle {back : Option ℕ} (hp : s.pc p = .idle back) : ¬ s.waits p k := by
  simp [State.waits, hp, Pc.falling]

/-- The process that runs the section, or that the section interrupted, does not wait. -/
theorem not_waits_myproc (h : s.Inv) (hs : s.sect c = some (k, w))
    (hp : (s.mode c).myproc = some p) {k' : ℕ} : ¬ s.waits p k' := by
  rcases (h.sect hs).ctx with hsched | ⟨q, back, hrun, hpc⟩
  · rw [hsched] at hp
    cases hp
  · rw [hrun] at hp
    cases hp
    exact not_waits_of_idle hpc

theorem goto_goto (s : State) (c k : ℕ) (w w' : Work) : (s.goto c k w).goto c k w' = s.goto c k w' := by
  simp [State.goto]

section

variable (h : s.Inv)
include h

/-- `wakeup` passes a process that does not wait. -/
theorem pass (hs : s.sect c = some (k, .test p)) (hp : ¬ s.waits p k) :
    (s.goto c k (.unlock p)).Inv := by
  apply h.move hs rfl _ (by simp)
  · intro q hq hcov
    have hne : p ≠ q := by
      rintro rfl
      exact hp hq
    exact lt_of_le_of_ne hcov hne
  · intro q hq
    cases hq
    exact (h.sect hs).target rfl

theorem wake (hs : s.sect c = some (k, .wake p)) :
    ((s.setState p .runnable).goto c k (.unlock p)).Inv := by
  have hplock := (h.sect hs).target rfl
  have hnot : ∀ c', s.mode c' = .run p → (s.pc p).owns = false :=
    fun c' => h.not_owns hplock (h.sect_context hs)
  have hparked := h.parked_of_sleeping ((h.sect hs).wake rfl) hnot
  -- back to the test, which covers the same processes
  have hback : (s.goto c k (.test p)).Inv :=
    h.move hs rfl (fun q hq => by cases hq; exact hplock) (by simp) fun _ _ hcov => hcov
  have hs' : (s.goto c k (.test p)).sect c = some (k, .test p) := update_self ..
  have hset : ((s.goto c k (.test p)).setState p .runnable).Inv :=
    hback.setState hparked (hback.not_entered hs' hplock) (by
    intro c' k' hwake
    have hcc : c' = c := Option.mem_unique ((hback.sect hwake).target rfl) hplock
    rw [hcc, hs'] at hwake
    cases hwake) (by simp)
  have hpassed := hset.pass hs' (by
    rintro (hfall | ⟨-, hst⟩)
    · have hnot : (s.pc p).parked = false := (falling_owns hfall).2
      rw [hnot] at hparked
      cases hparked
    · simp [State.setState] at hst)
  rw [← goto_goto _ c k (.test p)]
  exact hpassed

/-- `sleep` acquires `p->lock`. -/
theorem sleepAcquire (hs : s.sect c = some (k, .sleepAcquire p)) (hfree : s.plock p = none) :
    ((s.lock p c).goto c k (.sleepRelease p)).Inv := by
  have hsleeper := (h.sect hs).sleeper rfl
  have hok : SectOk (s.lock p c) c k (.sleepRelease p) := { (h.lock hfree).sect hs with
    target := fun hq => by cases hq; exact update_self ..
    sleeper := fun hq => by cases hq; exact hsleeper
    wake := by simp }
  refine (h.lock hfree).goto hok (fun k' w' hs' => ?_) fun q _ => .inl hsleeper.2.2
  cases hs.symm.trans hs'
  rfl

/-- `sleep` releases the lock of its channel. -/
theorem sleepRelease (hs : s.sect c = some (k, .sleepRelease p)) :
    State.Inv { s.setPc p (.setChan k) with
      lk := update s.lk k none
      sect := update s.sect c none } := by
  obtain ⟨hm, hpc, hcond⟩ := (h.sect hs).sleeper rfl
  have hleft := h.leave hs fun _ _ => hcond
  have hnext := hleft.advance_running hm (update_self ..) (.setChan k) rfl
    (fun _ => (h.sect hs).target rfl) (by simp [Pc.channel])
    (fun k' hk' => .inl (by cases hk'; exact hcond)) (by rw [hpc]; rfl) rfl
  exact hnext.unlockLk (h.sect hs).held (update_self ..)

theorem nextWork (hs : s.sect c = some (k, w)) (ht : s.nextWork c k w = some t) : t.Inv := by
  cases w with
  | free owes => cases ht
  | scan i =>
    simp only [State.nextWork] at ht
    split at ht
    next hi =>
      split at ht
      next hme =>
        cases ht
        apply h.move hs rfl (by simp [Work.target]) (by simp)
        intro p hp hcov
        have hne : i ≠ p := by
          rintro rfl
          exact h.not_waits_myproc hs hme hp
        exact lt_of_le_of_ne hcov hne
      next =>
        obtain ⟨hfree, rfl⟩ := Run.of_guard ht
        refine (h.lock hfree).move hs rfl ?_ (by simp) fun _ _ hcov => hcov
        intro p hp
        cases hp
        exact update_self ..
    next hi =>
      cases ht
      apply h.move hs rfl (by simp [Work.target]) (by simp)
      intro p _ hcov
      exact absurd (lt_of_le_of_lt hcov p.isLt) hi
  | test p =>
    simp only [State.nextWork] at ht
    split at ht
    next hp =>
      cases ht
      refine h.move hs rfl ?_ (fun q hq => by cases hq; exact hp.1) fun _ _ hcov => hcov
      intro q hq
      cases hq
      exact (h.sect hs).target rfl
    next hp =>
      cases ht
      apply h.pass hs
      intro hw
      obtain ⟨hpc, hst⟩ := h.asleep_of_waits hs rfl hw
      exact hp ⟨hst, h.chan_ok (by rw [hpc]; rfl)⟩
  | wake p =>
    cases ht
    exact h.wake hs
  | unlock p =>
    cases ht
    have hplock := (h.sect hs).target rfl
    have hmove : (s.goto c k (.scan (p + 1))).Inv :=
      h.move hs rfl (by simp [Work.target]) (by simp) fun _ _ hcov => hcov
    exact hmove.unlock (hmove.unneeded_of_sect (update_self ..) hplock (by simp [Work.target]))
  | sleepAcquire p =>
    obtain ⟨hfree, rfl⟩ := Run.of_guard ht
    exact h.sleepAcquire hs hfree
  | sleepRelease p =>
    cases ht
    exact h.sleepRelease hs

/-! ### Outside of the sections -/

section

variable (hm : s.mode c = .run p) (hc : s.sect c = none)
include hm hc

/-- A running process that is in no section gives its `p->lock` back. -/
theorem unlock_own (hp : s.plock p = some c) {back : Option ℕ} (hpc : s.pc p = .idle back) :
    (s.unlock p).Inv := by
  apply h.unlock
  constructor
  · intro c' k' w' hs htarget
    have hcc : c' = c := Option.mem_unique ((h.sect hs).target htarget) hp
    rw [hcc, hc] at hs
    cases hs
  · intro c' held hm' hmem
    have hcc : c' = c := Option.mem_unique (h.sched_held hm' hmem) hp
    rw [hcc, hm] at hm'
    cases hm'
  · intro c' hm'
    exact h.run_apart hm hm'
  · intro c' _
    rw [hpc]
    rfl

/-- The process releases `p->lock` as its last statement in the scheduler's hands. -/
theorem finish (howns : (s.pc p).owns = true) (hrunning : (s.pc p).running = .running)
    (back : Option ℕ) : ((s.unlock p).setPc p (.idle back)).Inv := by
  have hplock := h.run_held hm howns
  have hnext := h.advance_running hm hc (.idle back) rfl (by simp [Pc.owns])
    (by simp [Pc.channel]) (by simp [Pc.falling]) hrunning rfl
  exact hnext.unlock_own hm hc hplock (update_self ..)

/-- `sched` switches to the scheduler. -/
theorem park {pc : Pc} (howns : (s.pc p).owns = true) (hparked : pc.parked = true)
    (hchan : pc.channel = none ∨ pc.channel = (s.pc p).channel)
    (hsleeping : s.state p = .sleeping → ∃ k, pc = .asleep k ∧ s.pc p = .sleepSched k) :
    State.Inv { s.setPc p pc with mode := update s.mode c (.sched [p]) } := by
  apply h.switch hc (h.run_held hm howns) (.inl hm) (.inr ⟨rfl, hparked⟩) hchan hsleeping
  cases pc <;> first | rfl | cases hparked

theorem nextPc (ht : s.nextPc c p (s.pc p) = some t) : t.Inv := by
  have hown : (s.pc p).owns = true → s.plock p = some c := h.run_held hm
  have hstate := (h.run_ok hm).1
  cases hpc : s.pc p with
  | setChan k =>
    rw [hpc] at ht hown
    cases ht
    have hset := h.setChan (p := p) (by rw [hpc]; rfl) (some k)
    refine hset.advance_running hm hc (.setState k) rfl (fun _ => hown rfl) ?_ ?_
      (by rw [hpc]; rfl) rfl
    · intro k' hk'
      cases hk'
      exact update_self ..
    · intro k' hk'
      cases hk'
      exact .inr (by rw [hpc]; rfl)
  | setState k =>
    rw [hpc] at ht hown
    cases ht
    apply h.advance hm hc (.sleepSched k) rfl (fun _ => hown rfl)
    · intro k' hk'
      cases hk'
      exact h.chan_ok (by rw [hpc]; rfl)
    · intro k' hk'
      cases hk'
      exact .inr (by rw [hpc]; rfl)
  | sleepSched k =>
    rw [hpc] at ht
    cases ht
    exact h.park hm hc (by rw [hpc]; rfl) rfl (.inr (by rw [hpc]; rfl)) fun _ => ⟨k, rfl, hpc⟩
  | clearChan k =>
    rw [hpc] at ht hown
    cases ht
    have hset := h.setChan (p := p) (by rw [hpc]; rfl) none
    exact hset.advance_running hm hc (.sleepDone k) rfl (fun _ => hown rfl)
      (by simp [Pc.channel]) (by simp [Pc.falling]) (by rw [hpc]; rfl) rfl
  | sleepDone k =>
    rw [hpc] at ht
    cases ht
    exact h.finish hm hc (by rw [hpc]; rfl) (by rw [hpc]; rfl) (some k)
  | yieldState back =>
    rw [hpc] at ht hown
    cases ht
    exact h.advance hm hc (.yieldSched back) rfl (fun _ => hown rfl)
      (by simp [Pc.channel]) (by simp [Pc.falling])
  | yieldSched back =>
    rw [hpc] at ht hstate
    cases ht
    refine h.park hm hc (by rw [hpc]; rfl) rfl (.inl rfl) fun hsleeping => ?_
    rw [hstate] at hsleeping
    cases hsleeping
  | yieldDone back =>
    rw [hpc] at ht
    cases ht
    exact h.finish hm hc (by rw [hpc]; rfl) (by rw [hpc]; rfl) back
  | asleep k | yielded back | idle back =>
    rw [hpc] at ht
    cases ht

end

/-- The scheduler switches to the process it has chosen. -/
theorem enter (hm : s.mode c = .enter p) (hc : s.sect c = none) :
    State.Inv { s.setPc p (s.pc p).resumed with mode := update s.mode c (.run p) } := by
  obtain ⟨hstate, hparked⟩ := h.enter_ok hm
  have hresumed : (s.pc p).resumed.parked = false ∧ (s.pc p).resumed.running = .running ∧
      (s.pc p).resumed.channel = none ∧ (s.pc p).resumed.falling = none := by
    cases hpc : s.pc p <;> rw [hpc] at hparked <;> first | exact ⟨rfl, rfl, rfl, rfl⟩ | cases hparked
  obtain ⟨hparked', hrunning, hchannel, hfalling⟩ := hresumed
  apply h.switch hc (h.enter_held hm) (.inr hm) _ (.inl hchannel) _ hfalling
  · exact .inl ⟨rfl, hparked', hstate.trans hrunning.symm⟩
  · intro hsleeping
    rw [hstate] at hsleeping
    cases hsleeping

/-- The scheduler releases a `p->lock`. -/
theorem drop {held : List Slot} (hm : s.mode c = .sched held) (hc : s.sect c = none) (hp : p ∈ held) :
    State.Inv { s.unlock p with mode := update s.mode c (.sched (held.filter (· ≠ p))) } := by
  have hplock := h.sched_held hm hp
  have hmode := h.setMode (m := .sched (held.filter (· ≠ p))) hm hc (by simp) (by
    intro held' q hheld hq
    cases hheld
    exact h.sched_held hm (List.mem_of_mem_filter hq)) (by simp)
  apply hmode.unlock
  constructor
  · intro c' k w hs htarget
    have hcc : c' = c := Option.mem_unique ((hmode.sect hs).target htarget) hplock
    rw [hcc, hc] at hs
    cases hs
  · intro c' held' hm' hmem
    have hcc : c' = c := Option.mem_unique (hmode.sched_held hm' hmem) hplock
    subst hcc
    simp only [update_self, Mode.sched.injEq] at hm'
    subst hm'
    simp at hmem
  · intro c' hm'
    have hcc : c' = c := Option.mem_unique (hmode.enter_held hm') hplock
    subst hcc
    simp at hm'
  · intro c' hm'
    exact hmode.not_owns hplock (.inl ⟨_, update_self ..⟩) hm'

/-- The scheduler chooses a RUNNABLE process. -/
theorem dispatch (hm : s.mode c = .sched [p]) (hc : s.sect c = none) (hst : s.state p = .runnable) :
    State.Inv { s.setState p .running with mode := update s.mode c (.enter p) } := by
  have hplock := h.sched_held hm (List.mem_singleton.mpr rfl)
  have hparked : (s.pc p).parked = true := by
    by_contra hnot
    obtain ⟨c', hm'⟩ := h.run_exists ((Bool.not_eq_true _).mp hnot)
    have howns := h.not_owns hplock (.inl ⟨_, hm⟩) hm'
    have hstate := (h.run_ok hm').1
    cases hpc : s.pc p <;> simp [hpc, hst, Pc.running, Pc.owns] at hstate howns
  have hset : (s.setState p .running).Inv := h.setState hparked (by
    intro c' hm'
    have hcc : c' = c := Option.mem_unique (h.enter_held hm') hplock
    rw [hcc, hm] at hm'
    cases hm') (by
    intro c' k hs
    have hcc : c' = c := Option.mem_unique ((h.sect hs).target rfl) hplock
    rw [hcc, hc] at hs
    cases hs) (by simp)
  apply hset.setMode hm hc (by simp) (by simp)
  intro q hq
  cases hq
  exact ⟨hplock, update_self .., hparked⟩

/-- `kill` wakes a process up. -/
theorem kill (hfree : s.plock p = none) (hst : s.state p = .sleeping) :
    (s.setState p .runnable).Inv := by
  have hparked := h.parked_of_sleeping hst fun c hm => by
    by_contra howns
    have hheld := h.run_held hm ((Bool.not_eq_false _).mp howns)
    rw [hfree] at hheld
    cases hheld
  apply h.setState hparked
  · intro c hm
    have hheld := h.enter_held hm
    rw [hfree] at hheld
    cases hheld
  · intro c k hs
    have hheld := (h.sect hs).target rfl
    rw [hfree] at hheld
    cases hheld
  · simp

/-! ### The steps -/

/-- The lock of a channel is acquired by a CPU without locks. -/
theorem acquire (hfree : s.lk k = none) (hc : s.sect c = none)
    (hctx : s.mode c = .sched [] ∨ ∃ p back, s.mode c = .run p ∧ s.pc p = .idle back) :
    State.Inv { s.goto c k (.free false) with lk := update s.lk k (some c) } := by
  have hlocked := h.lockLk (c := c) hfree
  refine hlocked.goto ⟨update_self .., nofun, nofun, nofun, hctx⟩ (fun k' w hs => ?_) fun p hp =>
    .inl (h.cond_of_no_sect (c := c) (.inr hfree) (by simp [hc]) hp)
  cases hc.symm.trans hs

/-- The condition changes. -/
theorem change {owes : Bool} (hs : s.sect c = some (k, .free owes)) (b : Bool) :
    State.Inv { s.goto c k (.free b) with cond := update s.cond k b } := by
  have hall : (s.goto c k (.free true)).Inv :=
    h.move hs rfl (by simp [Work.target]) (by simp) fun _ _ _ => rfl
  have hs' : (s.goto c k (.free true)).sect c = some (k, .free true) := update_self ..
  have hset := hall.setCond hs' rfl (b := b) fun _ _ => rfl
  have hmove : (State.goto { s.goto c k (.free true) with cond := update s.cond k b } c k
      (.free b)).Inv := hset.goto { hset.sect hs' with target := nofun, sleeper := nofun, wake := nofun }
    (fun k' w' hw => by cases hs'.symm.trans hw; rfl) (by
      intro p _
      cases b with
      | false => exact .inl (update_self ..)
      | true => exact .inr rfl)
  rw [← goto_goto _ c k (.free true)]
  exact hmove

/-- **Every step of every CPU keeps the invariant.** -/
theorem step {a : Action} (ht : exec s c a = some t) : t.Inv := by
  cases a with
  | acquire k =>
    obtain ⟨hc, rfl⟩ := Run.of_guard ht
    obtain ⟨hsect, hctx⟩ := interruptible_iff.mp hc.1
    exact h.acquire hc.2 hsect hctx
  | reacquire =>
    simp only [exec] at ht
    split at ht
    next p hs hm =>
      split at ht
      next k hpc =>
        obtain ⟨hfree, rfl⟩ := Run.of_guard ht
        have hnext := h.advance_running hm hs (.idle none) rfl (by simp [Pc.owns])
          (by simp [Pc.channel]) (by simp [Pc.falling]) (by rw [hpc]; rfl) rfl
        exact hnext.acquire hfree hs (.inr ⟨p, none, hm, update_self ..⟩)
      next => cases ht
    next => cases ht
  | change b =>
    simp only [exec] at ht
    split at ht
    next k owes hs =>
      cases ht
      exact h.change hs b
    next => cases ht
  | test =>
    simp only [exec] at ht
    split at ht
    next k p hs hm =>
      obtain ⟨hpc, rfl⟩ := Run.of_guard ht
      split
      next => exact h
      next hcond =>
        have hcond : s.cond k = false := (Bool.not_eq_true _).mp hcond
        have hok : SectOk s c k (.sleepAcquire p) := { h.sect hs with
          target := fun hq => by cases hq
          sleeper := fun hq => by cases hq; exact ⟨hm, hpc, hcond⟩
          wake := fun hq => by cases hq }
        refine h.goto hok (fun k' w' hs' => ?_) fun q _ => .inl hcond
        cases hs.symm.trans hs'
        rfl
    next => cases ht
  | wakeup =>
    simp only [exec] at ht
    split at ht
    next k owes hs =>
      cases ht
      exact h.move hs rfl (by simp [Work.target]) (by simp) fun _ _ _ => Nat.zero_le _
    next => cases ht
  | release =>
    simp only [exec] at ht
    split at ht
    next k hs =>
      cases ht
      have hleft := h.leave hs fun p hp => by
        rcases h.covered_by hs hp with hcond | hcov
        · exact hcond
        · cases hcov
      exact hleft.unlockLk (h.sect hs).held (update_self ..)
    next => cases ht
  | next =>
    simp only [exec] at ht
    split at ht
    next k w hs => exact h.nextWork hs ht
    next p hs hm => exact h.nextPc hm hs ht
    next p hs hm =>
      cases ht
      exact h.enter hm hs
    next => cases ht
  | yield =>
    simp only [exec] at ht
    split at ht
    next p hs hm =>
      split at ht
      next back hpc =>
        obtain ⟨hfree, rfl⟩ := Run.of_guard ht
        exact (h.lock hfree).advance_running hm hs (.yieldState back) rfl
          (fun _ => update_self ..) (by simp [Pc.channel]) (by simp [Pc.falling])
          (by rw [show (s.lock p c).pc p = .idle back from hpc]; rfl) rfl
      next => cases ht
    next => cases ht
  | look p =>
    simp only [exec] at ht
    split at ht
    next held hs hm =>
      obtain ⟨hfree, rfl⟩ := Run.of_guard ht
      have hlocked := h.lock (c := c) hfree
      refine hlocked.setMode hm hs (by simp) ?_ (by simp)
      intro held' q hheld hq
      cases hheld
      rcases List.mem_cons.mp hq with rfl | hq
      · exact update_self ..
      · exact hlocked.sched_held hm hq
    next => cases ht
  | drop p =>
    simp only [exec] at ht
    split at ht
    next held hs hm =>
      obtain ⟨hp, rfl⟩ := Run.of_guard ht
      exact h.drop hm hs hp
    next => cases ht
  | dispatch p =>
    simp only [exec] at ht
    split at ht
    next held hs hm =>
      obtain ⟨hp, rfl⟩ := Run.of_guard ht
      rw [hp.1] at hm
      exact h.dispatch hm hs hp.2
    next => cases ht
  | kill p =>
    obtain ⟨hc, rfl⟩ := Run.of_guard ht
    split
    next hst => exact h.kill hc.2 hst
    next => exact h

/-- While the lock is free and the condition holds, nobody sleeps on the channel. -/
theorem not_sleeping (hlk : s.lk k = none) (hcond : s.cond k = true) :
    ¬ (s.state p = .sleeping ∧ s.chan p = some k) := by
  rintro ⟨hsleeping, hchan⟩
  have hwaits : s.waits p k := by
    obtain ⟨k', hpc | hpc⟩ := h.sleeping_ok hsleeping
    · have hk := h.chan_ok (p := p) (k := k') (by rw [hpc]; rfl)
      rw [hchan] at hk
      cases hk
      exact .inl (by rw [hpc]; rfl)
    · have hk := h.chan_ok (p := p) (k := k') (by rw [hpc]; rfl)
      rw [hchan] at hk
      cases hk
      exact .inr ⟨hpc, hsleeping⟩
  have hfalse := h.cond_of_no_sect (c := 0) (.inr hlk) (by
    intro w hsect
    have hheld := (h.sect hsect).held
    rw [hlk] at hheld
    cases hheld) hwaits
  rw [hcond] at hfalse
  cases hfalse

end

end State.Inv

/-- The system's step function; a step is labelled with its CPU. -/
def sysExec (s : State) (l : ℕ × Action) : Option State := exec s l.1 l.2

/-- **No lost wakeups.** For any number of CPUs, processes, interrupt handlers and
channels, in any interleaving of the single steps of `sleep`, `wakeup`, `yield`, `kill` and
the scheduler: while the lock of a channel is free and its condition holds, no process is
SLEEPING on the channel. -/
theorem no_lost_wakeup (s : State) (hs : Run.Reachable Init (Run.relOf sysExec) s) (k : ℕ)
    (hlk : s.lk k = none) (hcond : s.cond k = true) (p : Slot) :
    ¬ (s.state p = .sleeping ∧ s.chan p = some k) := by
  have hinv : s.Inv :=
    hs.invariant State.Inv (fun _ => State.Inv.init) fun _ _ _ h _ hstep => h.step hstep
  exact hinv.not_sleeping hlk hcond

/-- All processes are RUNNABLE, and no condition holds. -/
def booted : State where
  lk _ := none
  cond _ := false
  plock _ := none
  state _ := .runnable
  chan _ := none
  pc _ := .yielded none
  mode _ := .sched []
  sect _ := none

theorem booted_init : Init booted :=
  ⟨fun _ => rfl, fun _ => rfl, fun _ => .inr rfl, fun _ => rfl, fun _ => rfl, fun _ => rfl⟩

/-- The process in slot 0. -/
def sleeper : Slot := ⟨0, by decide⟩

/-- The process in slot 1. -/
def waker : Slot := ⟨1, by decide⟩

/-- A CPU runs the one process until it sleeps on channel 0. -/
def sleeps : List Action :=
  [.look sleeper, .dispatch sleeper, .next, .next, .acquire 0, .test, .next, .next, .next, .next,
    .next, .drop sleeper]

/-- A CPU runs the other, which makes the condition true and wakes the sleepers. -/
def wakes : List Action :=
  [.look waker, .dispatch waker, .next, .next, .acquire 0, .change true, .wakeup] ++
    List.replicate 192 .next ++ [.release]

/-- The sleeper is still in `sleep`, but RUNNABLE. -/
theorem no_lost_wakeup_one : ∃ s : State, s.pc sleeper = .asleep 0 ∧ s.lk 0 = none ∧
    s.cond 0 = true ∧ ¬ (s.state sleeper = .sleeping ∧ s.chan sleeper = some 0) := by
  obtain ⟨s, hreach, hpc, hlk, hcond⟩ : ∃ s, Run.Reachable Init (Run.relOf sysExec) s ∧
      s.pc sleeper = .asleep 0 ∧ s.lk 0 = none ∧ s.cond 0 = true :=
    Run.exists_reachable (sleeps.map (Prod.mk 0) ++ wakes.map (Prod.mk 1)) booted_init
      (by decide +kernel)
  exact ⟨s, hpc, hlk, hcond, no_lost_wakeup s hreach 0 hlk hcond sleeper⟩

end Xv6.Sleep
