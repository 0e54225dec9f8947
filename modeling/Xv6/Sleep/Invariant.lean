import Xv6.Sleep.Model

/-!
The invariant behind `sleep` and `wakeup`.

A process that tested the condition as false waits from the moment `sleep` has released
`lk` (`State.waits`): it holds `p->lock` until it is SLEEPING, so a `wakeup` that comes
later finds it asleep. Whenever a condition holds while a process waits for it, the CPU
that holds `lk` has yet to pass that process in the table (`Work.covers`).

The other fields of `State.Inv` say which locks each CPU holds, and that only the CPU
that runs a process, or holds its `p->lock`, changes its state. Each assignment of the
model keeps the invariant on its own, under the lemma named after it.
-/


namespace Xv6.Sleep

open Function (update update_self update_of_ne)

/-- The slot whose `p->lock` the section holds. -/
def Work.target : Work → Option Slot
  | .test p | .wake p | .unlock p | .sleepRelease p => some p
  | _ => none

/-- The process that calls `sleep` in the section. -/
def Work.sleeper : Work → Option Slot
  | .sleepAcquire p | .sleepRelease p => some p
  | _ => none

/-- Process `p` will still be woken before the section ends. -/
def Work.covers (w : Work) (p : Slot) : Prop :=
  match w with
  | .free owes => owes = true
  | .scan i => i ≤ p
  | .test q | .wake q => q ≤ p
  | .unlock q => q < p
  | .sleepAcquire _ | .sleepRelease _ => False

namespace Pc

/-- The running process holds its own `p->lock`. -/
def owns : Pc → Bool
  | .asleep _ | .yielded _ | .idle _ => false
  | _ => true

/-- The process is switched out. -/
def parked : Pc → Bool
  | .asleep _ | .yielded _ => true
  | _ => false

/-- `p->state` of a process that a CPU runs. -/
def running : Pc → ProcState
  | .sleepSched _ => .sleeping
  | .yieldSched _ => .runnable
  | _ => .running

/-- What `p->chan` holds. -/
def channel : Pc → Option ℕ
  | .setState k | .sleepSched k | .asleep k => some k
  | _ => none

/-- The channel whose lock `sleep` has released, on the way to the scheduler. -/
def falling : Pc → Option ℕ
  | .setChan k | .setState k | .sleepSched k => some k
  | _ => none

end Pc

/-- Process `p` has tested the condition of `k` as false, has released the lock, and is
SLEEPING or about to be. -/
def State.waits (s : State) (p : Slot) (k : ℕ) : Prop :=
  (s.pc p).falling = some k ∨ s.pc p = .asleep k ∧ s.state p = .sleeping

/-- CPU `c` may be at `w` in a section of `k`. -/
structure SectOk (s : State) (c k : ℕ) (w : Work) : Prop where
  held : s.lk k = some c
  target : ∀ {p}, w.target = some p → s.plock p = some c
  sleeper : ∀ {p}, w.sleeper = some p →
    s.mode c = .run p ∧ s.pc p = .idle none ∧ s.cond k = false
  wake : ∀ {p}, w = .wake p → s.state p = .sleeping
  ctx : s.mode c = .sched [] ∨ ∃ p back, s.mode c = .run p ∧ s.pc p = .idle back

structure State.Inv (s : State) : Prop where
  sect : ∀ {c k w}, s.sect c = some (k, w) → SectOk s c k w
  sched_held : ∀ {c held p}, s.mode c = .sched held → p ∈ held → s.plock p = some c
  enter_held : ∀ {c p}, s.mode c = .enter p → s.plock p = some c
  enter_ok : ∀ {c p}, s.mode c = .enter p → s.state p = .running ∧ (s.pc p).parked = true
  run_held : ∀ {c p}, s.mode c = .run p → (s.pc p).owns = true → s.plock p = some c
  run_ok : ∀ {c p}, s.mode c = .run p →
    s.state p = (s.pc p).running ∧ (s.pc p).parked = false
  run_unique : ∀ {c c' p}, s.mode c = .run p → s.mode c' = .run p → c' = c
  run_exists : ∀ {p}, (s.pc p).parked = false → ∃ c, s.mode c = .run p
  chan_ok : ∀ {p k}, (s.pc p).channel = some k → s.chan p = some k
  sleeping_ok : ∀ {p}, s.state p = .sleeping → ∃ k, s.pc p = .sleepSched k ∨ s.pc p = .asleep k
  covered : ∀ {p k}, s.waits p k →
    s.cond k = false ∨ ∃ c w, s.sect c = some (k, w) ∧ w.covers p

namespace State.Inv

variable {s : State} {c k : ℕ} {p : Slot} {w w' : Work}

theorem init (h : Init s) : s.Inv := by
  obtain ⟨hlk, hplock, hstate, hpc, hmode, hsect⟩ := h
  constructor <;> intros <;> simp_all [Pc.parked, Pc.channel, State.waits, Pc.falling]
  next p hp => rcases hstate p with h | h <;> rw [hp] at h <;> cases h

/-! ### Locks -/

/-- A free `p->lock` is acquired. -/
theorem lock (h : s.Inv) (hfree : s.plock p = none) : (s.lock p c).Inv := by
  have hkeep : ∀ {q c'}, s.plock q = some c' → (s.lock p c).plock q = some c' := by
    intro q c' hq
    have hne : q ≠ p := by
      rintro rfl
      rw [hfree] at hq
      cases hq
    simp [State.lock, update_of_ne hne, hq]
  exact { h with
    sect := fun hs => { h.sect hs with target := fun hw => hkeep ((h.sect hs).target hw) }
    sched_held := fun hm hp => hkeep (h.sched_held hm hp)
    enter_held := fun hm => hkeep (h.enter_held hm)
    run_held := fun hm ho => hkeep (h.run_held hm ho) }

/-- No CPU needs `p->lock` any more, so that it may be released. -/
structure Unneeded (s : State) (p : Slot) : Prop where
  target : ∀ {c k w}, s.sect c = some (k, w) → w.target ≠ some p
  sched : ∀ {c held}, s.mode c = .sched held → p ∉ held
  enter : ∀ {c}, s.mode c ≠ .enter p
  run : ∀ {c}, s.mode c = .run p → (s.pc p).owns = false

section

variable (h : s.Inv)
include h

theorem unlock (hp : Unneeded s p) : (s.unlock p).Inv := by
  have hkeep : ∀ {q c'}, q ≠ p → s.plock q = some c' → (s.unlock p).plock q = some c' := by
    intro q c' hne hq
    simp [State.unlock, update_of_ne hne, hq]
  exact { h with
    sect := fun hs => { h.sect hs with
      target := fun hw => hkeep (by rintro rfl; exact hp.target hs hw) ((h.sect hs).target hw) }
    sched_held := fun hm hq => hkeep (by rintro rfl; exact hp.sched hm hq) (h.sched_held hm hq)
    enter_held := fun hm => hkeep (by rintro rfl; exact hp.enter hm) (h.enter_held hm)
    run_held := fun hm ho =>
      hkeep (by rintro rfl; cases (hp.run hm).symm.trans ho) (h.run_held hm ho) }

/-- The lock of a channel is acquired. -/
theorem lockLk (hfree : s.lk k = none) : State.Inv { s with lk := update s.lk k (some c) } := by
  refine { h with sect := fun {c' k' w} hs => { h.sect hs with held := ?_ } }
  have hne : k' ≠ k := by
    rintro rfl
    rw [(h.sect hs).held] at hfree
    cases hfree
  simpa [update_of_ne hne] using (h.sect hs).held

/-- The lock of a channel is released by a CPU that is in no section any more. -/
theorem unlockLk (hk : s.lk k = some c) (hc : s.sect c = none) :
    State.Inv { s with lk := update s.lk k none } := by
  refine { h with sect := fun {c' k' w} hs => { h.sect hs with held := ?_ } }
  have hne : k' ≠ k := by
    rintro rfl
    have hcc : c' = c := Option.mem_unique (h.sect hs).held hk
    rw [hcc, hc] at hs
    cases hs
  simpa [update_of_ne hne] using (h.sect hs).held

/-! ### Sections -/

/-- Only the CPU that holds the lock is in a section of it. -/
theorem sect_unique (hk : s.lk k = some c) {c' : ℕ} (hs : s.sect c' = some (k, w)) : c' = c :=
  Option.mem_unique (h.sect hs).held hk

/-- Whoever waits for a condition that holds is woken by the CPU in the section. -/
theorem covered_by (hs : s.sect c = some (k, w)) (hp : s.waits p k) :
    s.cond k = false ∨ w.covers p := by
  rcases h.covered hp with hcond | ⟨c', w', hs', hcov⟩
  · exact .inl hcond
  · have hcc := h.sect_unique (h.sect hs).held hs'
    rw [hcc, hs] at hs'
    cases hs'
    exact .inr hcov

theorem cond_of_no_sect (hk : s.lk k = some c ∨ s.lk k = none) (hs : ∀ w, s.sect c ≠ some (k, w))
    (hp : s.waits p k) : s.cond k = false := by
  rcases h.covered hp with hcond | ⟨c', w', hs', -⟩
  · exact hcond
  · have hlk := (h.sect hs').held
    rcases hk with hk | hk
    · have hcc := h.sect_unique hk hs'
      rw [hcc] at hs'
      exact absurd hs' (hs w')
    · rw [hk] at hlk
      cases hlk

/-- A CPU that holds the lock moves in its section, or enters it. -/
theorem goto (hok : SectOk s c k w') (hold : ∀ k' w, s.sect c = some (k', w) → k' = k)
    (hcov : ∀ p, s.waits p k → s.cond k = false ∨ w'.covers p) : (s.goto c k w').Inv := by
  refine { h with sect := ?_, covered := ?_ }
  · intro c' k' w hs
    by_cases hc : c' = c
    · subst hc
      simp only [State.goto, update_self, Option.some.injEq, Prod.mk.injEq] at hs
      obtain ⟨rfl, rfl⟩ := hs
      exact { hok with }
    · exact { h.sect ((update_of_ne hc ..).symm.trans hs) with }
  · intro p k' hp
    by_cases hkk : k' = k
    · subst hkk
      rcases hcov p hp with hcond | hcov
      · exact .inl hcond
      · exact .inr ⟨c, w', by simp [State.goto], hcov⟩
    · rcases h.covered hp with hcond | ⟨c', w, hs, hw⟩
      · exact .inl hcond
      · have hcc : c' ≠ c := by
          rintro rfl
          exact hkk (hold k' w hs)
        exact .inr ⟨c', w, by simpa [State.goto, update_of_ne hcc] using hs, hw⟩

variable (hs : s.sect c = some (k, w))
include hs

/-- A CPU moves in its section without calling `sleep`. -/
theorem move (hsleeper : w'.sleeper = none)
    (htarget : ∀ p, w'.target = some p → s.plock p = some c)
    (hwake : ∀ p, w' = .wake p → s.state p = .sleeping)
    (hcov : ∀ p, s.waits p k → w.covers p → w'.covers p) : (s.goto c k w').Inv := by
  have hok : SectOk s c k w' := { h.sect hs with
    target := fun hp => htarget _ hp
    sleeper := fun hp => nomatch hsleeper.symm.trans hp
    wake := fun hp => hwake _ hp }
  refine h.goto hok (fun k' w'' hs' => ?_) fun p hp => (h.covered_by hs hp).imp_right (hcov p hp)
  cases hs.symm.trans hs'
  rfl

/-- A CPU leaves its section. -/
theorem leave (hcov : ∀ p, s.waits p k → s.cond k = false) :
    State.Inv { s with sect := update s.sect c none } := by
  have hcases : ∀ {c' k' w}, update s.sect c none c' = some (k', w) → s.sect c' = some (k', w) :=
    fun hs => (of_update id hs rfl).2
  refine { h with
    sect := fun hs => { h.sect (hcases hs) with }
    covered := ?_ }
  intro p k' hp
  rcases h.covered hp with hcond | ⟨c', w', hs', hw⟩
  · exact .inl hcond
  · by_cases hc : c' = c
    · subst hc
      rw [hs] at hs'
      cases hs'
      exact .inl (hcov p hp)
    · exact .inr ⟨c', w', by simpa [update_of_ne hc] using hs', hw⟩

/-- The condition changes in a section that is going to wake everybody, or becomes false. -/
theorem setCond (hsleeper : w.sleeper = none) {b : Bool}
    (hcov : b = true → ∀ p, w.covers p) : State.Inv { s with cond := update s.cond k b } := by
  refine { h with sect := fun {c' k' w'} hs' => { h.sect hs' with sleeper := ?_ }, covered := ?_ }
  · intro p hw
    obtain ⟨hmode, hpc, hcond⟩ := (h.sect hs').sleeper hw
    refine ⟨hmode, hpc, ?_⟩
    have hne : k' ≠ k := by
      rintro rfl
      have hcc := h.sect_unique (h.sect hs).held hs'
      rw [hcc, hs] at hs'
      cases hs'
      rw [hsleeper] at hw
      cases hw
    simpa [update_of_ne hne] using hcond
  · intro p k' hp
    by_cases hkk : k' = k
    · subst hkk
      cases b with
      | false => exact .inl (update_self ..)
      | true => exact .inr ⟨c, w, hs, hcov rfl p⟩
    · simpa [update_of_ne hkk] using h.covered hp

end

/-! ### Processes -/

theorem running_eq_sleeping (pc : Pc) (h : pc.running = .sleeping) : ∃ k, pc = .sleepSched k := by
  cases pc with
  | sleepSched k => exact ⟨k, rfl⟩
  | _ => cases h

/-- A process that a CPU runs is on no other, in no section of another, and not chosen by
a scheduler. -/
theorem run_apart (h : s.Inv) (hm : s.mode c = .run p) {c' : ℕ} (hm' : s.mode c' = .enter p) :
    False := by
  have hparked := (h.enter_ok hm').2
  rw [(h.run_ok hm).2] at hparked
  cases hparked

/-- A process on its way to the scheduler holds its `p->lock`, so that the CPU that holds
the lock is the one that runs it. -/
theorem run_of_sleeping (h : s.Inv) (hst : s.state p = .sleeping) {c' : ℕ}
    (hm : s.mode c = .run p) (hp : s.plock p = some c') : c' = c := by
  have howns : (s.pc p).owns = true := by
    obtain ⟨k, hk | hk⟩ := h.sleeping_ok hst
    · rw [hk]
      rfl
    · have hparked := (h.run_ok hm).2
      rw [hk] at hparked
      cases hparked
  exact Option.mem_unique hp (h.run_held hm howns)

section

variable (h : s.Inv) (hm : s.mode c = .run p) (hc : s.sect c = none) (pc : Pc)
  (hparked : pc.parked = false) (howns : pc.owns = true → s.plock p = some c)
  (hchan : ∀ k, pc.channel = some k → s.chan p = some k)
  (hcov : ∀ k, pc.falling = some k → s.cond k = false ∨ (s.pc p).falling = some k)
include h hm hc pc hparked howns hchan hcov

/-- The running process moves on, outside of the sections, and is not switched out. -/
theorem advance :
    State.Inv { s with state := update s.state p pc.running, pc := update s.pc p pc } := by
  -- a CPU in a section runs another process
  have hother : ∀ {c' k w q}, s.sect c' = some (k, w) → s.mode c' = .run q → q ≠ p := by
    rintro c' k w q hs hm' rfl
    rw [h.run_unique hm hm', hc] at hs
    cases hs
  refine { h with sect := fun {c' k w} hs => { h.sect hs with sleeper := ?_, wake := ?_, ctx := ?_ }
                  enter_ok := ?_, run_held := ?_, run_ok := ?_, run_exists := ?_, chan_ok := ?_
                  sleeping_ok := ?_, covered := ?_ }
  · intro q hw
    obtain ⟨hmode, hpc, hcond⟩ := (h.sect hs).sleeper hw
    exact ⟨hmode, by simpa [update_of_ne (hother hs hmode)] using hpc, hcond⟩
  · rintro q rfl
    have hsleeping := (h.sect hs).wake rfl
    have hne : q ≠ p := by
      rintro rfl
      have hcc := h.run_of_sleeping hsleeping hm ((h.sect hs).target rfl)
      rw [hcc, hc] at hs
      cases hs
    simpa [update_of_ne hne] using hsleeping
  · rcases (h.sect hs).ctx with hsched | ⟨q, back, hmode, hpc⟩
    · exact .inl hsched
    · exact .inr ⟨q, back, hmode, by simpa [update_of_ne (hother hs hmode)] using hpc⟩
  · intro c' q hm'
    have hne : q ≠ p := by
      rintro rfl
      exact h.run_apart hm hm'
    simpa [update_of_ne hne] using h.enter_ok hm'
  · intro c' q hm' ho
    by_cases hq : q = p
    · subst hq
      rw [h.run_unique hm hm']
      exact howns (by simpa using ho)
    · exact h.run_held hm' (by simpa [update_of_ne hq] using ho)
  · intro c' q hm'
    by_cases hq : q = p
    · subst hq
      simpa using hparked
    · simpa [update_of_ne hq] using h.run_ok hm'
  · intro q hq
    by_cases hqp : q = p
    · exact ⟨c, hqp ▸ hm⟩
    · exact h.run_exists (by simpa [update_of_ne hqp] using hq)
  · intro q k hq
    by_cases hqp : q = p
    · subst hqp
      exact hchan k (by simpa using hq)
    · exact h.chan_ok (by simpa [update_of_ne hqp] using hq)
  · intro q hq
    by_cases hqp : q = p
    · subst hqp
      obtain ⟨k, hk⟩ := running_eq_sleeping pc (by simpa using hq)
      exact ⟨k, .inl (by simp [hk])⟩
    · simpa [update_of_ne hqp] using h.sleeping_ok (p := q) (by simpa [update_of_ne hqp] using hq)
  · intro q k hq
    by_cases hqp : q = p
    · subst hqp
      rcases hq with hfall | ⟨hasleep, -⟩
      · rcases hcov k (by simpa using hfall) with hcond | hfall
        · exact .inl hcond
        · exact h.covered (.inl hfall)
      · simp only [update_self] at hasleep
        rw [hasleep] at hparked
        cases hparked
    · exact h.covered (by simpa [State.waits, update_of_ne hqp] using hq)

/-- The same when its state stays RUNNING. -/
theorem advance_running (hold : (s.pc p).running = .running) (hnew : pc.running = .running) :
    (s.setPc p pc).Inv := by
  have hstate : s.state p = .running := (h.run_ok hm).1.trans hold
  have hadv := h.advance hm hc pc hparked howns hchan hcov
  rw [hnew, ← hstate, Function.update_eq_self] at hadv
  exact hadv

end

/-- `p->chan` is set before it is of use. -/
theorem setChan (h : s.Inv) (hp : (s.pc p).channel = none) (ch : Option ℕ) :
    State.Inv { s with chan := update s.chan p ch } := by
  refine { h with sect := fun hs => { h.sect hs with }, chan_ok := ?_ }
  intro q k hq
  have hne : q ≠ p := by
    rintro rfl
    rw [hp] at hq
    cases hq
  simpa [update_of_ne hne] using h.chan_ok hq

/-- The state of a process that is switched out changes, to one other than SLEEPING. -/
theorem setState (h : s.Inv) (hparked : (s.pc p).parked = true)
    (henter : ∀ c, s.mode c ≠ .enter p) (hwake : ∀ c k, s.sect c ≠ some (k, .wake p))
    {st : ProcState} (hst : st ≠ .sleeping) : (s.setState p st).Inv := by
  refine { h with sect := fun {c k w} hs => { h.sect hs with wake := ?_ }, enter_ok := ?_
                  run_ok := ?_, sleeping_ok := ?_, covered := ?_ }
  · rintro q rfl
    have hne : q ≠ p := by
      rintro rfl
      exact hwake c k hs
    simpa [State.setState, update_of_ne hne] using (h.sect hs).wake rfl
  · intro c q hm
    have hne : q ≠ p := by
      rintro rfl
      exact henter c hm
    simpa [State.setState, update_of_ne hne] using h.enter_ok hm
  · intro c q hm
    have hne : q ≠ p := by
      rintro rfl
      rw [(h.run_ok hm).2] at hparked
      cases hparked
    simpa [State.setState, update_of_ne hne] using h.run_ok hm
  · intro q hq
    by_cases hqp : q = p
    · subst hqp
      exact absurd (by simpa [State.setState] using hq) hst
    · exact h.sleeping_ok (by simpa [State.setState, update_of_ne hqp] using hq)
  · intro q k hq
    by_cases hqp : q = p
    · subst hqp
      rcases hq with hfall | ⟨-, hsleeping⟩
      · exact h.covered (.inl hfall)
      · exact absurd (by simpa [State.setState] using hsleeping) hst
    · exact h.covered (by simpa [State.waits, State.setState, update_of_ne hqp] using hq)

/-! ### The scheduler -/

/-- The scheduler takes or drops `p->lock`s, or chooses a process. -/
theorem setMode (h : s.Inv) {held : List Slot} {m : Mode} (hm : s.mode c = .sched held)
    (hc : s.sect c = none) (hrun : ∀ p, m ≠ .run p)
    (hheld : ∀ held p, m = .sched held → p ∈ held → s.plock p = some c)
    (henter : ∀ p, m = .enter p →
      s.plock p = some c ∧ s.state p = .running ∧ (s.pc p).parked = true) :
    State.Inv { s with mode := update s.mode c m } := by
  have hcases : ∀ {c' m'}, update s.mode c m c' = m' → c' = c ∧ m = m' ∨ s.mode c' = m' := by
    intro c' m' hm'
    by_cases hcc : c' = c
    · subst hcc
      exact .inl ⟨rfl, by simpa using hm'⟩
    · exact .inr (by simpa [update_of_ne hcc] using hm')
  have hrun : ∀ {c' p}, update s.mode c m c' = .run p ↔ s.mode c' = .run p := by
    intro c' p
    by_cases hcc : c' = c
    · subst hcc
      simp [hrun, hm]
    · simp [update_of_ne hcc]
  have hsect : ∀ {c' k w}, s.sect c' = some (k, w) → update s.mode c m c' = s.mode c' := by
    intro c' k w hs
    apply update_of_ne
    rintro rfl
    rw [hc] at hs
    cases hs
  refine { h with sect := fun {c' k w} hs => { h.sect hs with sleeper := ?_, ctx := ?_ }
                  sched_held := ?_, enter_held := ?_, enter_ok := ?_, run_held := ?_, run_ok := ?_
                  run_unique := ?_, run_exists := ?_ }
  · dsimp only
    rw [hsect hs]
    exact (h.sect hs).sleeper
  · dsimp only
    rw [hsect hs]
    exact (h.sect hs).ctx
  · intro c' held' p hm' hp
    rcases hcases hm' with ⟨rfl, hnew⟩ | hm'
    · exact hheld held' p hnew hp
    · exact h.sched_held hm' hp
  · intro c' p hm'
    rcases hcases hm' with ⟨rfl, hnew⟩ | hm'
    · exact (henter p hnew).1
    · exact h.enter_held hm'
  · intro c' p hm'
    rcases hcases hm' with ⟨rfl, hnew⟩ | hm'
    · exact (henter p hnew).2
    · exact h.enter_ok hm'
  · exact fun hm' => h.run_held (hrun.mp hm')
  · exact fun hm' => h.run_ok (hrun.mp hm')
  · exact fun h₁ h₂ => h.run_unique (hrun.mp h₁) (hrun.mp h₂)
  · intro p hp
    obtain ⟨c', hm'⟩ := h.run_exists hp
    exact ⟨c', hrun.mpr hm'⟩

/-- What the two sides of a switch between scheduler and process have in common. -/
theorem switch (h : s.Inv) (hc : s.sect c = none) {m : Mode} {pc : Pc}
    (hplock : s.plock p = some c) (hm : s.mode c = .run p ∨ s.mode c = .enter p)
    (hnew : m = .run p ∧ pc.parked = false ∧ s.state p = pc.running ∨
      m = .sched [p] ∧ pc.parked = true)
    (hchan : pc.channel = none ∨ pc.channel = (s.pc p).channel)
    (hsleeping : s.state p = .sleeping → ∃ k, pc = .asleep k ∧ s.pc p = .sleepSched k)
    (hfalling : pc.falling = none) :
    State.Inv { s with pc := update s.pc p pc, mode := update s.mode c m } := by
  -- no other CPU runs or has chosen the process
  have hrun : ∀ {c' q}, c' ≠ c → s.mode c' = .run q → q ≠ p := by
    rintro c' q hcc hm' rfl
    rcases hm with hm | hm
    · exact hcc (h.run_unique hm hm')
    · exact h.run_apart hm' hm
  have henter : ∀ {c' q}, c' ≠ c → s.mode c' = .enter q → q ≠ p := by
    rintro c' q hcc hm' rfl
    exact hcc (Option.mem_unique (h.enter_held hm') hplock)
  have hsect : ∀ {c' k w}, s.sect c' = some (k, w) → c' ≠ c := by
    rintro c' k w hs rfl
    rw [hc] at hs
    cases hs
  -- who runs or has chosen a process afterwards: this CPU runs `p`, the others what they did
  have hrun' : ∀ {c' q}, update s.mode c m c' = .run q →
      c' = c ∧ q = p ∧ s.state p = pc.running ∧ pc.parked = false ∨ s.mode c' = .run q ∧ q ≠ p := by
    intro c' q hm'
    by_cases hcc : c' = c
    · rw [hcc, update_self] at hm'
      rcases hnew with ⟨rfl, hparked, hstate⟩ | ⟨rfl, -⟩
      · cases hm'
        exact .inl ⟨hcc, rfl, hstate, hparked⟩
      · cases hm'
    · rw [update_of_ne hcc] at hm'
      exact .inr ⟨hm', hrun hcc hm'⟩
  have henter' : ∀ {c' q}, update s.mode c m c' = .enter q → s.mode c' = .enter q ∧ q ≠ p := by
    intro c' q hm'
    by_cases hcc : c' = c
    · rw [hcc, update_self] at hm'
      rcases hnew with ⟨rfl, -⟩ | ⟨rfl, -⟩ <;> cases hm'
    · rw [update_of_ne hcc] at hm'
      exact ⟨hm', henter hcc hm'⟩
  refine { h with sect := fun {c' k w} hs => { h.sect hs with sleeper := ?_, ctx := ?_ }
                  sched_held := ?_, enter_held := fun hm' => h.enter_held (henter' hm').1,
                  enter_ok := ?_, run_held := ?_, run_ok := ?_, run_unique := ?_, run_exists := ?_,
                  chan_ok := ?_, sleeping_ok := ?_, covered := ?_ }
  · intro q hw
    have hcc := hsect hs
    obtain ⟨hmode, hpc, hcond⟩ := (h.sect hs).sleeper hw
    simp only [update_of_ne hcc, update_of_ne (hrun hcc hmode)]
    exact ⟨hmode, hpc, hcond⟩
  · have hcc := hsect hs
    simp only [update_of_ne hcc]
    rcases (h.sect hs).ctx with hsched | ⟨q, back, hmode, hpc⟩
    · exact .inl hsched
    · exact .inr ⟨q, back, hmode, by simpa [update_of_ne (hrun hcc hmode)] using hpc⟩
  · intro c' held q hm' hq
    by_cases hcc : c' = c
    · subst hcc
      simp only [update_self] at hm'
      rcases hnew with ⟨rfl, -⟩ | ⟨rfl, -⟩
      · cases hm'
      · cases hm'
        rwa [List.mem_singleton.mp hq]
    · exact h.sched_held (by simpa [update_of_ne hcc] using hm') hq
  · intro c' q hm'
    obtain ⟨hm', hne⟩ := henter' hm'
    simpa [update_of_ne hne] using h.enter_ok hm'
  · intro c' q hm' ho
    rcases hrun' hm' with ⟨rfl, rfl, -⟩ | ⟨hm', hne⟩
    · exact hplock
    · exact h.run_held hm' (by simpa [update_of_ne hne] using ho)
  · intro c' q hm'
    rcases hrun' hm' with ⟨-, rfl, hok⟩ | ⟨hm', hne⟩
    · simpa using hok
    · simpa [update_of_ne hne] using h.run_ok hm'
  · intro c₁ c₂ q h₁ h₂
    rcases hrun' h₁ with ⟨hc₁, hq, -⟩ | ⟨h₁, hne⟩ <;> rcases hrun' h₂ with ⟨hc₂, hq', -⟩ | ⟨h₂, hne'⟩
    · rw [hc₁, hc₂]
    · exact absurd hq hne'
    · exact absurd hq' hne
    · exact h.run_unique h₁ h₂
  · intro q hq
    by_cases hqp : q = p
    · subst hqp
      rcases hnew with ⟨rfl, -⟩ | ⟨-, hparked⟩
      · exact ⟨c, by simp⟩
      · simp [hparked] at hq
    · obtain ⟨c', hm'⟩ := h.run_exists (p := q) (by simpa [update_of_ne hqp] using hq)
      refine ⟨c', ?_⟩
      have hcc : c' ≠ c := by
        rintro rfl
        rcases hm with hm | hm <;> rw [hm] at hm' <;> cases hm'
        exact hqp rfl
      simpa [update_of_ne hcc] using hm'
  · intro q k hq
    by_cases hqp : q = p
    · subst hqp
      simp only [update_self] at hq
      rcases hchan with hnone | hsame
      · rw [hnone] at hq
        cases hq
      · exact h.chan_ok (hsame.symm.trans hq)
    · exact h.chan_ok (by simpa [update_of_ne hqp] using hq)
  · intro q hq
    by_cases hqp : q = p
    · subst hqp
      obtain ⟨k, hk, -⟩ := hsleeping hq
      exact ⟨k, .inr (by simpa using hk)⟩
    · simpa [update_of_ne hqp] using h.sleeping_ok hq
  · intro q k hq
    by_cases hqp : q = p
    · subst hqp
      rcases hq with hfall | ⟨hasleep, hst⟩
      · simp [hfalling] at hfall
      · obtain ⟨k', hk', hpc⟩ := hsleeping hst
        simp only [update_self, hk', Pc.asleep.injEq] at hasleep
        subst hasleep
        exact h.covered (.inl (by rw [hpc]; rfl))
    · exact h.covered (by simpa [State.waits, update_of_ne hqp] using hq)

end State.Inv

end Xv6.Sleep
