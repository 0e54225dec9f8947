import Xv6.Sleep.Wakeup

/-!
Sleep-locks: `acquiresleep`, `releasesleep` and `holdingsleep`.

A sleep-lock is a channel of the system of `sleep` and `wakeup`: its spinlock is the lock of
the channel, and the condition that sleepers wait for is `locked == 0`. The three functions
are sequences of steps of that system, taken by the process that calls them, and between them
come the steps of everybody else: other processes in sleep-locks, the scheduler, `kill`, and
sections of other channels, by processes and interrupt handlers.

`held` is what a process knows: `acquiresleep` has returned and it has not called
`releasesleep` yet. It calls `releasesleep` only for a lock it holds.

* `Inv`: who owns a lock, from the step that sets `locked` to the one that clears it.
* `sleep_locks`: mutual exclusion, the answer of `holdingsleep`, and no stuck sleepers.
-/

namespace Xv6.SleepLock

open Function (update update_self update_of_ne)
open Sleep.State (nextWork)
open Sleep (Slot Work exec)

inductive Fn where
  | acquiresleep
  | releasesleep
  | holdingsleep
deriving DecidableEq, Repr

/-- Where a process is in `acquiresleep`. -/
inductive AcquireAt where
  /-- About to acquire the spinlock. -/
  | enter
  /-- In the loop: about to test `locked`, or in `sleep`. -/
  | loop
  /-- About to set `locked = 1`. -/
  | take
  /-- About to set `pid`. -/
  | setPid
  /-- About to release the spinlock. -/
  | release
deriving DecidableEq, Repr

/-- Where a process is in `releasesleep`. -/
inductive ReleaseAt where
  | enter
  /-- About to set `locked = 0`. -/
  | clear
  | clearPid
  /-- About to call `wakeup`. -/
  | wake
  /-- In `wakeup`, or about to release the spinlock. -/
  | release
deriving DecidableEq, Repr

/-- Where a process is in `holdingsleep`. -/
inductive AskAt where
  | enter
  | read
  /-- About to release the spinlock and return `r`. -/
  | release (r : Bool)
deriving DecidableEq, Repr

/-- The sleep-lock function a process is in. -/
inductive Call where
  | none
  | acquiring (k : ℕ) (stage : AcquireAt)
  | releasing (k : ℕ) (stage : ReleaseAt)
  | asking (k : ℕ) (stage : AskAt)
deriving DecidableEq, Repr

structure State where
  kern : Sleep.State
  /-- `lk->pid` of a sleep-lock. -/
  lockPid : ℕ → ℤ
  /-- `p->pid`. -/
  pid : Slot → ℤ
  call : Slot → Call
  held : Slot → ℕ → Bool

variable {call : Call} {b : Bool}

namespace State

/-- `lk->locked`. -/
def locked (s : State) (k : ℕ) : Bool := !s.kern.cond k

def setCall (s : State) (p : Slot) (call : Call) : State := { s with call := update s.call p call }

@[simp]
theorem setCall_self {s : State} {p : Slot} : (s.setCall p call).call p = call :=
  update_self ..

theorem setCall_of_ne {s : State} {p q : Slot} (h : q ≠ p) :
    (s.setCall p call).call q = s.call q :=
  update_of_ne h ..

/-- What holds of the new place of `p` and of the places of the others. -/
theorem forall_setCall {s : State} {p : Slot} {P : Slot → Call → Prop} (hp : P p call)
    (hq : ∀ q, q ≠ p → P q (s.call q)) (q : Slot) : P q ((s.setCall p call).call q) :=
  (Function.forall_update_iff s.call P).mpr ⟨hp, hq⟩ q

def setHeld (s : State) (p : Slot) (k : ℕ) (b : Bool) : State :=
  { s with held := update s.held p (update (s.held p) k b) }

@[simp]
theorem setHeld_self {s : State} {p : Slot} {k : ℕ} : (s.setHeld p k b).held p k = b := by
  simp [setHeld]

theorem setHeld_of_ne {s : State} {p q : Slot} {j k : ℕ} (h : q = p → j ≠ k) :
    (s.setHeld p k b).held q j = s.held q j := by
  by_cases hqp : q = p
  · subst hqp
    simp [setHeld, update_of_ne (h rfl)]
  · simp [setHeld, update_of_ne hqp]

/-- A step of the kernel and the next place of process `p`. -/
def via (s : State) (c : ℕ) (a : Sleep.Action) (p : Slot) (call : Call) : Option State :=
  (exec s.kern c a).map fun t => { s with kern := t, call := update s.call p call }

/-- `p` enters the function: it holds no lock and is not in `sleep`. -/
def enter (s : State) (c : ℕ) (p : Slot) (k : ℕ) (call : Call) : Option State :=
  if s.kern.pc p = .idle none then s.via c (.acquire k) p call else none

def nextAcquire (s : State) (c : ℕ) (p : Slot) (k : ℕ) : AcquireAt → Option State
  | .enter => s.enter c p k (.acquiring k .loop)
  | .loop =>
    if s.kern.sect c = some (k, .free false) then
      s.via c .test p (.acquiring k (if s.locked k then .loop else .take))
    else none
  | .take => s.via c (.change false) p (.acquiring k .setPid)
  | .setPid => some ({ s with lockPid := update s.lockPid k (s.pid p) }.setCall p (.acquiring k .release))
  | .release => (s.via c .release p .none).map fun t => t.setHeld p k true

def nextRelease (s : State) (c : ℕ) (p : Slot) (k : ℕ) : ReleaseAt → Option State
  | .enter => s.enter c p k (.releasing k .clear)
  | .clear => s.via c (.change true) p (.releasing k .clearPid)
  | .clearPid => some ({ s with lockPid := update s.lockPid k 0 }.setCall p (.releasing k .wake))
  | .wake => s.via c .wakeup p (.releasing k .release)
  | .release => s.via c .release p .none

def nextAsk (s : State) (c : ℕ) (p : Slot) (k : ℕ) : AskAt → Option State
  | .enter => s.enter c p k (.asking k .read)
  | .read => some (s.setCall p (.asking k (.release (s.locked k && s.lockPid k = s.pid p))))
  | .release _ => s.via c .release p .none

/-- The next statement of the function that process `p` on CPU `c` is in. -/
def nextCall (s : State) (c : ℕ) (p : Slot) : Call → Option State
  | .none => none
  | .acquiring k stage => s.nextAcquire c p k stage
  | .releasing k stage => s.nextRelease c p k stage
  | .asking k stage => s.nextAsk c p k stage

/-- Process `p` calls a function. `held` ends with the call of `releasesleep`. -/
def begin (s : State) (p : Slot) (k : ℕ) : Fn → State
  | .acquiresleep => s.setCall p (.acquiring k .enter)
  | .releasesleep => (s.setHeld p k false).setCall p (.releasing k .enter)
  | .holdingsleep => s.setCall p (.asking k .enter)

end State

open State (forall_setCall setHeld_of_ne setCall_of_ne setCall_self)

/-- Sections of sleep-locks are entered and left by the three functions only. -/
def allowed (isLock : ℕ → Bool) (s : Sleep.State) (c : ℕ) : Sleep.Action → Bool
  | .acquire k => !isLock k
  | .change _ | .test | .wakeup | .release => (s.sect c).all fun x => !isLock x.1
  | _ => true

inductive Event where
  /-- A step of the kernel outside of the three functions. -/
  | kern (c : ℕ) (a : Sleep.Action)
  /-- The process on CPU `c` calls a function. -/
  | call (c : ℕ) (f : Fn) (k : ℕ)
  /-- The next statement of the function that the process on CPU `c` is in. -/
  | next (c : ℕ)
deriving DecidableEq, Repr

def step (isLock : ℕ → Bool) (s : State) : Event → Option State
  | .kern c a =>
    if allowed isLock s.kern c a then (exec s.kern c a).map fun t => { s with kern := t } else none
  | .call c f k =>
    match s.kern.mode c with
    | .run p =>
      if isLock k = true ∧ s.kern.sect c = none ∧ s.kern.pc p = .idle none ∧ s.call p = .none ∧
          (f = .releasesleep → s.held p k = true) then
        some (s.begin p k f)
      else none
    | _ => none
  | .next c =>
    match s.kern.mode c with
    | .run p => s.nextCall c p (s.call p)
    | _ => none

/-- The kernel has just booted, all sleep-locks are free, and live processes have different
pids. -/
structure Init (isLock : ℕ → Bool) (s : State) : Prop where
  kern : Sleep.Init s.kern
  unlocked : ∀ k, isLock k = true → s.locked k = false
  call : ∀ p, s.call p = .none
  held : ∀ p k, s.held p k = false
  pid : ∀ p q, s.kern.state p ≠ .unused → s.kern.state q ≠ .unused → s.pid p = s.pid q → p = q

/-! ### Steps of the kernel -/

section Kernel

variable {s t : Sleep.State} {c c' k : ℕ} {p : Slot} {w : Work} {a : Sleep.Action}

/-- What a step of CPU `c` leaves as it was. -/
structure Frame (s t : Sleep.State) (c : ℕ) (changes : Prop) : Prop where
  sect : ∀ c', c' ≠ c → t.sect c' = s.sect c'
  mode : ∀ c', c' ≠ c → t.mode c' = s.mode c'
  cond : ¬ changes → t.cond = s.cond
  unused : ∀ p, t.state p = .unused ↔ s.state p = .unused

namespace Frame

variable {changes : Prop}

theorem of_sect {x : Option (ℕ × Work)} (hsect : t.sect = update s.sect c x) (hmode : t.mode = s.mode)
    (hcond : ¬ changes → t.cond = s.cond) (hstate : t.state = s.state) : Frame s t c changes where
  sect c' hc := by rw [hsect, update_of_ne hc]
  mode c' _ := by rw [hmode]
  cond := hcond
  unused p := by rw [hstate]

theorem of_mode {m : Sleep.Mode} (hsect : t.sect = s.sect) (hmode : t.mode = update s.mode c m)
    (hcond : t.cond = s.cond) (hstate : t.state = s.state) : Frame s t c changes where
  sect c' _ := by rw [hsect]
  mode c' hc := by rw [hmode, update_of_ne hc]
  cond _ := hcond
  unused p := by rw [hstate]

theorem of_state (hsect : t.sect = s.sect) (hmode : t.mode = s.mode)
    (hcond : t.cond = s.cond) (hstate : t.state = s.state) : Frame s t c changes where
  sect c' _ := by rw [hsect]
  mode c' _ := by rw [hmode]
  cond _ := hcond
  unused p := by rw [hstate]

/-- The state of a live process changes. -/
theorem setState {st : ProcState} (h : Frame (s.setState p st) t c changes)
    (hp : s.state p ≠ .unused) (hst : st ≠ .unused) : Frame s t c changes where
  sect := h.sect
  mode := h.mode
  cond := h.cond
  unused q := by
    rw [h.unused]
    by_cases hq : q = p
    · subst hq
      rw [show (s.setState q st).state q = st from update_self ..]
      exact iff_of_false hst hp
    · rw [show (s.setState p st).state q = s.state q from update_of_ne hq ..]

end Frame

/-- CPU `c` runs process `p` in the section of `k`, and `p` is not on its way to sleep. -/
def At (s : Sleep.State) (c : ℕ) (p : Slot) (k : ℕ) : Prop :=
  s.mode c = .run p ∧ ∃ w, s.sect c = some (k, w) ∧ w.sleeper = none

/-- The statements of `wakeup`, unlike those of `sleep`, stay in the section. -/
theorem nextWork_spec (hs : s.Inv) (hsect : s.sect c = some (k, w))
    (h : s.nextWork c k w = some t) :
    Frame s t c False ∧ ∀ p, s.mode c = .run p → w.sleeper = none → At t c p k := by
  cases w with
  | free owes => cases h
  | scan i =>
    simp only [nextWork] at h
    split at h
    · split at h
      · cases h
        exact ⟨.of_sect rfl rfl (fun _ => rfl) rfl, fun _ hm _ => ⟨hm, _, update_self .., rfl⟩⟩
      · split at h <;> cases h
        exact ⟨.of_sect rfl rfl (fun _ => rfl) rfl, fun _ hm _ => ⟨hm, _, update_self .., rfl⟩⟩
    · cases h
      exact ⟨.of_sect rfl rfl (fun _ => rfl) rfl, fun _ hm _ => ⟨hm, _, update_self .., rfl⟩⟩
  | test q =>
    simp only [nextWork] at h
    split at h <;> cases h <;>
      exact ⟨.of_sect rfl rfl (fun _ => rfl) rfl, fun _ hm _ => ⟨hm, _, update_self .., rfl⟩⟩
  | wake q =>
    cases h
    have hlive : s.state q ≠ .unused := by
      rw [(hs.sect hsect).wake rfl]
      decide
    exact ⟨.setState (.of_sect rfl rfl (fun _ => rfl) rfl) hlive (by decide),
      fun _ hm _ => ⟨hm, _, update_self .., rfl⟩⟩
  | unlock q =>
    cases h
    exact ⟨.of_sect rfl rfl (fun _ => rfl) rfl, fun _ hm _ => ⟨hm, _, update_self .., rfl⟩⟩
  | sleepAcquire q =>
    simp only [nextWork] at h
    split at h <;> cases h
    exact ⟨.of_sect rfl rfl (fun _ => rfl) rfl, fun _ _ hnone => by cases hnone⟩
  | sleepRelease q =>
    cases h
    exact ⟨.of_sect rfl rfl (fun _ => rfl) rfl, fun _ _ hnone => by cases hnone⟩

/-- A process that a CPU runs is live. -/
theorem live_of_run (hs : s.Inv) (hm : s.mode c = .run p) : s.state p ≠ .unused := by
  rw [(hs.run_ok hm).1]
  cases s.pc p <;> simp [Sleep.Pc.running]

theorem nextPc_frame (hs : s.Inv) (hm : s.mode c = .run p)
    (h : s.nextPc c p (s.pc p) = some t) : Frame s t c False := by
  have hlive := live_of_run hs hm
  generalize s.pc p = pc at h
  cases pc with
  | setChan k | clearChan k | sleepDone k | yieldDone back =>
    cases h; exact .of_state rfl rfl rfl rfl
  | setState k | yieldState back =>
    cases h; exact .setState (.of_state rfl rfl rfl rfl) hlive (by decide)
  | sleepSched k | yieldSched back => cases h; exact .of_mode rfl rfl rfl rfl
  | asleep k | yielded back | idle back => cases h

/-- A step concerns the section and the process of its own CPU, makes no new process, and
only `change` sets a condition. -/
theorem exec_frame (hs : s.Inv) (h : exec s c a = some t) :
    Frame s t c (∃ b, a = .change b) := by
  cases a with
  | acquire k | wakeup | release =>
    simp only [exec] at h
    split at h <;> cases h
    exact .of_sect rfl rfl (fun _ => rfl) rfl
  | reacquire =>
    simp only [exec] at h
    split at h
    · split at h
      · split at h <;> cases h
        exact .of_sect rfl rfl (fun _ => rfl) rfl
      · cases h
    · cases h
  | change b =>
    simp only [exec] at h
    split at h <;> cases h
    exact .of_sect rfl rfl (fun hb => absurd ⟨b, rfl⟩ hb) rfl
  | test =>
    simp only [exec] at h
    split at h
    · split at h
      · cases h
        split
        · exact .of_state rfl rfl rfl rfl
        · exact .of_sect rfl rfl (fun _ => rfl) rfl
      · cases h
    · cases h
  | next =>
    simp only [exec] at h
    split at h
    case h_1 hsect =>
      have hf := (nextWork_spec hs hsect h).1
      exact { hf with cond := fun _ => hf.cond not_false }
    case h_2 hm =>
      have hf := nextPc_frame hs hm h
      exact { hf with cond := fun _ => hf.cond not_false }
    case h_3 =>
      cases h
      exact .of_mode rfl rfl rfl rfl
    case h_4 => cases h
  | yield =>
    simp only [exec] at h
    split at h
    · split at h
      · split at h <;> cases h
        exact .of_state rfl rfl rfl rfl
      · cases h
    · cases h
  | look q | drop q =>
    simp only [exec] at h
    split at h
    · split at h <;> cases h
      exact .of_mode rfl rfl rfl rfl
    · cases h
  | dispatch q =>
    simp only [exec] at h
    split at h
    · split at h
      case isTrue hq =>
        cases h
        exact .setState (.of_mode rfl rfl rfl rfl) (by rw [hq.2]; decide) (by decide)
      case isFalse => cases h
    · cases h
  | kill q =>
    simp only [exec] at h
    split at h <;> cases h
    split
    case isTrue hq =>
      exact .setState (.of_state rfl rfl rfl rfl) (by rw [hq]; decide) (by decide)
    case isFalse => exact .of_state rfl rfl rfl rfl

/-! Inside the section of a lock, where only the functions of the lock and `wakeup` go on. -/

/-- A process in a section of a lock stays there as long as the steps of its CPU are not those
of the lock's functions. -/
theorem exec_at {isLock : ℕ → Bool} (hs : s.Inv) (hk : isLock k = true) (hat : At s c p k)
    (hallow : allowed isLock s c a = true) (h : exec s c a = some t) : At t c p k := by
  obtain ⟨hm, w, hsect, hw⟩ := hat
  have hlock : (s.sect c).all (fun x => !isLock x.1) ≠ true := by
    rw [hsect, Option.all_some, hk]
    decide
  have hbusy : s.interruptible c ≠ true := fun hi => by
    rw [(Sleep.State.Inv.interruptible_iff.mp hi).1] at hsect
    cases hsect
  cases a with
  | acquire k' | kill q =>
    simp only [exec] at h
    rw [if_neg fun hi => hbusy hi.1] at h
    cases h
  | change b | test | wakeup | release => exact absurd hallow hlock
  | next =>
    simp only [exec, hsect] at h
    exact (nextWork_spec hs hsect h).2 p hm hw
  | reacquire | yield | look q | drop q | dispatch q => simp [exec, hsect] at h

theorem exec_acquire (hm : s.mode c = .run p) (h : exec s c (.acquire k) = some t) : At t c p k := by
  simp only [exec] at h
  split at h <;> cases h
  exact ⟨hm, _, update_self .., rfl⟩

/-- An assignment to `locked`. -/
theorem exec_change (hat : At s c p k) (h : exec s c (.change b) = some t) :
    At t c p k ∧ t.cond = update s.cond k b := by
  obtain ⟨hm, w, hsect, -⟩ := hat
  cases w with
  | free owes =>
    simp only [exec, hsect] at h
    cases h
    exact ⟨⟨hm, _, update_self .., rfl⟩, rfl⟩
  | _ => simp [exec, hsect] at h

theorem exec_wakeup (hat : At s c p k) (h : exec s c .wakeup = some t) : At t c p k := by
  obtain ⟨hm, w, hsect, -⟩ := hat
  cases w with
  | free owes =>
    simp only [exec, hsect] at h
    cases h
    exact ⟨hm, _, update_self .., rfl⟩
  | _ => simp [exec, hsect] at h

/-- The test of the loop in `acquiresleep`, when the lock is free. -/
theorem exec_test (hm : s.mode c = .run p) (hsect : s.sect c = some (k, .free false))
    (hcond : s.cond k = true) (h : exec s c .test = some t) : t = s := by
  simp only [exec, hsect, hm, if_pos hcond] at h
  split at h <;> cases h
  rfl

end Kernel

/-! ### The invariant -/

namespace Call

/-- The lock that the call is about. -/
def lock : Call → Option ℕ
  | .none => Option.none
  | .acquiring k _ | .releasing k _ | .asking k _ => some k

/-- The lock whose spinlock the process holds, in `sleep` apart. -/
def inside : Call → Option ℕ
  | .acquiring k .take | .acquiring k .setPid | .acquiring k .release => some k
  | .releasing k .clear | .releasing k .clearPid | .releasing k .wake | .releasing k .release => some k
  | .asking k .read | .asking k (.release _) => some k
  | _ => Option.none

/-- The lock whose `locked` the process has set, or has yet to clear. -/
def owned : Call → Option ℕ
  | .acquiring k .setPid | .acquiring k .release => some k
  | .releasing k .enter | .releasing k .clear => some k
  | _ => Option.none

/-- The lock that the process has found, or made, free. -/
def vacant : Call → Option ℕ
  | .acquiring k .take | .releasing k .clearPid => some k
  | _ => Option.none

theorem lock_of_inside {k : ℕ} (h : call.inside = some k) : call.lock = some k := by
  cases call with
  | none => cases h
  | acquiring k' stage | releasing k' stage | asking k' stage =>
    cases stage <;> first | exact h | cases h

theorem inside_of_vacant {k : ℕ} (h : call.vacant = some k) : call.inside = some k := by
  cases call with
  | none => cases h
  | acquiring k' stage | releasing k' stage => cases stage <;> first | exact h | cases h
  | asking k' stage => cases h

end Call

/-- `p` owns the lock: it has set `locked` and has not cleared it yet. -/
def State.Owns (s : State) (p : Slot) (k : ℕ) : Prop :=
  s.held p k = true ∨ (s.call p).owned = some k

section Invariant

variable {isLock : ℕ → Bool} {s t : State} {u : Sleep.State} {c k : ℕ} {p q : Slot}
  {a : Sleep.Action} {call old : Call}

/-- Where the processes are. -/
structure Places (isLock : ℕ → Bool) (s : State) : Prop where
  kern : s.kern.Inv
  lock : ∀ {p k}, (s.call p).lock = some k → isLock k = true
  inside : ∀ {p k}, (s.call p).inside = some k → ∃ c, At s.kern c p k
  live : ∀ {p}, s.call p ≠ .none → s.kern.state p ≠ .unused
  holds : ∀ {p k}, s.held p k = true → s.kern.state p ≠ .unused
  pid : ∀ {p q}, s.kern.state p ≠ .unused → s.kern.state q ≠ .unused → s.pid p = s.pid q → p = q

namespace Places

section

variable (h : Places isLock s)
include h

/-- The spinlock of a sleep-lock excludes. -/
theorem alone (hp : (s.call p).inside = some k) (hq : (s.call q).inside = some k) : q = p := by
  obtain ⟨c, hm, w, hsect, -⟩ := h.inside hp
  obtain ⟨c', hm', w', hsect', -⟩ := h.inside hq
  have hc : c' = c := Option.mem_unique (h.kern.sect hsect').held (h.kern.sect hsect).held
  subst hc
  rw [hm] at hm'
  cases hm'
  rfl

/-- The CPU on which a process takes the steps of its function is where it holds the lock. -/
theorem at_run (hm : s.kern.mode c = .run p) (hp : (s.call p).inside = some k) :
    At s.kern c p k := by
  obtain ⟨c', hat⟩ := h.inside hp
  have hc : c' = c := h.kern.run_unique hm hat.1
  exact hc ▸ hat

theorem setKern (hallow : allowed isLock s.kern c a = true) (hexec : exec s.kern c a = some u) :
    Places isLock { s with kern := u } := by
  have hf := exec_frame h.kern hexec
  have hlive : ∀ {p}, s.kern.state p ≠ .unused → u.state p ≠ .unused :=
    fun hp hu => hp ((hf.unused _).mp hu)
  refine ⟨h.kern.step hexec, h.lock, ?_, fun hp => hlive (h.live hp), fun hp => hlive (h.holds hp),
    fun hp hq => h.pid (fun hu => hp ((hf.unused _).mpr hu)) fun hu => hq ((hf.unused _).mpr hu)⟩
  intro p k hp
  obtain ⟨c', hat⟩ := h.inside hp
  by_cases hc : c' = c
  · subst hc
    exact ⟨c', exec_at h.kern (h.lock (Call.lock_of_inside hp)) hat hallow hexec⟩
  · obtain ⟨hm, w, hsect, hw⟩ := hat
    exact ⟨c', (hf.mode c' hc).trans hm, w, (hf.sect c' hc).trans hsect, hw⟩

/-- A process goes on in its function, with a step of its CPU. -/
theorem move {changes : Prop} (hm : s.kern.mode c = .run p) (hu : u.Inv)
    (hf : Frame s.kern u c changes) (hlock : call.lock.elim True (isLock · = true))
    (hin : call.inside.elim True (At u c p)) :
    Places isLock ({ s with kern := u }.setCall p call) := by
  have hlive : ∀ {q}, s.kern.state q ≠ .unused → u.state q ≠ .unused :=
    fun hq hu => hq ((hf.unused _).mp hu)
  refine ⟨hu, fun {q k} => ?_, fun {q k} => ?_, fun {q} => ?_, fun hq => hlive (h.holds hq),
    fun hq hr => h.pid (fun hu => hq ((hf.unused _).mpr hu)) fun hu => hr ((hf.unused _).mpr hu)⟩
  · refine forall_setCall (P := fun _ x => x.lock = some k → isLock k = true) (fun hk => ?_)
      (fun q _ => h.lock) q
    rwa [hk] at hlock
  · refine forall_setCall (P := fun q x => x.inside = some k → ∃ c, At u c q k)
      (fun hk => ⟨c, by rwa [hk] at hin⟩) (fun q hqp hq => ?_) q
    obtain ⟨c', hm', w, hsect, hw⟩ := h.inside hq
    have hc : c' ≠ c := by
      rintro rfl
      rw [hm] at hm'
      cases hm'
      exact hqp rfl
    exact ⟨c', (hf.mode c' hc).trans hm', w, (hf.sect c' hc).trans hsect, hw⟩
  · exact forall_setCall (P := fun q x => x ≠ .none → u.state q ≠ .unused)
      (fun _ => hlive (live_of_run h.kern hm)) (fun q _ hq => hlive (h.live hq)) q

theorem via (hm : s.kern.mode c = .run p) (hexec : exec s.kern c a = some u)
    (hlock : call.lock.elim True (isLock · = true)) (hin : call.inside.elim True (At u c p)) :
    Places isLock ({ s with kern := u }.setCall p call) :=
  h.move hm (h.kern.step hexec) (exec_frame h.kern hexec) hlock hin

/-- A process goes on in its function on its own. -/
theorem setCall (hm : s.kern.mode c = .run p) (hlock : call.lock.elim True (isLock · = true))
    (hin : call.inside.elim True (At s.kern c p)) : Places isLock (s.setCall p call) :=
  h.move hm h.kern (Frame.of_state rfl rfl rfl rfl : Frame s.kern s.kern c False) hlock hin

theorem setHeld (hp : s.kern.state p ≠ .unused) (b : Bool) : Places isLock (s.setHeld p k b) := by
  refine ⟨h.kern, h.lock, h.inside, h.live, ?_, h.pid⟩
  intro q j hq
  by_cases hqp : q = p
  · exact hqp ▸ hp
  · rw [setHeld_of_ne fun heq => absurd heq hqp] at hq
    exact h.holds hq

theorem setLockPid (f : ℕ → ℤ) : Places isLock { s with lockPid := f } :=
  ⟨h.kern, h.lock, h.inside, h.live, h.holds, h.pid⟩

end

end Places

/-- Who owns the locks, and what the locks say about it. -/
structure Owned (isLock : ℕ → Bool) (s : State) : Prop where
  locked_iff : ∀ {k}, isLock k = true → (s.locked k = true ↔ ∃ p, s.Owns p k)
  unique : ∀ {p q k}, s.Owns p k → s.Owns q k → q = p
  once : ∀ {p k}, (s.call p).owned = some k → s.held p k = false
  vacant : ∀ {p k}, isLock k = true → (s.call p).vacant = some k → s.locked k = false
  pid : ∀ {p k}, s.Owns p k → s.call p ≠ .acquiring k .setPid → s.lockPid k = s.pid p
  answer : ∀ {p k r}, s.call p = .asking k (.release r) → (r = true ↔ s.held p k = true)

namespace Owned

section

variable (h : Owned isLock s)
include h

theorem setKern (hcond : ∀ k, isLock k = true → u.cond k = s.kern.cond k) :
    Owned isLock { s with kern := u } where
  locked_iff {k} hk := by
    rw [State.locked, hcond k hk]
    exact h.locked_iff hk
  unique := h.unique
  once := h.once
  vacant {p k} hk hp := by
    rw [State.locked, hcond k hk]
    exact h.vacant hk hp
  pid := h.pid
  answer := h.answer

/-- Only process `p` changes. -/
theorem of_process (hcall : ∀ q, q ≠ p → t.call q = s.call q)
    (hheld : ∀ q, q ≠ p → t.held q = s.held q) (hpids : t.lockPid = s.lockPid ∧ t.pid = s.pid)
    (locked_iff : ∀ k, isLock k = true → (t.locked k = true ↔ ∃ q, t.Owns q k))
    (unique : ∀ q r k, t.Owns q k → t.Owns r k → r = q)
    (once : ∀ k, (t.call p).owned = some k → t.held p k = false)
    (vacant : ∀ q k, isLock k = true → (t.call q).vacant = some k → t.locked k = false)
    (pid : ∀ k, t.Owns p k → t.call p ≠ .acquiring k .setPid → s.lockPid k = s.pid p)
    (answer : ∀ k r, t.call p = .asking k (.release r) → (r = true ↔ t.held p k = true)) :
    Owned isLock t := by
  refine ⟨locked_iff _, unique _ _ _, fun {q k} hq => ?_, vacant _ _, fun {q k} hq hne => ?_,
    fun {q k r} hq => ?_⟩ <;> by_cases hqp : q = p
  · subst hqp
    exact once k hq
  · rw [hcall q hqp] at hq
    rw [hheld q hqp]
    exact h.once hq
  · subst hqp
    rw [hpids.1, hpids.2]
    exact pid k hq hne
  · rw [State.Owns, hcall q hqp, hheld q hqp] at hq
    rw [hcall q hqp] at hne
    rw [hpids.1, hpids.2]
    exact h.pid hq hne
  · subst hqp
    exact answer k r hq
  · rw [hcall q hqp] at hq
    rw [hheld q hqp]
    exact h.answer hq

/-- A process goes on in its function without a change of owner. -/
theorem setCall (hcall : s.call p = old) (hown : call.owned = old.owned)
    (hpid : ∀ k, old = .acquiring k .setPid → s.lockPid k = s.pid p)
    (hvacant : call.vacant.elim True (s.locked · = false))
    (hanswer : ∀ k r, call = .asking k (.release r) → (r = true ↔ s.held p k = true)) :
    Owned isLock (s.setCall p call) := by
  subst hcall
  have howned : ∀ q, ((s.setCall p call).call q).owned = (s.call q).owned :=
    forall_setCall (P := fun q x => x.owned = (s.call q).owned) hown fun _ _ => rfl
  have howns : ∀ q k, (s.setCall p call).Owns q k ↔ s.Owns q k := fun q k => by
    rw [State.Owns, howned]
    rfl
  refine h.of_process (fun q => setCall_of_ne) (fun _ _ => rfl) ⟨rfl, rfl⟩ (fun k hk => ?_)
    (fun q r k hq hr => h.unique ((howns q k).mp hq) ((howns r k).mp hr)) (fun k hk => ?_)
    (fun q k hk => ?_) (fun k hq _ => ?_) fun k r hk => hanswer k r (State.setCall_self.symm.trans hk)
  · simp only [howns]
    exact h.locked_iff hk
  · rw [howned] at hk
    exact h.once hk
  · refine forall_setCall (P := fun _ x => x.vacant = some k → s.locked k = false)
      (fun hx => ?_) (fun q _ => h.vacant hk) q
    rwa [hx] at hvacant
  · by_cases hset : s.call p = .acquiring k .setPid
    · exact hpid k hset
    · exact h.pid ((howns p k).mp hq) hset

/-- A free lock has no owner. -/
theorem not_owns (hk : isLock k = true) (hfree : s.locked k = false) : ¬ s.Owns q k := fun hq => by
  rw [(h.locked_iff hk).mpr ⟨q, hq⟩] at hfree
  cases hfree

/-- `lk->pid` is set while nobody relies on it. -/
theorem setLockPid (x : ℤ) (hset : ∀ q, s.Owns q k → s.call q = .acquiring k .setPid) :
    Owned isLock { s with lockPid := update s.lockPid k x } where
  locked_iff := h.locked_iff
  unique := h.unique
  once := h.once
  vacant := h.vacant
  answer := h.answer
  pid {q j} hq hne := by
    have hj : j ≠ k := by
      rintro rfl
      exact hne (hset q hq)
    exact (update_of_ne hj ..).trans (h.pid hq hne)

/-- The owner of `k` returns from `acquiresleep`, or calls `releasesleep`. -/
theorem handOver (hcall : s.call p = old) (hown : s.Owns p k)
    (hbefore : ∀ j, old.owned = some j → j = k) (hafter : call.owned = if b then none else some k)
    (hvacant : call.vacant = none) (hanswer : ∀ j r, call ≠ .asking j (.release r))
    (hset : old ≠ .acquiring k .setPid) : Owned isLock ((s.setHeld p k b).setCall p call) := by
  subst hcall
  have hheld : ∀ q, q ≠ p → (s.setHeld p k b).held q = s.held q := fun q hqp =>
    funext fun _ => setHeld_of_ne fun heq => absurd heq hqp
  have hother : ∀ {j}, call.owned = some j → j = k ∧ b = false := by
    intro j hj
    rw [hafter] at hj
    cases b with
    | true => cases hj
    | false => exact ⟨(Option.some.inj hj).symm, rfl⟩
  have howns : ∀ q j, ((s.setHeld p k b).setCall p call).Owns q j ↔ s.Owns q j := by
    intro q j
    by_cases hqp : q = p
    · subst hqp
      rw [State.Owns, setCall_self]
      by_cases hj : j = k
      · subst hj
        refine iff_of_true ?_ hown
        cases b with
        | true => exact .inl State.setHeld_self
        | false => exact .inr hafter
      · rw [State.Owns, or_iff_left fun heq => hj (hother heq).1,
          or_iff_left fun heq => hj (hbefore j heq)]
        exact Bool.coe_iff_coe.mpr (setHeld_of_ne fun _ => hj)
    · rw [State.Owns, State.Owns, setCall_of_ne hqp]
      exact or_congr (Bool.coe_iff_coe.mpr (congrFun (hheld q hqp) j)) Iff.rfl
  refine h.of_process (fun q => setCall_of_ne) hheld ⟨rfl, rfl⟩ (fun j hj => ?_)
    (fun q r j hq hr => h.unique ((howns q j).mp hq) ((howns r j).mp hr)) (fun j hj => ?_)
    (fun q j hj => ?_) (fun j hq _ => h.pid ((howns p j).mp hq) fun hcall => ?_)
    fun j r hj => absurd (State.setCall_self.symm.trans hj) (hanswer j r)
  · simp only [howns]
    exact h.locked_iff hj
  · rw [setCall_self] at hj
    obtain ⟨rfl, rfl⟩ := hother hj
    exact State.setHeld_self
  · exact forall_setCall (P := fun _ x => x.vacant = some j → s.locked j = false)
      (fun hx => nomatch hvacant.symm.trans hx) (fun q _ => h.vacant hj) q
  · have hj : j = k := hbefore j (by rw [hcall]; rfl)
    exact hset (hj ▸ hcall)

end

theorem locked_update (hcond : u.cond = update s.kern.cond k b) (j : ℕ) :
    (State.setCall { s with kern := u } p call).locked j = if j = k then !b else s.locked j := by
  rw [State.locked, show (State.setCall { s with kern := u } p call).kern.cond = _ from hcond]
  by_cases hj : j = k
  · subst hj
    rw [update_self, if_pos rfl]
  · rw [update_of_ne hj, if_neg hj]
    rfl

/-- `locked = 1` in `acquiresleep`. -/
theorem take (h : Owned isLock s) (hk : isLock k = true) (hcall : s.call p = .acquiring k .take)
    (hcond : u.cond = update s.kern.cond k false)
    (halone : ∀ q, (s.call q).vacant = some k → q = p) :
    Owned isLock ({ s with kern := u }.setCall p (.acquiring k .setPid)) := by
  have hfree : ∀ q, ¬ s.Owns q k := fun q => h.not_owns hk (h.vacant hk (by rw [hcall]; rfl))
  have howns : ∀ q j, (State.setCall { s with kern := u } p (.acquiring k .setPid)).Owns q j ↔
      s.Owns q j ∨ q = p ∧ j = k := by
    intro q j
    by_cases hqp : q = p
    · subst hqp
      rw [State.Owns, State.Owns, setCall_self, hcall]
      show s.held q j = true ∨ some k = some j ↔ (s.held q j = true ∨ none = some j) ∨ q = q ∧ j = k
      simp [@eq_comm ℕ k j]
    · refine Iff.trans ?_ (or_iff_left fun hq => hqp hq.1).symm
      rw [State.Owns, setCall_of_ne hqp]
      rfl
  refine h.of_process (fun q => setCall_of_ne) (fun _ _ => rfl) ⟨rfl, rfl⟩ (fun j hj => ?_)
    (fun q r j hq hr => ?_) (fun j hj => ?_) (fun q j hj hq => ?_) (fun j hq hne => ?_)
    fun j r hj => nomatch State.setCall_self.symm.trans hj
  · refine Iff.trans (b := s.locked j = true ∨ j = k) ?_ ?_
    · rw [locked_update hcond j]
      by_cases hjk : j = k <;> simp [hjk]
    · simp only [howns, h.locked_iff hj, exists_or, exists_eq_left]
  · rcases (howns q j).mp hq with hq' | ⟨rfl, rfl⟩
    · rcases (howns r j).mp hr with hr' | ⟨rfl, rfl⟩
      · exact h.unique hq' hr'
      · exact absurd hq' (hfree q)
    · rcases (howns r j).mp hr with hr' | ⟨rfl, -⟩
      · exact absurd hr' (hfree r)
      · rfl
  · rw [setCall_self] at hj
    cases hj
    exact Bool.eq_false_iff.mpr fun hheld => hfree p (.inl hheld)
  · have hold : q ≠ p ∧ (s.call q).vacant = some j :=
      forall_setCall (P := fun q x => x.vacant = some j → q ≠ p ∧ (s.call q).vacant = some j)
        (fun hx => by cases hx) (fun q hqp hq => ⟨hqp, hq⟩) q hq
    have hjk : j ≠ k := fun heq => hold.1 (halone q (heq ▸ hold.2))
    rw [locked_update hcond j, if_neg hjk]
    exact h.vacant hj hold.2
  · rcases (howns p j).mp hq with hq | ⟨-, rfl⟩
    · exact h.pid hq fun hset => nomatch hcall.symm.trans hset
    · exact absurd setCall_self hne

/-- `locked = 0` in `releasesleep`. -/
theorem clear (h : Owned isLock s) (hcall : s.call p = .releasing k .clear)
    (hcond : u.cond = update s.kern.cond k true) :
    Owned isLock ({ s with kern := u }.setCall p (.releasing k .clearPid)) := by
  have hown : s.Owns p k := .inr (by rw [hcall]; rfl)
  have hheld : s.held p k = false := h.once (by rw [hcall]; rfl)
  have howns : ∀ q j, (State.setCall { s with kern := u } p (.releasing k .clearPid)).Owns q j ↔
      s.Owns q j ∧ j ≠ k := by
    intro q j
    by_cases hqp : q = p
    · subst hqp
      rw [State.Owns, State.Owns, setCall_self, hcall]
      show s.held q j = true ∨ none = some j ↔ (s.held q j = true ∨ some k = some j) ∧ j ≠ k
      by_cases hj : j = k
      · simp [hj, hheld]
      · simp [hj, Ne.symm hj]
    · rw [State.Owns, setCall_of_ne hqp]
      refine (and_iff_left_of_imp fun hq hj => ?_).symm
      exact hqp (h.unique hown (hj ▸ hq))
  refine h.of_process (fun q => setCall_of_ne) (fun _ _ => rfl) ⟨rfl, rfl⟩ (fun j hj => ?_)
    (fun q r j hq hr => h.unique ((howns q j).mp hq).1 ((howns r j).mp hr).1) (fun j hj => ?_)
    (fun q j hj hq => ?_) (fun j hq _ => ?_) fun j r hj => nomatch State.setCall_self.symm.trans hj
  · rw [locked_update hcond j]
    by_cases hjk : j = k
    · simp [howns, hjk]
    · simp [howns, hjk, h.locked_iff hj]
  · rw [setCall_self] at hj
    cases hj
  · rw [locked_update hcond j]
    by_cases hjk : j = k
    · exact if_pos hjk
    · rw [if_neg hjk]
      refine forall_setCall (P := fun _ x => x.vacant = some j → s.locked j = false)
        (fun hx => ?_) (fun q _ => h.vacant hj) q hq
      cases hx
      exact absurd rfl hjk
  · exact h.pid ((howns p j).mp hq).1 fun hset => nomatch hcall.symm.trans hset

end Owned

structure Inv (isLock : ℕ → Bool) (s : State) : Prop where
  places : Places isLock s
  owned : Owned isLock s

namespace Inv

theorem init (h : Init isLock s) : Inv isLock s := by
  have howns : ∀ p k, ¬ s.Owns p k := by
    simp [State.Owns, h.held, h.call, Call.owned]
  refine ⟨⟨.init h.kern, ?_, ?_, ?_, ?_, h.pid _ _⟩, ⟨fun {k} hk => ?_, ?_, fun _ => h.held _ _,
    fun hk _ => h.unlocked _ hk, ?_, ?_⟩⟩
  · simp [h.call, Call.lock]
  · simp [h.call, Call.inside]
  · simp [h.call]
  · simp [h.held]
  · simp [h.unlocked k hk, howns]
  · exact fun hp => absurd hp (howns _ _)
  · exact fun hp => absurd hp (howns _ _)
  · simp [h.call]

/-- A step outside of the three functions. -/
theorem setKern (h : Inv isLock s) (hallow : allowed isLock s.kern c a = true)
    (hexec : exec s.kern c a = some u) : Inv isLock { s with kern := u } := by
  refine ⟨h.places.setKern hallow hexec, h.owned.setKern fun k hk => ?_⟩
  have hf := exec_frame h.places.kern hexec
  by_cases hchange : ∃ b, a = .change b
  · obtain ⟨b, rfl⟩ := hchange
    simp only [exec] at hexec
    split at hexec <;> cases hexec
    case h_1 k' w hsect =>
      have hne : k ≠ k' := by
        rintro rfl
        rw [allowed, hsect, Option.all_some, hk] at hallow
        cases hallow
      exact update_of_ne hne ..
  · rw [hf.cond hchange]

section

variable (h : Inv isLock s) (hm : s.kern.mode c = .run p)
include h hm

/-- A step of a function that neither sets `locked` nor makes the process an owner. -/
theorem via (hcall : s.call p = old) (hexec : exec s.kern c a = some u)
    (hchange : ∀ b, a ≠ .change b) (hlock : call.lock.elim True (isLock · = true))
    (hin : call.inside.elim True (At u c p)) (hown : call.owned = old.owned)
    (hpid : ∀ k, old ≠ .acquiring k .setPid) (hvacant : call.vacant.elim True (s.locked · = false))
    (hanswer : ∀ k r, call ≠ .asking k (.release r)) :
    Inv isLock ({ s with kern := u }.setCall p call) := by
  have hcond : u.cond = s.kern.cond :=
    (exec_frame h.places.kern hexec).cond fun ⟨b, hb⟩ => hchange b hb
  refine ⟨h.places.via hm hexec hlock hin, (h.owned.setKern fun k _ => by rw [hcond]).setCall hcall
    hown (fun k hk => absurd hk (hpid k)) ?_ fun k r hk => absurd hk (hanswer k r)⟩
  have hlocked : ∀ k, State.locked { s with kern := u } k = s.locked k := fun k => by
    rw [State.locked, hcond, State.locked]
  simpa only [hlocked] using hvacant

/-- The first step of a function. -/
theorem enter (hcall : s.call p = old) (ht : s.enter c p k call = some t)
    (hlock : call.lock.elim True (isLock · = true))
    (hin : ∀ u : Sleep.State, At u c p k → call.inside.elim True (At u c p))
    (hown : call.owned = old.owned) (hpid : ∀ k, old ≠ .acquiring k .setPid)
    (hvacant : call.vacant = none) (hanswer : ∀ k r, call ≠ .asking k (.release r)) :
    Inv isLock t := by
  unfold State.enter at ht
  split at ht
  · obtain ⟨u, hu, rfl⟩ := Option.map_eq_some_iff.mp ht
    exact h.via hm hcall hu (fun b => nofun) hlock (hin u (exec_acquire hm hu)) hown hpid
      (by rw [hvacant]; trivial) hanswer
  · cases ht

/-- The last step of a function. -/
theorem leave (hown : (s.call p).owned = none) (ht : s.via c .release p .none = some t) :
    Inv isLock t := by
  obtain ⟨u, hu, rfl⟩ := Option.map_eq_some_iff.mp ht
  refine h.via hm rfl hu (fun b => nofun) trivial trivial hown.symm (fun k hk => ?_) trivial
    fun k r => nofun
  rw [hk] at hown
  cases hown

theorem nextAcquire {stage : AcquireAt} (hcall : s.call p = .acquiring k stage)
    (ht : s.nextAcquire c p k stage = some t) : Inv isLock t := by
  have hk : isLock k = true := h.places.lock (by rw [hcall]; rfl)
  cases stage with
  | enter =>
    have henter : s.enter c p k (.acquiring k .loop) = some t := ht
    exact h.enter hm hcall henter hk (fun _ _ => trivial) rfl (fun j => nofun) rfl fun j r => nofun
  | loop =>
    simp only [State.nextAcquire] at ht
    split at ht
    case isFalse => cases ht
    case isTrue hsect =>
      obtain ⟨u, hu, rfl⟩ := Option.map_eq_some_iff.mp ht
      cases hlocked : s.locked k with
      | true =>
        exact h.via hm hcall hu (fun b => nofun) hk trivial rfl (fun j => nofun) trivial
          fun j r => nofun
      | false =>
        have hcond : s.kern.cond k = true := by simpa [State.locked] using hlocked
        have hat : At u c p k := by
          rw [exec_test hm hsect hcond hu]
          exact ⟨hm, _, hsect, rfl⟩
        exact h.via hm hcall hu (fun b => nofun) hk hat rfl (fun j => nofun) hlocked
          fun j r => nofun
  | take =>
    obtain ⟨u, hu, rfl⟩ := Option.map_eq_some_iff.mp ht
    have hin : (s.call p).inside = some k := by rw [hcall]; rfl
    obtain ⟨hat, hcond⟩ := exec_change (h.places.at_run hm hin) hu
    exact ⟨h.places.via hm hu hk hat, h.owned.take hk hcall hcond fun q hq =>
      h.places.alone hin (Call.inside_of_vacant hq)⟩
  | setPid =>
    cases ht
    have hown : s.Owns p k := .inr (by rw [hcall]; rfl)
    have hat : At s.kern c p k := h.places.at_run hm (by rw [hcall]; rfl)
    have hset : ∀ q, s.Owns q k → s.call q = .acquiring k .setPid := by
      intro q hq
      rw [h.owned.unique hown hq]
      exact hcall
    refine ⟨(h.places.setLockPid _).setCall hm hk hat, (h.owned.setLockPid (s.pid p) hset).setCall
      hcall rfl (fun j hj => ?_) trivial fun j r => nofun⟩
    cases hj
    exact update_self ..
  | release =>
    obtain ⟨v, hv, rfl⟩ := Option.map_eq_some_iff.mp ht
    obtain ⟨u, hu, rfl⟩ := Option.map_eq_some_iff.mp hv
    have hf := exec_frame h.places.kern hu
    have hcond : u.cond = s.kern.cond := hf.cond fun ⟨b, hb⟩ => nomatch hb
    have hown : s.Owns p k := .inr (by rw [hcall]; rfl)
    have howned : Owned isLock { s with kern := u } := h.owned.setKern fun j _ => by rw [hcond]
    have hplaces : Places isLock (State.setCall { s with kern := u } p .none) :=
      h.places.via hm hu trivial trivial
    have hlive : u.state p ≠ .unused :=
      fun hunused => live_of_run h.places.kern hm ((hf.unused p).mp hunused)
    have hover : Owned isLock ((State.setHeld { s with kern := u } p k true).setCall p .none) :=
      howned.handOver hcall hown (fun j hj => (Option.some.inj hj).symm) rfl rfl (fun j r => nofun)
        nofun
    exact ⟨hplaces.setHeld hlive true, hover⟩

theorem nextRelease {stage : ReleaseAt} (hcall : s.call p = .releasing k stage)
    (ht : s.nextRelease c p k stage = some t) : Inv isLock t := by
  have hk : isLock k = true := h.places.lock (by rw [hcall]; rfl)
  cases stage with
  | enter =>
    have henter : s.enter c p k (.releasing k .clear) = some t := ht
    exact h.enter hm hcall henter hk (fun _ hat => hat) rfl (fun j => nofun) rfl fun j r => nofun
  | clear =>
    obtain ⟨u, hu, rfl⟩ := Option.map_eq_some_iff.mp ht
    obtain ⟨hat, hcond⟩ := exec_change (h.places.at_run hm (by rw [hcall]; rfl)) hu
    exact ⟨h.places.via hm hu hk hat, h.owned.clear hcall hcond⟩
  | clearPid =>
    cases ht
    have hat : At s.kern c p k := h.places.at_run hm (by rw [hcall]; rfl)
    have hfree : s.locked k = false := h.owned.vacant hk (by rw [hcall]; rfl)
    exact ⟨(h.places.setLockPid _).setCall hm hk hat,
      (h.owned.setLockPid 0 fun q hq => absurd hq (h.owned.not_owns hk hfree)).setCall hcall rfl
        (fun j => nofun) trivial fun j r => nofun⟩
  | wake =>
    obtain ⟨u, hu, rfl⟩ := Option.map_eq_some_iff.mp ht
    have hat : At u c p k := exec_wakeup (h.places.at_run hm (by rw [hcall]; rfl)) hu
    exact h.via hm hcall hu (fun b => nofun) hk hat rfl (fun j => nofun) trivial fun j r => nofun
  | release => exact h.leave hm (by rw [hcall]; rfl) ht

end

/-- What `holdingsleep` reads. -/
theorem holds_iff (h : Inv isLock s) (hcall : s.call p = .asking k .read) :
    (s.locked k && s.lockPid k = s.pid p) = true ↔ s.held p k = true := by
  have hk : isLock k = true := h.places.lock (by rw [hcall]; rfl)
  have hin : (s.call p).inside = some k := by rw [hcall]; rfl
  have hheld : s.Owns p k → s.held p k = true := by
    rintro (hp | hp)
    · exact hp
    · rw [hcall] at hp
      cases hp
  rw [Bool.and_eq_true, decide_eq_true_iff]
  constructor
  · rintro ⟨hlocked, hpid⟩
    obtain ⟨q, hq⟩ := (h.owned.locked_iff hk).mp hlocked
    have hset : s.call q ≠ .acquiring k .setPid := by
      intro hset
      -- both would hold the spinlock
      have hqp : q = p := h.places.alone hin (by rw [hset]; rfl)
      subst hqp
      rw [hcall] at hset
      cases hset
    have hlive : s.kern.state q ≠ .unused := by
      rcases hq with hq | hq
      · exact h.places.holds hq
      · refine h.places.live fun hnone => ?_
        rw [hnone] at hq
        cases hq
    have hlive' : s.kern.state p ≠ .unused := h.places.live (by rw [hcall]; exact nofun)
    have hqp : q = p := h.places.pid hlive hlive' ((h.owned.pid hq hset).symm.trans hpid)
    exact hheld (hqp ▸ hq)
  · intro hp
    have hset : s.call p ≠ .acquiring k .setPid := by
      rw [hcall]
      exact nofun
    exact ⟨(h.owned.locked_iff hk).mpr ⟨p, .inl hp⟩, h.owned.pid (.inl hp) hset⟩

theorem nextAsk {stage : AskAt} (h : Inv isLock s) (hm : s.kern.mode c = .run p)
    (hcall : s.call p = .asking k stage) (ht : s.nextAsk c p k stage = some t) :
    Inv isLock t := by
  have hk : isLock k = true := h.places.lock (by rw [hcall]; rfl)
  cases stage with
  | enter =>
    have henter : s.enter c p k (.asking k .read) = some t := ht
    exact h.enter hm hcall henter hk (fun _ hat => hat) rfl (fun j => nofun) rfl fun j r => nofun
  | read =>
    cases ht
    have hat : At s.kern c p k := h.places.at_run hm (by rw [hcall]; rfl)
    refine ⟨h.places.setCall hm hk hat, h.owned.setCall hcall rfl (fun j => nofun) trivial
      fun j r hj => ?_⟩
    cases hj
    exact h.holds_iff hcall
  | release r => exact h.leave hm (by rw [hcall]; rfl) ht

theorem begin {f : Fn} (h : Inv isLock s) (hm : s.kern.mode c = .run p) (hk : isLock k = true)
    (hcall : s.call p = .none) (hheld : f = .releasesleep → s.held p k = true) :
    Inv isLock (s.begin p k f) := by
  cases f with
  | acquiresleep | holdingsleep =>
    exact ⟨h.places.setCall hm hk trivial, h.owned.setCall hcall rfl (fun j => nofun) trivial
      fun j r => nofun⟩
  | releasesleep =>
    exact ⟨(h.places.setHeld (live_of_run h.places.kern hm) false).setCall hm hk trivial,
      h.owned.handOver hcall (.inl (hheld rfl)) (fun j => nofun) rfl rfl (fun j r => nofun) nofun⟩

theorem step {e : Event} (h : Inv isLock s) (ht : SleepLock.step isLock s e = some t) :
    Inv isLock t := by
  cases e with
  | kern c a =>
    simp only [SleepLock.step] at ht
    split at ht
    case isTrue hallow =>
      obtain ⟨u, hu, rfl⟩ := Option.map_eq_some_iff.mp ht
      exact h.setKern hallow hu
    case isFalse => cases ht
  | call c f k =>
    simp only [SleepLock.step] at ht
    split at ht
    case h_1 p hm =>
      split at ht
      case isTrue hok =>
        cases ht
        exact h.begin hm hok.1 hok.2.2.2.1 hok.2.2.2.2
      case isFalse => cases ht
    case h_2 => cases ht
  | next c =>
    simp only [SleepLock.step] at ht
    split at ht
    case h_1 p hm =>
      cases hcall : s.call p with
      | none =>
        rw [hcall] at ht
        cases ht
      | acquiring k stage =>
        rw [hcall] at ht
        exact h.nextAcquire hm hcall ht
      | releasing k stage =>
        rw [hcall] at ht
        exact h.nextRelease hm hcall ht
      | asking k stage =>
        rw [hcall] at ht
        exact h.nextAsk hm hcall ht
    case h_2 => cases ht

end Inv

end Invariant

def unlocked : State where
  kern := { Sleep.booted with cond := fun _ => true }
  lockPid _ := 0
  pid p := p + 1
  call _ := .none
  held _ _ := false

open Sleep (sleeper waker)

/-- `waker` calls `releasesleep`. -/
def releases : List Event :=
  [.call 1 .releasesleep 0] ++ List.replicate 4 (.next 1) ++ List.replicate 192 (.kern 1 .next) ++
    [.next 1]

end Xv6.SleepLock
