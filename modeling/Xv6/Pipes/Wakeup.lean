import Xv6.Pipes.Fifo

/-!
Who sleeps on a pipe.

A reader goes to sleep on an empty ring with the write end open, a writer on a full one
with the read end open (`Pipe.blocked`). Whoever changes that with the lock held owes
the sleepers a wakeup before the lock is free again: `pipewrite` to the readers once it
is in its loop, `piperead` to the writers once it copies. Every path pays this debt but
one: `pipewrite` returns at once when it finds its caller killed, or the read end closed,
also after it has stored bytes. Such a return with a reader asleep, and nothing else,
leaves a process asleep that could go on (`pipe_ends_not_stuck`).
-/

namespace Xv6.Pipes

open Function (update update_self update_of_ne)

/-- What the sleepers on a channel wait to change. -/
def Pipe.blocked (p : Pipe) : Chan → Prop
  | .nread => p.empty ∧ p.writeopen = true
  | .nwrite => p.full ∧ p.readopen = true

instance (p : Pipe) : (chan : Chan) → Decidable (p.blocked chan)
  | .nread => inferInstanceAs (Decidable (_ ∧ _))
  | .nwrite => inferInstanceAs (Decidable (_ ∧ _))

/-- The channel that a process with the lock has to wake up before it gives it up. -/
def Thread.owes : Thread → Option Chan
  | .write _ _ .looping => some .nread
  | .copy _ _ => some .nwrite
  | _ => none

theorem Thread.owes_wake (th : Thread) : th.wake.owes = th.owes := by
  cases th with
  | write n i stage | read n stage => cases stage <;> rfl
  | _ => rfl

theorem Thread.sleepsOn_wake (th : Thread) : th.wake.sleepsOn = none := by
  cases th with
  | write n i stage | read n stage => cases stage <;> rfl
  | _ => rfl

namespace State

/-- No process sleeps on the channel. -/
def Quiet (s : State) (chan : Chan) : Prop := ∀ t, (s.thread t).sleepsOn ≠ some chan

/-- Whoever sleeps has a reason to, if the lock is free. -/
def NoStuck (s : State) : Prop :=
  s.lock = none → ∀ chan t, (s.thread t).sleepsOn = some chan → s.pipe.blocked chan

def owed (s : State) : Option Chan := s.lock.bind fun t => (s.thread t).owes

/-- Sleepers have a reason to sleep, or the lock's holder owes them a wakeup. -/
structure Paid (s : State) : Prop where
  lock_ok : LockOk s.lock s.thread
  quiet : ∀ chan, s.owed ≠ some chan → ¬ s.pipe.blocked chan → s.Quiet chan

variable {s s' : State} {t : ℕ} {th : Thread} {chan : Chan}

theorem Paid.noStuck (h : s.Paid) : s.NoStuck := by
  intro hl chan t ht
  by_contra hb
  have howed : s.owed ≠ some chan := by
    rw [owed, hl]
    simp
  exact h.quiet chan howed hb t ht

theorem owed_of_locked (h : s.lock = some t) : s.owed = (s.thread t).owes := by
  rw [owed, h]
  rfl

theorem owed_of_unlocked (h : s.lock = none) : s.owed = none := by
  rw [owed, h]
  rfl

/-! ### Sleepers after a change -/

theorem quiet_wakeup : (s.wakeup chan).Quiet chan := by
  intro t
  unfold wakeup
  dsimp only
  split
  · rw [Thread.sleepsOn_wake]
    simp
  · assumption

/-- A wakeup puts nobody to sleep. -/
theorem Quiet.wakeup {c : Chan} (h : s.Quiet c) : (s.wakeup chan).Quiet c := by
  intro t
  unfold State.wakeup
  dsimp only
  split
  · rw [Thread.sleepsOn_wake]
    simp
  · exact h t

theorem Quiet.setThread (h : s.Quiet chan) (hth : th.sleepsOn ≠ some chan) :
    (s.setThread t th).Quiet chan := by
  intro u
  by_cases hu : u = t
  · subst hu
    change (update s.thread u th u).sleepsOn ≠ some chan
    rw [update_self]
    exact hth
  · change (update s.thread t th u).sleepsOn ≠ some chan
    rw [update_of_ne hu]
    exact h u

theorem owed_wakeup (chan : Chan) : (s.wakeup chan).owed = s.owed := by
  cases hl : s.lock with
  | none => rw [owed_of_unlocked hl, owed_of_unlocked (s := s.wakeup chan) hl]
  | some t =>
    rw [owed_of_locked hl, owed_of_locked (s := s.wakeup chan) hl]
    unfold wakeup
    dsimp only
    split
    · exact Thread.owes_wake _
    · rfl

/-! ### Steps -/

section

variable (h : s.Paid)
include h

theorem Paid.wakeup (chan : Chan) : (s.wakeup chan).Paid where
  lock_ok := h.lock_ok.congr holds_wakeup
  quiet c howed hb := (h.quiet c (by rw [← owed_wakeup chan]; exact howed) hb).wakeup

/-- A process that does not hold the lock changes, without going to sleep. -/
theorem Paid.setThread (hth : th.sleepsOn = none) (howes : th.owes = (s.thread t).owes)
    (hholds : th.holds = (s.thread t).holds) : (s.setThread t th).Paid where
  lock_ok := h.lock_ok.update hholds
  quiet c howed hb := by
    have hsame : (s.setThread t th).owed = s.owed := by
      cases hl : s.lock with
      | none => rw [owed_of_unlocked hl, owed_of_unlocked (s := s.setThread t th) hl]
      | some u =>
        rw [owed_of_locked hl, owed_of_locked (s := s.setThread t th) hl]
        exact update_same Thread.owes howes u
    apply (h.quiet c (by rw [← hsame]; exact howed) hb).setThread
    rw [hth]
    simp

theorem Paid.acquire (hl : s.lock = none) (hth : th.holds = true)
    (hsleeps : th.sleepsOn = none) : Paid { s.setThread t th with lock := some t } where
  lock_ok := by
    have hlock := h.lock_ok
    rw [hl] at hlock
    exact hlock.acquire hth
  quiet c _ hb := by
    apply (h.quiet c (by rw [owed_of_unlocked hl]; simp) hb).setThread
    rw [hsleeps]
    simp

variable (hl : s.lock = some t)
include hl

/-- The lock's holder gives it up: it has paid what it owes, and if it goes to sleep it
has a reason to. -/
theorem Paid.release (hth : th.holds = false)
    (hpaid : ∀ chan, (s.thread t).owes = some chan → ¬ s.pipe.blocked chan → s.Quiet chan)
    (hsleeps : ∀ chan, th.sleepsOn = some chan → s.pipe.blocked chan) : (s.release t th).Paid where
  lock_ok := by
    have hlock := h.lock_ok
    rw [hl] at hlock
    exact hlock.release hth
  quiet c _ hb := by
    have hquiet : s.Quiet c := by
      by_cases howes : (s.thread t).owes = some c
      · exact hpaid c howes hb
      · exact h.quiet c (by rw [owed_of_locked hl]; exact howes) hb
    exact hquiet.setThread fun hc => hb (hsleeps c hc)

/-- The lock's holder goes on: its debt does not shrink, and for those it owes nothing the
reason to sleep stays. -/
theorem Paid.advance (hth : th.holds = true)
    (hsleeps : th.sleepsOn = none) (howes : ∀ c, (s.thread t).owes = some c → th.owes = some c)
    (hpipe : ∀ c, th.owes ≠ some c → s.pipe.blocked c → s'.pipe.blocked c)
    (hlock : s'.lock = some t) (hthread : s'.thread = update s.thread t th) : s'.Paid where
  lock_ok := by
    rw [hlock, hthread, ← hl]
    exact h.lock_ok.update (hth.trans ((h.lock_ok t).mpr hl).symm)
  quiet c howed hb := by
    have hself : (s'.thread t).owes = th.owes := by rw [hthread, update_self]
    rw [owed_of_locked hlock, hself] at howed
    have hquiet : s.Quiet c := by
      apply h.quiet c
      · rw [owed_of_locked hl]
        exact fun hc => howed (howes c hc)
      · exact fun hb' => hb (hpipe c howed hb')
    have hset : (s.setThread t th).Quiet c := hquiet.setThread (by rw [hsleeps]; simp)
    intro u
    rw [hthread]
    exact hset u

/-- A release after the wakeup that was owed. -/
theorem Paid.wakeup_release (hth : th.holds = false)
    (howes : (s.thread t).owes = some chan)
    (hsleeps : ∀ c, th.sleepsOn = some c → s.pipe.blocked c) :
    ((s.wakeup chan).release t th).Paid := by
  have hsame : ((s.wakeup chan).thread t).owes = some chan := by
    rw [← owed_of_locked (s := s.wakeup chan) hl, owed_wakeup, owed_of_locked hl, howes]
  apply (h.wakeup chan).release hl hth _ hsleeps
  intro c hc _
  rw [hsame] at hc
  cases hc
  exact quiet_wakeup

end

/-- The early return of `pipewrite`: its caller is killed, or the read end is closed. -/
def leavesEarly (s : State) : Action → Bool
  | .run t _ =>
    match s.thread t with
    | .write n i .looping => decide (i < n ∧ (s.pipe.readopen = false ∨ s.killed t))
    | _ => false
  | _ => false

/-- An early return of `pipewrite` finds no process asleep in `piperead` for which there
is something to do. -/
def LeavesQuietly (s : State) (a : Action) : Prop :=
  s.leavesEarly a = true → ∀ u, (s.thread u).sleepsOn = some .nread → s.pipe.blocked .nread

section

variable (h : s.Paid)
include h

theorem Paid.writeLoop {n : ℤ} {i : ℕ} (hth : s.thread t = .write n i .looping)
    {user : Option UInt8} (hquiet : s.LeavesQuietly (.run t user)) :
    (s.writeLoop t n i user).Paid := by
  have hl : s.lock = some t := (h.lock_ok t).mp (by rw [hth]; rfl)
  have howes : (s.thread t).owes = some .nread := by rw [hth]; rfl
  unfold State.writeLoop
  split
  · rename_i hmore
    split
    · rename_i hleave
      have hearly : s.leavesEarly (.run t user) = true := by
        simp only [leavesEarly, hth]
        exact decide_eq_true ⟨hmore, hleave⟩
      refine h.release hl rfl (fun chan hchan hb u hu => ?_) (by simp [Thread.sleepsOn])
      rw [howes] at hchan
      cases hchan
      exact hb (hquiet hearly u hu)
    · rename_i hstay
      split
      · rename_i hfull
        apply h.wakeup_release hl rfl howes
        intro c hc
        cases hc
        exact ⟨hfull, by simpa using fun hclosed => hstay (.inl hclosed)⟩
      · rename_i hfull
        cases user with
        | none => exact h.wakeup_release hl rfl howes (by simp [Thread.sleepsOn])
        | some ch =>
          have hlooping : (Thread.write n (i + 1) .looping).holds = true := rfl
          refine h.advance hl hlooping rfl ?_ ?_ hl rfl
          · intro c hc
            rw [howes] at hc
            exact hc
          · intro c hc hb
            cases c with
            | nread => exact absurd rfl hc
            | nwrite => exact absurd hb.1 hfull
  · exact h.wakeup_release hl rfl howes (by simp [Thread.sleepsOn])

theorem Paid.readLoop {n : ℤ} (hth : s.thread t = .read n .looping) :
    (s.readLoop t n).Paid := by
  have hl : s.lock = some t := (h.lock_ok t).mp (by rw [hth]; rfl)
  have howes : ∀ c, (s.thread t).owes ≠ some c := by
    rw [hth]
    simp [Thread.owes]
  unfold State.readLoop
  split
  · rename_i hwait
    split
    · exact h.release hl rfl (fun c hc => absurd hc (howes c)) (by simp [Thread.sleepsOn])
    · refine h.release hl rfl (fun c hc => absurd hc (howes c)) fun c hc => ?_
      cases hc
      exact hwait
  · exact h.advance hl rfl rfl (fun c hc => absurd hc (howes c)) (fun _ _ hb => hb) hl rfl

theorem Paid.finishRead (hl : s.lock = some t)
    (howes : (s.thread t).owes = some .nwrite) (got : List UInt8) : (s.finishRead t got).Paid := by
  have hout : (Thread.outside got.length).holds = false := rfl
  have hpaid := h.wakeup_release hl hout howes (by simp [Thread.sleepsOn])
  exact ⟨hpaid.lock_ok, hpaid.quiet⟩

theorem Paid.copyLoop {n : ℤ} {got : List UInt8} (hth : s.thread t = .copy n got)
    (mapped : Bool) : (s.copyLoop t n got mapped).Paid := by
  have hl : s.lock = some t := (h.lock_ok t).mp (by rw [hth]; rfl)
  have howes : (s.thread t).owes = some .nwrite := by rw [hth]; rfl
  -- A byte taken from the ring concerns the writers only: no reader sleeps on a ring that
  -- holds one.
  have hdrop (hne : ¬ s.pipe.empty) (th : Thread) (hh : th.holds = true) (hs : th.sleepsOn = none)
      (ho : th.owes = some .nwrite) : Paid { s.setThread t th with pipe := s.pipe.drop } := by
    refine h.advance hl hh hs ?_ ?_ hl rfl
    · intro c hc
      rw [howes] at hc
      rw [ho, hc]
    · intro c hc hb
      cases c with
      | nread => exact absurd hb.1 hne
      | nwrite => exact absurd ho hc
  unfold State.copyLoop
  split
  · rename_i hmore
    split
    · exact hdrop hmore.2 _ rfl rfl rfl
    · have hsame : update s.thread t (s.thread t) = s.thread := Function.update_eq_self ..
      have htaken := hdrop hmore.2 (s.thread t) (by rw [hth]; rfl) (by rw [hth]; rfl) howes
      simp only [State.setThread, hsame] at htaken
      exact htaken.finishRead hl howes got
  · exact h.finishRead hl howes got

theorem Paid.run {user : Option UInt8} (hquiet : s.LeavesQuietly (.run t user))
    (hrun : s.run t user = some s') : s'.Paid := by
  rcases run_eq_some hrun with ⟨th, hholds, -, hsleeps, hl, rfl⟩ | ⟨n, i, hth, rfl⟩ |
    ⟨n, hth, rfl⟩ | ⟨n, got, hth, rfl⟩
  · exact h.acquire hl hholds hsleeps
  · exact h.writeLoop hth hquiet
  · exact h.readLoop hth
  · exact h.copyLoop hth user.isSome

theorem Paid.call (hsleeps : th.sleepsOn = none) (howes : th.owes = none)
    (hth : th.holds = false) (hcall : s.call t th = some s') : s'.Paid := by
  unfold State.call at hcall
  split at hcall
  · rename_i ret hout
    cases hcall
    apply h.setThread hsleeps
    · rw [howes, hout]
      rfl
    · rw [hth, hout]
      rfl
  · cases hcall

theorem Paid.kill (t : ℕ) : (s.kill t).Paid := by
  have hwake := h.setThread (t := t) (Thread.sleepsOn_wake (s.thread t)) (Thread.owes_wake _)
    Thread.holds_wake
  exact ⟨hwake.lock_ok, hwake.quiet⟩

/-- A closed end wakes up those at the other one; nobody else's reason to sleep is
gone. -/
theorem Paid.pipeclose (hl : s.lock = none) (writable : Bool) :
    (s.pipeclose writable).Paid := by
  have hquiet (c : Chan) (hb : ¬ s.pipe.blocked c) : s.Quiet c :=
    h.quiet c (by rw [owed_of_unlocked hl]; simp) hb
  cases writable with
  | true =>
    refine ⟨h.lock_ok.congr holds_wakeup, fun c _ hb => ?_⟩
    cases c with
    | nread => exact quiet_wakeup
    | nwrite => exact Quiet.wakeup (hquiet .nwrite hb)
  | false =>
    refine ⟨h.lock_ok.congr holds_wakeup, fun c _ hb => ?_⟩
    cases c with
    | nread => exact Quiet.wakeup (hquiet .nread hb)
    | nwrite => exact quiet_wakeup

end

/-- An early return that is not quiet leaves a reader asleep. -/
theorem leaves_stuck {user : Option UInt8} (hnot : ¬ s.LeavesQuietly (.run t user)) (hrun : s.run t user = some s') :
    ¬ s'.NoStuck := by
  unfold LeavesQuietly at hnot
  simp only [Classical.not_imp, Classical.not_forall] at hnot
  obtain ⟨hearly, u, hu, hb⟩ := hnot
  intro hstuck
  cases hth : s.thread t with
  | write n i stage =>
    cases stage with
    | looping =>
      have hleave : (i : ℤ) < n ∧ (s.pipe.readopen = false ∨ s.killed t) := by
        simpa [leavesEarly, hth] using hearly
      have hs' : s' = s.release t (.outside (-1)) := by
        simpa [State.run, hth, State.writeLoop, hleave] using hrun.symm
      subst hs'
      have hne : u ≠ t := by
        rintro rfl
        rw [hth] at hu
        cases hu
      have hsame : (s.release t (.outside (-1))).thread u = s.thread u := update_of_ne hne _ _
      exact hb (hstuck rfl .nread u (by rw [hsame, hu]))
    | _ => simp [leavesEarly, hth] at hearly
  | _ => simp [leavesEarly, hth] at hearly

end State

/-! ### Runs -/

theorem State.Paid.step {s s' : State} {a : Action} (h : s.Paid) (hquiet : s.LeavesQuietly a)
    (hstep : exec s a = some s') : s'.Paid := by
  rcases exec_eq_some hstep with ⟨t, n, rfl, hcall⟩ | ⟨t, n, rfl, hcall⟩ | ⟨t, user, rfl, hrun⟩ |
    ⟨writable, rfl, hl, rfl⟩ | ⟨t, rfl, rfl⟩
  · exact h.call rfl rfl rfl hcall
  · exact h.call rfl rfl rfl hcall
  · exact h.run hquiet hrun
  · exact h.pipeclose hl writable
  · exact h.kill t

theorem Init.paid {s : State} (h : Init s) : s.Paid := by
  refine ⟨h.inv.lock_ok, fun chan _ _ t => ?_⟩
  obtain ⟨ret, hret⟩ := h.2.2.1 t
  rw [hret]
  simp [Thread.sleepsOn]

/-- **No stuck pipe ends, up to early returns.** In every run of readers, writers, closes
and kills in which `pipewrite` never returns early while a process sleeps in `piperead`
that has bytes to read or nothing to wait for, whenever the lock is free every process
asleep in `piperead` finds the ring empty and the write end open, and every one asleep in
`pipewrite` the ring full and the read end open. From any state of such a run, exactly
the early returns that do not meet the condition break this. -/
theorem pipe_ends_not_stuck (s : State)
    (hs : Run.ReachableUnder Init (Run.relOf exec) State.LeavesQuietly s) :
    s.NoStuck ∧ ∀ a s', exec s a = some s' → (s'.NoStuck ↔ s.LeavesQuietly a) := by
  have hpaid : s.Paid :=
    hs.invariant State.Paid (fun _ => Init.paid) fun _ _ _ h hquiet hstep => h.step hquiet hstep
  refine ⟨hpaid.noStuck, fun a s' hstep => ⟨fun hstuck => ?_, fun hquiet => ?_⟩⟩
  · by_contra hnot
    rcases exec_eq_some hstep with ⟨t, n, rfl, -⟩ | ⟨t, n, rfl, -⟩ | ⟨t, user, rfl, hrun⟩ |
      ⟨writable, rfl, -, -⟩ | ⟨t, rfl, -⟩
    case inr.inr.inl => exact State.leaves_stuck hnot hrun hstuck
    all_goals exact hnot fun hearly => by cases hearly
  · exact (hpaid.step hquiet hstep).noStuck

/-- A writer that is killed before it has stored anything leaves a sleeping reader with
nothing to read. -/
theorem pipe_ends_not_stuck_killedEmpty :
    ∃ s : State, s.lock = none ∧ s.thread 1 = .read 1 .sleeping ∧ s.NoStuck ∧
      ∀ a s', exec s a = some s' → (s'.NoStuck ↔ s.LeavesQuietly a) := by
  obtain ⟨s, hs, hlock, hthread⟩ : ∃ s, Run.ReachableUnder Init (Run.relOf exec)
      (fun s a => s.leavesEarly a = true → s.pipe.blocked .nread) s ∧ s.lock = none ∧
        s.thread 1 = .read 1 .sleeping :=
    Run.exists_reachableUnder [.piperead 1 1, .run 1 none, .run 1 none, .pipewrite 0 2, .kill 0,
      .run 0 none, .run 0 none] fresh_init (by decide +kernel)
  exact ⟨s, hlock, hthread, pipe_ends_not_stuck s (hs.mono fun _ _ hquiet hearly _ _ => hquiet hearly)⟩

/-- A writer is killed after its first byte: it returns without a wakeup, and the reader
sleeps on although the byte is there and the write end is open. -/
theorem killed_writer_leaves_reader_asleep :
    ∃ s, Run.Reachable Init (Run.relOf exec) s ∧ s.lock = none ∧
      s.thread 1 = .read 1 .sleeping ∧ s.pipe.buffered = [97] ∧ s.pipe.writeopen = true ∧
      ¬ s.NoStuck := by
  obtain ⟨s, hreach, hlock, hthread, hbuffered, hopen, hblocked⟩ :
      ∃ s, Run.Reachable Init (Run.relOf exec) s ∧ s.lock = none ∧ s.thread 1 = .read 1 .sleeping ∧
        s.pipe.buffered = [97] ∧ s.pipe.writeopen = true ∧ ¬ s.pipe.blocked .nread :=
    Run.exists_reachable [.piperead 1 1, .run 1 none, .run 1 none, .pipewrite 0 2, .run 0 none,
      .run 0 (some 97), .kill 0, .run 0 (some 98)] fresh_init (by decide +kernel)
  refine ⟨s, hreach, hlock, hthread, hbuffered, hopen, fun hstuck => ?_⟩
  exact hblocked (hstuck hlock .nread 1 (by rw [hthread]; rfl))

end Xv6.Pipes
