import Xv6.Pipes.Model

/-!
Pipes as queues.

The bytes `pipewrite` has accepted are those `piperead` has reported, followed by those
still in the ring. `piperead` takes a byte out of the ring before it tries to copy it to
the user, and does not put it back when the page is not mapped: such a step, and no
other, loses a byte (`pipe_fifo`).
-/

namespace Xv6.Pipes

open Function (update update_self update_of_ne)

/-! ### The ring -/

namespace Pipe

/-- The number of bytes in the ring, `nwrite - nread` as a `uint`. -/
def count (p : Pipe) : ℕ := (p.nwrite - p.nread).toNat

/-- The bytes in the ring, the next one to be read first. -/
def buffered (p : Pipe) : List UInt8 :=
  Ring.window PIPESIZE p.data (p.nread.toNat % PIPESIZE) p.count

variable {p : Pipe}

theorem wraps : Ring.Wraps PIPESIZE 32 := ⟨by decide, by decide, by decide⟩

theorem count_eq_zero : p.count = 0 ↔ p.empty := Ring.dist_eq_zero

theorem count_lt_of_not_full (h : p.count ≤ PIPESIZE) (hfull : ¬ p.full) : p.count < PIPESIZE := by
  refine Nat.lt_of_le_of_ne h fun heq => hfull ?_
  unfold count PIPESIZE at heq
  unfold full PIPESIZE
  bv_omega

theorem count_put (ch : UInt8) (h : p.count < PIPESIZE) : (p.put ch).count = p.count + 1 :=
  Ring.dist_succ wraps h

theorem count_drop (h : ¬ p.empty) : p.drop.count + 1 = p.count := Ring.dist_pred wraps h

theorem buffered_put (ch : UInt8) (h : p.count < PIPESIZE) :
    (p.put ch).buffered = p.buffered ++ [ch] :=
  Ring.between_put wraps h p.data ch

theorem buffered_eq_cons (h : p.count ≤ PIPESIZE) (hne : ¬ p.empty) :
    p.buffered = p.front :: p.drop.buffered :=
  Ring.between_cons wraps hne h p.data

end Pipe

/-! ### Who holds the lock -/

namespace Thread

/-- The process is at a point where it holds `pi->lock`. -/
def holds : Thread → Bool
  | .write _ _ .looping | .read _ .looping | .copy _ _ => true
  | _ => false

/-- The bytes that a call in its copy loop has delivered. -/
def delivered : Thread → List UInt8
  | .copy _ got => got
  | _ => []

variable {th : Thread}

@[simp] theorem holds_wake : th.wake.holds = th.holds := by
  cases th with
  | write n i stage | read n stage => cases stage <;> rfl
  | _ => rfl

@[simp] theorem delivered_wake : th.wake.delivered = th.delivered := by
  cases th with
  | write n i stage | read n stage => cases stage <;> rfl
  | _ => rfl

end Thread

/-- The lock's holder is the process that is in a critical section. -/
def LockOk (lock : Option ℕ) (thread : ℕ → Thread) : Prop :=
  ∀ t, (thread t).holds = true ↔ lock = some t

section LockOk

variable {lock : Option ℕ} {thread : ℕ → Thread} {t : ℕ} {th : Thread}

theorem LockOk.not_holds (h : LockOk none thread) (t : ℕ) : (thread t).holds = false := by
  apply Bool.eq_false_iff.mpr
  intro ht
  cases (h t).mp ht

/-- A process goes on without taking or giving up the lock. -/
theorem LockOk.update (h : LockOk lock thread) (hth : th.holds = (thread t).holds) :
    LockOk lock (update thread t th) := by
  intro u
  rw [update_same Thread.holds hth]
  exact h u

theorem LockOk.acquire (h : LockOk none thread) (hth : th.holds = true) :
    LockOk (some t) (Function.update thread t th) := by
  intro u
  by_cases hu : u = t
  · subst hu
    simp [hth]
  · rw [update_of_ne hu, h.not_holds u]
    simp [Ne.symm hu]

theorem LockOk.release (h : LockOk (some t) thread) (hth : th.holds = false) :
    LockOk none (Function.update thread t th) := by
  intro u
  by_cases hu : u = t
  · subst hu
    simp [hth]
  · rw [update_of_ne hu, h u]
    simp [Ne.symm hu]

/-- Only who holds the lock matters. -/
theorem LockOk.congr {thread' : ℕ → Thread} (h : LockOk lock thread)
    (hth : ∀ u, (thread' u).holds = (thread u).holds) : LockOk lock thread' := by
  intro u
  rw [hth]
  exact h u

end LockOk

/-! ### Reported bytes -/

namespace State

/-- The bytes that `piperead` calls report, the first `i` of the call in its copy loop
last. -/
def reported (s : State) : List UInt8 :=
  s.reads.flatten ++ s.lock.elim [] fun t => (s.thread t).delivered

/-- The ring holds at most `PIPESIZE` bytes, and what was accepted is what was reported
and what is still buffered. -/
structure Fifo (s : State) : Prop where
  bounded : s.pipe.count ≤ PIPESIZE
  lossless : s.accepted = s.reported ++ s.pipe.buffered

structure Inv (s : State) : Prop extends Fifo s where
  lock_ok : LockOk s.lock s.thread

variable {s s' : State} {t : ℕ} {th : Thread} {chan : Chan}

theorem holds_wakeup (u : ℕ) : ((s.wakeup chan).thread u).holds = (s.thread u).holds := by
  unfold wakeup
  dsimp only
  split
  · exact Thread.holds_wake
  · rfl

theorem delivered_wakeup (chan : Chan) (u : ℕ) :
    ((s.wakeup chan).thread u).delivered = (s.thread u).delivered := by
  unfold wakeup
  dsimp only
  split
  · exact Thread.delivered_wake
  · rfl

theorem reported_of_unlocked (h : s.lock = none) : s.reported = s.reads.flatten := by
  rw [reported, h]
  exact List.append_nil _

theorem reported_of_locked (h : s.lock = some t) :
    s.reported = s.reads.flatten ++ (s.thread t).delivered := by
  rw [reported, h]
  rfl

/-! ### Steps that leave the ring alone -/

variable {n : ℤ} {got : List UInt8}

section

variable (h : s.Inv)
include h

/-- Nothing is read or written, and the same call, if any, is in its copy loop. -/
theorem Inv.idle (hpipe : s'.pipe.buffered = s.pipe.buffered)
    (hcount : s'.pipe.count = s.pipe.count) (hacc : s'.accepted = s.accepted)
    (hrep : s'.reported = s.reported) (hlock : LockOk s'.lock s'.thread) : s'.Inv where
  bounded := by rw [hcount]; exact h.bounded
  lossless := by rw [hacc, hrep, hpipe]; exact h.lossless
  lock_ok := hlock

theorem Inv.wakeup (chan : Chan) : (s.wakeup chan).Inv := by
  refine h.idle rfl rfl rfl ?_ ?_
  · cases hl : s.lock with
    | none =>
      rw [reported_of_unlocked hl]
      exact reported_of_unlocked hl
    | some u =>
      rw [reported_of_locked hl, ← delivered_wakeup chan u]
      exact reported_of_locked hl
  · exact h.lock_ok.congr holds_wakeup

/-- A process outside of the critical sections changes. -/
theorem Inv.setThread (hold : (s.thread t).holds = false) (hth : th.holds = false) :
    (s.setThread t th).Inv := by
  refine h.idle rfl rfl rfl ?_ ?_
  · cases hl : s.lock with
    | none =>
      rw [reported_of_unlocked hl]
      exact reported_of_unlocked hl
    | some u =>
      have hne : u ≠ t := by
        rintro rfl
        rw [(h.lock_ok u).mpr hl] at hold
        cases hold
      have hother : (s.setThread t th).thread u = s.thread u := update_of_ne hne _ _
      rw [reported_of_locked hl, ← hother]
      exact reported_of_locked hl
  · exact h.lock_ok.update (hth.trans hold.symm)

theorem Inv.acquire (hl : s.lock = none) (hth : th.holds = true) (hgot : th.delivered = []) :
    Inv { s.setThread t th with lock := some t } := by
  refine h.idle rfl rfl rfl ?_ ?_
  · have hself : (s.setThread t th).thread t = th := update_self ..
    rw [reported_of_unlocked hl]
    refine (reported_of_locked rfl).trans ?_
    change s.reads.flatten ++ ((s.setThread t th).thread t).delivered = _
    rw [hself, hgot, List.append_nil]
  · have hlock := h.lock_ok
    rw [hl] at hlock
    exact hlock.acquire hth

/-- The lock's holder gives it up, having delivered nothing since its call last
returned. -/
theorem Inv.release (hl : s.lock = some t) (hgot : (s.thread t).delivered = [])
    (hth : th.holds = false) : (s.release t th).Inv := by
  refine h.idle rfl rfl rfl ?_ ?_
  · rw [reported_of_locked hl, hgot, List.append_nil]
    exact reported_of_unlocked rfl
  · have hlock := h.lock_ok
    rw [hl] at hlock
    exact hlock.release hth

/-- The lock's holder goes on within its critical section. -/
theorem Inv.advance (hl : s.lock = some t) (hth : th.holds = true)
    (hgot : th.delivered = (s.thread t).delivered) : (s.setThread t th).Inv := by
  have hself : (s.setThread t th).thread t = th := update_self ..
  refine h.idle rfl rfl rfl ?_ ?_
  · rw [reported_of_locked hl, reported_of_locked (s := s.setThread t th) hl, hself, hgot]
    rfl
  · exact h.lock_ok.update (hth.trans ((h.lock_ok t).mpr hl).symm)

/-! ### The calls -/

theorem Inv.finishWrite (hl : s.lock = some t) (hgot : (s.thread t).delivered = []) (i : ℕ) :
    (s.finishWrite t i).Inv := by
  apply (h.wakeup .nread).release hl _ rfl
  rw [delivered_wakeup, hgot]

theorem Inv.writeLoop {i : ℕ} (hth : s.thread t = .write n i .looping) (user : Option UInt8) :
    (s.writeLoop t n i user).Inv := by
  have hl : s.lock = some t := (h.lock_ok t).mp (by rw [hth]; rfl)
  have hgot : (s.thread t).delivered = [] := by rw [hth]; rfl
  unfold State.writeLoop
  split
  · split
    · exact h.release hl hgot rfl
    · split
      · apply (h.wakeup .nread).release hl _ rfl
        rw [delivered_wakeup, hgot]
      · rename_i hfull
        cases user with
        | none => exact h.finishWrite hl hgot i
        | some ch =>
          have hcount := Pipe.count_lt_of_not_full h.bounded hfull
          have hlooping : (Thread.write n (i + 1) .looping).holds = true := rfl
          have hnext := h.advance hl hlooping hgot.symm
          constructor
          · constructor
            · exact (Pipe.count_put ch hcount).symm ▸ hcount
            · have hacc : s.accepted = (s.setThread t (.write n (i + 1) .looping)).reported ++
                  s.pipe.buffered := hnext.lossless
              change s.accepted ++ [ch] = (s.setThread t (.write n (i + 1) .looping)).reported ++
                (s.pipe.put ch).buffered
              rw [Pipe.buffered_put ch hcount, hacc, List.append_assoc]
          · exact hnext.lock_ok
  · exact h.finishWrite hl hgot i

theorem Inv.readLoop (hth : s.thread t = .read n .looping) : (s.readLoop t n).Inv := by
  have hl : s.lock = some t := (h.lock_ok t).mp (by rw [hth]; rfl)
  have hgot : (s.thread t).delivered = [] := by rw [hth]; rfl
  unfold State.readLoop
  split
  · split
    · exact h.release hl hgot rfl
    · exact h.release hl hgot rfl
  · exact h.advance hl rfl hgot.symm

/-- A call that returns reports what it has delivered. -/
theorem Inv.finishRead (hth : s.thread t = .copy n got) :
    (s.finishRead t got).Inv := by
  have hl : s.lock = some t := (h.lock_ok t).mp (by rw [hth]; rfl)
  refine h.idle rfl rfl rfl ?_ ?_
  · rw [reported_of_locked hl, hth]
    refine (reported_of_unlocked rfl).trans ?_
    change (s.reads ++ [got]).flatten = _
    simp [Thread.delivered]
  · have hlock := (h.wakeup .nwrite).lock_ok
    change LockOk s.lock _ at hlock
    rw [hl] at hlock
    exact hlock.release rfl

/-- A byte moves from the ring to the user. -/
theorem Inv.deliver (hth : s.thread t = .copy n got) (hne : ¬ s.pipe.empty) :
    Inv { s.setThread t (.copy n (got ++ [s.pipe.front])) with pipe := s.pipe.drop } := by
  have hl : s.lock = some t := (h.lock_ok t).mp (by rw [hth]; rfl)
  have hcount := Pipe.count_drop hne
  have hbound := h.bounded
  constructor
  · constructor
    · change s.pipe.drop.count ≤ PIPESIZE
      omega
    · have hself : (s.setThread t (.copy n (got ++ [s.pipe.front]))).thread t =
          .copy n (got ++ [s.pipe.front]) := update_self ..
      change s.accepted = (s.setThread t (.copy n (got ++ [s.pipe.front]))).reported ++
        s.pipe.drop.buffered
      rw [h.lossless, reported_of_locked hl, hth, Pipe.buffered_eq_cons hbound hne,
        reported_of_locked (s := s.setThread t _) hl, hself]
      simp [Thread.delivered, State.setThread]
  · exact h.lock_ok.update (by rw [hth]; rfl)

end

/-- The step is a `copyout` of `piperead` that finds the user page not mapped. -/
def failsCopyout (s : State) : Action → Bool
  | .run t none =>
    match s.thread t with
    | .copy n got => decide (got.length < n ∧ ¬ s.pipe.empty)
    | _ => false
  | _ => false

variable {user : Option UInt8}

theorem Inv.copyLoop (h : s.Inv) (hth : s.thread t = .copy n got)
    (hcopy : s.failsCopyout (.run t user) = false) :
    (s.copyLoop t n got user.isSome).Inv := by
  unfold State.copyLoop
  split
  · rename_i hmore
    cases user with
    | none =>
      unfold failsCopyout at hcopy
      simp [hth, hmore] at hcopy
    | some ch => exact h.deliver hth hmore.2
  · exact h.finishRead hth

/-- A byte that could not be copied out is gone: neither reported nor buffered. -/
theorem Inv.loses (h : s.Inv) (hfails : s.failsCopyout (.run t none) = true)
    (hrun : s.run t none = some s') : ¬ s'.Fifo := by
  cases hth : s.thread t with
  | copy n got =>
    have hmore : (got.length : ℤ) < n ∧ ¬ s.pipe.empty := by
      simpa [failsCopyout, hth] using hfails
    have hl : s.lock = some t := (h.lock_ok t).mp (by rw [hth]; rfl)
    have hs' : s' = State.finishRead { s with pipe := s.pipe.drop } t got := by
      simpa [State.run, hth, State.copyLoop, hmore] using hrun.symm
    intro hfifo
    have hafter : s.accepted = s'.reported ++ s.pipe.drop.buffered := by
      rw [hs'] at hfifo ⊢
      exact hfifo.lossless
    rw [reported_of_unlocked (by rw [hs']; rfl), h.lossless, reported_of_locked hl, hth,
      Pipe.buffered_eq_cons h.bounded hmore.2, hs'] at hafter
    have hlength := congrArg List.length hafter
    simp [Thread.delivered, State.finishRead] at hlength
  | _ => simp [failsCopyout, hth] at hfails

/-- What a turn of process `t` does. -/
theorem run_eq_some (h : s.run t user = some s') :
    (∃ th, th.holds = true ∧ th.delivered = [] ∧ th.sleepsOn = none ∧ s.lock = none ∧
      s' = { s.setThread t th with lock := some t }) ∨
    (∃ n i, s.thread t = .write n i .looping ∧ s' = s.writeLoop t n i user) ∨
    (∃ n, s.thread t = .read n .looping ∧ s' = s.readLoop t n) ∨
    (∃ n got, s.thread t = .copy n got ∧ s' = s.copyLoop t n got user.isSome) := by
  unfold State.run at h
  split at h
  case h_1 | h_2 =>
    simp only [Option.ite_none_right_eq_some, Option.some.injEq] at h
    exact .inl ⟨_, rfl, rfl, rfl, h.1, h.2.symm⟩
  case h_3 n i hth =>
    cases h
    exact .inr (.inl ⟨n, i, hth, rfl⟩)
  case h_4 n hth =>
    cases h
    exact .inr (.inr (.inl ⟨n, hth, rfl⟩))
  case h_5 n got hth =>
    cases h
    exact .inr (.inr (.inr ⟨n, got, hth, rfl⟩))
  case h_6 => cases h

theorem Inv.run (h : s.Inv) (hcopy : s.failsCopyout (.run t user) = false)
    (hrun : s.run t user = some s') : s'.Inv := by
  rcases run_eq_some hrun with ⟨th, hholds, hgot, -, hl, rfl⟩ | ⟨n, i, hth, rfl⟩ | ⟨n, hth, rfl⟩ |
    ⟨n, got, hth, rfl⟩
  · exact h.acquire hl hholds hgot
  · exact h.writeLoop hth user
  · exact h.readLoop hth
  · exact h.copyLoop hth hcopy

theorem Inv.pipeclose (h : s.Inv) (writable : Bool) : (s.pipeclose writable).Inv := by
  unfold State.pipeclose
  split
  · apply Inv.wakeup
    exact h.idle rfl rfl rfl rfl h.lock_ok
  · apply Inv.wakeup
    exact h.idle rfl rfl rfl rfl h.lock_ok

theorem Inv.kill (h : s.Inv) (t : ℕ) : (s.kill t).Inv := by
  by_cases hold : (s.thread t).holds = true
  · have hl := (h.lock_ok t).mp hold
    have hwake : (s.setThread t (s.thread t).wake).Inv :=
      h.advance hl (Thread.holds_wake.trans hold) Thread.delivered_wake
    exact hwake.idle rfl rfl rfl rfl hwake.lock_ok
  · have hold := Bool.eq_false_iff.mpr hold
    have hwake : (s.setThread t (s.thread t).wake).Inv :=
      h.setThread hold (Thread.holds_wake.trans hold)
    exact hwake.idle rfl rfl rfl rfl hwake.lock_ok

theorem Inv.call (h : s.Inv) (hth : th.holds = false) (hcall : s.call t th = some s') : s'.Inv := by
  unfold State.call at hcall
  split at hcall
  · rename_i ret hout
    cases hcall
    exact h.setThread (by rw [hout]; rfl) hth
  · cases hcall

end State

/-! ### Runs -/

variable {s s' : State} {a : Action}

/-- What an enabled action does. -/
theorem exec_eq_some (h : exec s a = some s') :
    (∃ t n, a = .pipewrite t n ∧ s.call t (.write n 0 .acquiring) = some s') ∨
    (∃ t n, a = .piperead t n ∧ s.call t (.read n .acquiring) = some s') ∨
    (∃ t user, a = .run t user ∧ s.run t user = some s') ∨
    (∃ writable, a = .pipeclose writable ∧ s.lock = none ∧ s' = s.pipeclose writable) ∨
    (∃ t, a = .kill t ∧ s' = s.kill t) := by
  unfold exec at h
  split at h
  · cases h
  · cases a with
    | pipewrite t n => exact .inl ⟨t, n, rfl, h⟩
    | piperead t n => exact .inr (.inl ⟨t, n, rfl, h⟩)
    | run t user => exact .inr (.inr (.inl ⟨t, user, rfl, h⟩))
    | pipeclose writable =>
      simp only [Option.ite_none_right_eq_some, Option.some.injEq] at h
      exact .inr (.inr (.inr (.inl ⟨writable, rfl, h.1, h.2.symm⟩)))
    | kill t =>
      cases h
      exact .inr (.inr (.inr (.inr ⟨t, rfl, rfl⟩)))

theorem State.Inv.step (h : s.Inv) (hcopy : s.failsCopyout a = false)
    (hstep : exec s a = some s') : s'.Inv := by
  rcases exec_eq_some hstep with ⟨t, n, rfl, hcall⟩ | ⟨t, n, rfl, hcall⟩ | ⟨t, user, rfl, hrun⟩ |
    ⟨writable, rfl, -, rfl⟩ | ⟨t, rfl, rfl⟩
  · exact h.call rfl hcall
  · exact h.call rfl hcall
  · exact h.run hcopy hrun
  · exact h.pipeclose writable
  · exact h.kill t

/-- A step leaves the counters alone, or stores in a ring that is not full, or takes from
one that is not empty. -/
theorem exec_counters (h : exec s a = some s') :
    s'.pipe.count = s.pipe.count ∨ (∃ ch, ¬ s.pipe.full ∧ s'.pipe = s.pipe.put ch) ∨
      ¬ s.pipe.empty ∧ s'.pipe = s.pipe.drop := by
  rcases exec_eq_some h with ⟨t, n, rfl, hcall⟩ | ⟨t, n, rfl, hcall⟩ | ⟨t, user, rfl, hrun⟩ |
    ⟨writable, rfl, -, rfl⟩ | ⟨t, rfl, rfl⟩
  · unfold State.call at hcall
    split at hcall
    · cases hcall
      exact .inl rfl
    · cases hcall
  · unfold State.call at hcall
    split at hcall
    · cases hcall
      exact .inl rfl
    · cases hcall
  · rcases State.run_eq_some hrun with ⟨th, -, -, -, -, rfl⟩ | ⟨n, i, -, rfl⟩ | ⟨n, -, rfl⟩ |
      ⟨n, got, -, rfl⟩
    · exact .inl rfl
    · unfold State.writeLoop
      split
      · split
        · exact .inl rfl
        · split
          · exact .inl rfl
          · rename_i hfull
            cases user with
            | none => exact .inl rfl
            | some ch => exact .inr (.inl ⟨ch, hfull, rfl⟩)
      · exact .inl rfl
    · unfold State.readLoop
      split
      · split
        · exact .inl rfl
        · exact .inl rfl
      · exact .inl rfl
    · unfold State.copyLoop
      split
      · rename_i hmore
        split
        · exact .inr (.inr ⟨hmore.2, rfl⟩)
        · exact .inr (.inr ⟨hmore.2, rfl⟩)
      · exact .inl rfl
  · unfold State.pipeclose
    split
    · exact .inl rfl
    · exact .inl rfl
  · exact .inl rfl

theorem exec_count_le (hcount : s.pipe.count ≤ PIPESIZE)
    (h : exec s a = some s') : s'.pipe.count ≤ PIPESIZE := by
  rcases exec_counters h with hsame | ⟨ch, hfull, hput⟩ | ⟨hne, hdrop⟩
  · rw [hsame]
    exact hcount
  · have hlt := Pipe.count_lt_of_not_full hcount hfull
    rw [hput, Pipe.count_put ch hlt]
    exact hlt
  · have hlt := Pipe.count_drop hne
    rw [hdrop]
    omega

theorem Init.inv {s : State} (h : Init s) : s.Inv := by
  obtain ⟨⟨data, hpipe⟩, hlock, hthread, hacc, hreads⟩ := h
  have hcount : s.pipe.count = 0 := Pipe.count_eq_zero.mpr (by rw [hpipe]; rfl)
  constructor
  · constructor
    · omega
    · have hempty : s.pipe.buffered = [] := by rw [Pipe.buffered, hcount]; rfl
      rw [hacc, State.reported_of_unlocked hlock, hreads, hempty]
      rfl
  · intro t
    obtain ⟨ret, hret⟩ := hthread t
    rw [hret, hlock]
    simp [Thread.holds]

/-- **Pipes are lossless FIFOs up to failed copies.** The ring never holds more than
`PIPESIZE` bytes. In every run of readers, writers, closes and kills in which every
`copyout` of `piperead` finds its page mapped, the accepted bytes are the reported ones
followed by the buffered ones. From any state of such a run, exactly the failed
`copyout`s break this. -/
theorem pipe_fifo (s : State) :
    (Run.Reachable Init (Run.relOf exec) s → s.pipe.count ≤ PIPESIZE) ∧
    (Run.ReachableUnder Init (Run.relOf exec) (fun s a => s.failsCopyout a = false) s →
      s.Fifo ∧ ∀ a s', exec s a = some s' → (s'.Fifo ↔ s.failsCopyout a = false)) := by
  have hinv : Run.ReachableUnder Init (Run.relOf exec)
      (fun s a => s.failsCopyout a = false) s → s.Inv := fun hs =>
    hs.invariant State.Inv (fun _ => Init.inv) fun _ _ _ h hcopy hstep => h.step hcopy hstep
  refine ⟨fun hs => ?_, fun hs => ⟨(hinv hs).toFifo,
    fun a s' hstep => ⟨fun hfifo => ?_, fun hcopy => ?_⟩⟩⟩
  · exact hs.invariant (fun s => s.pipe.count ≤ PIPESIZE) (fun _ h => h.inv.bounded)
      fun _ _ _ hcount _ hstep => exec_count_le hcount hstep
  · by_contra hfails
    have hfails := (Bool.not_eq_false _).mp hfails
    rcases exec_eq_some hstep with ⟨t, n, rfl, -⟩ | ⟨t, n, rfl, -⟩ | ⟨t, user, rfl, hrun⟩ |
      ⟨writable, rfl, -, -⟩ | ⟨t, rfl, -⟩
    case inr.inr.inl =>
      cases user with
      | none => exact (hinv hs).loses hfails hrun hfifo
      | some ch => cases hfails
    all_goals cases hfails
  · exact ((hinv hs).step hcopy hstep).toFifo

/-- A pipe that has just been made. -/
def fresh : State := ⟨.alloc fun _ => 0, none, fun _ => .outside 0, fun _ => false, [], []⟩

theorem fresh_init : Init fresh := ⟨⟨_, rfl⟩, rfl, fun _ => ⟨0, rfl⟩, rfl, rfl⟩

/-- Of two bytes written, one has been read. -/
theorem pipe_fifo_oneOfTwo :
    ∃ s : State, s.reported = [97] ∧ s.pipe.buffered = [98] ∧ s.Fifo ∧
      ∀ a s', exec s a = some s' → (s'.Fifo ↔ s.failsCopyout a = false) := by
  obtain ⟨s, hreach, hreported, hbuffered⟩ :
      ∃ s, Run.ReachableUnder Init (Run.relOf exec) (fun s a => s.failsCopyout a = false) s ∧
        s.reported = [97] ∧ s.pipe.buffered = [98] :=
    Run.exists_reachableUnder [.pipewrite 0 2, .piperead 1 1, .run 0 none, .run 0 (some 97),
      .run 0 (some 98), .run 0 none, .run 1 none, .run 1 none, .run 1 (some 0)] fresh_init
      (by decide +kernel)
  exact ⟨s, hreported, hbuffered, (pipe_fifo s).2 hreach⟩

/-- The byte of a `piperead` whose user page is not mapped is lost: it was accepted, but
is neither reported nor buffered. -/
theorem unmapped_read_loses_byte :
    ∃ s, Run.Reachable Init (Run.relOf exec) s ∧ s.accepted = [97] ∧ s.reads = [[]] ∧
      s.reported = [] ∧ s.pipe.buffered = [] ∧ ¬ s.Fifo := by
  obtain ⟨s, hreach, haccepted, hreads, hreported, hbuffered⟩ :
      ∃ s, Run.Reachable Init (Run.relOf exec) s ∧ s.accepted = [97] ∧ s.reads = [[]] ∧
        s.reported = [] ∧ s.pipe.buffered = [] :=
    Run.exists_reachable [.pipewrite 0 1, .run 0 none, .run 0 (some 97), .run 0 none, .piperead 1 1,
      .run 1 none, .run 1 none, .run 1 none] fresh_init (by decide +kernel)
  refine ⟨s, hreach, haccepted, hreads, hreported, hbuffered, fun hfifo => ?_⟩
  have hlossless := hfifo.lossless
  rw [haccepted, hreported, hbuffered] at hlossless
  cases hlossless

end Xv6.Pipes
