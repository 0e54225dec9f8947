import Xv6.Lib.Run
import Xv6.Sched.Locks

/-!
Any number of CPUs, each in its own `scheduler` loop or in a process it switched to.

The machine keeps `p->state`, the CPU that holds each `p->lock`, and what each CPU
is doing. A round's steps are those of `Round.events`: an `acquire` waits until the
lock is free and finds the slot as it then is. A process switched to believes it
holds its own lock; it releases it (`forkret`, or the end of `yield` and `sleep`),
may take it again, and calls `sched` with it. `release` of a lock the CPU does not
hold, `acquire` of one it holds and `sched` without the process's lock panic.
Everything else that changes a process state (`fork`, `wakeup`, `kill`, `wait`)
does so under the slot's lock, and neither finds nor leaves the slot RUNNING.

While no round finds a late tie, nothing panics and no process runs on two CPUs.
-/

namespace Xv6.Sched.Cpus

open Function (update update_of_ne update_self)

/-- What a CPU is doing: the rest of a scheduler round, or a process switched to in
the middle of one. `locked` is whether the process's code has its own lock. -/
inductive Doing where
  | scheduling (todo : List Event)
  | process (p : ℕ) (locked : Bool) (todo : List Event)

/-- `c->proc`. -/
def Doing.running : Doing → Option ℕ
  | scheduling _ => none
  | process p _ _ => some p

structure Machine where
  state : ℕ → ProcState
  owner : ℕ → Option ℕ
  cpu : ℕ → Doing
  panicked : Bool

inductive Action where
  /-- `scheduler` begins its next round. -/
  | startRound (c : ℕ) (r : Round)
  /-- The next step of the round of CPU `c`. -/
  | scheduler (c : ℕ)
  /-- The process on CPU `c` releases its own lock. -/
  | release (c : ℕ)
  /-- The process on CPU `c` acquires its own lock. -/
  | acquire (c : ℕ)
  /-- The process on CPU `c` sets its state and calls `sched`. -/
  | sched (c : ℕ) (st : ProcState)
  /-- A state change under the lock of a slot that is not running. -/
  | change (p : ℕ) (st : ProcState)

namespace Machine

def panic (m : Machine) : Machine := { m with panicked := true }

/-- CPU `c` takes the lock of `p` and goes on with `next`. -/
def take (m : Machine) (c p : ℕ) (next : Doing) : Machine :=
  { m with owner := update m.owner p (some c), cpu := update m.cpu c next }

/-- CPU `c` drops the lock of `p` and goes on with `next`. -/
def drop (m : Machine) (c p : ℕ) (next : Doing) : Machine :=
  { m with owner := update m.owner p none, cpu := update m.cpu c next }

/-- The state of `p` changes as CPU `c` goes on with `next`. -/
def switch (m : Machine) (c p : ℕ) (st : ProcState) (next : Doing) : Machine :=
  { m with state := update m.state p st, cpu := update m.cpu c next }

end Machine

def exec (m : Machine) : Action → Option Machine
  | .startRound c r =>
    match m.cpu c with
    | .scheduling [] => some { m with cpu := update m.cpu c (.scheduling r.events) }
    | _ => none
  | .scheduler c =>
    match m.cpu c with
    | .scheduling (.acquire p seen :: todo) =>
      if m.owner p = some c then some m.panic
      else if m.owner p = none ∧ m.state p = seen.state then
        some (m.take c p (.scheduling todo))
      else none
    | .scheduling (.release p :: todo) =>
      if m.owner p = some c then some (m.drop c p (.scheduling todo)) else some m.panic
    | .scheduling (.run p :: todo) => some (m.switch c p .running (.process p true todo))
    | _ => none
  | .release c =>
    match m.cpu c with
    | .process p true todo =>
      if m.owner p = some c then some (m.drop c p (.process p false todo)) else some m.panic
    | _ => none
  | .acquire c =>
    match m.cpu c with
    | .process p false todo =>
      if m.owner p = some c then some m.panic
      else if m.owner p = none then some (m.take c p (.process p true todo))
      else none
    | _ => none
  | .sched c st =>
    match m.cpu c with
    | .process p true todo =>
      if st = .running then none
      else if m.owner p = some c then some (m.switch c p st (.scheduling todo))
      else some m.panic
    | _ => none
  | .change p st =>
    if m.owner p = none ∧ m.state p ≠ .running ∧ st ≠ .running then
      some { m with state := update m.state p st }
    else none

/-- All CPUs enter their loops, no lock is held and no process runs. -/
def Init (m : Machine) : Prop :=
  (∀ c, m.cpu c = .scheduling []) ∧ (∀ p, m.owner p = none) ∧ (∀ p, m.state p ≠ .running) ∧
    m.panicked = false

/-- A step that begins a round which finds a late tie. -/
def StartsLateTie : Action → Prop
  | .startRound _ r => r.FindsLateTie
  | _ => False

instance (a : Action) : Decidable (StartsLateTie a) := by
  cases a <;> unfold StartsLateTie <;> infer_instance

/-- The states of runs in which no round finds a late tie. -/
def ReachableNoTie : Machine → Prop :=
  Run.ReachableUnder Init (Run.relOf exec) fun _ a => ¬ StartsLateTie a

/-! ### The invariant -/

/-- What the lock table and the states say about a CPU that does `d`: it holds what
the discipline of its round says it holds, and a slot it found RUNNABLE and still
has locked is RUNNABLE. -/
def CpuOk (state : ℕ → ProcState) (owner : ℕ → Option ℕ) (c : ℕ) : Doing → Prop
  | .scheduling todo => ∃ held ready, Sound held ready todo ∧
      (∀ p, owner p = some c ↔ p ∈ held) ∧ ready ⊆ held ∧ ∀ p ∈ ready, state p = .runnable
  | .process p true todo => Sound {p} ∅ todo ∧ ∀ q, owner q = some c ↔ q = p
  | .process p false todo => Sound {p} ∅ todo ∧ ∀ q, owner q ≠ some c

/-- CPU `c` runs `p`. -/
def Runs (m : Machine) (c p : ℕ) : Prop := (m.cpu c).running = some p

structure Inv (m : Machine) : Prop where
  alive : m.panicked = false
  cpuOk : ∀ c, CpuOk m.state m.owner c (m.cpu c)
  runs_state : ∀ c p, Runs m c p → m.state p = .running
  runs_unique : ∀ c c' p, Runs m c p → Runs m c' p → c = c'

variable {m : Machine} {c p : ℕ}

/-- A step elsewhere that leaves a CPU's locks and the slots under them alone. -/
theorem CpuOk.frame {state state' : ℕ → ProcState} {owner owner' : ℕ → Option ℕ} {d : Doing}
    (h : CpuOk state owner c d) (howner : ∀ q, owner' q = some c ↔ owner q = some c)
    (hstate : ∀ q, owner q = some c → state' q = state q) : CpuOk state' owner' c d := by
  cases d with
  | scheduling todo =>
    obtain ⟨held, ready, hs, hheld, hsub, hready⟩ := h
    refine ⟨held, ready, hs, fun q => (howner q).trans (hheld q), hsub, fun q hq => ?_⟩
    exact (hstate q ((hheld q).mpr (hsub hq))).trans (hready q hq)
  | process p locked todo =>
    cases locked with
    | true => exact ⟨h.1, fun q => (howner q).trans (h.2 q)⟩
    | false => exact ⟨h.1, fun q hq => h.2 q ((howner q).mp hq)⟩

variable {next : Doing}

/-- The other CPUs when CPU `c` takes or drops the lock of `p`. -/
theorem Inv.cpuOk_update (inv : Inv m) {o : Option ℕ}
    (ho : o = none ∨ o = some c) (hp : m.owner p = none ∨ m.owner p = some c)
    (hself : CpuOk m.state (update m.owner p o) c next) (c' : ℕ) :
    CpuOk m.state (update m.owner p o) c' (update m.cpu c next c') := by
  by_cases hc : c' = c
  · subst hc
    rwa [update_self]
  · rw [update_of_ne hc]
    refine (inv.cpuOk c').frame (fun q => ?_) fun _ _ => rfl
    by_cases hq : q = p
    · subst hq
      rcases ho with rfl | rfl <;> rcases hp with hp | hp <;> simp [hp, Ne.symm hc]
    · rw [update_of_ne hq]

variable {st : ProcState}

/-- The other CPUs when CPU `c` changes the state of a slot it has locked. -/
theorem Inv.cpuOk_switch (inv : Inv m)
    (hp : m.owner p = some c) (hself : CpuOk (update m.state p st) m.owner c next) (c' : ℕ) :
    CpuOk (update m.state p st) m.owner c' (update m.cpu c next c') := by
  by_cases hc : c' = c
  · subst hc
    rwa [update_self]
  · rw [update_of_ne hc]
    refine (inv.cpuOk c').frame (fun _ => Iff.rfl) fun q hq => update_of_ne ?_ _ _
    rintro rfl
    exact hc (Option.some.inj (hq.symm.trans hp))

/-- Which process a CPU runs changes only where its activity changes. -/
theorem runs_update {c' q : ℕ} (cpu : ℕ → Doing) :
    (update cpu c next c').running = some q ↔
      c' = c ∧ next.running = some q ∨ c' ≠ c ∧ (cpu c').running = some q := by
  by_cases hc : c' = c
  · subst hc
    simp
  · simp [hc]

variable {m' : Machine}

/-- Steps that keep every state and change no CPU's process keep the last two parts
of the invariant. -/
theorem Inv.of_same_runs (inv : Inv m) (halive : m'.panicked = false)
    (hcpu : ∀ c, CpuOk m'.state m'.owner c (m'.cpu c)) (hstate : m'.state = m.state)
    (hruns : ∀ c p, Runs m' c p → Runs m c p) : Inv m' where
  alive := halive
  cpuOk := hcpu
  runs_state c p h := hstate ▸ inv.runs_state c p (hruns c p h)
  runs_unique c c' p h h' := inv.runs_unique c c' p (hruns c p h) (hruns c' p h')

theorem inv_of_init (h : Init m) : Inv m := by
  obtain ⟨hcpu, howner, hstate, halive⟩ := h
  refine ⟨halive, fun c => ?_, fun c p h => ?_, fun c c' p h => ?_⟩
  · rw [hcpu c]
    exact ⟨∅, ∅, rfl, by simp [howner], Finset.Subset.refl _, by simp⟩
  · simp [Runs, hcpu c, Doing.running] at h
  · simp [Runs, hcpu c, Doing.running] at h

/-! ### Preservation -/

section

variable (inv : Inv m)
include inv

theorem Inv.startRound {r : Round} (hcpu : m.cpu c = .scheduling []) (htie : ¬ r.FindsLateTie) :
    Inv { m with cpu := update m.cpu c (.scheduling r.events) } := by
  have hok := inv.cpuOk c
  rw [hcpu] at hok
  obtain ⟨held, ready, rfl, hheld, -, -⟩ := hok
  refine inv.of_same_runs inv.alive (fun c' => ?_) rfl fun c' p h => ?_
  · by_cases hc : c' = c
    · subst hc
      simp only [update_self]
      exact ⟨∅, ∅, r.soundUnless.1 htie, hheld, Finset.Subset.refl _, by simp⟩
    · simpa only [update_of_ne hc] using inv.cpuOk c'
  · rcases (runs_update m.cpu).mp h with ⟨-, hnone⟩ | ⟨-, hsame⟩
    · cases hnone
    · exact hsame

/-- CPU `c` takes a free lock, or drops one it holds. -/
theorem Inv.relock {o : Option ℕ} (hnew : o = none ∨ o = some c)
    (hold : m.owner p = none ∨ m.owner p = some c) (hself : CpuOk m.state (update m.owner p o) c next)
    (hruns : ∀ q, next.running = some q → Runs m c q) :
    Inv { m with owner := update m.owner p o, cpu := update m.cpu c next } := by
  refine inv.of_same_runs inv.alive (inv.cpuOk_update hnew hold hself) rfl ?_
  intro c' q h
  rcases (runs_update m.cpu).mp h with ⟨rfl, hnext⟩ | ⟨-, hsame⟩
  · exact hruns q hnext
  · exact hsame

/-- The scheduler's switch to a process it holds locked and found RUNNABLE. -/
theorem Inv.run {todo : List Event} (hcpu : m.cpu c = .scheduling (.run p :: todo)) :
    Inv (m.switch c p .running (.process p true todo)) := by
  have hok := inv.cpuOk c
  rw [hcpu] at hok
  obtain ⟨held, ready, ⟨rfl, hpready, hsound⟩, hheld, -, hready⟩ := hok
  have howner : m.owner p = some c := (hheld p).mpr (Finset.mem_singleton_self p)
  -- The slot is RUNNABLE, so no CPU runs it.
  have hfree : ∀ c', ¬ Runs m c' p := by
    intro c' h
    have := (hready p hpready).symm.trans (inv.runs_state c' p h)
    cases this
  have hrunsAt : ∀ c' q, Runs (m.switch c p .running (.process p true todo)) c' q →
      c' = c ∧ q = p ∨ c' ≠ c ∧ q ≠ p ∧ Runs m c' q := by
    intro c' q h
    rcases (runs_update m.cpu).mp h with ⟨hc, hp⟩ | ⟨hc, hold⟩
    · exact .inl ⟨hc, (Option.some.inj hp).symm⟩
    · refine .inr ⟨hc, ?_, hold⟩
      rintro rfl
      exact hfree c' hold
  refine ⟨inv.alive, inv.cpuOk_switch howner ⟨hsound, by simpa using hheld⟩, ?_, ?_⟩
  · intro c' q h
    rcases hrunsAt c' q h with ⟨-, rfl⟩ | ⟨-, hq, h⟩
    · exact update_self _ _ _
    · exact (update_of_ne hq _ _).trans (inv.runs_state c' q h)
  · intro c₁ c₂ q h₁ h₂
    rcases hrunsAt c₁ q h₁ with ⟨rfl, rfl⟩ | ⟨-, hq, h₁⟩ <;>
      rcases hrunsAt c₂ q h₂ with ⟨rfl, hq'⟩ | ⟨-, hq', h₂⟩
    · rfl
    · exact absurd rfl hq'
    · exact absurd hq' hq
    · exact inv.runs_unique c₁ c₂ q h₁ h₂

/-- A process leaves its CPU. -/
theorem Inv.leave {todo : List Event} (hcpu : m.cpu c = .process p true todo)
    (howner : m.owner p = some c) : Inv (m.switch c p st (.scheduling todo)) := by
  have hok := inv.cpuOk c
  rw [hcpu] at hok
  have hrunsAt : ∀ c' q, Runs (m.switch c p st (.scheduling todo)) c' q → q ≠ p ∧ Runs m c' q := by
    intro c' q h
    rcases (runs_update m.cpu).mp h with ⟨-, hp⟩ | ⟨hc, hold⟩
    · cases hp
    · refine ⟨?_, hold⟩
      rintro rfl
      exact hc (inv.runs_unique c' c q hold (by simp [Runs, hcpu, Doing.running]))
  refine ⟨inv.alive, inv.cpuOk_switch howner ?_, ?_, ?_⟩
  · exact ⟨{p}, ∅, hok.1, by simpa using hok.2, by simp, by simp⟩
  · intro c' q h
    obtain ⟨hq, h⟩ := hrunsAt c' q h
    exact (update_of_ne hq _ _).trans (inv.runs_state c' q h)
  · intro c₁ c₂ q h₁ h₂
    exact inv.runs_unique c₁ c₂ q (hrunsAt c₁ q h₁).2 (hrunsAt c₂ q h₂).2

theorem Inv.change (hp : m.owner p = none) (hstate : m.state p ≠ .running) :
    Inv { m with state := update m.state p st } := by
  refine ⟨inv.alive, fun c => ?_, fun c q h => ?_, inv.runs_unique⟩
  · refine (inv.cpuOk c).frame (fun _ => Iff.rfl) fun q hq => update_of_ne ?_ _ _
    rintro rfl
    simp [hp] at hq
  · have hrun := inv.runs_state c q h
    refine (update_of_ne ?_ _ _).trans hrun
    rintro rfl
    exact hstate hrun

theorem Inv.scheduler (h : exec m (.scheduler c) = some m') : Inv m' := by
  have hok := inv.cpuOk c
  simp only [exec] at h
  split at h
  · next p seen todo hcpu =>
    rw [hcpu] at hok
    obtain ⟨held, ready, ⟨hp, hsound⟩, hheld, hsub, hready⟩ := hok
    have hnot : m.owner p ≠ some c := fun h => hp ((hheld p).mp h)
    rw [if_neg hnot] at h
    obtain ⟨hfree, rfl⟩ := Run.of_guard h
    refine inv.relock (.inr rfl) (.inl hfree.1) ⟨_, _, hsound, fun q => ?_, ?_, ?_⟩ (by simp [Doing.running])
    · by_cases hq : q = p
      · simp [hq]
      · simp [hq, hheld q]
    · split
      · exact Finset.insert_subset_insert p hsub
      · exact hsub.trans (Finset.subset_insert p held)
    · intro q hq
      split at hq
      · next hrun =>
        rcases Finset.mem_insert.mp hq with rfl | hq
        · exact hfree.2.trans hrun
        · exact hready q hq
      · exact hready q hq
  · next p todo hcpu =>
    rw [hcpu] at hok
    obtain ⟨held, ready, ⟨hp, hsound⟩, hheld, hsub, hready⟩ := hok
    have howner : m.owner p = some c := (hheld p).mpr hp
    rw [if_pos howner] at h
    cases h
    refine inv.relock (.inl rfl) (.inr howner) ⟨_, _, hsound, fun q => ?_, Finset.erase_subset_erase p hsub, ?_⟩
      (by simp [Doing.running])
    · by_cases hq : q = p
      · simp [hq]
      · simp [hq, hheld q]
    · intro q hq
      exact hready q (Finset.mem_of_mem_erase hq)
  · next p todo hcpu =>
    cases h
    exact inv.run hcpu
  · cases h

/-- Every step that begins no late-tie round keeps the invariant. -/
theorem Inv.step {a : Action} (hcond : ¬ StartsLateTie a) (h : exec m a = some m') :
    Inv m' := by
  cases a with
  | startRound c r =>
    simp only [exec] at h
    split at h
    · next hcpu =>
      cases h
      exact inv.startRound hcpu hcond
    · cases h
  | scheduler c => exact inv.scheduler h
  | release c =>
    have hok := inv.cpuOk c
    simp only [exec] at h
    split at h
    · next p todo hcpu =>
      rw [hcpu] at hok
      have howner : m.owner p = some c := (hok.2 p).mpr rfl
      rw [if_pos howner] at h
      cases h
      refine inv.relock (.inl rfl) (.inr howner) ⟨hok.1, fun q => ?_⟩ fun q hq => ?_
      · by_cases hq : q = p
        · simp [hq]
        · simp [hq, hok.2 q]
      · simpa [Runs, hcpu, Doing.running] using hq
    · cases h
  | acquire c =>
    have hok := inv.cpuOk c
    simp only [exec] at h
    split at h
    · next p todo hcpu =>
      rw [hcpu] at hok
      rw [if_neg (hok.2 p)] at h
      obtain ⟨hfree, rfl⟩ := Run.of_guard h
      refine inv.relock (.inr rfl) (.inl hfree) ⟨hok.1, fun q => ?_⟩ fun q hq => ?_
      · by_cases hq : q = p
        · simp [hq]
        · simp [hq, hok.2 q]
      · simpa [Runs, hcpu, Doing.running] using hq
    · cases h
  | sched c st =>
    have hok := inv.cpuOk c
    simp only [exec] at h
    split at h
    · next p todo hcpu =>
      rw [hcpu] at hok
      have howner : m.owner p = some c := (hok.2 p).mpr rfl
      rw [if_pos howner] at h
      split at h
      · cases h
      · cases h
        exact inv.leave hcpu howner
    · cases h
  | change p st =>
    obtain ⟨hguard, rfl⟩ := Run.of_guard h
    exact inv.change hguard.1 hguard.2.1

end

theorem ReachableNoTie.inv (h : ReachableNoTie m) : Inv m :=
  Run.ReachableUnder.invariant Inv (fun _ => inv_of_init)
    (fun _ _ _ inv hcond hstep => inv.step hcond hstep) h

/-! ### The lock discipline of every scheduler -/

/-- **Lock discipline.** A round of RR, FCFS, LBS, PBS or MLFQ releases only locks it
holds, and switches to a process holding that process's lock and no other, exactly
when it does not find a late tie. While no round finds one, no CPU's release,
acquire or `sched` panics and no two CPUs run the same process. -/
theorem scheduler_lock_discipline (r : Round) (m : Machine) :
    (Disciplined ∅ r.events ↔ ¬ r.FindsLateTie) ∧
      (ReachableNoTie m → m.panicked = false ∧
        ∀ c c' p, Runs m c p → Runs m c' p → c = c') := by
  refine ⟨⟨fun h htie => r.soundUnless.2 htie h, fun htie => ?_⟩, fun h => ?_⟩
  · exact (r.soundUnless.1 htie).disciplined
  · exact ⟨h.inv.alive, h.inv.runs_unique⟩

/-- Two RUNNABLE processes with equal dynamic priority, created at the given ticks. -/
def twoRunnable (first second : ℤ) : ℕ → Proc
  | 0 => { Proc.zero with
      state := .runnable, pid := 4, priorityPbs := 60, tickCreationTime := first }
  | 1 => { Proc.zero with
      state := .runnable, pid := 3, priorityPbs := 60, tickCreationTime := second }
  | _ => .zero

/-- A machine before its first round, with the states of a table. -/
def idle (view : ℕ → Proc) : Machine :=
  ⟨fun p => (view p).state, fun _ => none, fun _ => .scheduling [], false⟩

theorem init_idle (first second : ℤ) : Init (idle (twoRunnable first second)) := by
  refine ⟨fun _ => rfl, fun _ => rfl, fun p => ?_, rfl⟩
  rcases p with _ | _ | p <;> exact ProcState.noConfusion

/-- A whole PBS round of CPU `0` up to its switch, with no other CPU in between. -/
def pbsRun (view : ℕ → Proc) : List Action :=
  .startRound 0 (.pbs view) :: List.replicate ((Round.pbs view).events.length - 1) (.scheduler 0)

/-- With the slots in order of creation the round switches to the older process,
which then releases its own lock. -/
theorem scheduler_lock_discipline_twoRunnable :
    Disciplined ∅ (Round.pbs (twoRunnable 3 7)).events ∧
      ∃ m, ReachableNoTie m ∧ Runs m 0 0 ∧ m.owner 0 = none ∧ m.panicked = false ∧
        ∀ c, Runs m c 0 → c = 0 := by
  obtain ⟨m, hreach, hruns, howner⟩ : ∃ m, ReachableNoTie m ∧ (m.cpu 0).running = some 0 ∧
      m.owner 0 = none := Run.exists_reachableUnder (pbsRun (twoRunnable 3 7) ++ [.release 0])
    (init_idle 3 7) (by decide +kernel)
  obtain ⟨hdisc, hsafe⟩ := scheduler_lock_discipline (.pbs (twoRunnable 3 7)) m
  obtain ⟨halive, hunique⟩ := hsafe hreach
  exact ⟨hdisc.mpr (by decide +kernel), m, hreach, hruns, howner, halive,
    fun c h => hunique c 0 0 h hruns⟩

/-- The slots the other way round: slot `0` was reused after slot `1` was created.
The round switches to slot `1` without its lock, and that process's first release
panics. -/
theorem pbs_round_undisciplined :
    ¬ Disciplined ∅ (Round.pbs (twoRunnable 7 3)).events ∧
      (Round.pbs (twoRunnable 7 3)).events.take 4 =
        [.acquire 0 (twoRunnable 7 3 0), .acquire 1 (twoRunnable 7 3 1), .release 0, .release 1] ∧
      (Run.execAll exec (idle (twoRunnable 7 3)) (pbsRun (twoRunnable 7 3))).map
        (fun m => ((m.cpu 0).running, m.owner 1)) = some (some 1, none) ∧
      (Run.execAll exec (idle (twoRunnable 7 3)) (pbsRun (twoRunnable 7 3) ++ [.release 0])).map
        (fun m => m.panicked) = some true := by
  decide +kernel

end Xv6.Sched.Cpus
