import Mathlib.Tactic.NormNum
import Xv6.Proc
import Xv6.Lib.Run

/-!
Alarm delivery as the interrupted program sees it: registers, program counter and frames.

One process runs user instructions and enters the kernel through timer interrupts, device
interrupts and system calls. `uservec` saves the user registers in the trapframe, `usertrap`
the program counter, and `usertrapret` with `userret` loads both from there, so a step of the
kernel is what it does to the trapframe and the alarm fields in between. The kernel's own
words of the trapframe (`kernel_satp` and so on) are set by `usertrapret` before each return
and are left out. A step in which the kernel faults or the process exits has no next state.

`Env` is what the kernel functions outside the model decide: the value a system call
returns, whether `exec` succeeds, and what a page holds that has been freed.

`handling` and `since` are a history no kernel function reads: the frame of the latest
delivery the process has not returned from, and the ticks counted since then.

* `handler_not_reentered`: no delivery inside a handler, in runs of `Careful` steps.
* `handler_reentered`: what a `sigalarm` inside the handler does.
* `sigreturn_undoes_alarm`: `sigreturn` restores every register, and the handler is
  entered at the `n`-th tick.
-/

namespace Xv6.Handler

open Function (update)
open Run (ReachableUnder relOf execAllUnder)

/-! ### The process -/

/-- The user registers that the trapframe has room for. -/
inductive Reg where
  | ra | sp | gp | tp | t0 | t1 | t2 | s0 | s1 | a0 | a1 | a2 | a3 | a4 | a5 | a6 | a7
  | s2 | s3 | s4 | s5 | s6 | s7 | s8 | s9 | s10 | s11 | t3 | t4 | t5 | t6
deriving DecidableEq, Repr

/-- `struct trapframe`, without the kernel's words. -/
structure Frame where
  epc : UInt64
  reg : Reg → UInt64

/-- `p->sigalarm_tf`: the null pointer, a page with a frame, or a page that was freed. -/
inductive Saved where
  | null
  | page (frame : Frame)
  | freed

/-- The user's registers, and the fields of `struct proc` an alarm is about. -/
structure Proc where
  pc : UInt64
  reg : Reg → UInt64
  trapframe : Frame
  interval : ℤ
  ticksLeft : ℤ
  sigHandler : UInt64
  sigalarmTf : Saved

/-- What is decided outside the model: the result of a system call, the entry point and
stack pointer of a successful `exec`, and the contents of a freed page. -/
structure Env where
  ret : UInt64
  image : Option (UInt64 × UInt64)
  stale : Frame

def SYS_exit : ℤ := 2
def SYS_exec : ℤ := 7
def SYS_sigalarm : ℤ := 23
def SYS_sigreturn : ℤ := 24

/-- The last number in the table of system calls. -/
def SYS_setpriority : ℤ := 27

namespace Proc

/-- `uservec` and the start of `usertrap`. -/
def enter (p : Proc) : Proc := { p with trapframe := ⟨p.pc, p.reg⟩ }

/-- The same for a system call, which returns to the instruction after the `ecall`. -/
def enterCall (p : Proc) : Proc := { p with trapframe := ⟨p.pc + 4, p.reg⟩ }

/-- `usertrapret` and `userret`. -/
def usertrapret (p : Proc) : Proc := { p with pc := p.trapframe.epc, reg := p.trapframe.reg }

/-- The end of `syscall`: the result goes to `a0`. -/
def setA0 (p : Proc) (value : UInt64) : Proc :=
  { p with trapframe := { p.trapframe with reg := update p.trapframe.reg .a0 value } }

/-- `argint`: an `int` keeps the low half of the register. -/
def argint (p : Proc) (r : Reg) : ℤ := int32 (p.trapframe.reg r).toNat

def sysSigalarm (p : Proc) : Proc :=
  { p with
    interval := p.argint .a0
    sigHandler := p.trapframe.reg .a1
    ticksLeft := p.argint .a0 }

/-- `sys_sigreturn` up to its return value, with `stale` what a freed page holds. -/
def sysSigreturn (p : Proc) (stale : Frame) : Option Proc :=
  match p.sigalarmTf with
  | .null => none
  | .page frame =>
    some { p with trapframe := frame, sigalarmTf := .freed, ticksLeft := p.interval }
  | .freed => some { p with trapframe := stale, ticksLeft := p.interval }

/-- What a successful `exec` does to the trapframe. -/
def execImage (p : Proc) (entry sp : UInt64) : Proc :=
  { p with trapframe := ⟨entry, update (update p.trapframe.reg .a1 sp) .sp sp⟩ }

/-- `syscall`. -/
def syscall (p : Proc) (env : Env) : Option Proc :=
  let num := p.argint .a7
  if num = SYS_sigalarm then some (p.sysSigalarm.setA0 0)
  else if num = SYS_sigreturn then
    (p.sysSigreturn env.stale).map fun q => q.setA0 (q.trapframe.reg .a0)
  else if num = SYS_exec then
    match env.image with
    | some (entry, sp) => some ((p.execImage entry sp).setA0 env.ret)
    | none => some (p.setA0 (-1))
  else if num = SYS_exit then none
  else if 0 < num ∧ num ≤ SYS_setpriority then some (p.setA0 env.ret)
  else some (p.setA0 (-1))

/-- The alarm part of `usertrap` on a timer interrupt; `page` says whether `kalloc` returns
one. Copying the frame to the null pointer faults. -/
def alarm (p : Proc) (page : Bool) : Option Proc :=
  if p.interval ≠ 0 then
    let ticksLeft := int32 (p.ticksLeft - 1)
    if ticksLeft = 0 then
      if page then
        some { p with
          ticksLeft := ticksLeft
          sigalarmTf := .page p.trapframe
          trapframe := { p.trapframe with epc := p.sigHandler } }
      else none
    else some { p with ticksLeft := ticksLeft }
  else some p

/-- The next timer interrupt redirects the process to its handler. -/
def Fires (p : Proc) : Prop := p.interval ≠ 0 ∧ int32 (p.ticksLeft - 1) = 0

instance (p : Proc) : Decidable p.Fires := by unfold Fires; infer_instance

end Proc

/-! ### Runs -/

inductive Action where
  /-- User instructions: any change of registers and program counter. -/
  | instr (pc : UInt64) (reg : Reg → UInt64)
  | tick (page : Bool)
  | device
  | ecall (env : Env)

/-- One step of the process, `usertrap` taken as a whole. -/
def Proc.step (p : Proc) : Action → Option Proc
  | .instr pc reg => some { p with pc := pc, reg := reg }
  | .tick page => (p.enter.alarm page).map Proc.usertrapret
  | .device => some p.enter.usertrapret
  | .ecall env => (p.enterCall.syscall env).map Proc.usertrapret

structure State where
  proc : Proc
  handling : Option Frame
  since : ℕ

/-- The number of the system call the process makes with its next `ecall`. -/
def State.num (s : State) : ℤ := s.proc.enterCall.argint .a7

/-- The redirection of the process to its handler. -/
def Redirects (s : State) : Action → Prop
  | .tick _ => s.proc.Fires
  | _ => False

instance (s : State) (a : Action) : Decidable (Redirects s a) := by
  cases a <;> unfold Redirects <;> infer_instance

/-- What a step that leads to `p` adds to the history. -/
def State.record (s : State) (a : Action) (p : Proc) : State :=
  match a with
  | .instr _ _ | .device => ⟨p, s.handling, s.since⟩
  | .tick _ =>
    if s.proc.Fires then ⟨p, some ⟨s.proc.pc, s.proc.reg⟩, 0⟩ else ⟨p, s.handling, s.since + 1⟩
  | .ecall _ => if s.num = SYS_sigreturn then ⟨p, none, 0⟩ else ⟨p, s.handling, s.since⟩

def step (s : State) (a : Action) : Option State := (s.proc.step a).map (s.record a)

/-- A process that has not been interrupted yet, with any registers and alarm fields. -/
def Init (s : State) : Prop := s.handling = none

/-- Inside a handler the process does not set another alarm, and the handler runs for fewer
than `2^32` ticks. -/
def Careful (s : State) (a : Action) : Prop :=
  s.handling ≠ none →
    match a with
    | .ecall _ => s.num = SYS_sigalarm → s.proc.enterCall.argint .a0 = 0
    | .tick _ => s.since + 1 < 4294967296
    | _ => True

instance (s : State) (a : Action) : Decidable (Careful s a) := by
  unfold Careful
  cases a <;> infer_instance

/-! ### What a step does -/

variable {p q : Proc} {s s' t : State} {a : Action} {page : Bool} {env : Env}

theorem int32_sub_one (x : ℤ) : int32 (int32 x - 1) = int32 (x - 1) := Int.bmod_sub_bmod

/-- A count that has passed zero comes back to it after `2^32` steps only. -/
theorem int32_ne_zero {x : ℤ} (h₁ : -4294967296 < x) (h₂ : x < 4294967296) (h₀ : x ≠ 0) :
    int32 x ≠ 0 := by
  intro h
  have hdvd : ((2 ^ 32 : ℕ) : ℤ) ∣ x := Int.dvd_iff_bmod_eq_zero.mpr h
  norm_num at hdvd
  omega

theorem Proc.alarm_of_fires (h : p.Fires) :
    p.alarm true = some { p with
      ticksLeft := 0
      sigalarmTf := .page p.trapframe
      trapframe := { p.trapframe with epc := p.sigHandler } } := by
  simp only [alarm, if_pos h.1, h.2, if_true]

theorem Proc.alarm_of_not_fires (h : ¬p.Fires) :
    p.alarm page = some { p with
      ticksLeft := if p.interval ≠ 0 then int32 (p.ticksLeft - 1) else p.ticksLeft } := by
  unfold alarm
  by_cases hi : p.interval ≠ 0
  · have hne : int32 (p.ticksLeft - 1) ≠ 0 := fun h0 => h ⟨hi, h0⟩
    simp only [if_pos hi, if_neg hne]
  · simp only [if_neg hi]

/-- A tick that fires has a page; the process is at its handler, with the frame saved. -/
theorem tick_of_fires (h : s.proc.Fires) (hs : step s (.tick page) = some s') :
    s' = ⟨{ s.proc with
      pc := s.proc.sigHandler
      trapframe := ⟨s.proc.sigHandler, s.proc.reg⟩
      ticksLeft := 0
      sigalarmTf := .page ⟨s.proc.pc, s.proc.reg⟩ }, some ⟨s.proc.pc, s.proc.reg⟩, 0⟩ := by
  have he : s.proc.enter.Fires := h
  cases page with
  | false => simp [step, Proc.step, Proc.alarm, if_pos he.1, he.2] at hs
  | true =>
    simp only [step, Proc.step, Proc.alarm_of_fires he, State.record, if_pos h,
      Option.map_some, Option.some.injEq] at hs
    exact hs.symm

theorem tick_of_not_fires (h : ¬s.proc.Fires) (hs : step s (.tick page) = some s') :
    s' = ⟨{ s.proc with
      trapframe := ⟨s.proc.pc, s.proc.reg⟩
      ticksLeft := if s.proc.interval ≠ 0 then int32 (s.proc.ticksLeft - 1)
        else s.proc.ticksLeft }, s.handling, s.since + 1⟩ := by
  have he : ¬s.proc.enter.Fires := h
  simp only [step, Proc.step, Proc.alarm_of_not_fires he, State.record, if_neg h,
    Option.map_some, Option.some.injEq] at hs
  exact hs.symm

/-- The alarm fields of two processes are the same. -/
structure SameAlarm (p q : Proc) : Prop where
  interval : q.interval = p.interval
  ticksLeft : q.ticksLeft = p.ticksLeft
  sigHandler : q.sigHandler = p.sigHandler
  sigalarmTf : q.sigalarmTf = p.sigalarmTf

/-- Of the system calls, only `sigalarm` and `sigreturn` touch the alarm fields. -/
theorem Proc.syscall_same (hA : p.argint .a7 ≠ SYS_sigalarm) (hR : p.argint .a7 ≠ SYS_sigreturn)
    (h : p.syscall env = some q) : SameAlarm p q := by
  simp only [syscall, if_neg hA, if_neg hR] at h
  split at h
  · split at h <;> (cases h; exact ⟨rfl, rfl, rfl, rfl⟩)
  · split at h
    · cases h
    · split at h <;> (cases h; exact ⟨rfl, rfl, rfl, rfl⟩)

theorem SYS_sigreturn_ne : SYS_sigreturn ≠ SYS_sigalarm := by decide

theorem Proc.syscall_sigalarm (hA : p.argint .a7 = SYS_sigalarm) :
    p.syscall env = some (p.sysSigalarm.setA0 0) := by
  simp only [syscall, if_pos hA]

theorem Proc.syscall_sigreturn (hR : p.argint .a7 = SYS_sigreturn) :
    p.syscall env =
      (p.sysSigreturn env.stale).map fun q => q.setA0 (q.trapframe.reg .a0) := by
  have hne : p.argint .a7 ≠ SYS_sigalarm := fun h => SYS_sigreturn_ne (hR.symm.trans h)
  simp only [syscall, if_neg hne, if_pos hR]

theorem step_ecall (s : State) (env : Env) : step s (.ecall env) =
    (s.proc.enterCall.syscall env).map fun q => s.record (.ecall env) q.usertrapret := by
  simp only [step, Proc.step, Option.map_map, Function.comp_def]

theorem ecall_same (hA : s.num ≠ SYS_sigalarm) (hR : s.num ≠ SYS_sigreturn)
    (h : step s (.ecall env) = some s') :
    SameAlarm s.proc s'.proc ∧ s'.handling = s.handling ∧ s'.since = s.since := by
  rw [step_ecall] at h
  obtain ⟨q, hq, rfl⟩ := Option.map_eq_some_iff.mp h
  have hsame := Proc.syscall_same hA hR hq
  simp only [State.record, if_neg hR]
  exact ⟨⟨hsame.interval, hsame.ticksLeft, hsame.sigHandler, hsame.sigalarmTf⟩, trivial, trivial⟩

theorem ecall_sigalarm (hA : s.num = SYS_sigalarm) (h : step s (.ecall env) = some s') :
    s' = ⟨(s.proc.enterCall.sysSigalarm.setA0 0).usertrapret, s.handling, s.since⟩ := by
  have hR : s.num ≠ SYS_sigreturn := fun h => SYS_sigreturn_ne (h.symm.trans hA)
  rw [step_ecall, Proc.syscall_sigalarm hA] at h
  simp only [State.record, if_neg hR, Option.map_some, Option.some.injEq] at h
  exact h.symm

theorem ecall_sigreturn (hR : s.num = SYS_sigreturn) (h : step s (.ecall env) = some s') :
    s'.proc.interval = s.proc.interval ∧ s'.proc.ticksLeft = s.proc.interval ∧
      s'.proc.sigHandler = s.proc.sigHandler ∧ s'.handling = none := by
  rw [step_ecall, Proc.syscall_sigreturn hR, Option.map_map] at h
  obtain ⟨r, hr, rfl⟩ := Option.map_eq_some_iff.mp h
  unfold Proc.sysSigreturn at hr
  simp only [Function.comp_apply, State.record, if_pos hR]
  split at hr <;> cases hr <;> exact ⟨rfl, rfl, rfl, trivial⟩

/-- `sigreturn` with a saved frame loads it; the result of the call is the `a0` just loaded. -/
theorem sigreturn_page {frame : Frame} (hR : s.num = SYS_sigreturn)
    (hsaved : s.proc.sigalarmTf = .page frame) (env : Env) :
    ∃ s', step s (.ecall env) = some s' ∧ s'.proc.pc = frame.epc ∧ s'.proc.reg = frame.reg := by
  have hret : s.proc.enterCall.sysSigreturn env.stale = some { s.proc with
      trapframe := frame, sigalarmTf := .freed, ticksLeft := s.proc.interval } := by
    simp only [Proc.sysSigreturn, Proc.enterCall, hsaved]
  rw [step_ecall, Proc.syscall_sigreturn hR, hret, Option.map_some, Option.map_some]
  refine ⟨_, rfl, ?_⟩
  simp only [State.record, if_pos hR]
  exact ⟨rfl, Function.update_eq_self Reg.a0 frame.reg⟩

/-! ### No delivery inside a handler -/

/-- Inside a handler the interrupted frame is saved, and `ticks_left` counts down from zero
unless the alarm was switched off. -/
structure Inv (s : State) : Prop where
  saved : ∀ {frame}, s.handling = some frame → s.proc.sigalarmTf = .page frame
  count : s.handling ≠ none → s.proc.interval = 0 ∨ s.proc.ticksLeft = int32 (-s.since)

theorem Inv.not_fires (h : Inv s) (hin : s.handling ≠ none) (hlt : s.since + 1 < 4294967296) :
    ¬s.proc.Fires := by
  rintro ⟨hint, hzero⟩
  have hcount := (h.count hin).resolve_left hint
  rw [hcount, int32_sub_one] at hzero
  exact int32_ne_zero (by omega) (by omega) (by omega) hzero

/-- The alarm fields and the history of a step that does not concern them. -/
theorem Inv.of_same (h : Inv s) (hp : SameAlarm s.proc t.proc) (hh : t.handling = s.handling)
    (hs : t.since = s.since) : Inv t where
  saved hf := hp.sigalarmTf.trans (h.saved (hh ▸ hf))
  count hin := by
    rw [hp.interval, hp.ticksLeft, hs]
    exact h.count (hh ▸ hin)

/-- What a careful step does: it keeps the invariant, and a handler stays as it is until
`sigreturn`. -/
theorem Inv.step (h : Inv s) (hc : Careful s a) (hstep : step s a = some s') :
    Inv s' ∧ (s.handling ≠ none → ¬Redirects s a) ∧
      ((∀ env, a = .ecall env → s.num ≠ SYS_sigreturn) → s.handling ≠ none →
        s'.handling = s.handling) := by
  cases a with
  | instr pc reg | device =>
    cases hstep
    exact ⟨h.of_same ⟨rfl, rfl, rfl, rfl⟩ rfl rfl, fun _ => id, fun _ _ => rfl⟩
  | tick page =>
    have hno : s.handling ≠ none → ¬s.proc.Fires := fun hin => h.not_fires hin (hc hin)
    by_cases hfires : s.proc.Fires
    · rw [tick_of_fires hfires hstep]
      refine ⟨⟨fun hf => by cases hf; rfl, fun _ => .inr rfl⟩, hno, ?_⟩
      exact fun _ hin => absurd hfires (hno hin)
    · rw [tick_of_not_fires hfires hstep]
      refine ⟨⟨h.saved, fun hin => ?_⟩, hno, fun _ _ => rfl⟩
      by_cases hint : s.proc.interval = 0
      · exact .inl hint
      · right
        have hcount := (h.count hin).resolve_left hint
        simp only [if_pos hint, hcount, int32_sub_one]
        congr 1
        omega
  | ecall env =>
    suffices hkeep : Inv s' ∧ ((∀ env', Action.ecall env = .ecall env' → s.num ≠ SYS_sigreturn) →
        s.handling ≠ none → s'.handling = s.handling) from ⟨hkeep.1, fun _ => id, hkeep.2⟩
    by_cases hA : s.num = SYS_sigalarm
    · rw [ecall_sigalarm hA hstep]
      refine ⟨⟨h.saved, fun hin => .inl ?_⟩, fun _ _ => rfl⟩
      -- the new interval is zero, which switches the alarm off
      have hzero : s.proc.enterCall.argint .a0 = 0 := hc hin hA
      simp only [Proc.usertrapret, Proc.setA0, Proc.sysSigalarm, hzero]
    by_cases hR : s.num = SYS_sigreturn
    · obtain ⟨-, -, -, hnone⟩ := ecall_sigreturn hR hstep
      refine ⟨⟨fun hf => ?_, fun hin => absurd hnone hin⟩, fun hne => absurd hR (hne env rfl)⟩
      cases hnone.symm.trans hf
    · obtain ⟨hsame, hh, hs⟩ := ecall_same hA hR hstep
      exact ⟨h.of_same hsame hh hs, fun _ _ => hh⟩

theorem inv_of_reachable (h : ReachableUnder Init (relOf step) Careful s) : Inv s := by
  refine h.invariant Inv (fun s hs => ⟨fun hf => ?_, fun hin => absurd hs hin⟩) ?_
  · cases (show s.handling = none from hs).symm.trans hf
  · exact fun s a t hinv hc hstep => (hinv.step hc hstep).1

/-- **No re-entrant handlers.** In a run of careful steps a process is not redirected to its
handler before it has called `sigreturn` for the last redirection, and until then the saved
frame is the one of that interruption. -/
theorem handler_not_reentered {frame : Frame}
    (hs : ReachableUnder Init (relOf step) Careful s) (hin : s.handling = some frame)
    (hc : Careful s a) (hstep : step s a = some s') :
    ¬Redirects s a ∧ s.proc.sigalarmTf = .page frame ∧
      ((∀ env, a = .ecall env → s.num ≠ SYS_sigreturn) →
        s'.handling = some frame ∧ s'.proc.sigalarmTf = .page frame) := by
  have hinv := inv_of_reachable hs
  have hne : s.handling ≠ none := by rw [hin]; exact Option.some_ne_none frame
  obtain ⟨hinv', hno, hkeep⟩ := hinv.step hc hstep
  refine ⟨hno hne, hinv.saved hin, fun hcall => ?_⟩
  have hh : s'.handling = some frame := (hkeep hcall hne).trans hin
  exact ⟨hh, hinv'.saved hh⟩

/-! ### A handler that sets an alarm -/

/-- Registers that ask for a system call. -/
def callRegs (num a0 a1 : UInt64) : Reg → UInt64 := fun r =>
  if r = .a7 then num else if r = .a0 then a0 else if r = .a1 then a1 else 0

/-- A new process, at address 0. -/
def fresh : State where
  proc :=
    { pc := 0, reg := fun _ => 0, trapframe := ⟨0, fun _ => 0⟩, interval := 0, ticksLeft := 0,
      sigHandler := 0, sigalarmTf := .null }
  handling := none
  since := 0

/-- Nothing of note is decided outside. -/
def quiet : Env where
  ret := 0
  image := none
  stale := ⟨0, fun _ => 0⟩

/-- `sigalarm(n, handler)`, called at address `pc`. -/
def callSigalarm (pc n handler : UInt64) : List Action :=
  [.instr pc (callRegs 23 n handler), .ecall quiet]

/-- The program counter of the saved frame. -/
def Proc.savedPc (p : Proc) : Option UInt64 :=
  match p.sigalarmTf with
  | .page frame => some frame.epc
  | _ => none

/-- A process that sets an alarm of one tick and is interrupted at address 40. -/
def interrupted : List Action :=
  callSigalarm 0 1 100 ++ [.instr 40 fun _ => 7, .tick true]

theorem handler_not_reentered_tick :
    ∃ s s' frame, ReachableUnder Init (relOf step) Careful s ∧ s.handling = some frame ∧
      step s (.tick true) = some s' ∧ ¬Redirects s (.tick true) := by
  obtain ⟨s, hreach, hsome, hsince, hstep⟩ : ∃ s, ReachableUnder Init (relOf step) Careful s ∧
      s.handling.isSome ∧ s.since = 0 ∧ (step s (.tick true)).isSome :=
    Run.exists_reachableUnder interrupted (show Init fresh from rfl) (by decide +kernel)
  obtain ⟨s', hs'⟩ := Option.isSome_iff_exists.mp hstep
  obtain ⟨frame, hframe⟩ := Option.isSome_iff_exists.mp hsome
  have hcareful : Careful s (.tick true) := fun _ => by
    simp only [hsince]
    decide
  exact ⟨s, s', frame, hreach, hframe, hs', (handler_not_reentered hreach hframe hcareful hs').1⟩

/-- The handler, at address 100, sets the alarm again. -/
def resetting : State :=
  (Run.execAll step fresh (interrupted ++ callSigalarm 100 1 100)).getD fresh

theorem resetting_reachable : Run.Reachable Init (relOf step) resetting := by
  have hsome : (Run.execAll step fresh (interrupted ++ callSigalarm 100 1 100)).isSome := by
    decide +kernel
  obtain ⟨s, hs⟩ := Option.isSome_iff_exists.mp hsome
  have hr : resetting = s := by rw [resetting, hs]; rfl
  exact hr ▸ Run.reachable_of_execAll (.start (show Init fresh from rfl)) hs

/-- A `sigalarm` inside the handler lets the next tick redirect the process again: the frame
of the interruption at address 40 is overwritten by one of the handler. -/
theorem handler_reentered :
    Run.Reachable Init (relOf step) resetting ∧
      (resetting.handling.map Frame.epc = some 40 ∧ resetting.proc.savedPc = some 40) ∧
      Redirects resetting (.tick true) ∧
      (step resetting (.tick true)).map (fun s => s.proc.savedPc) = some (some 104) := by
  refine ⟨resetting_reachable, ?_⟩
  decide +kernel

/-! ### Counting ticks -/

def Action.ticks : Action → ℕ
  | .tick _ => 1
  | _ => 0

def ticks : List Action → ℕ
  | [] => 0
  | a :: rest => a.ticks + ticks rest

/-- A step that is neither `sigalarm` nor `sigreturn`. -/
def ordinary (s : State) : Action → Bool
  | .ecall _ => s.num ≠ SYS_sigalarm && s.num ≠ SYS_sigreturn
  | _ => true

variable {m : ℤ} {es : List Action}

/-- An ordinary step counts its tick. The saved frame stays unless the count reaches zero. -/
theorem ordinary_step (ho : ordinary s a = true) (h : step s a = some t)
    (hint : s.proc.interval ≠ 0) (hleft : s.proc.ticksLeft = int32 m) :
    (t.proc.interval = s.proc.interval ∧ t.proc.sigHandler = s.proc.sigHandler) ∧
      t.proc.ticksLeft = int32 (m - a.ticks) ∧
      ((a.ticks = 1 → int32 (m - 1) ≠ 0) → t.proc.sigalarmTf = s.proc.sigalarmTf) := by
  have hsame : ∀ {u : State}, SameAlarm s.proc u.proc →
      (u.proc.interval = s.proc.interval ∧ u.proc.sigHandler = s.proc.sigHandler) ∧
        u.proc.ticksLeft = int32 (m - (0 : ℕ)) ∧
        (((0 : ℕ) = 1 → int32 (m - 1) ≠ 0) → u.proc.sigalarmTf = s.proc.sigalarmTf) := by
    intro u hu
    refine ⟨⟨hu.interval, hu.sigHandler⟩, ?_, fun _ => hu.sigalarmTf⟩
    rw [hu.ticksLeft, hleft, Nat.cast_zero, sub_zero]
  cases a with
  | instr pc reg | device =>
    cases h
    exact hsame ⟨rfl, rfl, rfl, rfl⟩
  | ecall env =>
    obtain ⟨hA, hR⟩ : s.num ≠ SYS_sigalarm ∧ s.num ≠ SYS_sigreturn := by
      simpa only [ordinary, Bool.and_eq_true, decide_eq_true_eq] using ho
    exact hsame (ecall_same hA hR h).1
  | tick page =>
    have hnext : int32 (s.proc.ticksLeft - 1) = int32 (m - 1) := by rw [hleft, int32_sub_one]
    by_cases hfires : s.proc.Fires
    · rw [tick_of_fires hfires h]
      have hzero : int32 (m - 1) = 0 := hnext ▸ hfires.2
      exact ⟨⟨rfl, rfl⟩, hzero.symm, fun hne => absurd hzero (hne rfl)⟩
    · rw [tick_of_not_fires hfires h]
      refine ⟨⟨rfl, rfl⟩, ?_, fun _ => rfl⟩
      simp only [if_pos hint, hnext]
      rfl

/-- A run of ordinary steps counts its ticks down. -/
theorem ordinary_run (h : execAllUnder step ordinary s es = some t)
    (hint : s.proc.interval ≠ 0) (hleft : s.proc.ticksLeft = int32 m) :
    (t.proc.interval = s.proc.interval ∧ t.proc.sigHandler = s.proc.sigHandler) ∧
      t.proc.ticksLeft = int32 (m - ticks es) ∧
      ((∀ k : ℕ, 0 < k → k ≤ ticks es → int32 (m - k) ≠ 0) →
        t.proc.sigalarmTf = s.proc.sigalarmTf) := by
  induction es generalizing s m with
  | nil =>
    cases h
    refine ⟨⟨rfl, rfl⟩, ?_, fun _ => rfl⟩
    rw [hleft, ticks, Nat.cast_zero, sub_zero]
  | cons a rest ih =>
    simp only [execAllUnder] at h
    split at h
    case isFalse => cases h
    case isTrue ho =>
      obtain ⟨u, hu, hrest⟩ := Option.bind_eq_some_iff.mp h
      obtain ⟨⟨hint', hhandler⟩, hleft', hsaved⟩ := ordinary_step ho hu hint hleft
      obtain ⟨⟨hint₂, hhandler₂⟩, hleft₂, hsaved₂⟩ := ih hrest (hint' ▸ hint) hleft'
      refine ⟨⟨hint₂.trans hint', hhandler₂.trans hhandler⟩, ?_, fun hne => ?_⟩
      · rw [hleft₂, ticks, Nat.cast_add, sub_sub]
      · refine (hsaved₂ fun k hk hkt => ?_).trans (hsaved fun hone => ?_)
        · have := hne (a.ticks + k) (by omega) (by rw [ticks]; omega)
          rwa [Nat.cast_add, ← sub_sub] at this
        · exact hne 1 Nat.one_pos (by rw [ticks]; omega)

/-- The ticks after `ticks_left` was set to a positive interval: the one that brings the
count to zero fires, and no other one does. -/
theorem fires_iff (h : execAllUnder step ordinary s es = some t) (hpos : 0 < s.proc.interval)
    (hint : s.proc.interval < 2147483648) (hleft : s.proc.ticksLeft = s.proc.interval)
    (hlt : ticks es < 2147483648) :
    t.proc.Fires ↔ (ticks es : ℤ) + 1 = s.proc.interval := by
  have hrep : s.proc.interval = int32 s.proc.interval :=
    (Int.bmod_eq_of_le (by omega) (by omega)).symm
  obtain ⟨⟨hint', -⟩, hleft', -⟩ := ordinary_run h hpos.ne' (hleft.trans hrep)
  unfold Proc.Fires
  rw [hint', hleft', int32_sub_one, sub_sub]
  constructor
  · rintro ⟨-, hzero⟩
    by_contra hne
    exact int32_ne_zero (by omega) (by omega) (by omega) hzero
  · intro he
    rw [he, sub_self]
    exact ⟨hpos.ne', rfl⟩

/-- **`sigreturn` undoes the alarm.** A tick that fires starts the handler; whatever the
handler does, with fewer than `2^31` ticks and without `sigalarm`, the following `sigreturn`
resumes the process with the registers and the program counter it had. Counted from a
`sigalarm` or a `sigreturn`, it is the tick whose number is the interval that starts the
handler, and no other. -/
theorem sigreturn_undoes_alarm :
    (∀ s : State, s.proc.Fires → ∃ s₁, step s (.tick true) = some s₁ ∧
      s₁.proc.pc = s.proc.sigHandler ∧
      ∀ es s₂ env, execAllUnder step ordinary s₁ es = some s₂ → ticks es < 2147483648 →
        s₂.num = SYS_sigreturn →
        ∃ s₃, step s₂ (.ecall env) = some s₃ ∧ s₃.proc.pc = s.proc.pc ∧ s₃.proc.reg = s.proc.reg) ∧
    (∀ s env s₁ es s₂, s.num = SYS_sigalarm ∨ s.num = SYS_sigreturn →
      step s (.ecall env) = some s₁ → 0 < s₁.proc.interval → s₁.proc.interval < 2147483648 →
      execAllUnder step ordinary s₁ es = some s₂ → ticks es < 2147483648 →
      ∀ page s₃, step s₂ (.tick page) = some s₃ → s₃.proc.reg = s₂.proc.reg ∧
        if (ticks es : ℤ) + 1 = s₁.proc.interval then
          s₃.proc.pc = s₁.proc.sigHandler ∧ Redirects s₂ (.tick page)
        else s₃.proc.pc = s₂.proc.pc ∧ ¬Redirects s₂ (.tick page)) ∧
    (∀ s env s₁, s.num = SYS_sigalarm → step s (.ecall env) = some s₁ →
      s₁.proc.interval = s.proc.enterCall.argint .a0 ∧ s₁.proc.sigHandler = s.proc.reg .a1) := by
  refine ⟨fun s hfires => ?_, fun s env s₁ es s₂ hcall hstep hpos hint hrun hlt page s₃ htick => ?_,
    fun s env s₁ hA hstep => ?_⟩
  · have hs₁ : ∃ s₁, step s (.tick true) = some s₁ := by
      have he : s.proc.enter.Fires := hfires
      exact ⟨_, by simp only [step, Proc.step, Proc.alarm_of_fires he, Option.map_some]; rfl⟩
    obtain ⟨s₁, hs₁⟩ := hs₁
    have heq := tick_of_fires hfires hs₁
    refine ⟨s₁, hs₁, by rw [heq], fun es s₂ env hrun hlt hR => ?_⟩
    have hint : s₁.proc.interval ≠ 0 := by rw [heq]; exact hfires.1
    have hleft : s₁.proc.ticksLeft = int32 0 := by rw [heq]; rfl
    obtain ⟨-, -, hsaved⟩ := ordinary_run hrun hint hleft
    have hpage : s₂.proc.sigalarmTf = .page ⟨s.proc.pc, s.proc.reg⟩ := by
      rw [hsaved fun k hk hkt => int32_ne_zero (by omega) (by omega) (by omega), heq]
    exact sigreturn_page hR hpage env
  · have hleft : s₁.proc.ticksLeft = s₁.proc.interval := by
      rcases hcall with hA | hR
      · rw [ecall_sigalarm hA hstep]
        rfl
      · obtain ⟨hi, hl, -, -⟩ := ecall_sigreturn hR hstep
        rw [hi, hl]
    have hiff := fires_iff hrun hpos hint hleft hlt
    have hrep : s₁.proc.interval = int32 s₁.proc.interval :=
      (Int.bmod_eq_of_le (by omega) (by omega)).symm
    obtain ⟨⟨-, hhandler⟩, -, -⟩ := ordinary_run hrun hpos.ne' (hleft.trans hrep)
    by_cases hfires : s₂.proc.Fires
    · rw [if_pos (hiff.mp hfires), tick_of_fires hfires htick]
      exact ⟨rfl, hhandler, hfires⟩
    · rw [if_neg fun he => hfires (hiff.mpr he), tick_of_not_fires hfires htick]
      exact ⟨rfl, rfl, hfires⟩
  · rw [ecall_sigalarm hA hstep]
    simp only [Proc.usertrapret, Proc.setA0, Proc.sysSigalarm, Proc.enterCall, and_self]

/-- A process with an alarm of one tick, at address 40. -/
def waiting : State :=
  (Run.execAll step fresh (callSigalarm 0 1 100 ++ [.instr 40 fun _ => 7])).getD fresh

/-- A handler that calls `getpid`, is interrupted twice and asks for `sigreturn`. -/
def handlerRun : List Action :=
  [.instr 100 (callRegs 11 0 0), .ecall quiet, .tick true, .device, .tick false,
    .instr 120 (callRegs 24 5 5)]

theorem sigreturn_undoes_alarm_getpid :
    waiting.proc.Fires ∧ ∃ s₁ s₂ s₃, step waiting (.tick true) = some s₁ ∧
      execAllUnder step ordinary s₁ handlerRun = some s₂ ∧ s₂.num = SYS_sigreturn ∧
      step s₂ (.ecall quiet) = some s₃ ∧ s₃.proc.pc = waiting.proc.pc ∧
      s₃.proc.reg = waiting.proc.reg := by
  have hfires : waiting.proc.Fires := by decide +kernel
  obtain ⟨s₁, h₁, -, hret⟩ := sigreturn_undoes_alarm.1 waiting hfires
  have hrun : ((step waiting (.tick true)).bind fun s =>
      (execAllUnder step ordinary s handlerRun).map State.num) = some SYS_sigreturn := by
    decide +kernel
  rw [h₁, Option.bind_some] at hrun
  obtain ⟨s₂, h₂, hnum⟩ := Option.map_eq_some_iff.mp hrun
  obtain ⟨s₃, h₃, hpc, hreg⟩ := hret handlerRun s₂ quiet h₂ (by decide) hnum
  exact ⟨hfires, s₁, s₂, s₃, h₁, h₂, hnum, h₃, hpc, hreg⟩

end Xv6.Handler
