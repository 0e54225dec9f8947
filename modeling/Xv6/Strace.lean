import Mathlib.Data.BitVec
import Xv6.Lib.Run
import Xv6.Lib.Update

/-!
`strace`: the lines that `syscall` prints.

A call has two steps, `enter` and `finish`, with those of other processes between them, and
`fork` copies `trace_flag` in its course. What a handler returns is left open (`Outcome`); the
only handlers that change the argument registers are those of `exec` and `sigreturn`. Beside
the processes a state has the mask that each was last given by `trace`, or got from its parent;
no kernel function reads it.

* `shift_ne_zero_iff`: the test of `syscall` is true for every bit from the call's own on.
* `strace_reports`: which calls print a line, and what its arguments are.
-/

namespace Xv6.Strace

open Function (update update_self update_of_ne update_eq_self)

inductive Syscall where
  | fork | exit | wait | pipe | read | kill | exec | fstat | chdir | dup | getpid | sbrk | sleep
  | uptime | open_ | write | mknod | unlink | link | mkdir | close | trace | sigalarm | sigreturn
  | settickets | waitx | setpriority
deriving DecidableEq

open Syscall

/-- The table of the handlers, from index 1 on. -/
def syscalls : List Syscall :=
  [fork, exit, wait, pipe, read, kill, exec, fstat, chdir, dup, getpid, sbrk, sleep, uptime, open_,
    write, mknod, unlink, link, mkdir, close, trace, sigalarm, sigreturn, settickets, waitx,
    setpriority]

def syscallNames : List String :=
  ["fork", "exit", "wait", "pipe", "read", "kill", "exec", "fstat", "chdir", "dup", "getpid",
    "sbrk", "sleep", "uptime", "open", "write", "mknod", "unlink", "link", "mkdir", "close", "trace",
    "sigalarm", "sigreturn ", "sys_settickets", "sys_waitx", "sys_setpriority"]

/-- The handler of a call, if the number has one. -/
def lookup (num : ℤ) : Option Syscall :=
  if 0 < num ∧ num ≤ syscalls.length then syscalls[num.toNat - 1]? else none

/-- The registers of the trapframe that `syscall` reads. -/
structure Trapframe where
  a0 : BitVec 64
  a1 : BitVec 64
  a2 : BitVec 64
  a3 : BitVec 64
  a7 : BitVec 64
deriving DecidableEq

/-- A register as an `int`. -/
def int (v : BitVec 64) : ℤ := (v.setWidth 32).toInt

def Trapframe.num (f : Trapframe) : ℤ := int f.a7

structure Line where
  pid : ℤ
  name : String
  args : List ℤ
  ret : ℤ
deriving DecidableEq

inductive Output where
  | trace (line : Line)
  | unknown (pid : ℤ) (name : String) (num : ℤ)
deriving DecidableEq

def Output.text : Output → String
  | .trace ⟨pid, name, [], ret⟩ => s!"{pid}: syscall {name} -> {ret}\n"
  | .trace ⟨pid, name, args, ret⟩ =>
    let shown := " ".intercalate (args.map toString)
    s!"{pid}: syscall {name} ({shown}) -> {ret}\n"
  | .unknown pid name num => s!"{pid} {name}: unknown sys call {num}\n"

/-- The values in the line of a call: `tmp` is `a0` on entry, the others are read when the
handler has returned. -/
def Syscall.printed (c : Syscall) (tmp : BitVec 32) (f : Trapframe) : List ℤ :=
  match c with
  | fork | getpid | uptime | sigreturn => []
  | exec | fstat | setpriority => [tmp.toInt, int f.a1]
  | open_ | link | sigalarm => [tmp.toInt, int f.a2]
  | read | waitx => [tmp.toInt, int f.a1, int f.a2]
  | write | mknod => [tmp.toInt, int f.a2, int f.a3]
  | _ => [tmp.toInt]

/-- What a handler comes to. -/
structure Outcome where
  ret : BitVec 64
  /-- `exec` has committed, with this stack pointer and name. -/
  image : Option (BitVec 64 × String)
  /-- What `sigreturn` restores. -/
  saved : Trapframe

/-- The trapframe when the handler returns. -/
def Syscall.trapframe (c : Syscall) (f : Trapframe) (o : Outcome) : Trapframe :=
  match c with
  | exec => { f with a1 := o.image.elim f.a1 Prod.fst }
  | sigreturn => o.saved
  | _ => f

structure Proc where
  pid : ℤ
  name : String
  traceFlag : BitVec 32
  /-- The trapframe with which the process entered the call it is in. -/
  call : Option Trapframe
deriving DecidableEq

def syscall (p : Proc) (f : Trapframe) (o : Outcome) : Proc × Option Output :=
  let num := f.num
  let tmp := f.a0.setWidth 32
  match lookup num with
  | some c =>
    let flag := if c = trace then tmp else p.traceFlag
    let name := if c = exec then o.image.elim p.name Prod.snd else p.name
    let f := { c.trapframe f o with a0 := if c = trace then 0 else o.ret }
    ({ p with name := name, traceFlag := flag, call := none },
      if flag.sshiftRight num.toNat ≠ 0#32 then
        some (.trace ⟨p.pid, syscallNames.getD (num.toNat - 1) "", c.printed tmp f, int f.a0⟩)
      else none)
  | none => ({ p with call := none }, some (.unknown p.pid p.name num))

structure State where
  proc : ℕ → Option Proc
  /-- The mask the process was last given. -/
  mask : ℕ → BitVec 32
  console : List Output

inductive Action where
  /-- Process `p` traps with these registers. -/
  | enter (p : ℕ) (f : Trapframe)
  /-- The `fork` that `p` is in has made process `q`. -/
  | fork (p q : ℕ) (pid : ℤ)
  /-- The handler returns. -/
  | finish (p : ℕ) (o : Outcome)
  | exit (p : ℕ)

/-- The system's step function; `exit` does not return. -/
def exec (s : State) : Action → Option State
  | .enter p f => match s.proc p with
      | some ⟨pid, name, flag, none⟩ =>
        some { s with proc := update s.proc p (some ⟨pid, name, flag, some f⟩) }
      | _ => none
  | .fork p q pid => match s.proc p, s.proc q with
      | some ⟨_, name, flag, some f⟩, none =>
        if lookup f.num = some fork then
          some { s with
            proc := update s.proc q (some ⟨pid, name, flag, none⟩)
            mask := update s.mask q (s.mask p) }
        else none
      | _, _ => none
  | .finish p o => (s.proc p).bind fun pr => pr.call.bind fun f =>
      if lookup f.num = some exit then none
      else some {
        proc := update s.proc p (some (syscall pr f o).1)
        mask := if lookup f.num = some trace then update s.mask p (f.a0.setWidth 32) else s.mask
        console := s.console ++ (syscall pr f o).2.toList }
  | .exit p => some { s with proc := update s.proc p none }

/-- The first process, which is not traced. -/
def init : State where
  proc p := if p = 0 then some ⟨1, "init", 0, none⟩ else none
  mask _ := 0
  console := []

def Reachable : State → Prop := Run.Reachable (· = init) (Run.relOf exec)

/-! ### The flag is the mask -/

variable {s t : State} {p : ℕ} {pr : Proc} {f : Trapframe} {o : Outcome} {c : Syscall}

def Inv (s : State) : Prop := ∀ p pr, s.proc p = some pr → pr.traceFlag = s.mask p

/-- The record of one process changes, and perhaps its mask. -/
theorem Inv.update (inv : Inv s) {mask : BitVec 32} (h : pr.traceFlag = mask)
    (console : List Output) :
    Inv ⟨update s.proc p (some pr), update s.mask p mask, console⟩ := by
  intro q r hq
  dsimp only
  rcases update_cases s.proc p (some pr) q with ⟨rfl, hu⟩ | ⟨hne, hu⟩
  · cases hu.symm.trans hq
    rw [h, update_self]
  · rw [inv q r (hu.symm.trans hq), update_of_ne hne]

theorem Inv.update_same (inv : Inv s) (h : pr.traceFlag = s.mask p) (console : List Output) :
    Inv ⟨Function.update s.proc p (some pr), s.mask, console⟩ := by
  have hall := inv.update (p := p) h console
  rwa [update_eq_self] at hall

theorem syscall_traceFlag (pr : Proc) (f : Trapframe) (o : Outcome) :
    (syscall pr f o).1.traceFlag =
      if lookup f.num = some trace then f.a0.setWidth 32 else pr.traceFlag := by
  cases hc : lookup f.num <;> simp [syscall, hc]

theorem Inv.step (inv : Inv s) {a : Action} (h : exec s a = some t) : Inv t := by
  cases a with
  | enter p f =>
    simp only [exec] at h
    split at h
    next hp =>
      cases h
      have hflag := inv p _ hp
      exact inv.update_same (by exact hflag) _
    next => cases h
  | fork p q pid =>
    simp only [exec] at h
    split at h
    next hp hq =>
      obtain ⟨-, rfl⟩ := Run.of_guard h
      have hflag := inv p _ hp
      exact inv.update (by exact hflag) _
    next => cases h
  | finish p o =>
    obtain ⟨pr, hp, h⟩ := Option.bind_eq_some_iff.mp h
    obtain ⟨f, -, h⟩ := Option.bind_eq_some_iff.mp h
    split at h
    · cases h
    · cases h
      have hflag := syscall_traceFlag pr f o
      split
      next htrace =>
        rw [if_pos htrace] at hflag
        exact inv.update hflag _
      next htrace =>
        rw [if_neg htrace, inv p pr hp] at hflag
        exact inv.update_same hflag _
  | exit p =>
    cases h
    exact fun q r hq => inv q r (of_update id hq rfl).2

theorem Reachable.inv (h : Reachable s) : Inv s := by
  refine Run.ReachableUnder.invariant Inv ?_ (fun _ _ _ inv _ hstep => inv.step hstep) h
  rintro _ rfl p pr hp
  simp only [init] at hp
  split at hp <;> cases hp
  rfl

/-! ### The lines -/

/-- The test is true for any bit from `n` on, and for every negative mask. -/
theorem shift_ne_zero_iff {x : BitVec 32} {n : ℕ} (hn : n < 32) :
    x.sshiftRight n ≠ 0#32 ↔ ∃ j, n ≤ j ∧ x.getLsbD j = true := by
  constructor
  · intro hx
    by_contra hnone
    push Not at hnone
    refine hx (BitVec.eq_of_getLsbD_eq fun i hi => ?_)
    rw [BitVec.getLsbD_sshiftRight, BitVec.getLsbD_zero]
    have hmsb : x.msb = false := Bool.eq_false_iff.mpr (hnone 31 (by omega))
    have hbit : x.getLsbD (n + i) = false := Bool.eq_false_iff.mpr (hnone _ (Nat.le_add_right n i))
    simp [hmsb, hbit]
  · rintro ⟨j, hj, hbit⟩ hx
    have hlt : j < 32 := BitVec.lt_of_getLsbD hbit
    have hzero := congrArg (·.getLsbD (j - n)) hx
    simp only [BitVec.getLsbD_sshiftRight, BitVec.getLsbD_zero] at hzero
    rw [if_pos (by omega), Nat.add_sub_cancel' hj, hbit] at hzero
    simp at hzero
    omega

theorem lookup_lt {k : ℕ} (h : lookup k = some c) : k < 32 := by
  unfold lookup at h
  split at h
  next hnum =>
    have hlen : (syscalls.length : ℤ) = 27 := rfl
    omega
  next => cases h

/-- What a call leaves: the flag it tests is the mask of the process. -/
theorem finish_console (hs : Reachable s) (hp : s.proc p = some pr) (hf : pr.call = some f)
    (ht : exec s (.finish p o) = some t) : (syscall pr f o).1.traceFlag = t.mask p ∧
      t.console = s.console ++ (syscall pr f o).2.toList := by
  have hreach : Reachable t := hs.next trivial ht
  simp only [exec, hp, hf, Option.bind_some] at ht
  split at ht <;> cases ht
  exact ⟨hreach.inv p _ (update_self ..), rfl⟩

/-- The calls whose lines leave out a register. -/
def skips : List Syscall := [open_, write, mknod, link, sigalarm]

/-- The number of values in the line of a call. -/
def Syscall.arity : Syscall → ℕ
  | fork | getpid | uptime | sigreturn => 0
  | exec | fstat | setpriority | open_ | link | sigalarm => 2
  | read | waitx | write | mknod => 3
  | _ => 1

theorem length_printed (tmp : BitVec 32) (f : Trapframe) : (c.printed tmp f).length = c.arity := by
  cases c <;> rfl

theorem printed_eq (hskip : c ∉ skips) (hexec : c = .exec → o.image = none) (ret : BitVec 64) :
    c.printed (f.a0.setWidth 32) { c.trapframe f o with a0 := ret } =
      ([f.a0, f.a1, f.a2].take c.arity).map int := by
  cases c with
  | exec => simp [Syscall.printed, Syscall.trapframe, Syscall.arity, hexec rfl, int]
  | open_ | write | mknod | link | sigalarm => exact absurd (by decide) hskip
  | _ => rfl

/-- **`strace`.** When call number `k` of a process returns, it prints a line exactly if bit `k`
of its mask is set, provided that this bit is set or no bit above it is, and only then. The
line has as many values as the call has arguments to print; if the call is none of those that
skip a register and is not an `exec` that has committed, they are the first argument
registers, as they were on entry, exactly if these fit an `int`. -/
theorem strace_reports (s t : State) (hs : Reachable s) (p : ℕ) (pr : Proc) (f : Trapframe)
    (k : ℕ) (c : Syscall) (o : Outcome) (hp : s.proc p = some pr) (hf : pr.call = some f)
    (hk : f.num = k) (hc : lookup k = some c) (ht : exec s (.finish p o) = some t) :
    let set := (t.mask p).getLsbD
    let args := [f.a0, f.a1, f.a2].take c.arity
    (((∃ line, t.console = s.console ++ [.trace line]) ↔ set k = true) ↔
      set k = true ∨ ∀ j, k < j → set j = false) ∧
    ∀ line, t.console = s.console ++ [.trace line] → line.args.length = c.arity ∧
      (c ∉ skips → (c = .exec → o.image = none) →
        (line.args = args.map BitVec.toInt ↔ ∀ v ∈ args, int v = v.toInt)) := by
  obtain ⟨hmask, hconsole⟩ := finish_console hs hp hf ht
  simp only [syscall, hk, hc, Int.toNat_natCast] at hmask hconsole
  rw [hmask] at hconsole
  have hiff := shift_ne_zero_iff (x := t.mask p) (lookup_lt hc)
  -- a line is printed exactly if the shifted mask is not 0
  have hprints : (∃ line, t.console = s.console ++ [.trace line]) ↔
      ∃ j, k ≤ j ∧ (t.mask p).getLsbD j = true := by
    rw [← hiff, hconsole]
    constructor
    · rintro ⟨line, hline⟩
      rw [List.append_cancel_left_eq] at hline
      split at hline
      next htest => exact htest
      next => cases hline
    · intro htest
      rw [if_pos htest]
      exact ⟨_, rfl⟩
  refine ⟨?_, fun line hline => ?_⟩
  · rw [hprints]
    constructor
    · intro hall
      by_contra hno
      push Not at hno
      obtain ⟨hbit, j, hj, hset⟩ := hno
      exact hbit (hall.mp ⟨j, hj.le, Bool.not_eq_false _ ▸ hset⟩)
    · rintro hbits
      refine ⟨fun ⟨j, hj, hset⟩ => ?_, fun hbit => ⟨k, le_refl k, hbit⟩⟩
      rcases hbits with hbit | habove
      · exact hbit
      · rcases Nat.lt_or_eq_of_le hj with hlt | rfl
        · exact absurd hset (by simp [habove j hlt])
        · exact hset
  · rw [hconsole, List.append_cancel_left_eq] at hline
    split at hline
    next =>
      cases hline
      refine ⟨length_printed _ _, fun hskip hexec => ?_⟩
      dsimp only
      rw [printed_eq hskip hexec]
      exact List.map_inj_left
    next => cases hline

/-- The registers of a call. -/
def registers (num : BitVec 64) (a : ℕ → BitVec 64) : Trapframe := ⟨a 0, a 1, a 2, a 3, num⟩

def returns (ret : BitVec 64) : Outcome := ⟨ret, none, registers 0 fun _ => 0⟩

/-- The first process sets the mask and begins a call. -/
def traced (mask num : BitVec 64) (a : ℕ → BitVec 64) : List Action :=
  [.enter 0 (registers 22 fun _ => mask), .finish 0 (returns 0), .enter 0 (registers num a)]

/-- `read(3, 100, 10)` under a mask with its bit only. -/
theorem strace_reports_read : ∃ s t line, Reachable s ∧ exec s (.finish 0 (returns 10)) = some t ∧
    t.console = s.console ++ [.trace line] ∧
      line.args = [(3 : BitVec 64), 100, 10].map BitVec.toInt := by
  obtain ⟨s, hreach, hp, hmask⟩ : ∃ s, Reachable s ∧
      s.proc 0 = some ⟨1, "init", 32, some ⟨3, 100, 10, 0, 5⟩⟩ ∧
      (exec s (.finish 0 (returns 10))).map (fun t => t.mask 0) = some 32 :=
    Run.exists_reachable (traced 32 5 fun i => [3, 100, 10, 0].getD i 0) rfl (by decide +kernel)
  obtain ⟨t, ht, hmask⟩ := Option.map_eq_some_iff.mp hmask
  obtain ⟨hprints, hargs⟩ :=
    strace_reports s t hreach 0 _ _ 5 .read _ hp rfl (by decide) (by decide) ht
  have hbit : (t.mask 0).getLsbD 5 = true := by
    rw [hmask]
    decide
  obtain ⟨line, hline⟩ := (hprints.mpr (.inl hbit)).mpr hbit
  have hread : line.args = [(3 : BitVec 64), 100, 10].map BitVec.toInt ↔
      ∀ v ∈ [(3 : BitVec 64), 100, 10], int v = v.toInt :=
    (hargs line hline).2 (by decide) nofun
  exact ⟨s, t, line, hreach, ht, hline, hread.mpr (by simp [int])⟩

/-- With the bit of `read` alone, a `fork` prints a line. With its own bit alone, an `open` that
was entered with the registers 7 and 1 prints 7 and 0, its third register. -/
theorem strace_misreports :
    (∃ s, Reachable s ∧ (s.mask 0).getLsbD 1 = false ∧ s.console = [.trace ⟨1, "fork", [], 2⟩]) ∧
    ∃ s, Reachable s ∧ (s.mask 0).getLsbD 15 = true ∧
      s.proc 0 = some ⟨1, "init", 32768, some (registers 15 fun i => [7, 1].getD i 0)⟩ ∧
      (exec s (.finish 0 (returns 3))).map (fun t => t.console) =
        some [.trace ⟨1, "open", [7, 0], 3⟩] :=
  ⟨Run.exists_reachable (traced 32 1 (fun _ => 0) ++ [.fork 0 1 2, .finish 0 (returns 2)]) rfl
      (by decide +kernel),
    Run.exists_reachable (traced 32768 15 fun i => [7, 1].getD i 0) rfl (by decide +kernel)⟩

end Xv6.Strace
