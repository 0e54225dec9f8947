import Xv6.Exec.Model

/-!
What each operation of `exec` needs and gives.

A process knows the pages it owns and the state of the file system. `kalloc` may fail at any
call and `readi` may deliver fewer bytes than it was asked for, but those it delivers are
bytes of the file. Locks are released by who holds them, and a transaction ends once.

* `wp_lift`: specifications of programs on memory hold in `exec`.
* `run_of_wp`: the rules are right for a run with any `Env`.
-/

namespace Xv6.Exec

open Function (update)
open Prog (Rules wp)
open Vm (Geometry Loc Phys)

namespace Fs

def begin (f : Fs) : Fs := { f with ops := f.ops + 1 }

def finish (f : Fs) : Fs := { f with ops := f.ops - 1 }

/-- A reference to `ip` comes from `namei`. -/
def get (f : Fs) (ip : ℕ) : Fs := { f with ref := update f.ref ip (f.ref ip + 1) }

def lock (f : Fs) (ip : ℕ) : Fs := { f with locked := update f.locked ip true }

/-- `ip` is unlocked and the reference goes. -/
def unlockPut (f : Fs) (ip : ℕ) : Fs :=
  { f with locked := update f.locked ip false, ref := update f.ref ip (f.ref ip - 1) }

/-- Bytes that `readi` may deliver. -/
structure Reads (f : Fs) (ip off n : ℕ) (x : ℕ × (ℕ → UInt8)) : Prop where
  le : x.1 ≤ n
  inside : 0 < x.1 → off + x.1 ≤ (f.data ip).length ∧ off + n < 4294967296
  byte : ∀ i < x.1, x.2 i = (f.data ip).getD (off + i) 0

end Fs

def execPre (g : Geometry) (panics : Prop) :
    (o : Op) → (Resp o → Loc × Fs → Prop) → Loc × Fs → Prop
  | .mem o, Q, x => Vm.memPre g panics o (fun r l' => Q r (l', x.2)) x.1
  | .begin_op, Q, x => Q () (x.1, x.2.begin)
  | .end_op, Q, x => 0 < x.2.ops ∧ Q () (x.1, x.2.finish)
  | .namei path, Q, x =>
    (x.2.names path = none → Q none x) ∧
      ∀ ip, x.2.names path = some ip → Q (some ip) (x.1, x.2.get ip)
  | .ilock ip, Q, x => x.2.locked ip = false ∧ Q () (x.1, x.2.lock ip)
  | .iunlockput ip, Q, x => (x.2.locked ip = true ∧ 0 < x.2.ref ip) ∧ Q () (x.1, x.2.unlockPut ip)
  | .readi ip off n, Q, x => ∀ r, x.2.Reads ip off n r → Q r x

def execRules (g : Geometry) (panics : Prop) : Rules Resp (Loc × Fs) where
  pre := execPre g panics
  mono := by
    intro o Q Q' x h hpre
    cases o with
    | mem o => exact (Vm.memRules g panics).mono (fun r l' => h r (l', x.2)) hpre
    | begin_op => exact h _ _ hpre
    | end_op | ilock ip | iunlockput ip => exact ⟨hpre.1, h _ _ hpre.2⟩
    | namei path => exact ⟨fun hnone => h _ _ (hpre.1 hnone), fun ip hip => h _ _ (hpre.2 ip hip)⟩
    | readi ip off n => exact fun r hr => h _ _ (hpre r hr)

variable {g : Geometry} {panics : Prop} {l : Loc} {f : Fs} {ip : ℕ} {α : Type}

/-- A program on memory leaves the file system alone. -/
theorem wp_lift {x : Vm.Code α} {Q : α → Loc × Fs → Prop}
    (h : wp (Vm.memRules g panics) x (fun a l' => Q a (l', f)) l) :
    wp (execRules g panics) (lift x) Q (l, f) := by
  induction x generalizing l with
  | ret a => exact h
  | op o k ih => exact (Vm.memRules g panics).mono (fun r l' hr => ih r hr) h

variable {Q : Unit → Loc × Fs → Prop}

theorem wp_begin_op (h : Q () (l, f.begin)) :
    wp (execRules g panics) begin_op Q (l, f) := h

theorem wp_end_op (hops : 0 < f.ops) (h : Q () (l, f.finish)) :
    wp (execRules g panics) end_op Q (l, f) := ⟨hops, h⟩

theorem wp_namei {path : List UInt8} {Q : Option ℕ → Loc × Fs → Prop}
    (hnone : f.names path = none → Q none (l, f))
    (hsome : ∀ ip, f.names path = some ip → Q (some ip) (l, f.get ip)) :
    wp (execRules g panics) (namei path) Q (l, f) := ⟨hnone, hsome⟩

theorem wp_ilock (hfree : f.locked ip = false)
    (h : Q () (l, f.lock ip)) : wp (execRules g panics) (ilock ip) Q (l, f) := ⟨hfree, h⟩

theorem wp_iunlockput (hlocked : f.locked ip = true)
    (href : 0 < f.ref ip) (h : Q () (l, f.unlockPut ip)) :
    wp (execRules g panics) (iunlockput ip) Q (l, f) := ⟨⟨hlocked, href⟩, h⟩

theorem wp_readi {off n : ℕ} {Q : ℕ × (ℕ → UInt8) → Loc × Fs → Prop}
    (h : ∀ r, f.Reads ip off n r → Q r (l, f)) :
    wp (execRules g panics) (readi ip off n) Q (l, f) := h

/-! ### The rules are right -/

theorem available_le (size off n : ℕ) : available size off n ≤ n := by
  unfold available
  split
  · exact Nat.zero_le n
  · exact min_le_left _ _

/-- What `readi` delivers in a run. -/
theorem reads_available (f : Fs) (ip off n limit : ℕ) :
    f.Reads ip off n (min limit (available (f.data ip).length off n),
      fun i => (f.data ip).getD (off + i) 0) where
  le := (min_le_right _ _).trans (available_le _ _ _)
  inside hpos := by
    unfold available at hpos ⊢
    split at hpos
    case isTrue => exact absurd (lt_min_iff.mp hpos).2 (lt_irrefl 0)
    case isFalse hin =>
      simp only at hpos ⊢
      rw [if_neg hin]
      omega
  byte _ _ := rfl

variable {U : Set ℕ} {s : State}

theorem exec_of_pre (env : Env) (hagrees : l.Agrees g U s.phys) {o : Op} {Q : Resp o → Loc × Fs → Prop}
    (hpre : execPre g panics o Q (l, s.fs)) :
    (s.exec g env o = none ∧ panics) ∨
      ∃ r s' l', s.exec g env o = some (r, s') ∧ l'.Agrees g U s'.phys ∧ Q r (l', s'.fs) := by
  cases o with
  | mem o =>
    -- `kalloc` that fails apart, memory operations are those of `Phys.exec`
    have hstep : ∀ calls : ℕ, (s.phys.exec g o = none ∧ panics) ∨
        ∃ r s' l', ((s.phys.exec g o).map fun x =>
          (x.1, ({ s with phys := x.2, calls := calls } : State))) = some (r, s') ∧
            l'.Agrees g U s'.phys ∧ Q r (l', s'.fs) := by
      intro calls
      rcases hagrees.exec hpre with hnone | ⟨r, m', l', hexec, h', hQ⟩
      · exact .inl hnone
      · exact .inr ⟨r, { s with phys := m', calls := calls }, l', by rw [hexec]; rfl, h', hQ⟩
    cases o with
    | kalloc =>
      by_cases hfail : env.kallocFails s.calls
      · exact .inr ⟨(0 : ℕ), { s with calls := s.calls + 1 }, l, if_pos hfail, hagrees, hpre.1⟩
      · rcases hstep (s.calls + 1) with ⟨hnone, hpanic⟩ | hsome
        · exact .inl ⟨(if_neg hfail).trans (by rw [hnone]; rfl), hpanic⟩
        · obtain ⟨r, s', l', hexec, hrest⟩ := hsome
          exact .inr ⟨r, s', l', (if_neg hfail).trans hexec, hrest⟩
    | kfree | read | write =>
      rcases hstep s.calls with ⟨hnone, hpanic⟩ | hsome
      · exact .inl ⟨by simp only [State.exec, hnone, Option.map_none], hpanic⟩
      · exact .inr hsome
    | panic msg => exact .inl ⟨rfl, hpre⟩
    | outOfRounds => exact hpre.elim
  | begin_op => exact .inr ⟨(), _, l, rfl, hagrees, hpre⟩
  | end_op | iunlockput ip => exact .inr ⟨(), _, l, if_pos hpre.1, hagrees, hpre.2⟩
  | namei path =>
    cases hname : s.fs.names path with
    | none => exact .inr ⟨none, s, l, by simp only [State.exec, hname], hagrees, hpre.1 hname⟩
    | some ip =>
      exact .inr ⟨some ip, { s with fs := s.fs.get ip }, l, by simp only [State.exec, hname]; rfl,
        hagrees, hpre.2 ip hname⟩
  | ilock ip =>
    have hfree : ¬ s.fs.locked ip = true := by
      rw [hpre.1]
      exact Bool.false_ne_true
    exact .inr ⟨(), _, l, if_neg hfree, hagrees, hpre.2⟩
  | readi ip off n =>
    exact .inr ⟨_, { s with calls := s.calls + 1 }, l, rfl, hagrees,
      hpre _ (reads_available s.fs ip off n (env.readLimit s.calls))⟩

/-- A program that satisfies `wp`, with no panic allowed, returns as `wp` says. -/
theorem run_of_wp (env : Env) {x : Code α} {Q : α → Loc × Fs → Prop}
    (hwp : wp (execRules g False) x Q (l, s.fs)) (hagrees : l.Agrees g U s.phys) :
    ∃ a s' l', run g env x s = some (a, s') ∧ l'.Agrees g U s'.phys ∧ Q a (l', s'.fs) := by
  induction x generalizing l s with
  | ret a => exact ⟨a, s, l, rfl, hagrees, hwp⟩
  | op o k ih =>
    rcases exec_of_pre env hagrees hwp with ⟨-, hpanic⟩ | ⟨r, s', l', hexec, h', hk⟩
    · exact hpanic.elim
    · have hrun : run g env (.op o k) s = run g env (k r) s' := by
        simp only [run, hexec, Option.bind_some]
      rw [hrun]
      exact ih r hk h'

end Xv6.Exec
