import Mathlib.Data.List.Dedup
import Xv6.Log.Crash

/-!
Log space: when `log_write` reaches `panic("too big a transaction")`.

`begin_op` admits an operation only if `lh.n` and `MAXOPBLOCKS` blocks for every
outstanding operation fit into `LOGSIZE` blocks. The reservation is one block
too generous for the log `mkfs` lays out: `nlog = LOGSIZE` counts the header, so
`log_write` gives up at `LOGSIZE - 1` blocks, and it does so before it looks
whether the block is already logged. `tooBig_of_three_maximal_ops` overlaps
three operations of `MAXOPBLOCKS` blocks each; `log_space` says that the
runs without the panic are exactly those that never call `log_write` once the
open group has logged `LOGSIZE - 1` distinct blocks.
-/

namespace Xv6.Log

/-! ### What operations log -/

/-- The distinct blocks an operation has logged. -/
def opBlocks (h : History) (op : ℕ) : List ℕ := ((byOp op h.issued).map (·.block)).dedup

/-- The distinct blocks the operations of the open group have logged together. -/
def groupBlocks (h : History) : List ℕ := (h.group.map (·.block)).dedup

/-- The discipline of file system calls: between its `begin_op` and its `end_op`
an operation logs at most `MAXOPBLOCKS` distinct blocks, each any number of times. -/
def opLimit (s : State) : Action → Bool
  | .write op b _ => decide (((opBlocks s.hist op).insert b).length ≤ MAXOPBLOCKS)
  | _ => true

/-- The open group has logged fewer than `LOGSIZE - 1` distinct blocks when
`log_write` is called. -/
def roomLeft (s : State) : Action → Bool
  | .write _ _ _ => decide ((groupBlocks s.hist).length < LOGSIZE - 1)
  | _ => true

/-- The states of the runs from `d` on the geometry of `mkfs` that keep `cond`. -/
def ReachableOn (d : Disk) (cond : State → Action → Bool) : State → Prop :=
  Run.ReachableUnder (Init d) (Run.relOf (exec mkfsGeometry)) fun s a => cond s a = true

theorem ReachableOn.reachable {d : Disk} {cond : State → Action → Bool} {s : State}
    (h : ReachableOn d cond s) : Reachable mkfsGeometry d s :=
  Run.ReachableUnder.reachable h

/-! ### The in-memory header lists the blocks of the open group -/

/-- `lh` lists exactly the blocks logged by the open group, until the group's
header is written; after that the group is empty. -/
def HeaderOk : Phase → List ℕ → List Write → Prop
  | .running, lh, group | .writeLog _, lh, group | .writeHead, lh, group | .finish, lh, group =>
    ∀ b, b ∈ lh ↔ ∃ w ∈ group, w.block = b
  | .panicked _, _, _ => True
  | _, _, group => group = []

section Preservation

variable {g : Geometry} {base : Disk} {m m' : Machine} {h : History}

theorem HeaderOk.write (inv : DiskInv g base m h) (up : m.up)
    (header : HeaderOk m.phase m.lh h.group) {w : Write} (active : w.op ∈ h.active) {s : State}
    (hs : execWrite g ⟨m, h⟩ w = s) : HeaderOk s.machine.phase s.machine.lh s.hist.group := by
  have hp := inv.phase_running up (.inr (List.ne_nil_of_mem active))
  rw [hp] at header
  have grown : ∀ b, (∃ v ∈ h.group ++ [w], v.block = b) ↔ b ∈ m.lh ∨ b = w.block := by
    intro b
    simp only [List.mem_append, List.mem_singleton, or_and_right, exists_or, exists_eq_left,
      header b]
    exact or_congr_right eq_comm
  simp only [execWrite, Machine.logWrite] at hs
  split at hs
  · subst hs
    trivial
  · rename_i m₂ hr
    subst hs
    split at hr
    · cases hr
    · split at hr
      · cases hr
      · split at hr
        · rename_i absorbed
          cases hr
          change HeaderOk m.phase m.lh (h.group ++ [w])
          rw [hp]
          intro b
          rw [grown]
          exact ⟨.inl, fun hb => hb.elim id fun eq => eq ▸ absorbed⟩
        · cases hr
          change HeaderOk m.phase (m.lh ++ [w.block]) (h.group ++ [w])
          rw [hp]
          intro b
          rw [grown, List.mem_append, List.mem_singleton]

theorem HeaderOk.endOp (inv : DiskInv g base m h) (up : m.up)
    (header : HeaderOk m.phase m.lh h.group) {op : ℕ} (active : op ∈ h.active) {s : State}
    (hs : execEnd ⟨m, h⟩ op = s) : HeaderOk s.machine.phase s.machine.lh s.hist.group := by
  have hp := inv.phase_running up (.inr (List.ne_nil_of_mem active))
  have idle := (inv.running hp).idle
  simp only [execEnd, Machine.endOp, idle, Bool.false_eq_true, if_false] at hs
  subst hs
  by_cases last : m.outstanding - 1 = 0
  · rw [hp] at header
    by_cases empty : m.lh = [] <;> simpa [last, empty, HeaderOk, History.finish] using header
  · simpa [last, History.finish] using header

/-- The next iteration of a loop and its exit are alike for the header. -/
theorem HeaderOk.nextTail {again : ℕ → Phase} {done : Phase} {tail : ℕ} {lh : List ℕ}
    {group : List Write} (more : HeaderOk (again (tail + 1)) lh group)
    (last : HeaderOk done lh group) : HeaderOk (m.nextTail tail again done) lh group := by
  unfold Machine.nextTail
  split
  · exact more
  · exact last

theorem HeaderOk.advance (header : HeaderOk m.phase m.lh h.group)
    (step : m.advance g = some m') :
    HeaderOk m'.phase m'.lh (if m.phase = .writeHead then h.commit else h).group := by
  cases hp : m.phase <;> rw [hp] at header <;> simp only [Machine.advance, hp,
    Option.map_eq_some_iff, Option.some.injEq, reduceCtorEq] at step
  case writeLog | install | reinstall =>
    obtain ⟨b, -, rfl⟩ := step
    exact .nextTail header header
  all_goals subst step
  case writeHead => rfl
  case finish => exact header
  case clearHead | reclear =>
    intro b
    simp [show h.group = [] from header]
  case readHead => by_cases empty : (m.readHead g).lh = [] <;> simpa [empty, HeaderOk] using header

theorem HeaderOk.exec {s t : State} {a : Action} (inv : DiskInv g base s.machine s.hist)
    (header : HeaderOk s.machine.phase s.machine.lh s.hist.group)
    (step : Log.exec g s a = some t) :
    HeaderOk t.machine.phase t.machine.lh t.hist.group := by
  cases a <;> simp only [Log.exec, Option.ite_none_right_eq_some, Option.map_eq_some_iff,
    Option.some.injEq] at step
  case beginOp | evict =>
    obtain ⟨-, rfl⟩ := step
    exact header
  case write op b d =>
    obtain ⟨⟨up, active, -⟩, hs⟩ := step
    exact .write inv up header active hs
  case endOp op =>
    obtain ⟨⟨up, active⟩, hs⟩ := step
    exact .endOp inv up header active hs
  case advance =>
    obtain ⟨m', hm, rfl⟩ := step
    exact header.advance hm
  case read => exact step ▸ header
  case crash => exact step ▸ rfl

end Preservation

/-- In every reachable state the in-memory header lists the open group's blocks. -/
theorem Reachable.headerOk {g : Geometry} {d : Disk} (ok : HeadOk g d) {s : State}
    (h : Reachable g d s) : HeaderOk s.machine.phase s.machine.lh s.hist.group := by
  induction h with
  | start hs => cases hs; rfl
  | next reached _ step ih =>
    have inv := (Reachable.inv ok reached).1
    exact .exec inv ih step

/-- While the log is open, `lh.n` is the number of distinct blocks the group has logged. -/
theorem lh_length_eq {g : Geometry} {base : Disk} {m : Machine} {h : History}
    (inv : DiskInv g base m h) (header : HeaderOk m.phase m.lh h.group) (hp : m.phase = .running) :
    m.lh.length = (groupBlocks h).length := by
  have nodup := (inv.running hp).buffers.nodup
  rw [hp] at header
  refine List.Perm.length_eq ((List.perm_ext_iff_of_nodup nodup (List.nodup_dedup _)).mpr ?_)
  intro b
  rw [header b, List.mem_dedup, List.mem_map]

/-! ### The panic -/

/-- The committing or recovering process never halts the kernel. -/
theorem Machine.advance_alive {g : Geometry} {m m' : Machine} (step : m.advance g = some m')
    (r : Panic) : m'.phase ≠ .panicked r := by
  have tail : ∀ (n : ℕ) (again : ℕ → Phase) (done : Phase), (∀ k, again k ≠ .panicked r) →
      done ≠ .panicked r → m.nextTail n again done ≠ .panicked r := by
    intro n again done hagain hdone
    unfold Machine.nextTail
    split
    · exact hagain _
    · exact hdone
  cases hp : m.phase <;> simp only [Machine.advance, hp, Option.map_eq_some_iff,
    Option.some.injEq, reduceCtorEq] at step
  case writeLog | install | reinstall =>
    obtain ⟨b, -, rfl⟩ := step
    exact tail _ _ _ (by simp) (by simp)
  all_goals subst step
  case readHead => by_cases empty : (m.readHead g).lh = [] <;> simp [empty]
  all_goals simp

/-- `log_write` halts with "too big a transaction" exactly when `LOGSIZE - 1`
distinct blocks have been logged; no other step does. -/
theorem tooBig_step_iff {d : Disk} (ok : HeadOk mkfsGeometry d) {s t : State} {a : Action}
    (h : Reachable mkfsGeometry d s)
    (alive : s.machine.phase ≠ .panicked .tooBigATransaction)
    (step : exec mkfsGeometry s a = some t) :
    t.machine.phase = .panicked .tooBigATransaction ↔ roomLeft s a = false := by
  have inv := (h.inv ok).1
  cases a <;> simp only [exec, Option.ite_none_right_eq_some, Option.map_eq_some_iff,
    Option.some.injEq] at step
  case beginOp =>
    obtain ⟨-, rfl⟩ := step
    simpa [roomLeft, Machine.beginOp] using alive
  case write op b data =>
    obtain ⟨⟨up, active, -⟩, rfl⟩ := step
    have hp := inv.phase_running up (.inr (List.ne_nil_of_mem active))
    have length := lh_length_eq inv (h.headerOk ok) hp
    have running := inv.running hp
    have outstanding : 1 ≤ s.machine.outstanding := by
      rw [running.counted]
      exact List.length_pos_of_mem active
    simp only [roomLeft, decide_eq_false_iff_not, Nat.not_lt, ← length]
    set m₁ := (s.machine.fetch b).setData b data with hm₁
    have hlh : m₁.lh = s.machine.lh := rfl
    simp only [execWrite, ← hm₁, Machine.logWrite, hlh]
    by_cases full : LOGSIZE - 1 ≤ s.machine.lh.length
    · rw [if_pos (.inr full)]
      simp [Machine.halt, full]
    · have room : ¬ (LOGSIZE ≤ s.machine.lh.length ∨
          mkfsGeometry.size - 1 ≤ s.machine.lh.length) := by
        rintro (more | more)
        · exact full (Nat.le_trans (Nat.sub_le _ _) more)
        · exact full more
      have inside : ¬ m₁.outstanding < 1 := Nat.not_lt.mpr outstanding
      rw [if_neg room, if_neg inside]
      simp only [full, iff_false]
      split
      · rename_i reason hr
        split at hr <;> cases hr
      · rename_i m₂ hr
        have : m₂.phase = .running := by
          split at hr <;> cases hr <;> exact hp
        simp [this]
  case endOp op =>
    obtain ⟨⟨up, active⟩, rfl⟩ := step
    have hp := inv.phase_running up (.inr (List.ne_nil_of_mem active))
    simp only [roomLeft, execEnd, Machine.endOp, (inv.running hp).idle, Bool.false_eq_true,
      if_false, Bool.true_eq_false, iff_false]
    by_cases last : s.machine.outstanding - 1 = 0
    · by_cases empty : s.machine.lh = [] <;> simp [last, empty]
    · simp [last, hp]
  case advance =>
    obtain ⟨m', hm, rfl⟩ := step
    simpa [roomLeft] using Machine.advance_alive hm _
  case read b =>
    subst step
    simpa [roomLeft, Machine.fetch] using alive
  case evict b =>
    obtain ⟨-, rfl⟩ := step
    simpa [roomLeft] using alive
  case crash =>
    subst step
    simp [roomLeft, Machine.boot]

/-- **Log space.** Take the log `mkfs` lays out and runs in which every operation
keeps to `MAXOPBLOCKS` distinct blocks. If moreover no `log_write` is called once
the open group has logged `LOGSIZE - 1` distinct blocks, then none reaches
`panic("too big a transaction")`; and a `log_write` called after that many panics,
whether its block is new or already logged. -/
theorem log_space (d : Disk) (ok : HeadOk mkfsGeometry d) :
    (∀ s, ReachableOn d (fun s a => opLimit s a && roomLeft s a) s →
      s.machine.phase ≠ .panicked .tooBigATransaction) ∧
    ∀ s a t, ReachableOn d (fun s a => opLimit s a && roomLeft s a) s → opLimit s a →
      roomLeft s a = false → exec mkfsGeometry s a = some t →
      t.machine.phase = .panicked .tooBigATransaction := by
  have safe : ∀ s, ReachableOn d (fun s a => opLimit s a && roomLeft s a) s →
      s.machine.phase ≠ .panicked .tooBigATransaction := by
    intro s h
    induction h with
    | start hs => cases hs; simp [Machine.boot]
    | @next s t a reached cond step ih =>
      rw [Bool.and_eq_true] at cond
      intro panicked
      have room := (tooBig_step_iff ok reached.reachable ih step).mp panicked
      simp [cond.2] at room
  refine ⟨safe, fun s a t reached _ full step => ?_⟩
  exact (tooBig_step_iff ok reached.reachable (safe s reached) step).mpr full

/-- Three operations that log ten blocks each, all different, before any ends. -/
def threeMaximalOps : List Action :=
  [.advance, .advance, .beginOp, .beginOp, .beginOp] ++
    (List.range 30).map fun i => .write (i / 10) (100 + i) fun _ => 0

/-- Up to its last write that run keeps the condition and is safe, with
`LOGSIZE - 1` blocks logged. -/
theorem log_space_threeMaximalOps :
    ∃ s, ReachableOn (fun _ _ => 0) (fun s a => opLimit s a && roomLeft s a) s ∧
      (groupBlocks s.hist).length = LOGSIZE - 1 ∧
      s.machine.phase ≠ .panicked .tooBigATransaction := by
  obtain ⟨s, reached, full⟩ : ∃ s, ReachableOn (fun _ _ => 0) (fun s a => opLimit s a && roomLeft s a) s ∧
      (groupBlocks s.hist).length = LOGSIZE - 1 :=
    Run.exists_reachableUnder threeMaximalOps.dropLast rfl (by decide +kernel)
  exact ⟨s, reached, full,
    (log_space (fun _ _ => 0) ⟨by decide, by decide⟩).1 s reached⟩

/-- The reservation is not sufficient: `begin_op` admits all three operations, and
the thirtieth block is one too many for `log_write`. -/
theorem tooBig_of_three_maximal_ops :
    ∃ s, ReachableOn (fun _ _ => 0) opLimit s ∧
      s.machine.phase = .panicked .tooBigATransaction :=
  Run.exists_reachableUnder threeMaximalOps rfl (by decide +kernel)

end Xv6.Log
