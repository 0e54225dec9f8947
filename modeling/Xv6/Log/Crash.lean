import Xv6.Log.Recover

/-!
Crash atomicity of the redo log.

`PhaseOk` says, for every point between two disk writes of `commit` and of
`recover_from_log`, which of header, log area and home blocks carry the
committed groups; `DiskInv` adds the buffers, the pins and the counters. Each
step of the system preserves it, and `DiskInv.recoversTo` reads off that
recovery from the current disk restores exactly the committed groups.
`HistInv` is the bookkeeping on operations: a group contains all the logged
writes of the operations it contains any of.
-/

namespace Xv6.Log

open Function (update update_of_ne update_self)
open Writes

/-! ### The invariant -/

/-- The home contents after the committed groups, from contents `base`. -/
def durable (base : Disk) (h : History) : Disk := replay base h.committed

/-- The home contents file system code works on: the open group included. -/
def latest (base : Disk) (h : History) : Disk := replay base (h.committed ++ [h.group])

theorem latest_write (base : Disk) (h : History) (w : Write) :
    latest base (h.write w) = update (latest base h) w.block w.data := by
  simp only [latest, replay, History.write, List.flatten_append, List.flatten_singleton,
    List.map_append, ← List.append_assoc, List.map_cons, List.map_nil]
  exact applyAll_concat _ _ _

theorem latest_eq_durable {base : Disk} {h : History} (empty : h.group = []) :
    latest base h = durable base h := by
  simp [latest, durable, replay, empty]

/-- The header is empty and the home blocks hold `contents`. -/
def InPlace (g : Geometry) (d contents : Disk) : Prop :=
  headBlocks (d g.start) = [] ∧ ∀ b, g.Home b → d b = contents b

variable {d contents : Disk} {g : Geometry}

theorem InPlace.recoversTo (h : InPlace g d contents) :
    RecoversTo g d contents := by
  rw [RecoversTo, HeadOk, h.1]
  exact ⟨by simp, h.2⟩

/-- The first `n` log blocks hold the `contents` of their home blocks. -/
def Copied (g : Geometry) (d : Disk) (lh : List ℕ) (n : ℕ) (contents : Disk) : Prop :=
  ∀ i b, i < n → lh[i]? = some b → d (g.start + i + 1) = contents b

/-- The buffers that `log_write` has pinned and `install_trans` has not unpinned. -/
def Phase.pinned (lh : List ℕ) : Phase → List ℕ
  | .running | .writeLog _ | .writeHead => lh
  | .install tail => lh.drop tail
  | _ => []

/-- No operation is outstanding while the log is being committed. -/
def Machine.Closed (m : Machine) : Prop := m.committing = true ∧ m.outstanding = 0

/-- What holds of the disk in each phase: which of header, log area and home
blocks carry the committed groups. -/
def PhaseOk (g : Geometry) (base : Disk) (m : Machine) (h : History) (phase : Phase) : Prop :=
  let done := durable base h
  let now := latest base h
  match phase with
  | .running => InPlace g m.disk done ∧ m.committing = false
  | .writeLog tail => InPlace g m.disk done ∧ m.Closed ∧ tail < m.lh.length ∧
      Copied g m.disk m.lh tail now
  | .writeHead => InPlace g m.disk done ∧ m.Closed ∧ m.lh ≠ [] ∧
      Copied g m.disk m.lh m.lh.length now
  | .install tail => headBlocks (m.disk g.start) = m.lh ∧ m.Closed ∧ tail < m.lh.length ∧
      h.group = [] ∧ Copied g m.disk m.lh m.lh.length now ∧
      ∀ b, g.Home b → b ∉ m.lh.drop tail → m.disk b = now b
  | .clearHead => headBlocks (m.disk g.start) = m.lh ∧ m.Closed ∧ h.group = [] ∧
      Copied g m.disk m.lh m.lh.length now ∧ ∀ b, g.Home b → m.disk b = now b
  | .finish => InPlace g m.disk done ∧ m.Closed ∧ m.lh = []
  | .readHead => RecoversTo g m.disk done
  | .reinstall tail => m.lh = headBlocks (m.disk g.start) ∧ RecoversTo g m.disk done ∧
      tail < m.lh.length ∧
      ∀ b, g.Home b → applyAll m.disk (slots g m.disk tail (m.lh.drop tail)) b = done b
  | .reclear => RecoversTo g m.disk done ∧ ∀ b, g.Home b → m.disk b = done b
  | .panicked _ => InPlace g m.disk done

/-- What holds of the buffers while file system calls are served. -/
structure BuffersOk (g : Geometry) (base : Disk) (m : Machine) (h : History) : Prop where
  fits : m.lh.length ≤ g.size - 1
  home : ∀ b ∈ m.lh, g.Home b
  nodup : m.lh.Nodup
  view : ∀ b, g.Home b → m.bread b = latest base h b

/-- What holds of the pins whenever the kernel has not halted. -/
structure PinsOk (m : Machine) (pinned : List ℕ) : Prop where
  pin : ∀ b, m.pin b = if b ∈ pinned then 1 else 0
  clean : ∀ b, b ∉ pinned → m.bread b = m.disk b

structure DiskInv (g : Geometry) (base : Disk) (m : Machine) (h : History) : Prop where
  phase : PhaseOk g base m h m.phase
  buffers : m.up → BuffersOk g base m h
  pins : (∀ r, m.phase ≠ .panicked r) → PinsOk m (m.phase.pinned m.lh)
  /-- During recovery nothing has been started yet. -/
  booting : m.up = false → (∀ r, m.phase ≠ .panicked r) →
    h.group = [] ∧ h.active = [] ∧ m.committing = false
  counted : (∀ r, m.phase ≠ .panicked r) → m.outstanding = h.active.length

section Preservation

open Machine (copyBlock_disk nextTail writeHead_disk writeHead_bread)

variable {g : Geometry} {base : Disk} {m m' : Machine} {h h' : History}

theorem Machine.alive_of_up (up : m.up = true) (r : Panic) : m.phase ≠ .panicked r := by
  intro hr
  simp [Machine.up, hr] at up

/-- All that the invariant says in a phase in which calls are served. -/
theorem DiskInv.serving (inv : DiskInv g base m h) {phase : Phase} (hp : m.phase = phase)
    (up : Machine.up { m with phase := phase } = true) :
    PhaseOk g base m h phase ∧ BuffersOk g base m h ∧ PinsOk m (phase.pinned m.lh) ∧
      m.outstanding = h.active.length := by
  subst hp
  have alive := Machine.alive_of_up up
  exact ⟨inv.phase, inv.buffers up, inv.pins alive, inv.counted alive⟩

theorem mem_snoc {α : Type} {l : List α} {a b : α} (h : a ∈ l ++ [b]) : a ∈ l ∨ a = b := by
  simpa using h

theorem BuffersOk.same (ok : BuffersOk g base m h) (lh : m'.lh = m.lh) (bread : m'.bread = m.bread)
    (now : latest base h' = latest base h) : BuffersOk g base m' h' :=
  ⟨lh ▸ ok.fits, lh ▸ ok.home, lh ▸ ok.nodup, by rw [bread, now]; exact ok.view⟩

/-- A block is written through its buffer. -/
theorem clean_update {x b : ℕ} {v : Data} (bread : ∀ c, m'.bread c = if c = x then v else m.bread c)
    (disk : m'.disk = update m.disk x v) (clean : b ≠ x → m.bread b = m.disk b) :
    m'.bread b = m'.disk b := by
  rw [bread, disk]
  by_cases here : b = x
  · subst here; simp
  · rw [if_neg here, update_of_ne here, clean here]

theorem DiskInv.of_up (up : m.up = true) (phase : PhaseOk g base m h m.phase)
    (buffers : BuffersOk g base m h) (pins : PinsOk m (m.phase.pinned m.lh))
    (counted : m.outstanding = h.active.length) : DiskInv g base m h :=
  ⟨phase, fun _ => buffers, fun _ => pins, fun down => by simp [up] at down, fun _ => counted⟩

variable {lh : List ℕ}

/-- With the whole group in the log area and its header on disk, recovery yields
the group's contents, however far the home blocks have been overwritten. -/
theorem recoversTo_of_copied (head : headBlocks (d g.start) = lh)
    (fits : lh.length ≤ g.size - 1) (home : ∀ b ∈ lh, g.Home b) (nodup : lh.Nodup)
    (copied : Copied g d lh lh.length contents)
    (others : ∀ b, g.Home b → b ∉ lh → d b = contents b) : RecoversTo g d contents := by
  rw [RecoversTo, HeadOk, head]
  refine ⟨⟨fits, home⟩, fun b hb => ?_⟩
  by_cases mem : b ∈ lh
  · obtain ⟨i, hi⟩ := List.getElem?_of_mem mem
    have hslot := copied i b (List.getElem?_eq_some_iff.mp hi).1 hi
    have slot : (b, contents b) ∈ slots g d 0 lh :=
      mem_slots.mpr ⟨i, hi, by rw [Nat.zero_add]; exact hslot⟩
    exact applyAll_of_nodup (by simpa using nodup) _ slot
  · rw [applyAll_of_notMem _ (by simpa using mem)]
    exact others b hb mem

/-- Recovery from the disk of any state restores the committed groups. -/
theorem DiskInv.recoversTo (inv : DiskInv g base m h) :
    RecoversTo g m.disk (durable base h) := by
  have phase := inv.phase
  cases hp : m.phase <;> simp only [PhaseOk, hp] at phase
  case running | writeLog | writeHead | finish => exact phase.1.recoversTo
  case install tail =>
    obtain ⟨⟨head, -, -, empty, copied, others⟩, buffers, -⟩ := inv.serving hp rfl
    rw [← latest_eq_durable empty]
    exact recoversTo_of_copied head buffers.fits buffers.home buffers.nodup copied
      fun b hb mem => others b hb fun later => mem (List.mem_of_mem_drop later)
  case clearHead =>
    obtain ⟨⟨head, -, empty, copied, placed⟩, buffers, -⟩ := inv.serving hp rfl
    rw [← latest_eq_durable empty]
    exact recoversTo_of_copied head buffers.fits buffers.home buffers.nodup copied
      fun b hb _ => placed b hb
  case readHead => exact phase
  case reinstall => exact phase.2.1
  case reclear => exact phase.1
  case panicked => exact phase.recoversTo

/-- Power-on from a recoverable disk. -/
theorem DiskInv.boot {d : Disk} (recovers : RecoversTo g d (durable base h)) (group : h.group = [])
    (active : h.active = []) : DiskInv g base (.boot d) h where
  phase := recovers
  buffers := fun up => by cases up
  pins := fun _ => ⟨fun _ => rfl, fun _ _ => rfl⟩
  booting := fun _ _ => ⟨group, active, rfl⟩
  counted := fun _ => by simp [Machine.boot, active]

section

variable (inv : DiskInv g base m h)
include inv

/-- The invariant reads buffers through `bread` only, and not at all once halted. -/
theorem DiskInv.congr (disk : m'.disk = m.disk)
    (pin : m'.pin = m.pin) (lh : m'.lh = m.lh) (outstanding : m'.outstanding = m.outstanding)
    (committing : m'.committing = m.committing) (phase : m'.phase = m.phase)
    (bread : (∀ r, m.phase ≠ .panicked r) → ∀ b, m'.bread b = m.bread b) :
    DiskInv g base m' h := by
  have up : m'.up = m.up := by simp only [Machine.up, phase]
  have pinned : m'.phase.pinned m'.lh = m.phase.pinned m.lh := by rw [phase, lh]
  refine ⟨?_, fun hup => ?_, fun hp => ?_, fun hup hp => ?_, fun hp => ?_⟩
  · simpa only [PhaseOk, disk, lh, outstanding, committing, phase, Machine.Closed] using inv.phase
  · rw [up] at hup
    obtain ⟨fits, home, nodup, view⟩ := inv.buffers hup
    exact ⟨lh ▸ fits, lh ▸ home, lh ▸ nodup, fun b hb =>
      (bread (Machine.alive_of_up hup) b).trans (view b hb)⟩
  · simp only [phase] at hp
    obtain ⟨pinOk, clean⟩ := inv.pins hp
    refine ⟨fun b => ?_, fun b hb => ?_⟩
    · simp only [pin, pinned]; exact pinOk b
    · simp only [pinned] at hb
      simp only [bread hp b, disk]
      exact clean b hb
  · simp only [up, phase] at hup hp
    simp only [committing]
    exact inv.booting hup hp
  · simp only [phase] at hp
    simp only [outstanding]
    exact inv.counted hp

theorem DiskInv.fetch (b : ℕ) : DiskInv g base (m.fetch b) h :=
  inv.congr rfl rfl rfl rfl rfl rfl fun _ c => m.fetch_bread b c

/-- Recycling an unpinned buffer loses nothing: the block is on disk. -/
theorem DiskInv.evict {b : ℕ} (unpinned : m.pin b = 0) :
    DiskInv g base { m with cache := update m.cache b none } h := by
  refine inv.congr rfl rfl rfl rfl rfl rfl fun alive c => ?_
  by_cases hc : c = b
  · subst hc
    have notPinned : c ∉ m.phase.pinned m.lh := by
      intro mem
      have := (inv.pins alive).pin c
      simp only [if_pos mem] at this
      omega
    have clean := (inv.pins alive).clean c notPinned
    simpa [Machine.bread] using clean.symm
  · simp [Machine.bread, hc]

/-- An active operation is served only while no commit is in progress. -/
theorem DiskInv.phase_running (up : m.up)
    (open_ : m.committing = false ∨ h.active ≠ []) : m.phase = .running := by
  have alive := Machine.alive_of_up up
  have notClosed : ¬ m.Closed := by
    rintro ⟨committing, none⟩
    rcases open_ with idle | active
    · simp [idle] at committing
    · have := inv.counted alive
      simp only [none] at this
      exact active (List.eq_nil_of_length_eq_zero this.symm)
  have phase := inv.phase
  cases hp : m.phase <;> simp only [PhaseOk, hp] at phase
  case running => rfl
  case readHead | reinstall | reclear => simp [Machine.up, hp] at up
  case panicked r => exact absurd hp (alive r)
  all_goals exact absurd phase.2.1 notClosed

end

/-- The invariant of the running phase, taken apart. -/
structure Running (g : Geometry) (base : Disk) (m : Machine) (h : History) : Prop where
  phase : m.phase = .running
  placed : InPlace g m.disk (durable base h)
  idle : m.committing = false
  buffers : BuffersOk g base m h
  pin : ∀ b, m.pin b = if b ∈ m.lh then 1 else 0
  clean : ∀ b, b ∉ m.lh → m.bread b = m.disk b
  counted : m.outstanding = h.active.length

theorem DiskInv.running (inv : DiskInv g base m h) (hp : m.phase = .running) :
    Running g base m h := by
  obtain ⟨⟨placed, idle⟩, buffers, ⟨pin, clean⟩, counted⟩ := inv.serving hp rfl
  exact ⟨hp, placed, idle, buffers, pin, clean, counted⟩

theorem Running.inv (r : Running g base m h) : DiskInv g base m h :=
  .of_up (by simp [Machine.up, r.phase]) (r.phase ▸ ⟨r.placed, r.idle⟩) r.buffers
    (r.phase ▸ ⟨r.pin, r.clean⟩) r.counted

theorem DiskInv.beginOp (inv : DiskInv g base m h) (up : m.up) (may : m.mayBegin) :
    DiskInv g base m.beginOp h.begin := by
  have idle : m.committing = false := by
    simp only [Machine.mayBegin, Bool.and_eq_true, Bool.not_eq_true'] at may
    exact may.1
  obtain ⟨phase, placed, idle, buffers, pin, clean, counted⟩ :=
    inv.running (inv.phase_running up (.inl idle))
  refine Running.inv ⟨phase, placed, idle, buffers.same rfl rfl rfl, pin, clean, ?_⟩
  simp [Machine.beginOp, History.begin, counted]

/-- A halted kernel writes nothing more. -/
theorem DiskInv.halt (r : Running g base m h) (disk : m'.disk = m.disk) (reason : Panic) :
    DiskInv g base (m'.halt reason) h where
  phase := by
    simp only [PhaseOk, Machine.halt, disk]
    exact r.placed
  buffers := fun up => by cases up
  pins := fun alive => absurd rfl (alive reason)
  booting := fun _ alive => absurd rfl (alive reason)
  counted := fun alive => absurd rfl (alive reason)

/-- A logged write changes what `bread` returns for its block, pins the buffer
and leaves the disk alone. -/
theorem DiskInv.write (inv : DiskInv g base m h) (up : m.up) {w : Write}
    (active : w.op ∈ h.active) (home : g.Home w.block) :
    DiskInv g base (execWrite g ⟨m, h⟩ w).machine (execWrite g ⟨m, h⟩ w).hist := by
  have run := inv.running (inv.phase_running up (.inr (List.ne_nil_of_mem active)))
  obtain ⟨phase, placed, idle, buffers, pin, clean, counted⟩ := run
  set m₁ := (m.fetch w.block).setData w.block w.data with hm₁
  have bread : ∀ c, m₁.bread c = if c = w.block then w.data else m.bread c := by
    intro c
    rw [hm₁, Machine.setData_bread, Machine.fetch_bread]
  have view : ∀ b, g.Home b → m₁.bread b = latest base (h.write w) b := by
    intro b hb
    rw [bread, latest_write]
    by_cases hc : b = w.block
    · subst hc; simp
    · rw [if_neg hc, update_of_ne hc]
      exact buffers.view b hb
  have clean₁ : ∀ b, b ∉ m.lh → b ≠ w.block → m₁.bread b = m.disk b := by
    intro b hb hne
    rw [bread, if_neg hne, clean b hb]
  simp only [execWrite, ← hm₁]
  unfold Machine.logWrite
  by_cases full : LOGSIZE ≤ m₁.lh.length ∨ g.size - 1 ≤ m₁.lh.length
  · rw [if_pos full]
    exact DiskInv.halt ⟨phase, placed, idle, buffers, pin, clean, counted⟩
      (show m₁.disk = m.disk from rfl) _
  rw [if_neg full]
  by_cases outside : m₁.outstanding < 1
  · rw [if_pos outside]
    exact DiskInv.halt ⟨phase, placed, idle, buffers, pin, clean, counted⟩
      (show m₁.disk = m.disk from rfl) _
  rw [if_neg outside]
  by_cases absorbed : w.block ∈ m₁.lh
  · -- Absorption: the block keeps its place in the log.
    rw [if_pos absorbed]
    refine Running.inv ⟨phase, placed, idle, ⟨buffers.fits, buffers.home, buffers.nodup, view⟩,
      pin, fun b hb => clean₁ b hb ?_, counted⟩
    rintro rfl
    exact hb absorbed
  · rw [if_neg absorbed]
    have notMem : w.block ∉ m.lh := absorbed
    have room : m.lh.length < g.size - 1 := by
      rw [not_or, Nat.not_le, Nat.not_le] at full
      exact full.2
    refine Running.inv ⟨phase, placed, idle, ⟨?_, ?_, ?_, view⟩, ?_, ?_, counted⟩
    · show (m.lh ++ [w.block]).length ≤ _
      rw [List.length_append, List.length_singleton]
      omega
    · intro b hb
      rcases mem_snoc hb with old | rfl
      · exact buffers.home b old
      · exact home
    · exact (List.perm_append_singleton ..).nodup_iff.mpr
        (List.nodup_cons.mpr ⟨notMem, buffers.nodup⟩)
    · intro b
      show update m.pin w.block (m.pin w.block + 1) b = if b ∈ m.lh ++ [w.block] then 1 else 0
      by_cases hb : b = w.block
      · subst hb
        simp [pin, notMem]
      · simp [hb, pin]
    · intro b hb
      have hb' : b ∉ m.lh ++ [w.block] := hb
      rw [List.mem_append, List.mem_singleton, not_or] at hb'
      exact clean₁ b hb'.1 hb'.2

/-- `end_op` closes the group when it ends the last outstanding operation. -/
theorem DiskInv.endOp (inv : DiskInv g base m h) (up : m.up) {op : ℕ}
    (active : op ∈ h.active) :
    DiskInv g base (execEnd ⟨m, h⟩ op).machine (execEnd ⟨m, h⟩ op).hist := by
  obtain ⟨phase, placed, idle, buffers, pin, clean, counted⟩ :=
    inv.running (inv.phase_running up (.inr (List.ne_nil_of_mem active)))
  have counted' : m.outstanding - 1 = (h.finish op).active.length := by
    simp [History.finish, counted, List.length_erase_of_mem active]
  simp only [execEnd, Machine.endOp, idle, Bool.false_eq_true, if_false]
  by_cases last : m.outstanding - 1 = 0
  · simp only [last, if_true]
    by_cases empty : m.lh = []
    · refine .of_up (by simp [Machine.up, empty]) ?_ (buffers.same rfl rfl rfl)
        ⟨fun b => ?_, fun b hb => ?_⟩ (last ▸ counted')
      · simp only [PhaseOk, empty, if_true]
        exact ⟨placed, ⟨rfl, rfl⟩, trivial⟩
      · simpa [Phase.pinned, empty] using pin b
      · exact clean b (by simp [empty])
    · refine .of_up (by simp [Machine.up, empty]) ?_ (buffers.same rfl rfl rfl)
        ⟨fun b => ?_, fun b hb => ?_⟩ (last ▸ counted')
      · simp only [PhaseOk, if_neg empty]
        exact ⟨placed, ⟨rfl, rfl⟩, List.length_pos_iff.mpr empty, fun i b hi => by omega⟩
      · simpa [Phase.pinned, empty] using pin b
      · exact clean b (by simpa [Phase.pinned, empty] using hb)
  · simp only [if_neg last]
    exact Running.inv ⟨phase, placed, rfl, buffers.same rfl rfl rfl, pin, clean, counted'⟩

/-! #### The steps of `commit` -/

/-- A log block may be overwritten while the header is empty. -/
theorem InPlace.write_slot (placed : InPlace g d contents) {i : ℕ}
    (fits : i < g.size - 1) (v : Data) : InPlace g (update d (g.start + i + 1) v) contents := by
  refine ⟨?_, fun b hb => ?_⟩
  · rw [update_of_ne (by omega)]
    exact placed.1
  · rw [update_of_ne (hb.ne_slot fits)]
    exact placed.2 b hb

/-- Writing a home block does not touch the copies in the log. -/
theorem Copied.update_home {n b : ℕ}
    (copied : Copied g d lh n contents) (fits : n ≤ g.size - 1) (home : g.Home b) (v : Data) :
    Copied g (update d b v) lh n contents := by
  intro i c hi hc
  rw [update_of_ne (home.ne_slot (by omega)).symm, copied i c hi hc]

variable {tail b : ℕ}

/-- The blocks that are still to be installed, from slot `tail` on. -/
theorem drop_eq_cons (hb : lh[tail]? = some b) :
    lh.drop tail = b :: lh.drop (tail + 1) := by
  obtain ⟨lt, rfl⟩ := List.getElem?_eq_some_iff.mp hb
  exact List.drop_eq_getElem_cons lt

theorem not_mem_drop_succ (nodup : lh.Nodup)
    (hb : lh[tail]? = some b) : b ∉ lh.drop (tail + 1) := by
  have rest := nodup.sublist (List.drop_sublist tail lh)
  rw [drop_eq_cons hb] at rest
  exact (List.nodup_cons.mp rest).1

theorem DiskInv.writeLog (inv : DiskInv g base m h)
    (hp : m.phase = .writeLog tail) (hb : m.lh[tail]? = some b) :
    DiskInv g base { m.writeLogAt g tail b with
      phase := m.nextTail tail .writeLog .writeHead } h := by
  obtain ⟨⟨placed, closed, lt, copied⟩, ⟨fits, home, nodup, view⟩, ⟨pin, clean⟩, counted⟩ :=
    inv.serving hp rfl
  have slotFits : tail < g.size - 1 := Nat.lt_of_lt_of_le lt fits
  have hbHome : g.Home b := home b (List.mem_of_getElem? hb)
  set slot := g.start + tail + 1 with hslot
  have disk : (m.writeLogAt g tail b).disk = update m.disk slot (latest base h b) := by
    rw [Machine.writeLogAt, copyBlock_disk, view b hbHome]
  have bread : ∀ c, (m.writeLogAt g tail b).bread c =
      if c = slot then latest base h b else m.bread c := by
    intro c
    rw [Machine.writeLogAt, Machine.copyBlock_bread, view b hbHome]
  have placed' : InPlace g (m.writeLogAt g tail b).disk (durable base h) := by
    exact placed.write_slot slotFits _
  have copied' : Copied g (m.writeLogAt g tail b).disk m.lh (tail + 1) (latest base h) := by
    intro i c hi hc
    rw [disk]
    by_cases here : i = tail
    · subst here
      rw [hslot, update_self]
      rw [hb] at hc
      cases hc
      rfl
    · rw [update_of_ne (by omega)]
      exact copied i c (by omega) hc
  have buffers' : BuffersOk g base (m.writeLogAt g tail b) h := by
    refine ⟨fits, home, nodup, fun c hc => ?_⟩
    show (m.writeLogAt g tail b).bread c = _
    rw [bread, if_neg (hc.ne_slot slotFits), view c hc]
  have clean' : ∀ c, c ∉ m.lh →
      (m.writeLogAt g tail b).bread c = (m.writeLogAt g tail b).disk c :=
    fun c hc => clean_update bread disk fun _ => clean c hc
  unfold nextTail
  split
  · rename_i more
    exact .of_up rfl ⟨placed', closed, more, copied'⟩ (buffers'.same rfl rfl rfl) ⟨pin, clean'⟩
      counted
  · rename_i last
    have all : tail + 1 = m.lh.length := by omega
    rw [all] at copied'
    exact .of_up rfl ⟨placed', closed, List.ne_nil_of_mem (List.mem_of_getElem? hb), copied'⟩
      (buffers'.same rfl rfl rfl) ⟨pin, clean'⟩ counted

/-- The commit point: with the header on disk the group is durable. -/
theorem DiskInv.writeHead (inv : DiskInv g base m h) (hp : m.phase = .writeHead) :
    DiskInv g base { m.writeHead g with phase := .install 0 } h.commit := by
  obtain ⟨⟨placed, closed, nonempty, copied⟩, ⟨fits, home, nodup, view⟩, ⟨pin, clean⟩, counted⟩ :=
    inv.serving hp rfl
  have pos : 0 < m.lh.length := List.length_pos_iff.mpr nonempty
  have now : latest base h.commit = latest base h := latest_eq_durable rfl
  refine .of_up rfl ⟨?_, closed, pos, rfl, ?_, ?_⟩ ⟨fits, home, nodup, ?_⟩ ⟨pin, ?_⟩ counted
  · show headBlocks ((m.writeHead g).disk g.start) = m.lh
    rw [writeHead_disk, update_self, headBlocks_setHead]
  · intro i b hi hb
    show (m.writeHead g).disk (g.start + i + 1) = _
    rw [writeHead_disk, update_of_ne (by omega), now]
    exact copied i b hi hb
  · intro b hb notLogged
    show (m.writeHead g).disk b = _
    rw [writeHead_disk, update_of_ne hb.ne_start, now, ← view b hb]
    exact (clean b notLogged).symm
  · intro b hb
    show (m.writeHead g).bread b = _
    rw [writeHead_bread, if_neg hb.ne_start, now]
    exact view b hb
  · exact fun b hb => clean_update (writeHead_bread m g) (writeHead_disk m g) fun _ => clean b hb

theorem DiskInv.install (inv : DiskInv g base m h)
    (hp : m.phase = .install tail) (hb : m.lh[tail]? = some b) :
    DiskInv g base { m.installAt g false tail b with
      phase := m.nextTail tail .install .clearHead } h := by
  obtain ⟨⟨head, closed, lt, empty, copied, others⟩, ⟨fits, home, nodup, view⟩, ⟨pin, clean⟩,
    counted⟩ := inv.serving hp rfl
  have slotFits : tail < g.size - 1 := Nat.lt_of_lt_of_le lt fits
  have hbMem : b ∈ m.lh := List.mem_of_getElem? hb
  have hbHome : g.Home b := home b hbMem
  have left : ∀ {c}, c ∈ m.lh.drop tail ↔ c = b ∨ c ∈ m.lh.drop (tail + 1) := by
    rw [drop_eq_cons hb]
    exact List.mem_cons
  have notLater := not_mem_drop_succ nodup hb
  -- The log block is not a home block, so its buffer agrees with the disk.
  have slotData : m.bread (g.start + tail + 1) = latest base h b := by
    rw [clean, copied tail b lt hb]
    exact fun mem => (home _ (List.mem_of_mem_drop mem)).ne_slot slotFits rfl
  have disk : (m.installAt g false tail b).disk = update m.disk b (latest base h b) := by
    show (m.copyBlock _ _).disk = _
    rw [copyBlock_disk, slotData]
  have bread : ∀ c, (m.installAt g false tail b).bread c =
      if c = b then latest base h b else m.bread c := by
    intro c
    show (m.copyBlock _ _).bread c = _
    rw [Machine.copyBlock_bread, slotData]
  have pin' : ∀ c, (m.installAt g false tail b).pin c =
      if c ∈ m.lh.drop (tail + 1) then 1 else 0 := by
    intro c
    show update m.pin b (m.pin b - 1) c = _
    by_cases hc : c = b
    · subst hc
      rw [update_self, pin, if_neg notLater]
      exact congrArg (· - 1) (if_pos (left.mpr (.inl rfl)))
    · rw [update_of_ne hc, pin]
      exact if_congr (left.trans (or_iff_right hc)) rfl rfl
  have head' : headBlocks ((m.installAt g false tail b).disk g.start) = m.lh := by
    rw [disk, update_of_ne hbHome.ne_start.symm, head]
  have copied' : Copied g (m.installAt g false tail b).disk m.lh m.lh.length (latest base h) := by
    exact copied.update_home fits hbHome _
  have others' : ∀ c, g.Home c → c ∉ m.lh.drop (tail + 1) →
      (m.installAt g false tail b).disk c = latest base h c := by
    intro c hc later
    rw [disk]
    by_cases here : c = b
    · subst here; simp
    · rw [update_of_ne here]
      exact others c hc fun mem => (left.mp mem).elim here later
  have view' : ∀ c, g.Home c → (m.installAt g false tail b).bread c = latest base h c := by
    intro c hc
    rw [bread]
    split
    · rename_i here; rw [here]
    · exact view c hc
  have clean' : ∀ c, c ∉ m.lh.drop (tail + 1) →
      (m.installAt g false tail b).bread c = (m.installAt g false tail b).disk c :=
    fun c hc => clean_update bread disk fun here => clean c fun mem => (left.mp mem).elim here hc
  unfold nextTail
  split
  · rename_i more
    exact .of_up rfl ⟨head', closed, more, empty, copied', others'⟩ ⟨fits, home, nodup, view'⟩
      ⟨pin', clean'⟩ counted
  · rename_i last
    have none : m.lh.drop (tail + 1) = [] := List.drop_eq_nil_of_le (by omega)
    simp only [none, List.not_mem_nil, not_false_eq_true, forall_const, if_false] at others' pin' clean'
    exact .of_up rfl ⟨head', closed, empty, copied', others'⟩ ⟨fits, home, nodup, view'⟩
      ⟨pin', fun c _ => clean' c⟩ counted

/-- Clearing the header of a disk whose home blocks are in place. -/
theorem InPlace.clear (placed : ∀ b, g.Home b → d b = contents b) (head : Data) :
    InPlace g (update d g.start (setHead head [])) contents := by
  refine ⟨?_, fun b hb => ?_⟩
  · rw [update_self, headBlocks_setHead]
  · rw [update_of_ne hb.ne_start]
    exact placed b hb

/-- Writing the empty header over buffers that agree with the disk. -/
theorem Machine.Clean.clearHead {m : Machine} (clean : m.Clean) (g : Geometry) :
    ({ m with lh := [] }.writeHead g).Clean := fun b =>
  clean_update (writeHead_bread _ g) (writeHead_disk _ g) fun _ => clean b

theorem DiskInv.clearHead (inv : DiskInv g base m h) (hp : m.phase = .clearHead) :
    DiskInv g base { { m with lh := [] }.writeHead g with phase := .finish } h := by
  obtain ⟨⟨head, closed, empty, -, placed⟩, ⟨-, -, -, view⟩, ⟨pin, clean⟩, counted⟩ :=
    inv.serving hp rfl
  have clean' := Machine.Clean.clearHead (fun b => clean b List.not_mem_nil) g
  refine .of_up rfl ⟨?_, closed, rfl⟩ ⟨by simp, by simp, by simp, ?_⟩ ⟨pin, fun b _ => clean' b⟩
    counted
  · show InPlace g ({ m with lh := [] }.writeHead g).disk _
    rw [writeHead_disk, ← latest_eq_durable empty]
    exact InPlace.clear placed _
  · intro b hb
    show ({ m with lh := [] }.writeHead g).bread b = _
    rw [writeHead_bread, if_neg hb.ne_start]
    exact view b hb

theorem DiskInv.finish (inv : DiskInv g base m h) (hp : m.phase = .finish) :
    DiskInv g base { m with committing := false, phase := .running } h := by
  obtain ⟨⟨placed, -, empty⟩, buffers, ⟨pin, clean⟩, counted⟩ := inv.serving hp rfl
  exact Running.inv ⟨rfl, placed, rfl, buffers.same rfl rfl rfl,
    fun b => by simpa [Phase.pinned, empty] using pin b, fun b _ => clean b List.not_mem_nil, counted⟩

/-! #### The steps of `recover_from_log` -/

/-- What holds throughout recovery: no pins, no differing buffer, nothing begun. -/
structure Booting (m : Machine) (h : History) : Prop where
  pin : ∀ b, m.pin b = 0
  clean : m.Clean
  group : h.group = []
  active : h.active = []
  idle : m.committing = false
  outstanding : m.outstanding = 0

theorem DiskInv.bootingOk (inv : DiskInv g base m h) {phase : Phase} (hp : m.phase = phase)
    (down : Machine.up { m with phase := phase } = false) (alive : ∀ r, phase ≠ .panicked r)
    (none : phase.pinned m.lh = []) : PhaseOk g base m h phase ∧ Booting m h := by
  subst hp
  obtain ⟨group, active, idle⟩ := inv.booting down alive
  obtain ⟨pin, clean⟩ := inv.pins alive
  have counted := inv.counted alive
  simp only [none, List.not_mem_nil, not_false_eq_true, forall_const, if_false] at pin clean
  exact ⟨inv.phase, pin, clean, group, active, idle, by simpa [active] using counted⟩

theorem Booting.inv (boot : Booting m h) (phase : PhaseOk g base m h m.phase) (down : m.up = false)
    (none : m.phase.pinned m.lh = []) : DiskInv g base m h where
  phase := phase
  buffers := fun up => by simp [down] at up
  pins := fun _ => ⟨fun b => by simp [none, boot.pin b], fun b _ => boot.clean b⟩
  booting := fun _ _ => ⟨boot.group, boot.active, boot.idle⟩
  counted := fun _ => by simp [boot.active, boot.outstanding]

section

variable (inv : DiskInv g base m h)
include inv

theorem DiskInv.readHead (hp : m.phase = .readHead) :
    DiskInv g base { m.readHead g with
      phase := if (m.readHead g).lh = [] then .reclear else .reinstall 0 } h := by
  obtain ⟨recovers, pin, clean, group, active, idle, outstanding⟩ := inv.bootingOk hp rfl nofun rfl
  have lh : (m.readHead g).lh = headBlocks (m.disk g.start) := by
    show headBlocks (m.bread g.start) = _
    rw [clean]
  have clean' : ∀ b, (m.readHead g).bread b = (m.readHead g).disk b := fun b =>
    (m.fetch_bread g.start b).trans (clean b)
  split
  · rename_i empty
    refine Booting.inv ⟨pin, clean', group, active, idle, outstanding⟩ ⟨recovers, fun b hb => ?_⟩
      rfl rfl
    have placed := recovers.2 b hb
    rw [← lh, empty] at placed
    exact placed
  · rename_i nonempty
    refine Booting.inv ⟨pin, clean', group, active, idle, outstanding⟩
      ⟨lh, recovers, List.length_pos_iff.mpr nonempty, fun b hb => ?_⟩ rfl rfl
    show applyAll m.disk (slots g m.disk 0 ((m.readHead g).lh.drop 0)) b = _
    rw [List.drop_zero, lh]
    exact recovers.2 b hb

theorem DiskInv.reinstall (hp : m.phase = .reinstall tail) (hb : m.lh[tail]? = some b) :
    DiskInv g base { m.installAt g true tail b with
      phase := m.nextTail tail .reinstall .reclear } h := by
  obtain ⟨⟨lh, ⟨⟨fits, home⟩, recovers⟩, lt, rest⟩, pin, clean, group, active, idle, outstanding⟩ :=
    inv.bootingOk hp rfl nofun rfl
  rw [← lh] at fits home recovers
  have hbHome : g.Home b := home b (List.mem_of_getElem? hb)
  have disk : (m.installAt g true tail b).disk =
      update m.disk b (m.disk (g.start + tail + 1)) := by
    rw [Machine.installAt_recovering, copyBlock_disk, clean]
  have clean' : (m.installAt g true tail b).Clean := clean.copyBlock _ _
  have head' : (m.installAt g true tail b).disk g.start = m.disk g.start := by
    rw [disk, update_of_ne hbHome.ne_start.symm]
  have dropCons := drop_eq_cons hb
  -- Repeating an installation from its start is not disturbed by this write.
  have recovers' : RecoversTo g (m.installAt g true tail b).disk (durable base h) := by
    rw [RecoversTo, HeadOk, head', ← lh, disk]
    refine ⟨⟨fits, home⟩, fun c hc => ?_⟩
    rw [slots_update_home (by simpa using fits) hbHome, ← recovers c hc]
    refine applyAll_congr fun notMem => ?_
    rw [slots_map_fst] at notMem
    rw [update_of_ne]
    rintro rfl
    exact notMem (List.mem_of_getElem? hb)
  have rest' : ∀ c, g.Home c → applyAll (m.installAt g true tail b).disk
      (slots g (m.installAt g true tail b).disk (tail + 1) (m.lh.drop (tail + 1))) c =
        durable base h c := by
    intro c hc
    rw [← rest c hc, dropCons, slots, applyAll_cons, disk,
      slots_update_home (by rw [List.length_drop]; omega) hbHome]
  unfold nextTail
  split
  · rename_i more
    exact Booting.inv ⟨pin, clean', group, active, idle, outstanding⟩
      ⟨lh.trans (congrArg headBlocks head'.symm), recovers', more, rest'⟩ rfl rfl
  · rename_i last
    rw [List.drop_eq_nil_of_le (by omega)] at rest'
    exact Booting.inv ⟨pin, clean', group, active, idle, outstanding⟩ ⟨recovers', rest'⟩ rfl rfl

theorem DiskInv.reclear (hp : m.phase = .reclear) :
    DiskInv g base { { m with lh := [] }.writeHead g with phase := .running } h := by
  obtain ⟨⟨-, placed⟩, pin, clean, group, active, idle, outstanding⟩ :=
    inv.bootingOk hp rfl nofun rfl
  have clean' := Machine.Clean.clearHead clean g
  have inPlace : InPlace g ({ m with lh := [] }.writeHead g).disk (durable base h) := by
    rw [writeHead_disk]
    exact InPlace.clear placed _
  refine Running.inv ⟨rfl, inPlace, idle, ⟨by simp, by simp, by simp, fun b hb => ?_⟩,
    fun b => by simpa using pin b, fun b _ => clean' b,
    outstanding.trans (by simp [active])⟩
  show ({ m with lh := [] }.writeHead g).bread b = _
  rw [clean' b, latest_eq_durable group]
  exact inPlace.2 b hb

theorem DiskInv.advance (step : m.advance g = some m') :
    DiskInv g base m' (if m.phase = .writeHead then h.commit else h) := by
  cases hp : m.phase <;> simp only [Machine.advance, hp, Option.map_eq_some_iff,
    Option.some.injEq, reduceCtorEq] at step
  case writeLog tail =>
    obtain ⟨b, hb, rfl⟩ := step
    exact inv.writeLog hp hb
  case install tail =>
    obtain ⟨b, hb, rfl⟩ := step
    exact inv.install hp hb
  case reinstall tail =>
    obtain ⟨b, hb, rfl⟩ := step
    exact inv.reinstall hp hb
  all_goals subst step
  case writeHead => exact inv.writeHead hp
  case clearHead => exact inv.clearHead hp
  case finish => exact inv.finish hp
  case readHead => exact inv.readHead hp
  case reclear => exact inv.reclear hp

end

/-- Every step of the system preserves the disk invariant. -/
theorem DiskInv.exec {s t : State} {a : Action} (inv : DiskInv g base s.machine s.hist)
    (step : Log.exec g s a = some t) : DiskInv g base t.machine t.hist := by
  cases a <;> simp only [Log.exec, Option.ite_none_right_eq_some, Option.map_eq_some_iff,
    Option.some.injEq] at step
  case beginOp =>
    obtain ⟨⟨up, may⟩, rfl⟩ := step
    exact inv.beginOp up may
  case write op b d =>
    obtain ⟨⟨up, active, home⟩, rfl⟩ := step
    exact inv.write up active home
  case endOp op =>
    obtain ⟨⟨up, active⟩, rfl⟩ := step
    exact inv.endOp up active
  case advance =>
    obtain ⟨m', hm, rfl⟩ := step
    exact inv.advance hm
  case evict b =>
    obtain ⟨unpinned, rfl⟩ := step
    exact inv.evict unpinned
  case read b => exact step ▸ inv.fetch b
  case crash => exact step ▸ .boot inv.recoversTo rfl rfl

end Preservation

/-! ### Operations and groups -/

/-- The logged writes of one operation. -/
def byOp (op : ℕ) (ws : List Write) : List Write := ws.filter fun w => w.op = op

@[simp] theorem byOp_append (op : ℕ) (ws vs : List Write) :
    byOp op (ws ++ vs) = byOp op ws ++ byOp op vs := List.filter_append ..

theorem byOp_singleton_ne {op : ℕ} {w : Write} (h : w.op ≠ op) : byOp op [w] = [] := by
  simp [byOp, h]

/-- All logged writes of an operation are in one group: the open one while the
operation is active, and the group they were committed with afterwards. -/
structure HistInv (h : History) : Prop where
  fresh : ∀ w ∈ h.issued, w.op < h.nextOp
  freshActive : ∀ op ∈ h.active, op < h.nextOp
  active : ∀ op ∈ h.active, byOp op h.issued = byOp op h.group
  group : ∀ w ∈ h.group, w ∈ h.issued ∧ byOp w.op h.issued = byOp w.op h.group
  committed : ∀ gr ∈ h.committed, ∀ w ∈ gr,
    w ∈ h.issued ∧ byOp w.op h.issued = byOp w.op gr ∧ w.op ∉ h.active

namespace HistInv

variable {h : History}

theorem start : HistInv History.start := by
  constructor <;> simp [History.start]

variable (inv : HistInv h)
include inv

theorem begin : HistInv h.begin where
  fresh := fun w hw => Nat.lt_succ_of_lt (inv.fresh w hw)
  freshActive := by
    intro op hop
    rcases mem_snoc hop with old | rfl
    · exact Nat.lt_succ_of_lt (inv.freshActive op old)
    · exact Nat.lt_succ_self _
  active := by
    intro op hop
    rcases mem_snoc hop with old | rfl
    · exact inv.active op old
    · -- A fresh identifier has issued nothing.
      have none : ∀ ws : List Write, (∀ w ∈ ws, w ∈ h.issued) → byOp h.nextOp ws = [] := by
        intro ws sub
        refine List.filter_eq_nil_iff.mpr fun w hw => ?_
        have := inv.fresh w (sub w hw)
        simp only [decide_eq_true_eq]
        omega
      exact (none _ fun _ hw => hw).trans (none _ fun w hw => (inv.group w hw).1).symm
  group := inv.group
  committed := by
    intro gr hgr w hw
    obtain ⟨issued, same, ended⟩ := inv.committed gr hgr w hw
    refine ⟨issued, same, fun hop => ?_⟩
    rcases mem_snoc hop with old | new
    · exact ended old
    · exact absurd new (Nat.ne_of_lt (inv.fresh w issued))

theorem write {w : Write} (hw : w.op ∈ h.active) : HistInv (h.write w) where
  fresh := by
    intro v hv
    rcases mem_snoc hv with old | rfl
    · exact inv.fresh v old
    · exact inv.freshActive _ hw
  freshActive := inv.freshActive
  active := by
    intro op hop
    simp only [History.write, byOp_append, inv.active op hop]
  group := by
    intro v hv
    simp only [History.write, byOp_append]
    rcases mem_snoc hv with old | rfl
    · obtain ⟨issued, same⟩ := inv.group v old
      exact ⟨List.mem_append_left _ issued, by rw [same]⟩
    · exact ⟨List.mem_append_right _ List.mem_cons_self, by rw [inv.active _ hw]⟩
  committed := by
    intro gr hgr v hv
    obtain ⟨issued, same, ended⟩ := inv.committed gr hgr v hv
    have other : w.op ≠ v.op := fun eq => ended (eq ▸ hw)
    simp only [History.write, byOp_append, byOp_singleton_ne other, List.append_nil]
    exact ⟨List.mem_append_left _ issued, same, ended⟩

theorem finish (op : ℕ) : HistInv (h.finish op) :=
  { inv with
    freshActive := fun o ho => inv.freshActive o (List.mem_of_mem_erase ho)
    active := fun o ho => inv.active o (List.mem_of_mem_erase ho)
    committed := fun gr hgr w hw =>
      have ⟨issued, same, ended⟩ := inv.committed gr hgr w hw
      ⟨issued, same, fun ho => ended (List.mem_of_mem_erase ho)⟩ }

theorem commit (none : h.active = []) : HistInv h.commit where
  fresh := inv.fresh
  freshActive := inv.freshActive
  active := fun op hop => by simp [History.commit, none] at hop
  group := fun w hw => by cases hw
  committed := by
    intro gr hgr w hw
    rcases mem_snoc hgr with old | rfl
    · exact inv.committed gr old w hw
    · obtain ⟨issued, same⟩ := inv.group w hw
      exact ⟨issued, same, by simp [History.commit, none]⟩

theorem crash : HistInv h.crash :=
  { inv with
    freshActive := fun _ ho => by cases ho
    active := fun _ ho => by cases ho
    group := fun _ hw => by cases hw
    committed := fun gr hgr w hw =>
      have ⟨issued, same, _⟩ := inv.committed gr hgr w hw
      ⟨issued, same, List.not_mem_nil⟩ }

end HistInv

/-- No operation is active when the header is about to be written. -/
theorem DiskInv.active_nil {base : Disk} {m : Machine} {h : History}
    (inv : DiskInv g base m h) (hp : m.phase = .writeHead) : h.active = [] := by
  obtain ⟨⟨-, closed, -⟩, -, -, counted⟩ := inv.serving hp rfl
  rw [closed.2] at counted
  exact List.eq_nil_of_length_eq_zero counted.symm

/-- Every step of the system preserves the bookkeeping on operations. -/
theorem HistInv.exec {base : Disk} {s t : State} {a : Action}
    (inv : HistInv s.hist) (disk : DiskInv g base s.machine s.hist)
    (step : Log.exec g s a = some t) : HistInv t.hist := by
  cases a <;> simp only [Log.exec, Option.ite_none_right_eq_some, Option.map_eq_some_iff,
    Option.some.injEq] at step
  case beginOp =>
    obtain ⟨-, rfl⟩ := step
    exact inv.begin
  case write op b d =>
    obtain ⟨⟨-, active, -⟩, rfl⟩ := step
    unfold execWrite
    dsimp only
    split
    · exact inv
    · exact inv.write active
  case endOp op =>
    obtain ⟨-, rfl⟩ := step
    unfold execEnd
    split
    · exact inv
    · exact inv.finish op
  case advance =>
    obtain ⟨m', -, rfl⟩ := step
    split
    next hp => exact inv.commit (disk.active_nil hp)
    next => exact inv
  case evict b =>
    obtain ⟨-, rfl⟩ := step
    exact inv
  case read b => exact step ▸ inv
  case crash => exact step ▸ inv.crash

/-! ### Crash atomicity -/

/-- Both invariants hold in every reachable state. -/
theorem Reachable.inv {d : Disk} (ok : HeadOk g d) {s : State}
    (h : Reachable g d s) : DiskInv g (recovered g d) s.machine s.hist ∧ HistInv s.hist := by
  refine Run.ReachableUnder.invariant
    (fun s => DiskInv g (recovered g d) s.machine s.hist ∧ HistInv s.hist) ?_ ?_ h
  · rintro _ rfl
    refine ⟨.boot ⟨ok, fun b hb => ?_⟩ rfl rfl, .start⟩
    show _ = recovered g d b
    rw [recovered_eq ok, update_of_ne hb.ne_start]
  · intro s a t ⟨disk, hist⟩ _ step
    exact ⟨disk.exec step, hist.exec disk step⟩

/-- **Crash atomicity of the redo log.** Whatever the operations, commits,
evictions and crashes so far, and wherever between two disk writes the run stands
now, `recover_from_log` on the current disk

* gives the home blocks the contents after the committed groups, the groups whose
  non-zero header reached the disk, in order;
* thereby restores each operation's logged writes all or not at all: a committed
  group has every logged write of the operation, or no committed group has any;
* changes nothing when it is run again. -/
theorem crash_atomicity (g : Geometry) (d : Disk) (ok : HeadOk g d) (s : State)
    (h : Reachable g d s) :
    (∀ b, g.Home b →
      recovered g s.machine.disk b = replay (recovered g d) s.hist.committed b) ∧
    (∀ op, (∀ gr ∈ s.hist.committed, byOp op gr = []) ∨
      ∃ gr ∈ s.hist.committed, byOp op gr = byOp op s.hist.issued) ∧
    recovered g (recovered g s.machine.disk) = recovered g s.machine.disk := by
  obtain ⟨disk, hist⟩ := h.inv ok
  have recovers := disk.recoversTo
  refine ⟨fun b hb => recovered_home recovers hb, fun op => ?_, recovered_idem recovers.1⟩
  by_cases present : ∃ gr ∈ s.hist.committed, byOp op gr ≠ []
  · obtain ⟨gr, hgr, nonempty⟩ := present
    obtain ⟨w, hw⟩ := List.exists_mem_of_ne_nil _ nonempty
    obtain ⟨mem, isOp⟩ := List.mem_filter.mp hw
    have eq : w.op = op := by simpa using isOp
    exact .inr ⟨gr, hgr, by rw [← eq]; exact (hist.committed gr hgr w mem).2.1.symm⟩
  · push Not at present
    exact .inl present

/-- Two operations in one group; the power fails when its header and one of its
two home blocks have been written. -/
def twoOpCrash : List Action :=
  [.advance, .advance, .beginOp, .beginOp, .write 0 100 fun _ => 7, .write 1 101 fun _ => 8,
    .endOp 0, .endOp 1, .advance, .advance, .advance, .advance, .crash]

theorem crash_atomicity_twoOpCrash :
    ∃ s, Run.execAll (exec mkfsGeometry) ⟨.boot fun _ _ => 0, .start⟩ twoOpCrash = some s ∧
      s.hist.committed.length = 1 ∧
      ∀ b, mkfsGeometry.Home b → recovered mkfsGeometry s.machine.disk b =
        replay (recovered mkfsGeometry fun _ _ => 0) s.hist.committed b := by
  obtain ⟨s, hs, one⟩ : ∃ s, Run.execAll (exec mkfsGeometry) ⟨.boot fun _ _ => 0, .start⟩ twoOpCrash =
      some s ∧ s.hist.committed.length = 1 := Run.exists_some rfl
  exact ⟨s, hs, one, (crash_atomicity mkfsGeometry (fun _ _ => 0) ⟨by decide, by decide⟩ s
    (Run.reachable_of_execAll (.start rfl) hs)).1⟩

end Xv6.Log
