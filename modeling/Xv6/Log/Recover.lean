import Xv6.Log.Model

/-!
What `recover_from_log` leaves on the disk.

`slots` lists the writes that `install_trans` performs for a header;
`recovered_eq` says that recovery from power-on performs exactly these writes
and clears the header, so it is idempotent (`recovered_idem`). `RecoversTo` is
the resulting view of a disk in the middle of anything: the home contents that
recovery would establish.
-/

namespace Xv6.Log

open Function (update update_of_ne update_self)
open Writes

/-! ### What the buffer operations do to the disk and to what `bread` returns -/

namespace Machine

variable (m : Machine)

@[simp] theorem fetch_bread (b c : ℕ) : (m.fetch b).bread c = m.bread c := by
  unfold fetch bread
  by_cases h : c = b
  · subst h; simp
  · simp [h]

theorem setData_bread (b c : ℕ) (d : Data) :
    (m.setData b d).bread c = if c = b then d else m.bread c := by
  unfold setData bread
  by_cases h : c = b
  · subst h; simp
  · simp [h]

theorem bwrite_bread (b c : ℕ) : (m.bwrite b).bread c = m.bread c := by
  unfold bwrite bread
  by_cases h : c = b
  · subst h; cases m.cache c <;> simp
  · simp [h]

/-- A copied block is on disk and in the cache; nothing else changes. -/
theorem copyBlock_disk (src dst : ℕ) :
    (m.copyBlock src dst).disk = update m.disk dst (m.bread src) := by
  have h : ((m.fetch src).fetch dst).bread src = m.bread src := by simp
  simp only [copyBlock, bwrite, setData_bread, if_true, h]
  rfl

theorem copyBlock_bread (src dst c : ℕ) :
    (m.copyBlock src dst).bread c = if c = dst then m.bread src else m.bread c := by
  simp only [copyBlock, bwrite_bread, setData_bread, fetch_bread]

variable (g : Geometry)

theorem writeHead_disk :
    (m.writeHead g).disk = update m.disk g.start (setHead (m.bread g.start) m.lh) := by
  have h : (m.fetch g.start).bread g.start = m.bread g.start := by simp
  simp only [writeHead, bwrite, setData_bread, if_true, h]
  rfl

theorem writeHead_bread (c : ℕ) :
    (m.writeHead g).bread c =
      if c = g.start then setHead (m.bread g.start) m.lh else m.bread c := by
  simp only [writeHead, bwrite_bread, setData_bread, fetch_bread]
  rfl

@[simp] theorem writeHead_pin : (m.writeHead g).pin = m.pin := rfl
@[simp] theorem writeHead_lh : (m.writeHead g).lh = m.lh := rfl

end Machine

/-! ### The header block -/

theorem headBlocks_setHead (d : Data) (lh : List ℕ) : headBlocks (setHead d lh) = lh := by
  apply List.ext_getElem
  · simp [headBlocks, setHead]
  · intro i h₁ h₂
    simp [headBlocks, setHead, h₂]

theorem setHead_nil_idem (d : Data) : setHead (setHead d []) [] = setHead d [] := by
  funext w
  by_cases h : w = 0 <;> simp [setHead, h]

/-! ### What recovery leaves on the disk -/

/-- The writes of `install_trans` from iteration `tail` on: each remaining block
of the header with the log block that goes with it. -/
def slots (g : Geometry) (d : Disk) : ℕ → List ℕ → List (ℕ × Data)
  | _, [] => []
  | tail, b :: rest => (b, d (g.start + tail + 1)) :: slots g d (tail + 1) rest

@[simp] theorem slots_map_fst (g : Geometry) (d : Disk) (tail : ℕ) (lh : List ℕ) :
    (slots g d tail lh).map Prod.fst = lh := by
  induction lh generalizing tail with
  | nil => rfl
  | cons b rest ih => simp [slots, ih]

variable {d : Disk} {b : ℕ}

section

variable {g : Geometry}

theorem Geometry.Home.ne_slot {b i : ℕ} (h : g.Home b) (fits : i < g.size - 1) :
    b ≠ g.start + i + 1 := by
  unfold Geometry.Home at h
  omega

theorem Geometry.Home.ne_start (h : g.Home b) : b ≠ g.start := by
  have := g.pos
  unfold Geometry.Home at h
  omega

variable {lh : List ℕ} {tail : ℕ}

/-- The log area decides the writes. -/
theorem slots_congr {d d' : Disk}
    (fits : tail + lh.length ≤ g.size - 1) (same : ∀ b, ¬ g.Home b → d b = d' b) :
    slots g d tail lh = slots g d' tail lh := by
  induction lh generalizing tail with
  | nil => rfl
  | cons b rest ih =>
    simp only [List.length_cons] at fits
    rw [slots, slots, same _ fun home => home.ne_slot (by omega) rfl, @ih (tail + 1) (by omega)]

/-- Writing a home block does not touch the log area. -/
theorem slots_update_home (fits : tail + lh.length ≤ g.size - 1) (home : g.Home b) (v : Data) :
    slots g (update d b v) tail lh = slots g d tail lh := by
  refine slots_congr fits fun c hc => ?_
  rw [update_of_ne]
  rintro rfl
  exact hc home

theorem mem_slots {w : ℕ × Data} :
    w ∈ slots g d tail lh ↔ ∃ i, lh[i]? = some w.1 ∧ d (g.start + (tail + i) + 1) = w.2 := by
  induction lh generalizing tail with
  | nil => simp [slots]
  | cons b rest ih =>
    rw [slots, List.mem_cons, ih]
    constructor
    · rintro (rfl | ⟨i, hi, hd⟩)
      · exact ⟨0, rfl, rfl⟩
      · exact ⟨i + 1, by simpa using hi, by rw [← hd]; congr 1; omega⟩
    · rintro ⟨i, hi, hd⟩
      cases i with
      | zero =>
        left
        simp only [List.getElem?_cons_zero, Option.some.injEq] at hi
        exact Prod.ext hi.symm hd.symm
      | succ i => exact .inr ⟨i, by simpa using hi, by rw [← hd]; congr 1; omega⟩

end

/-- On home blocks, recovering from disk `d` yields `contents`: either the header
is empty and they are in place, or the log area holds what is missing. -/
def RecoversTo (g : Geometry) (d contents : Disk) : Prop :=
  HeadOk g d ∧ ∀ b, g.Home b → applyAll d (slots g d 0 (headBlocks (d g.start))) b = contents b

/-- No buffer differs from its disk block, as after power-on. -/
def Machine.Clean (m : Machine) : Prop := ∀ b, m.bread b = m.disk b

theorem Machine.Clean.copyBlock {m : Machine} (h : m.Clean) (src dst : ℕ) :
    (m.copyBlock src dst).Clean := by
  intro b
  rw [copyBlock_bread, copyBlock_disk]
  by_cases hb : b = dst
  · subst hb; simp
  · simp [hb, h b]

theorem Machine.installAt_recovering (g : Geometry) (m : Machine) (tail b : ℕ) :
    m.installAt g true tail b = m.copyBlock (g.start + tail + 1) b := rfl

variable {g : Geometry}

/-- The loop of `install_trans` during recovery performs exactly the writes of
`slots`. -/
theorem Machine.installFrom_spec (tail : ℕ) (lh : List ℕ) (m : Machine)
    (clean : m.Clean) (fits : tail + lh.length ≤ g.size - 1) (home : ∀ b ∈ lh, g.Home b) :
    (installFrom g true tail lh m).Clean ∧
      (installFrom g true tail lh m).disk = applyAll m.disk (slots g m.disk tail lh) := by
  induction lh generalizing tail m with
  | nil => exact ⟨clean, rfl⟩
  | cons b rest ih =>
    simp only [List.length_cons] at fits
    have step := ih (tail + 1) _ (clean.copyBlock (g.start + tail + 1) b) (by omega)
      fun c hc => home c (List.mem_cons_of_mem _ hc)
    refine ⟨step.1, step.2.trans ?_⟩
    rw [copyBlock_disk, clean, slots_update_home (by omega) (home b List.mem_cons_self), slots,
      applyAll_cons]

theorem Machine.boot_clean (d : Disk) : (boot d).Clean := fun _ => rfl

/-- Recovery performs the header's writes and clears the header. -/
theorem recovered_eq (h : HeadOk g d) :
    recovered g d = update (applyAll d (slots g d 0 (headBlocks (d g.start)))) g.start
      (setHead (applyAll d (slots g d 0 (headBlocks (d g.start))) g.start) []) := by
  have clean : ((Machine.boot d).readHead g).Clean := by
    intro b
    exact (Machine.fetch_bread _ g.start b).trans (Machine.boot_clean d b)
  obtain ⟨clean', disk⟩ := Machine.installFrom_spec 0 (headBlocks (d g.start))
    ((Machine.boot d).readHead g) clean (by simpa using h.1) h.2
  have start := clean' g.start
  rw [disk] at start
  unfold recovered Machine.recoverFromLog
  rw [Machine.writeHead_disk]
  exact congrArg₂ (fun e c => update e g.start (setHead c [])) disk start

theorem recovered_home {d contents : Disk} (h : RecoversTo g d contents)
    (hb : g.Home b) : recovered g d b = contents b := by
  rw [recovered_eq h.1, update_of_ne hb.ne_start, h.2 b hb]

/-- After recovery the header is empty, and a second recovery changes nothing. -/
theorem recovered_idem (h : HeadOk g d) :
    recovered g (recovered g d) = recovered g d := by
  have empty : headBlocks (recovered g d g.start) = [] := by
    rw [recovered_eq h, update_self, headBlocks_setHead]
  have ok : HeadOk g (recovered g d) := by
    rw [HeadOk, empty]
    simp
  rw [recovered_eq ok, empty]
  simp only [slots, applyAll_nil]
  funext b
  by_cases hb : b = g.start
  · subst hb
    rw [update_self, recovered_eq h, update_self, setHead_nil_idem]
  · rw [update_of_ne hb]

end Xv6.Log
