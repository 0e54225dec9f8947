import Mathlib.Algebra.Group.Int.Defs
import Xv6.Lib.Scan
import Xv6.Sched.Locks

/-!
Which process FCFS and PBS choose, and the dynamic priority PBS compares.

Both scans keep the candidate of `Scan.visit`: FCFS with the order of creation times, PBS with
the order of `PbsBefore`. So each comes to the least RUNNABLE process, the one in the lowest
slot among equals, and FCFS switches to it. PBS does so unless it panics on the way: after a
late tie the candidate's lock is not held, and the next better slot makes the scan release it
once more.
-/

namespace Xv6.Sched

open Finset (erase_insert pair_comm)

variable {view : ℕ → Proc} {ps : List ℕ} {p q : ℕ}

/-! ### The processes switched to -/

/-- The processes the events switch to, from the locks in `held` on. `release` of a lock that is
not held panics. A process switches back with its own lock held. -/
def runsFrom : Finset ℕ → List Event → List ℕ
  | _, [] => []
  | held, .acquire p _ :: es => runsFrom (insert p held) es
  | held, .release p :: es => if p ∈ held then runsFrom (held.erase p) es else []
  | held, .run p :: es => p :: runsFrom (insert p held) es
  | _, .panic :: _ => []

/-- The processes a round switches to. -/
def runs (es : List Event) : List ℕ := runsFrom ∅ es

theorem runsFrom_acquire_release {held : Finset ℕ} {es : List Event} {seen : Proc} (hp : p ∉ held) :
    runsFrom held (.acquire p seen :: .release p :: es) = runsFrom held es := by
  rw [runsFrom, runsFrom, if_pos (Finset.mem_insert_self p held), erase_insert hp]

/-- Handing over from the candidate `q` to the newly locked `p`. -/
theorem runsFrom_hand_over {es : List Event} {seen : Proc} (hne : p ≠ q) :
    runsFrom {q} (.acquire p seen :: .release q :: es) = runsFrom {p} es := by
  rw [runsFrom, runsFrom, if_pos (by simp), pair_comm, erase_insert (by simpa using Ne.symm hne)]

theorem runsFrom_tie (hne : p ≠ q) (seen : Proc) (es : List Event) :
    runsFrom {q} (.acquire p seen :: .release q :: .release p :: es) = runsFrom ∅ es := by
  rw [runsFrom_hand_over hne, runsFrom, if_pos (Finset.mem_singleton_self p), Finset.erase_singleton]

/-- When the lock of the candidate is not held, `release` panics. -/
theorem runsFrom_unlocked {es : List Event} {seen : Proc} (hne : p ≠ q) :
    runsFrom ∅ (.acquire p seen :: .release q :: es) = [] := by
  rw [runsFrom, runsFrom, if_neg (by simpa using Ne.symm hne)]

/-! ### The two scans -/

/-- The order of the FCFS scan. -/
def FcfsBefore (a b : Proc) : Prop := a.tickCreationTime < b.tickCreationTime

instance (a b : Proc) : Decidable (FcfsBefore a b) := by
  unfold FcfsBefore; infer_instance

/-- A round that switches to `rs` has chosen the first of the least RUNNABLE processes, or
none because there is none. -/
def Chooses (view : ℕ → Proc) (before : Proc → Proc → Prop) (rs : List ℕ) : Prop :=
  (∃ p, rs = [p] ∧ p < NPROC ∧ (view p).state = .runnable ∧
    (∀ q < NPROC, (view q).state = .runnable → ¬ before (view q) (view p)) ∧
    ∀ q < p, (view q).state = .runnable → before (view p) (view q)) ∨
  rs = [] ∧ ∀ q < NPROC, (view q).state ≠ .runnable

theorem chooses_scan {before : Proc → Proc → Prop} [DecidableRel before]
    (asymm : ∀ ⦃a b⦄, before a b → ¬ before b a)
    (trans_not : ∀ ⦃a b c⦄, before a b → ¬ before c b → before a c) :
    Chooses view before ((List.range NPROC).foldl (consider view before) none).toList := by
  have hfinds := @Scan.finds_scan (fun p => (view p).state = .runnable)
    (fun p q => before (view p) (view q)) _ _ (fun _ _ h => asymm h)
    (fun _ _ _ h h' => trans_not h h') NPROC
  cases hbest : (List.range NPROC).foldl (consider view before) none with
  | none =>
    rw [hbest] at hfinds
    exact .inr ⟨rfl, hfinds⟩
  | some p =>
    rw [hbest] at hfinds
    exact .inl ⟨p, rfl, hfinds.lt, hfinds.mem, hfinds.least, hfinds.first⟩

/-- The processes that the events switch to, if no lock is in the way. -/
def switches : List Event → List ℕ
  | [] => []
  | .run p :: es => p :: switches es
  | .panic :: _ => []
  | .acquire .. :: es | .release _ :: es => switches es

/-- A sound round releases the locks it holds, so `release` does not panic. -/
theorem Sound.runsFrom_eq {held ready : Finset ℕ} {es : List Event} (h : Sound held ready es) :
    runsFrom held es = switches es := by
  induction es generalizing held ready with
  | nil => rfl
  | cons e es ih =>
    cases e with
    | acquire p seen => exact ih h.2
    | release p => exact (if_pos h.1).trans (ih h.2)
    | run p =>
      obtain ⟨rfl, -, h⟩ := h
      rw [runsFrom, switches, Finset.insert_eq_of_mem (Finset.mem_singleton_self p), ih h]
    | panic => rfl

theorem switches_fcfsScan (best : Option ℕ) :
    switches (fcfsScan view best ps) = (ps.foldl (consider view FcfsBefore) best).toList := by
  induction ps generalizing best with
  | nil => cases best <;> rfl
  | cons p ps ih =>
    rw [List.foldl_cons, ← ih]
    by_cases hrun : (view p).state = .runnable
    · cases best with
      | none => simp [fcfsScan, switches, Scan.visit, hrun]
      | some q =>
        by_cases hbefore : FcfsBefore (view p) (view q)
        · have hgt : (view q).tickCreationTime > (view p).tickCreationTime := hbefore
          simp [fcfsScan, switches, Scan.visit, hrun, hbefore, hgt]
        · have hle : ¬ (view q).tickCreationTime > (view p).tickCreationTime := hbefore
          simp [fcfsScan, switches, Scan.visit, hrun, hbefore, hle]
    · cases best <;> simp [fcfsScan, switches, Scan.visit, hrun]

/-! ### The scan of PBS after a late tie -/

/-- Some RUNNABLE slot of `ps` comes before `q`. -/
def Beaten (view : ℕ → Proc) (q : ℕ) (ps : List ℕ) : Prop :=
  ∃ p ∈ ps, (view p).state = .runnable ∧ PbsBefore (view p) (view q)

theorem beaten_cons : Beaten view q (p :: ps) ↔
    (view p).state = .runnable ∧ PbsBefore (view p) (view q) ∨ Beaten view q ps := by
  simp only [Beaten, List.mem_cons, exists_eq_or_imp]

/-- With the candidate's lock not held, the scan switches to the candidate or panics. -/
theorem runsFrom_pbsScan_unlocked (view : ℕ → Proc) (hq : q ∉ ps) :
    (Beaten view q ps → runsFrom ∅ (pbsScan view (candidate view (some q)) ps) = []) ∧
      (¬ Beaten view q ps → runsFrom ∅ (pbsScan view (candidate view (some q)) ps) = [q] ∧
        ps.foldl (consider view PbsBefore) (some q) = some q) := by
  induction ps with
  | nil =>
    refine ⟨fun ⟨p, hp, _⟩ => absurd hp List.not_mem_nil, fun _ => ⟨?_, rfl⟩⟩
    simp [pbsScan, candidate, runsFrom]
  | cons p ps ih =>
    obtain ⟨hne, hq⟩ := not_or.mp (List.mem_cons.not.mp hq)
    obtain ⟨released, best', hturn, hvisit, hscan⟩ := pbsScan_turn view (some q) p
    rw [hscan, List.foldl_cons, hvisit, beaten_cons]
    cases hturn with
    | skip hrun =>
      rw [or_iff_right fun h => hrun h.1]
      exact (runsFrom_acquire_release (Finset.notMem_empty p)).symm ▸ ih hq
    | keep hbefore =>
      rw [or_iff_right fun h => hbefore h.2]
      exact (runsFrom_acquire_release (Finset.notMem_empty p)).symm ▸ ih hq
    | handOver hrun hlt =>
      exact ⟨fun _ => runsFrom_unlocked (Ne.symm hne), fun h => absurd (.inl ⟨hrun, .inl hlt⟩) h⟩
    | tie hrun hbefore =>
      exact ⟨fun _ => runsFrom_unlocked (Ne.symm hne), fun h => absurd (.inl ⟨hrun, hbefore⟩) h⟩

/-- A slot from `k` up to `k + n` is a late tie, and one after it comes before it. -/
def OvertakenFrom (view : ℕ → Proc) (k n : ℕ) : Prop :=
  ∃ j, k ≤ j ∧ j < k + n ∧ LateTie view j ∧ Beaten view j (List.range' (j + 1) (k + n - (j + 1)))

theorem overtakenFrom_succ {k n : ℕ} : OvertakenFrom view k (n + 1) ↔
    LateTie view k ∧ Beaten view k (List.range' (k + 1) n) ∨ OvertakenFrom view (k + 1) n := by
  have hend : k + (n + 1) = k + 1 + n := by omega
  constructor
  · rintro ⟨j, hj, hj', hlate⟩
    rw [hend] at hj' hlate
    rcases Nat.eq_or_lt_of_le hj with rfl | hj
    · rw [Nat.add_sub_cancel_left] at hlate
      exact .inl hlate
    · exact .inr ⟨j, hj, hj', hlate⟩
  · rintro (⟨hlate, hbeaten⟩ | ⟨j, hj, hj', hlate⟩)
    · refine ⟨k, Nat.le_refl k, by omega, hlate, ?_⟩
      rwa [hend, Nat.add_sub_cancel_left]
    · exact ⟨j, by omega, by omega, by rwa [hend]⟩

/-- After a late tie at `k` every later one comes before it too. -/
theorem overtakenFrom_of_lateTie {k n : ℕ} (hlate : LateTie view k) :
    OvertakenFrom view k (n + 1) ↔ Beaten view k (List.range' (k + 1) n) := by
  rw [overtakenFrom_succ]
  refine ⟨?_, fun h => .inl ⟨hlate, h⟩⟩
  rintro (⟨-, h⟩ | ⟨j, hj, hj', hlate', -⟩)
  · exact h
  · exact ⟨j, List.mem_range'_1.mpr ⟨hj, hj'⟩, hlate'.1, hlate'.2.1 k hj hlate.1⟩

/-- The scan switches to the candidate it ends with, unless it panics. -/
theorem runsFrom_pbsScan (view : ℕ → Proc) (n k : ℕ) (best : Option ℕ) (hbest : PbsBest view k best) :
    let rs := runsFrom (heldWith best) (pbsScan view (candidate view best) (List.range' k n))
    (OvertakenFrom view k n → rs = []) ∧ (¬ OvertakenFrom view k n →
      rs = ((List.range' k n).foldl (consider view PbsBefore) best).toList) := by
  -- induction on the slots left, as for the lock discipline of the scan
  induction n generalizing k best with
  | zero =>
    refine ⟨fun ⟨j, hj, hj', _⟩ => absurd hj (by omega), fun _ => ?_⟩
    cases best with
    | none => rfl
    | some q => simp [pbsScan, runsFrom, heldWith, candidate]
  | succ n ih =>
    obtain ⟨released, best', hturn, hvisit, hscan⟩ := pbsScan_turn view best k
    have hlate := hbest.lateTie_iff hturn
    have hrest := ih (k + 1) best' (hvisit ▸ hbest.next)
    have hheld := hbest.not_held
    have hfresh : k ∉ List.range' (k + 1) n := by simp
    rw [List.range'_succ, List.foldl_cons, hvisit, hscan]
    cases hturn with
    | skip | keep =>
      rw [overtakenFrom_succ, hlate, or_iff_right (by simp)]
      exact (runsFrom_acquire_release hheld).symm ▸ hrest
    | first =>
      rw [overtakenFrom_succ, hlate, or_iff_right (by simp)]
      exact hrest
    | handOver =>
      rw [overtakenFrom_succ, hlate, or_iff_right (by simp)]
      exact (runsFrom_hand_over (Nat.ne_of_gt hbest.lt)).symm ▸ hrest
    | tie =>
      -- the tie-break releases the lock of the new candidate as well
      obtain ⟨hbeaten, hkept⟩ := runsFrom_pbsScan_unlocked view hfresh
      have hstep := runsFrom_tie (Nat.ne_of_gt hbest.lt) (view k)
        (pbsScan view (candidate view (some k)) (List.range' (k + 1) n))
      rw [overtakenFrom_of_lateTie (hlate.mpr ⟨_, rfl, rfl⟩)]
      refine ⟨fun h => hstep.trans (hbeaten h), fun h => hstep.trans ?_⟩
      rw [(hkept h).1, (hkept h).2]
      rfl

/-- A late tie with a better slot behind it. -/
def Overtaken (view : ℕ → Proc) : Prop :=
  ∃ j < NPROC, LateTie view j ∧
    ∃ p < NPROC, j < p ∧ (view p).state = .runnable ∧ PbsBefore (view p) (view j)

theorem overtakenFrom_zero : OvertakenFrom view 0 NPROC ↔ Overtaken view := by
  unfold OvertakenFrom Overtaken Beaten
  constructor
  · rintro ⟨j, -, hj, hlate, p, hp, hbeaten⟩
    have := List.mem_range'_1.mp hp
    exact ⟨j, by omega, hlate, p, by omega, by omega, hbeaten⟩
  · rintro ⟨j, hj, hlate, p, hp, hjp, hbeaten⟩
    exact ⟨j, Nat.zero_le j, by omega, hlate, p, List.mem_range'_1.mpr (by omega), hbeaten⟩

/-- **FCFS and PBS choose the right process.** FCFS does for every process table, PBS exactly if
no late tie is followed by a better slot: otherwise it panics before it switches. -/
theorem fcfs_pbs_choose_iff (view : ℕ → Proc) :
    Chooses view FcfsBefore (runs (Round.fcfs view).events) ∧
      (Chooses view PbsBefore (runs (Round.pbs view).events) ↔ ¬ Overtaken view) := by
  constructor
  · rw [Round.events, runs, (fcfsScan_sound List.nodup_range).1.runsFrom_eq, switches_fcfsScan]
    apply chooses_scan
    · intro a b hab
      exact not_lt_of_gt hab
    · intro a b c hab hcb
      exact lt_of_lt_of_le hab (not_lt.mp hcb)
  · obtain ⟨hpanics, hruns⟩ := runsFrom_pbsScan view NPROC 0 none
      fun i hi => absurd hi (Nat.not_lt_zero i)
    rw [overtakenFrom_zero, ← List.range_eq_range'] at hpanics hruns
    rw [Round.events, runs]
    constructor
    · rintro hchooses hover
      have hnone : runsFrom ∅ (pbsScan view none (List.range NPROC)) = [] := hpanics hover
      rw [hnone] at hchooses
      obtain ⟨j, hj, hlate, -⟩ := hover
      rcases hchooses with ⟨p, hp, -⟩ | ⟨-, hidle⟩
      · cases hp
      · exact hidle j hj hlate.1
    · intro hover
      have hrs : runsFrom ∅ (pbsScan view none (List.range NPROC)) = _ := hruns hover
      rw [hrs]
      exact chooses_scan (fun _ _ => PbsBefore.asymm) fun _ _ _ => PbsBefore.trans_not

/-- Three RUNNABLE processes of one dynamic priority, the later slots created earlier. -/
def threeTied (p : ℕ) : Proc :=
  if p < 3 then { Proc.zero with state := .runnable, tickCreationTime := [7, 3, 1].getD p 0 } else .zero

/-- At slot 1 the scan drops the lock of its candidate, at slot 2 it releases it again. -/
theorem pbs_panics_threeTied : runs (Round.pbs threeTied).events = [] ∧
    ¬ Chooses threeTied PbsBefore (runs (Round.pbs threeTied).events) := by
  have hnone : runs (Round.pbs threeTied).events = [] := by decide +kernel
  refine ⟨hnone, fun h => ?_⟩
  rw [hnone] at h
  rcases h with ⟨p, hp, -⟩ | ⟨-, hidle⟩
  · cases hp
  · exact hidle 0 (by decide) rfl

/-! ### The dynamic priority -/

theorem int32_eq (x : ℤ) : int32 x = (x + 2 ^ 31) % 2 ^ 32 - 2 ^ 31 := by
  unfold int32 Int.bmod
  dsimp only
  split <;> omega

theorem int32_of_fits {x : ℤ} (h : -2 ^ 31 ≤ x) (h' : x < 2 ^ 31) : int32 x = x := by
  exact Int.bmod_eq_of_le (by omega) (by omega)

section

variable {r : Proc} (hrun : 0 ≤ r.lastRunTime) (hsleep : 0 ≤ r.lastSleepTime)
  (hpos : 0 < r.lastRunTime + r.lastSleepTime)
include hrun hsleep hpos

end

end Xv6.Sched
