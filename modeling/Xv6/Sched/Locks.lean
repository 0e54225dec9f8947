import Mathlib.Data.Finset.Basic
import Xv6.Lib.Scan
import Xv6.Sched.Mlfq

/-!
The process locks a scheduler round takes, for each of the five schedulers.

A round is the list of what it does to `p->lock`s, in order, and of the switches to
a process. What it finds in a slot is read after the slot's lock is acquired;
other CPUs may have changed the slot before that moment, so a round is a function
of the record it finds in each slot and of nothing else in the table. `Disciplined`
is the rule of `scheduler`'s comments: release only what is held, and switch to a
process holding its lock and no other.

RR, FCFS, LBS and MLFQ keep the rule for every table. The scan of PBS breaks it
exactly at a *late tie*: a slot that the scan prefers to every RUNNABLE slot before
it, but only by the tie-break. There the new candidate's lock is released at the
end of the loop body, and the round goes on to switch to a process whose lock it
does not hold.
-/

namespace Xv6.Sched

open Finset (erase_insert pair_comm notMem_empty)

/-- What a scheduler round does to process locks and processes. -/
inductive Event where
  /-- `acquire(&p->lock)`, and the record found in the slot. -/
  | acquire (p : ℕ) (seen : Proc)
  | release (p : ℕ)
  /-- `p->state = RUNNING; c->proc = p; swtch(...)`, up to the switch back. -/
  | run (p : ℕ)
  | panic
deriving DecidableEq, Repr

/-! ### The rounds -/

/-- RR. -/
def rrScan (view : ℕ → Proc) : List ℕ → List Event
  | [] => []
  | p :: ps =>
    .acquire p (view p) ::
      if (view p).state = .runnable then .run p :: .release p :: rrScan view ps
      else .release p :: rrScan view ps

/-- FCFS, with `proc_to_run`. -/
def fcfsScan (view : ℕ → Proc) : Option ℕ → List ℕ → List Event
  | none, [] => []
  | some q, [] => [.run q, .release q]
  | best, p :: ps =>
    .acquire p (view p) ::
      if (view p).state ≠ .runnable then .release p :: fcfsScan view best ps
      else
        match best with
        | none => fcfsScan view (some p) ps
        | some q =>
          if (view q).tickCreationTime > (view p).tickCreationTime then
            .release q :: fcfsScan view (some p) ps
          else .release p :: fcfsScan view best ps

/-- `max_tickets`: the tickets of the slots seen RUNNABLE, read without locks. -/
def maxTickets (snapshot : ℕ → Proc) (ps : List ℕ) : ℤ :=
  ps.foldl (fun sum p =>
    if (snapshot p).state = .runnable then int32 (sum + (snapshot p).tickets) else sum) 0

/-- `random(max)` of `kernel/rand.c`, given what `genrand` returns. The target's
remainder by zero is the dividend. -/
def random (genrand max : ℤ) : ℤ := if max + 1 = 0 then genrand else genrand.tmod (max + 1)

/-- The second loop of LBS, with `counter` and `rand_num`. -/
def lbsScan (view : ℕ → Proc) (randNum : ℤ) : ℤ → List ℕ → List Event
  | _, [] => []
  | counter, p :: ps =>
    .acquire p (view p) ::
      if (view p).state = .runnable then
        let counter := int32 (counter + (view p).tickets)
        if counter ≥ randNum then [.run p, .release p]
        else .release p :: lbsScan view randNum counter ps
      else .release p :: lbsScan view randNum counter ps

/-- PBS, with `pbs_proc_to_run` and `min_priority`. The two tie-break branches do
not `continue`: they reach the `release` at the end of the loop body. -/
def pbsScan (view : ℕ → Proc) : Option (ℕ × ℤ) → List ℕ → List Event
  | none, [] => []
  | some (q, _), [] => [.run q, .release q]
  | best, p :: ps =>
    .acquire p (view p) ::
      if (view p).state ≠ .runnable then .release p :: pbsScan view best ps
      else
        match best with
        | none => pbsScan view (some (p, dynamicPriority (view p))) ps
        | some (q, minPriority) =>
          let tempDp := dynamicPriority (view p)
          if tempDp < minPriority then .release q :: pbsScan view (some (p, tempDp)) ps
          else if tempDp = minPriority then
            if (view q).numberTimes > (view p).numberTimes then
              .release q :: .release p :: pbsScan view (some (p, tempDp)) ps
            else if (view q).numberTimes = (view p).numberTimes ∧
                (view q).tickCreationTime > (view p).tickCreationTime then
              .release q :: .release p :: pbsScan view (some (p, tempDp)) ps
            else .release p :: pbsScan view best ps
          else .release p :: pbsScan view best ps

/-- The enqueue loop of MLFQ. -/
def fillEvents : List ℕ → Table → List Event
  | [], _ => []
  | p :: ps, t =>
    .acquire p (t.proc p) ::
      match t.enqueueAt p with
      | .error _ => [.panic]
      | .ok t => .release p :: fillEvents ps t

/-- The inner selection loop of MLFQ, with the events of what follows it when it
selects no process. -/
def levelEvents (i : ℕ) (rest : Table → List Event) : ℕ → ℕ → Table → List Event
  | 0, _, t => rest t
  | fuel + 1, j, t =>
    if (j : ℤ) < (t.queues i).length then
      let p := (t.queues i).head
      .acquire p (t.proc p) ::
        match t.dequeue p with
        | .error _ => [.panic]
        | .ok t' =>
          if (t'.proc p).state = .runnable then [.run p, .release p]
          else .release p :: levelEvents i rest fuel (j + 1) t'
    else rest t

/-- The outer selection loop of MLFQ and the switch. -/
def selectEvents : List ℕ → Table → List Event
  | [], _ => []
  | i :: is, t => levelEvents i (selectEvents is) (t.queues i).length.toNat 0 t

/-- The inputs of one scheduler round: what it finds in the slots, and for LBS the
records the ticket count saw and the value of `genrand`. The two loops of MLFQ may
find different tables, since other CPUs run in between. -/
inductive Round where
  | rr (view : ℕ → Proc)
  | fcfs (view : ℕ → Proc)
  | lbs (snapshot view : ℕ → Proc) (genrand : ℤ)
  | pbs (view : ℕ → Proc)
  | mlfq (filling selecting : Table)

/-- What a round does. -/
def Round.events : Round → List Event
  | rr view => rrScan view (List.range NPROC)
  | fcfs view => fcfsScan view none (List.range NPROC)
  | lbs snapshot view genrand =>
    lbsScan view (random genrand (maxTickets snapshot (List.range NPROC))) 0 (List.range NPROC)
  | pbs view => pbsScan view none (List.range NPROC)
  | mlfq filling selecting =>
    fillEvents (List.range NPROC) filling ++ selectEvents (List.range NQUEUE) selecting

/-! ### The lock discipline -/

/-- From the locks in `held` on, only held locks are released, and at every switch
the switched-to process's lock is the only one held. A process switches back with
its own lock held. -/
def Disciplined : Finset ℕ → List Event → Prop
  | _, [] => True
  | held, .acquire p _ :: es => Disciplined (insert p held) es
  | held, .release p :: es => p ∈ held ∧ Disciplined (held.erase p) es
  | held, .run p :: es => held = {p} ∧ Disciplined held es
  | _, .panic :: _ => True

instance decidableDisciplined :
    (held : Finset ℕ) → (es : List Event) → Decidable (Disciplined held es)
  | _, [] => .isTrue trivial
  | held, .acquire p _ :: es => decidableDisciplined (insert p held) es
  | held, .release p :: es =>
    have := decidableDisciplined (held.erase p) es
    inferInstanceAs (Decidable (p ∈ held ∧ Disciplined (held.erase p) es))
  | held, .run p :: es =>
    have := decidableDisciplined held es
    inferInstanceAs (Decidable (held = {p} ∧ Disciplined held es))
  | _, .panic :: _ => .isTrue trivial

/-- The discipline with what the rest of the kernel relies on: no lock is acquired
twice, the process switched to was found RUNNABLE under the lock still held
(`ready`), and the round ends with no lock held. -/
def Sound : Finset ℕ → Finset ℕ → List Event → Prop
  | held, _, [] => held = ∅
  | held, ready, .acquire p seen :: es =>
    p ∉ held ∧ Sound (insert p held) (if seen.state = .runnable then insert p ready else ready) es
  | held, ready, .release p :: es => p ∈ held ∧ Sound (held.erase p) (ready.erase p) es
  | held, ready, .run p :: es => held = {p} ∧ p ∈ ready ∧ Sound held ∅ es
  | _, _, .panic :: _ => True

variable {es : List Event}

theorem Sound.disciplined {held ready : Finset ℕ} (h : Sound held ready es) :
    Disciplined held es := by
  induction es generalizing held ready with
  | nil => trivial
  | cons e es ih =>
    cases e with
    | acquire p seen => exact ih h.2
    | release p => exact ⟨h.1, ih h.2⟩
    | run p => exact ⟨h.1, ih h.2.2⟩
    | panic => trivial

section Scans

variable {view : ℕ → Proc} {ps : List ℕ} {p q : ℕ} {seen : Proc}

/-- Taking and dropping a lock leaves the held locks as they were. -/
theorem Sound.acquire_release {held ready : Finset ℕ}
    (hp : p ∉ held) (hready : ready ⊆ held) (h : Sound held ready es) :
    Sound held ready (.acquire p seen :: .release p :: es) := by
  refine ⟨hp, Finset.mem_insert_self _ _, ?_⟩
  have hp' : p ∉ ready := fun hmem => hp (hready hmem)
  rw [erase_insert hp]
  split
  · rwa [erase_insert hp']
  · rwa [Finset.erase_eq_of_notMem hp']

/-- Switching to a process found RUNNABLE, and dropping its lock afterwards. -/
theorem Sound.acquire_run_release (hrun : seen.state = .runnable) (h : Sound ∅ ∅ es) :
    Sound ∅ ∅ (.acquire p seen :: .run p :: .release p :: es) := by
  simpa [Sound, hrun] using h

/-- Handing over from the candidate `q` to the newly locked RUNNABLE `p`. -/
theorem Sound.hand_over (hne : p ≠ q) (hrun : seen.state = .runnable) (h : Sound {p} {p} es) :
    Sound {q} {q} (.acquire p seen :: .release q :: es) := by
  have hpair : (insert p {q} : Finset ℕ).erase q = {p} := by
    rw [pair_comm, erase_insert (by simpa using Ne.symm hne)]
  refine ⟨by simpa using hne, by simp, ?_⟩
  simpa only [hrun, if_true, hpair] using h

/-- Taking the first candidate. -/
theorem Sound.acquire_first (hrun : seen.state = .runnable)
    (h : Sound {p} {p} es) : Sound ∅ ∅ (.acquire p seen :: es) := by
  simpa [Sound, hrun] using h

/-- Switching to the candidate at the end of a scan. -/
theorem Sound.run_last : Sound {q} {q} [.run q, .release q] := by simp [Sound]

/-! ### RR, FCFS and LBS -/

theorem rrScan_sound : Sound ∅ ∅ (rrScan view ps) := by
  induction ps with
  | nil => rfl
  | cons p ps ih =>
    unfold rrScan
    split
    · next hrun => exact ih.acquire_run_release hrun
    · exact ih.acquire_release (notMem_empty _) (Finset.Subset.refl _)

theorem fcfsScan_sound (nodup : ps.Nodup) :
    Sound ∅ ∅ (fcfsScan view none ps) ∧
      ∀ q ∉ ps, Sound {q} {q} (fcfsScan view (some q) ps) := by
  induction ps with
  | nil => exact ⟨rfl, fun q _ => Sound.run_last⟩
  | cons p ps ih =>
    obtain ⟨hp, nodup⟩ := List.nodup_cons.mp nodup
    obtain ⟨ihNone, ihSome⟩ := ih nodup
    refine ⟨?_, fun q hq => ?_⟩
    · unfold fcfsScan
      split
      · exact ihNone.acquire_release (notMem_empty _) (Finset.Subset.refl _)
      · next hrun => exact Sound.acquire_first (not_not.mp hrun) (ihSome p hp)
    · obtain ⟨hne, hq⟩ := not_or.mp (List.mem_cons.not.mp hq)
      have hkeep := ihSome q hq
      have hpq : p ∉ ({q} : Finset ℕ) := by simpa using Ne.symm hne
      unfold fcfsScan
      split
      · exact hkeep.acquire_release hpq (Finset.Subset.refl _)
      · next hrun =>
        dsimp only
        split
        · exact Sound.hand_over (Ne.symm hne) (not_not.mp hrun) (ihSome p hp)
        · exact hkeep.acquire_release hpq (Finset.Subset.refl _)

theorem lbsScan_sound (randNum counter : ℤ) : Sound ∅ ∅ (lbsScan view randNum counter ps) := by
  induction ps generalizing counter with
  | nil => rfl
  | cons p ps ih =>
    unfold lbsScan
    split
    · next hrun =>
      dsimp only
      split
      · exact Sound.acquire_run_release hrun rfl
      · exact (ih _).acquire_release (notMem_empty _) (Finset.Subset.refl _)
    · exact (ih _).acquire_release (notMem_empty _) (Finset.Subset.refl _)

/-! ### PBS -/

/-- The order of the PBS scan: dynamic priority, then times scheduled, then
creation time. -/
def PbsBefore (a b : Proc) : Prop :=
  dynamicPriority a < dynamicPriority b ∨ dynamicPriority a = dynamicPriority b ∧
    (a.numberTimes < b.numberTimes ∨ a.numberTimes = b.numberTimes ∧
      a.tickCreationTime < b.tickCreationTime)

instance (a b : Proc) : Decidable (PbsBefore a b) := by
  unfold PbsBefore; infer_instance

/-- Slot `j` comes before every RUNNABLE lower slot in the scan's order, but shares
its dynamic priority with one of them. -/
def LateTie (view : ℕ → Proc) (j : ℕ) : Prop :=
  (view j).state = .runnable ∧
    (∀ i < j, (view i).state = .runnable → PbsBefore (view j) (view i)) ∧
    ∃ i < j, (view i).state = .runnable ∧ dynamicPriority (view i) = dynamicPriority (view j)

instance (view : ℕ → Proc) (j : ℕ) : Decidable (LateTie view j) := by
  unfold LateTie; infer_instance

theorem PbsBefore.asymm {a b : Proc} (h : PbsBefore a b) : ¬ PbsBefore b a := by
  unfold PbsBefore at *
  omega

theorem PbsBefore.trans_not {a b c : Proc} (hab : PbsBefore a b) (hcb : ¬ PbsBefore c b) :
    PbsBefore a c := by
  unfold PbsBefore at *
  omega

/-- One slot of a scan in the given order. -/
abbrev consider (view : ℕ → Proc) (before : Proc → Proc → Prop) [DecidableRel before] :
    Option ℕ → ℕ → Option ℕ :=
  Scan.visit (fun p => (view p).state = .runnable) fun p q => before (view p) (view q)

/-- The candidate of the scan of PBS after the slots below `k`. -/
abbrev PbsBest (view : ℕ → Proc) : ℕ → Option ℕ → Prop :=
  Scan.Finds (fun p => (view p).state = .runnable) fun p q => PbsBefore (view p) (view q)

theorem PbsBest.next {k : ℕ} {best : Option ℕ} (h : PbsBest view k best) :
    PbsBest view (k + 1) (consider view PbsBefore best k) := by
  apply Scan.finds_visit _ _ h
  · exact fun _ _ => PbsBefore.asymm
  · exact fun _ _ _ => PbsBefore.trans_not

/-- The candidate with `min_priority`, its dynamic priority. -/
def candidate (view : ℕ → Proc) (best : Option ℕ) : Option (ℕ × ℤ) :=
  best.map fun q => (q, dynamicPriority (view q))

/-- What the scan of PBS does at slot `p`: the locks it releases, and its next candidate. -/
inductive PbsTurn (view : ℕ → Proc) (p : ℕ) : Option ℕ → List Event → Option ℕ → Prop where
  | skip {best : Option ℕ} (hrun : (view p).state ≠ .runnable) : PbsTurn view p best [.release p] best
  | first (hrun : (view p).state = .runnable) : PbsTurn view p none [] (some p)
  | keep {q : ℕ} (hbefore : ¬ PbsBefore (view p) (view q)) :
      PbsTurn view p (some q) [.release p] (some q)
  | handOver {q : ℕ} (hrun : (view p).state = .runnable)
      (hlt : dynamicPriority (view p) < dynamicPriority (view q)) :
      PbsTurn view p (some q) [.release q] (some p)
  | tie {q : ℕ} (hrun : (view p).state = .runnable) (hbefore : PbsBefore (view p) (view q))
      (heq : dynamicPriority (view p) = dynamicPriority (view q)) :
      PbsTurn view p (some q) [.release q, .release p] (some p)

/-- The branches that replace the candidate are those of `PbsBefore`. -/
theorem pbsScan_turn (view : ℕ → Proc) (best : Option ℕ) (p : ℕ) :
    ∃ released best', PbsTurn view p best released best' ∧ consider view PbsBefore best p = best' ∧
      ∀ ps, pbsScan view (candidate view best) (p :: ps) =
        .acquire p (view p) :: (released ++ pbsScan view (candidate view best') ps) := by
  by_cases hrun : (view p).state = .runnable
  · cases best with
    | none => exact ⟨_, _, .first hrun, if_pos hrun, fun ps => by simp [pbsScan, candidate, hrun]⟩
    | some q =>
      have hvisit : consider view PbsBefore (some q) p = if _ then _ else _ := if_pos hrun
      by_cases hbefore : PbsBefore (view p) (view q)
      · rcases hbefore.imp_right And.left with hlt | heq
        · refine ⟨_, _, .handOver hrun hlt, hvisit.trans (if_pos hbefore), fun ps => ?_⟩
          simp [pbsScan, candidate, hrun, hlt]
        · refine ⟨_, _, .tie hrun hbefore heq, hvisit.trans (if_pos hbefore), fun ps => ?_⟩
          unfold PbsBefore at hbefore
          simp only [pbsScan, candidate, hrun, Option.map_some, ne_eq, not_true_eq_false, if_false]
          split_ifs <;> first | rfl | omega
      · refine ⟨_, _, .keep hbefore, hvisit.trans (if_neg hbefore), fun ps => ?_⟩
        unfold PbsBefore at hbefore
        simp only [pbsScan, candidate, hrun, Option.map_some, ne_eq, not_true_eq_false, if_false]
        split_ifs <;> first | rfl | omega
  · refine ⟨_, _, .skip hrun, if_neg hrun, fun ps => ?_⟩
    cases best <;> simp [pbsScan, candidate, hrun]

/-- Once the candidate's lock is no longer held, the scan cannot end well: it
either releases that lock or switches without it. -/
theorem pbsScan_not_disciplined (hq : q ∉ ps) :
    ¬ Disciplined ∅ (pbsScan view (candidate view (some q)) ps) := by
  induction ps with
  | nil => exact fun h => absurd h.1.symm (Finset.singleton_ne_empty q)
  | cons p ps ih =>
    obtain ⟨hne, hq⟩ := not_or.mp (List.mem_cons.not.mp hq)
    obtain ⟨released, best', hturn, -, hscan⟩ := pbsScan_turn view (some q) p
    rw [hscan]
    intro h
    cases hturn with
    | skip | keep => exact ih hq (by simpa using h.2)
    | handOver | tie => exact hne (by simpa using h.1)

/-- The locks held with a given candidate. -/
def heldWith : Option ℕ → Finset ℕ
  | none => ∅
  | some q => {q}

/-- The lock of the next slot is not held. -/
theorem PbsBest.not_held {k : ℕ} {best : Option ℕ} (hbest : PbsBest view k best) :
    k ∉ heldWith best := by
  cases best with
  | none => exact notMem_empty k
  | some q => exact Finset.notMem_singleton.mpr (Nat.ne_of_gt hbest.lt)

/-- A late tie at the next slot is a turn that ends in a tie. -/
theorem PbsBest.lateTie_iff {k : ℕ} {best best' : Option ℕ} {released : List Event}
    (hbest : PbsBest view k best) (hturn : PbsTurn view k best released best') :
    LateTie view k ↔ ∃ q, best = some q ∧ released = [.release q, .release k] := by
  constructor
  · rintro ⟨hrun, hbefore, i, hi, hirun, heq⟩
    cases hturn with
    | skip hskip => exact absurd hrun hskip
    | first => exact absurd hirun (hbest i hi)
    | keep hkeep => exact absurd (hbefore _ hbest.lt hbest.mem) hkeep
    | handOver _ hlt =>
      exfalso
      apply hbest.least i hi hirun
      exact .inl (heq ▸ hlt)
    | tie => exact ⟨_, rfl, rfl⟩
  · rintro ⟨q, rfl, hreleased⟩
    cases hturn with
    | skip | keep | handOver => simp at hreleased
    | tie hrun hbefore heq =>
      exact ⟨hrun, fun i hi hirun => hbefore.trans_not (hbest.least i hi hirun), q, hbest.lt, hbest.mem,
        heq.symm⟩

/-- Some slot from `k` up to `k + n` is a late tie. -/
def LateFrom (view : ℕ → Proc) (k n : ℕ) : Prop := ∃ j, k ≤ j ∧ j < k + n ∧ LateTie view j

theorem lateFrom_succ {k n : ℕ} :
    LateFrom view k (n + 1) ↔ LateTie view k ∨ LateFrom view (k + 1) n := by
  constructor
  · rintro ⟨j, hj, hj', hlate⟩
    rcases Nat.eq_or_lt_of_le hj with rfl | hj
    · exact .inl hlate
    · exact .inr ⟨j, hj, by omega, hlate⟩
  · rintro (hlate | ⟨j, hj, hj', hlate⟩)
    · exact ⟨k, le_refl k, by omega, hlate⟩
    · exact ⟨j, by omega, by omega, hlate⟩

/-- The events are sound unless `late`, and undisciplined if so. -/
def SoundUnless (late : Prop) (held : Finset ℕ) (es : List Event) : Prop :=
  (¬ late → Sound held held es) ∧ (late → ¬ Disciplined held es)

theorem SoundUnless.acquire_release {late : Prop} {held : Finset ℕ}
    (hp : p ∉ held) (h : SoundUnless late held es) :
    SoundUnless late held (.acquire p seen :: .release p :: es) := by
  refine ⟨fun hl => (h.1 hl).acquire_release hp (Finset.Subset.refl _), fun hl hd => h.2 hl ?_⟩
  simpa [erase_insert hp] using hd.2

theorem SoundUnless.hand_over {late : Prop} (hne : p ≠ q)
    (hrun : seen.state = .runnable) (h : SoundUnless late {p} es) :
    SoundUnless late {q} (.acquire p seen :: .release q :: es) := by
  refine ⟨fun hl => (h.1 hl).hand_over hne hrun, fun hl hd => h.2 hl ?_⟩
  have hd := hd.2
  rwa [pair_comm, erase_insert (by simpa using Ne.symm hne)] at hd

theorem SoundUnless.acquire_first {late : Prop}
    (hrun : seen.state = .runnable) (h : SoundUnless late {p} es) :
    SoundUnless late ∅ (.acquire p seen :: es) :=
  ⟨fun hl => (h.1 hl).acquire_first hrun, fun hl hd => h.2 hl hd⟩

/-- A hand-over that releases the new candidate's lock as well. -/
theorem not_disciplined_of_tie (hne : p ≠ q) (hp : p ∉ ps) :
    ¬ Disciplined {q}
      (.acquire p seen :: .release q :: .release p :: pbsScan view (candidate view (some p)) ps) := by
  intro h
  apply pbsScan_not_disciplined hp
  have h := h.2.2
  rwa [pair_comm, erase_insert (by simpa using Ne.symm hne),
    Finset.erase_singleton] at h

/-- **The PBS scan.** Over the slots from `k` on it is sound when none of them is a
late tie, and undisciplined when one is. -/
theorem pbsScan_spec (n k : ℕ) (best : Option ℕ) (hbest : PbsBest view k best) :
    SoundUnless (LateFrom view k n) (heldWith best)
      (pbsScan view (candidate view best) (List.range' k n)) := by
  -- Induction on the slots left; the candidate is the least of those already scanned.
  induction n generalizing k best with
  | zero =>
    refine ⟨fun _ => ?_, fun ⟨j, hj, hj', _⟩ => absurd hj (by omega)⟩
    cases best with
    | none => rfl
    | some q => exact Sound.run_last
  | succ n ih =>
    obtain ⟨released, best', hturn, hvisit, hscan⟩ := pbsScan_turn view best k
    have hlate := hbest.lateTie_iff hturn
    have hrest := ih (k + 1) best' (hvisit ▸ hbest.next)
    have hheld := hbest.not_held
    rw [List.range'_succ, lateFrom_succ, hlate, hscan]
    cases hturn with
    | skip | keep =>
      rw [or_iff_right (by simp)]
      exact hrest.acquire_release hheld
    | first hrun =>
      rw [or_iff_right (by simp)]
      exact hrest.acquire_first hrun
    | handOver hrun =>
      -- A smaller dynamic priority: the one branch that hands over correctly.
      rw [or_iff_right (by simp)]
      exact hrest.hand_over (Nat.ne_of_gt hbest.lt) hrun
    | tie =>
      refine ⟨fun hl => absurd (.inl ⟨_, rfl, rfl⟩) hl, fun _ => ?_⟩
      exact not_disciplined_of_tie (Nat.ne_of_gt hbest.lt) (by simp)

/-! ### MLFQ -/

theorem fillEvents_sound (h : Sound ∅ ∅ es) (t : Table) :
    Sound ∅ ∅ (fillEvents ps t ++ es) := by
  induction ps generalizing t with
  | nil => exact h
  | cons p ps ih =>
    unfold fillEvents
    cases t.enqueueAt p with
    | error e => exact ⟨notMem_empty _, trivial⟩
    | ok t' =>
      exact (ih t').acquire_release (notMem_empty _) (Finset.Subset.refl _)

/-- `dequeue` changes no process state. -/
theorem state_of_dequeue {t t' : Table} (h : t.dequeue p = .ok t') :
    (t'.proc p).state = (t.proc p).state := by
  obtain ⟨-, rfl⟩ := Table.dequeue_eq_ok.mp h
  simp

theorem levelEvents_sound {i : ℕ} {rest : Table → List Event} (hrest : ∀ t, Sound ∅ ∅ (rest t))
    (fuel j : ℕ) (t : Table) : Sound ∅ ∅ (levelEvents i rest fuel j t) := by
  induction fuel generalizing j t with
  | zero => exact hrest t
  | succ fuel ih =>
    unfold levelEvents
    split
    · dsimp only
      cases hd : t.dequeue (t.queues i).head with
      | error e => exact ⟨notMem_empty _, trivial⟩
      | ok t' =>
        dsimp only
        split
        · next hrun =>
          exact Sound.acquire_run_release ((state_of_dequeue hd).symm.trans hrun) rfl
        · exact (ih _ _).acquire_release (notMem_empty _) (Finset.Subset.refl _)
    · exact hrest t

theorem selectEvents_sound (is : List ℕ) (t : Table) : Sound ∅ ∅ (selectEvents is t) := by
  induction is generalizing t with
  | nil => rfl
  | cons i is ih => exact levelEvents_sound ih _ _ t

end Scans

/-! ### All schedulers -/

/-- A round that finds a late tie: only the PBS scan does anything at one. -/
def Round.FindsLateTie : Round → Prop
  | pbs view => ∃ j < NPROC, LateTie view j
  | _ => False

instance (r : Round) : Decidable r.FindsLateTie := by
  cases r <;> unfold Round.FindsLateTie <;> infer_instance

/-- Every round is sound unless it finds a late tie, and then it is undisciplined. -/
theorem Round.soundUnless (r : Round) : SoundUnless r.FindsLateTie ∅ r.events := by
  cases r with
  | rr view => exact ⟨fun _ => rrScan_sound, False.elim⟩
  | fcfs view => exact ⟨fun _ => (fcfsScan_sound List.nodup_range).1, False.elim⟩
  | lbs snapshot view genrand => exact ⟨fun _ => lbsScan_sound _ _, False.elim⟩
  | pbs view =>
    have h : SoundUnless (LateFrom view 0 NPROC) _ _ :=
      pbsScan_spec NPROC 0 none fun i hi => absurd hi (Nat.not_lt_zero i)
    simpa [LateFrom, heldWith, candidate, FindsLateTie, events, List.range_eq_range'] using h
  | mlfq filling selecting =>
    exact ⟨fun _ => fillEvents_sound (selectEvents_sound _ _) _, False.elim⟩

end Xv6.Sched
