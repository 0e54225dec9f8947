import Mathlib.Order.Interval.Set.Nat
import Mathlib.Data.Int.Interval
import Xv6.Sched.Choice

/-!
The lottery of the LBS scheduler.

`draw` is the second loop of LBS on exact integers; while the partial sums of the tickets
fit an `int` it is the loop itself (`runs_lbsScan`). A draw `rand_num` above the counter
falls to the process whose tickets end at or after it (`draw_eq_some`), so a process wins
as many of the draws `1..T` as it has tickets. `random` also returns `0`, and that draw
falls to the first RUNNABLE process.
-/

namespace Xv6.Sched

/-- The largest value of `genrand`. -/
def RAND_MAX : ℤ := 0x7fffffff

variable {view : ℕ → Proc} {ps : List ℕ} {r c : ℤ} {i : ℕ}

/-- The tickets of the RUNNABLE processes among `ps`. -/
def total (view : ℕ → Proc) (ps : List ℕ) : ℤ :=
  (ps.map fun p => if (view p).state = .runnable then (view p).tickets else 0).sum

/-- The process the loop over `ps` selects, with exact sums. -/
def draw (view : ℕ → Proc) (r : ℤ) : ℤ → List ℕ → Option ℕ
  | _, [] => none
  | c, p :: ps =>
    if (view p).state = .runnable then
      if r ≤ c + (view p).tickets then some p else draw view r (c + (view p).tickets) ps
    else draw view r c ps

/-- Every partial sum of the tickets, in slot order, fits an `int`. -/
def SumsFit (view : ℕ → Proc) (c : ℤ) (ps : List ℕ) : Prop :=
  ∀ n, -2 ^ 31 ≤ c + total view (ps.take n) ∧ c + total view (ps.take n) < 2 ^ 31

theorem total_cons (p : ℕ) : total view (p :: ps) =
    (if (view p).state = .runnable then (view p).tickets else 0) + total view ps := rfl

theorem SumsFit.tail {p : ℕ} (h : SumsFit view c (p :: ps)) :
    SumsFit view (c + if (view p).state = .runnable then (view p).tickets else 0) ps := by
  intro n
  have hn := h (n + 1)
  rwa [List.take_succ_cons, total_cons, ← add_assoc] at hn

theorem SumsFit.int32_eq {p : ℕ} (h : SumsFit view c (p :: ps)) :
    int32 (c + if (view p).state = .runnable then (view p).tickets else 0) =
      c + if (view p).state = .runnable then (view p).tickets else 0 := by
  have hone := h.tail 0
  rw [List.take_zero, total, List.map_nil, List.sum_nil, add_zero] at hone
  exact int32_of_fits hone.1 hone.2

theorem runs_lbsScan (h : SumsFit view c ps) :
    runs (lbsScan view r c ps) = (draw view r c ps).toList := by
  induction ps generalizing c with
  | nil => rfl
  | cons p ps ih =>
    have htail := ih h.tail
    have hsum := h.int32_eq
    by_cases hrun : (view p).state = .runnable
    · rw [if_pos hrun] at htail hsum
      simp only [lbsScan, draw, hrun, if_true, hsum, ge_iff_le]
      split
      · simp [runs, runsFrom]
      · exact (runsFrom_acquire_release (Finset.notMem_empty p)).trans htail
    · rw [if_neg hrun, add_zero] at htail
      simp only [lbsScan, draw, hrun, if_false]
      exact (runsFrom_acquire_release (Finset.notMem_empty p)).trans htail

/-- The first loop computes the exact total. -/
theorem foldl_tickets (h : SumsFit view c ps) :
    ps.foldl (fun sum p =>
      if (view p).state = .runnable then int32 (sum + (view p).tickets) else sum) c =
      c + total view ps := by
  induction ps generalizing c with
  | nil => exact (add_zero c).symm
  | cons p ps ih =>
    have htail := ih h.tail
    have hsum := h.int32_eq
    rw [List.foldl_cons, total_cons, ← add_assoc, ← htail]
    by_cases hrun : (view p).state = .runnable
    · rw [if_pos hrun] at hsum
      simp only [hrun, if_true, hsum]
    · simp only [hrun, if_false, add_zero]

theorem maxTickets_eq (h : SumsFit view 0 ps) : maxTickets view ps = total view ps :=
  (foldl_tickets h).trans (zero_add _)

theorem total_append (qs : List ℕ) : total view (ps ++ qs) = total view ps + total view qs := by
  rw [total, List.map_append, List.sum_append]
  rfl

section

variable (h : ∀ p ∈ ps, (view p).state = .runnable → 0 ≤ (view p).tickets)
include h

theorem total_nonneg :
    0 ≤ total view ps := by
  induction ps with
  | nil => exact le_refl 0
  | cons p ps ih =>
    have hrest := ih fun q hq => h q (List.mem_cons_of_mem p hq)
    rw [total_cons]
    split
    · next hrun => exact add_nonneg (h p List.mem_cons_self hrun) hrest
    · rwa [zero_add]

/-- Tickets that are not negative and whose total fits. -/
theorem sumsFit_of_nonneg
    (htotal : total view ps < 2 ^ 31) : SumsFit view 0 ps := by
  intro n
  have htake : 0 ≤ total view (ps.take n) := total_nonneg fun p hp => h p (List.mem_of_mem_take hp)
  have hdrop : 0 ≤ total view (ps.drop n) := total_nonneg fun p hp => h p (List.mem_of_mem_drop hp)
  rw [← List.take_append_drop n ps, total_append] at htotal
  omega

end

theorem total_range_succ (n : ℕ) : total view (List.range (n + 1)) =
    total view (List.range n) + if (view n).state = .runnable then (view n).tickets else 0 := by
  rw [List.range_succ, total_append]
  simp [total]

theorem sumsFit_range_iff {n : ℕ} : SumsFit view 0 (List.range n) ↔
    ∀ m ≤ n, -2 ^ 31 ≤ total view (List.range m) ∧ total view (List.range m) < 2 ^ 31 := by
  constructor
  · intro h m hm
    have hm' := h m
    rwa [List.take_range, Nat.min_eq_left hm, zero_add] at hm'
  · intro h m
    rw [List.take_range, zero_add]
    exact h _ (Nat.min_le_right m n)

/-! ### Progress -/

/-- The loop selects a process at which the counter has come to the draw. -/
theorem draw_isSome_iff : (draw view r c ps).isSome ↔ ∃ n p, ps[n]? = some p ∧
    (view p).state = .runnable ∧ r ≤ c + total view (ps.take (n + 1)) := by
  induction ps generalizing c with
  | nil => simp [draw]
  | cons p ps ih =>
    -- the first slot, or one of the rest with the counter advanced
    have hsplit : (∃ n q, (p :: ps)[n]? = some q ∧ (view q).state = .runnable ∧
          r ≤ c + total view ((p :: ps).take (n + 1))) ↔
        (view p).state = .runnable ∧ r ≤ c + (view p).tickets ∨
          ∃ n q, ps[n]? = some q ∧ (view q).state = .runnable ∧
            r ≤ c + (if (view p).state = .runnable then (view p).tickets else 0) +
              total view (ps.take (n + 1)) := by
      constructor
      · rintro ⟨n, q, hq, hrun, hle⟩
        rw [List.take_succ_cons, total_cons, ← add_assoc] at hle
        cases n with
        | zero =>
          cases hq
          rw [if_pos hrun, List.take_zero, total, List.map_nil, List.sum_nil, add_zero] at hle
          exact .inl ⟨hrun, hle⟩
        | succ n => exact .inr ⟨n, q, hq, hrun, hle⟩
      · rintro (⟨hrun, hle⟩ | ⟨n, q, hq, hrun, hle⟩)
        · refine ⟨0, p, rfl, hrun, ?_⟩
          rwa [List.take_succ_cons, total_cons, if_pos hrun, List.take_zero, total, List.map_nil,
            List.sum_nil, add_zero]
        · exact ⟨n + 1, q, hq, hrun, by rwa [List.take_succ_cons, total_cons, ← add_assoc]⟩
    rw [hsplit, draw]
    by_cases hrun : (view p).state = .runnable
    · rw [if_pos hrun]
      split
      · next hle => exact iff_of_true rfl (.inl ⟨hrun, hle⟩)
      · next hle => rw [ih, or_iff_right fun h => hle h.2]
    · rw [if_neg hrun, ih, or_iff_right fun h => hrun h.1, if_neg hrun, add_zero]

theorem draw_runnable (h : draw view r c ps = some i) : i ∈ ps ∧ (view i).state = .runnable := by
  induction ps generalizing c with
  | nil => cases h
  | cons p ps ih =>
    rw [draw] at h
    split at h
    · next hrun =>
      split at h
      · cases h
        exact ⟨List.mem_cons_self, hrun⟩
      · exact (ih h).imp_left (List.mem_cons_of_mem p)
    · exact (ih h).imp_left (List.mem_cons_of_mem p)

/-- The values of `random(T)`, when it does not divide by zero. -/
theorem random_values {T : ℤ} (hT : T + 1 ≠ 0) (hT' : |T + 1| ≤ RAND_MAX + 1) :
    (∃ g, 0 ≤ g ∧ g ≤ RAND_MAX ∧ random g T = r) ↔ 0 ≤ r ∧ r < |T + 1| := by
  have hmod : ∀ g, random g T = g.tmod |T + 1| := by
    intro g
    rw [random, if_neg hT]
    rcases abs_choice (T + 1) with h | h
    · rw [h]
    · rw [h, Int.tmod_neg]
  constructor
  · rintro ⟨g, hg, -, rfl⟩
    rw [hmod]
    exact ⟨Int.tmod_nonneg _ hg, Int.tmod_lt_of_pos g (abs_pos.mpr hT)⟩
  · rintro ⟨hr, hr'⟩
    refine ⟨r, hr, by omega, ?_⟩
    rw [hmod]
    exact Int.tmod_eq_of_lt hr hr'

/-- A round that sums the tickets without overflow, takes no remainder by zero and dispatches a
RUNNABLE process. -/
structure Progress (view : ℕ → Proc) (g : ℤ) : Prop where
  no_overflow : ∀ p < NPROC, (view p).state = .runnable →
    int32 (maxTickets view (List.range p) + (view p).tickets) =
      maxTickets view (List.range p) + (view p).tickets
  divides : maxTickets view (List.range NPROC) + 1 ≠ 0
  dispatches : ∃ p < NPROC, (view p).state = .runnable ∧ runs (Round.lbs view view g).events = [p]

/-- No addition of the first loop overflows exactly if the partial sums fit. -/
theorem sumsFit_iff : (∀ p < NPROC, (view p).state = .runnable →
    int32 (maxTickets view (List.range p) + (view p).tickets) =
      maxTickets view (List.range p) + (view p).tickets) ↔ SumsFit view 0 (List.range NPROC) := by
  rw [sumsFit_range_iff]
  constructor
  · intro h m hm
    -- the loop has the exact sum so far
    have hexact : maxTickets view (List.range m) = total view (List.range m) ∧
        -2 ^ 31 ≤ total view (List.range m) ∧ total view (List.range m) < 2 ^ 31 := by
      induction m with
      | zero => exact ⟨rfl, by simp [total], by simp [total]⟩
      | succ m ih =>
        obtain ⟨hsum, hlow, hhigh⟩ := ih (Nat.le_of_lt hm)
        rw [total_range_succ]
        simp only [maxTickets, List.range_succ, List.foldl_append, List.foldl_cons, List.foldl_nil]
        rw [← maxTickets, hsum]
        by_cases hrun : (view m).state = .runnable
        · have hno := h m hm hrun
          rw [hsum, int32_eq] at hno
          rw [if_pos hrun, if_pos hrun, int32_of_fits (by omega) (by omega)]
          omega
        · rw [if_neg hrun, if_neg hrun, add_zero]
          exact ⟨rfl, hlow, hhigh⟩
    exact hexact.2
  · intro h p hp hrun
    have hprefix : SumsFit view 0 (List.range p) :=
      sumsFit_range_iff.mpr fun m hm => h m (hm.trans (Nat.le_of_lt hp))
    have hnext := h (p + 1) hp
    rw [total_range_succ, if_pos hrun] at hnext
    rw [maxTickets_eq hprefix]
    exact int32_of_fits hnext.1 hnext.2

/-- **Lottery progress**, whatever `genrand` returns, exactly if the partial sums of the tickets
fit an `int`, the total is not `-1`, and some partial sum reaches the largest value of `random`. -/
theorem lottery_progress_iff (view : ℕ → Proc) :
    (∀ g, 0 ≤ g → g ≤ RAND_MAX → Progress view g) ↔
      SumsFit view 0 (List.range NPROC) ∧ total view (List.range NPROC) ≠ -1 ∧
        ∃ p < NPROC, (view p).state = .runnable ∧
          |total view (List.range NPROC) + 1| - 1 ≤ total view (List.range (p + 1)) := by
  have hzero : (0 : ℤ) ≤ RAND_MAX := by decide
  by_cases hfit : SumsFit view 0 (List.range NPROC)
  · have hmax := maxTickets_eq hfit
    set T := total view (List.range NPROC) with hT
    by_cases hdiv : T = -1
    · refine iff_of_false (fun h => (h 0 (le_refl 0) hzero).divides ?_) fun h => h.2.1 hdiv
      rw [hmax, hdiv]
      decide
    · have hne : T + 1 ≠ 0 := fun h => hdiv (by omega)
      have hbound : |T + 1| ≤ RAND_MAX + 1 := by
        have := sumsFit_range_iff.mp hfit NPROC (le_refl _)
        unfold RAND_MAX
        rcases abs_choice (T + 1) with h | h <;> omega
      -- a draw is won when some partial sum has come to it
      have hwon : ∀ r, (∃ p < NPROC, (view p).state = .runnable ∧
            runs (lbsScan view r 0 (List.range NPROC)) = [p]) ↔
          ∃ p < NPROC, (view p).state = .runnable ∧ r ≤ total view (List.range (p + 1)) := by
        intro r
        rw [runs_lbsScan hfit]
        constructor
        · rintro ⟨p, -, -, hp⟩
          have hsome : (draw view r 0 (List.range NPROC)).isSome := by
            cases hd : draw view r 0 (List.range NPROC) with
            | none => rw [hd] at hp; cases hp
            | some _ => rfl
          obtain ⟨n, q, hq, hrun, hle⟩ := draw_isSome_iff.mp hsome
          obtain ⟨hn, rfl⟩ := List.getElem?_eq_some_iff.mp hq
          rw [List.length_range] at hn
          rw [List.getElem_range] at hrun
          rw [List.take_range, Nat.min_eq_left hn, zero_add] at hle
          exact ⟨n, hn, hrun, hle⟩
        · rintro ⟨p, hp, hrun, hle⟩
          have hsome : (draw view r 0 (List.range NPROC)).isSome := by
            refine draw_isSome_iff.mpr ⟨p, p, List.getElem?_range hp, hrun, ?_⟩
            rwa [List.take_range, Nat.min_eq_left hp, zero_add]
          obtain ⟨q, hq⟩ := Option.isSome_iff_exists.mp hsome
          obtain ⟨hmem, hqrun⟩ := draw_runnable hq
          exact ⟨q, List.mem_range.mp hmem, hqrun, by rw [hq]; rfl⟩
      constructor
      · intro h
        obtain ⟨g, hg, hg', hlast⟩ := (random_values (r := |T + 1| - 1) hne hbound).mpr
          ⟨by have := abs_pos.mpr hne; omega, by omega⟩
        obtain ⟨p, hp, hrun, hruns⟩ := (h g hg hg').dispatches
        rw [Round.events, hmax, hlast] at hruns
        exact ⟨hfit, hdiv, (hwon _).mp ⟨p, hp, hrun, hruns⟩⟩
      · rintro ⟨-, -, p, hp, hrun, hle⟩ g hg hg'
        refine ⟨sumsFit_iff.mpr hfit, hmax ▸ hne, ?_⟩
        have hdraw := (random_values (r := random g T) hne hbound).mp ⟨g, hg, hg', rfl⟩
        rw [Round.events, hmax]
        exact (hwon _).mpr ⟨p, hp, hrun, by omega⟩
  · refine iff_of_false (fun h => hfit ?_) fun h => hfit h.1
    exact sumsFit_iff.mp (h 0 (le_refl 0) hzero).no_overflow

/-- A table whose first two processes are RUNNABLE with the given tickets. -/
def twoHolders (first second : ℤ) (p : ℕ) : Proc :=
  if p = 0 then { Proc.zero with state := .runnable, tickets := first }
  else if p = 1 then { Proc.zero with state := .runnable, tickets := second }
  else .zero

/-- A total of `-1` gives a remainder by zero, one of `-5` a round that dispatches nobody,
and two large holdings a sum that wraps. -/
theorem lottery_stalls :
    maxTickets (twoHolders 0 (-1)) (List.range NPROC) + 1 = 0 ∧
      runs (Round.lbs (twoHolders 0 (-5)) (twoHolders 0 (-5)) 3).events = [] ∧
      maxTickets (twoHolders (2 ^ 31 - 1) 1) (List.range NPROC) = -2 ^ 31 := by
  decide +kernel

/-! ### Fairness -/

section Draws

variable {before after : List ℕ} (hi : (view i).state = .runnable) (hbefore : i ∉ before)
  (hpos : ∀ p ∈ before, (view p).state = .runnable → 1 ≤ (view p).tickets)
include hi hbefore hpos

/-- A draw above the counter falls to the process in whose tickets it lies. -/
theorem draw_eq_some (hafter : i ∉ after) (hc : c < r) :
    draw view r c (before ++ i :: after) = some i ↔
      c + total view before < r ∧ r ≤ c + total view before + (view i).tickets := by
  induction before generalizing c with
  | nil =>
    have hzero : total view [] = 0 := rfl
    rw [List.nil_append, draw, if_pos hi, hzero, add_zero]
    split
    · next hle => exact iff_of_true rfl ⟨hc, hle⟩
    · next hle => exact iff_of_false (fun h => hafter (draw_runnable h).1) fun h => hle h.2
  | cons p ps ih =>
    obtain ⟨hne, hps⟩ := not_or.mp (List.mem_cons.not.mp hbefore)
    have hpos' : ∀ q ∈ ps, (view q).state = .runnable → 1 ≤ (view q).tickets := fun q hq =>
      hpos q (List.mem_cons_of_mem p hq)
    rw [List.cons_append, draw, total_cons]
    split
    · next hrun =>
      rw [← add_assoc]
      split
      · next hle =>
        have hrest := total_nonneg fun q hq hq' => Int.le_of_lt (hpos' q hq hq')
        exact iff_of_false (fun h => hne (Option.some.inj h).symm) fun h => by omega
      · next hle => exact ih hps hpos' (not_le.mp hle)
    · rw [zero_add]
      exact ih hps hpos' hc

/-- A draw that the counter has reached falls to the first RUNNABLE process. -/
theorem draw_eq_some_of_le (hi' : 1 ≤ (view i).tickets) (hc : r ≤ c) :
    draw view r c (before ++ i :: after) = some i ↔ ∀ p ∈ before, (view p).state ≠ .runnable := by
  induction before generalizing c with
  | nil =>
    rw [List.nil_append, draw, if_pos hi, if_pos (by omega)]
    exact iff_of_true rfl fun p hp => absurd hp List.not_mem_nil
  | cons p ps ih =>
    obtain ⟨hne, hps⟩ := not_or.mp (List.mem_cons.not.mp hbefore)
    rw [List.cons_append, draw]
    split
    · next hrun =>
      have hp := hpos p List.mem_cons_self hrun
      rw [if_pos (by omega)]
      exact iff_of_false (fun h => hne (Option.some.inj h).symm)
        fun h => h p List.mem_cons_self hrun
    · next hrun =>
      rw [ih hps (fun q hq => hpos q (List.mem_cons_of_mem p hq)) hc, List.forall_mem_cons]
      exact ⟨fun h => ⟨hrun, h⟩, fun h => h.2⟩

end Draws

/-- The number of values of `random(T)` for which the loop selects process `i`. -/
noncomputable def wins (view : ℕ → Proc) (i : ℕ) : ℕ :=
  Set.ncard {r | (∃ g, 0 ≤ g ∧ g ≤ RAND_MAX ∧
      random g (maxTickets view (List.range NPROC)) = r) ∧
    runs (lbsScan view r 0 (List.range NPROC)) = [i]}

/-- The tickets after `low` are drawn, and `0` as well if `first`. -/
theorem ncard_draws {low n : ℤ} (hn : 0 ≤ n) {first : Prop} [Decidable first]
    (hlow : first → low = 0) :
    (Set.ncard {r | r = 0 ∧ first ∨ low < r ∧ r ≤ low + n} : ℤ) = n + if first then 1 else 0 := by
  split
  next hfirst =>
    have hset : {r | r = 0 ∧ first ∨ low < r ∧ r ≤ low + n} = (Finset.Icc 0 n : Set ℤ) := by
      ext r
      simp only [Set.mem_ofPred_eq, Finset.coe_Icc, Set.mem_Icc, hlow hfirst, hfirst, and_true]
      omega
    rw [hset, Set.ncard_coe_finset, Int.card_Icc]
    omega
  next hnot =>
    have hset : {r | r = 0 ∧ first ∨ low < r ∧ r ≤ low + n} = (Finset.Ioc low (low + n) : Set ℤ) := by
      ext r
      simp only [Set.mem_ofPred_eq, Finset.coe_Ioc, Set.mem_Ioc, hnot, and_false, false_or]
    rw [hset, Set.ncard_coe_finset, Int.card_Ioc]
    omega

/-- No RUNNABLE process is in a slot below `i`. -/
def Foremost (view : ℕ → Proc) (i : ℕ) : Prop := ∀ p < i, (view p).state ≠ .runnable

section Shares

variable (hpos : ∀ p < NPROC, (view p).state = .runnable → 1 ≤ (view p).tickets)
  (hT : total view (List.range NPROC) < RAND_MAX)
include hpos hT

/-- A process wins one draw for each of its tickets; the foremost also wins the draw `0`. -/
theorem wins_eq [Decidable (Foremost view i)] (hi : i < NPROC) (hrun : (view i).state = .runnable) :
    (wins view i : ℤ) = (view i).tickets + if Foremost view i then 1 else 0 := by
  obtain ⟨after, hrange⟩ := Scan.range_eq_append hi
  have hnodup : (List.range i ++ i :: after).Nodup := hrange ▸ List.nodup_range
  have hmem : ∀ p ∈ List.range NPROC, (view p).state = .runnable → 0 ≤ (view p).tickets :=
    fun p hp hrun => Int.le_of_lt (hpos p (List.mem_range.mp hp) hrun)
  have hfit : SumsFit view 0 (List.range NPROC) :=
    sumsFit_of_nonneg hmem (by unfold RAND_MAX at hT; omega)
  have hbefore : ∀ p ∈ List.range i, (view p).state = .runnable → 1 ≤ (view p).tickets :=
    fun p hp => hpos p ((List.mem_range.mp hp).trans hi)
  have hlow := total_nonneg fun p hp hrun => Int.le_of_lt (hbefore p hp hrun)
  have hone := hpos i hi hrun
  -- the tickets of `i` lie inside the range of the draws
  have hhigh : total view (List.range i) + (view i).tickets ≤ total view (List.range NPROC) := by
    have hrest : 0 ≤ total view after := total_nonneg fun p hp =>
      hmem p (hrange ▸ List.mem_append_right _ (List.mem_cons_of_mem i hp))
    rw [hrange, total_append, total_cons, if_pos hrun]
    omega
  have hiff : ∀ r, ((∃ g, 0 ≤ g ∧ g ≤ RAND_MAX ∧
      random g (maxTickets view (List.range NPROC)) = r) ∧
      runs (lbsScan view r 0 (List.range NPROC)) = [i]) ↔
      r = 0 ∧ Foremost view i ∨ total view (List.range i) < r ∧
        r ≤ total view (List.range i) + (view i).tickets := by
    intro r
    have hsum : 0 ≤ total view (List.range NPROC) := total_nonneg hmem
    have habs : |total view (List.range NPROC) + 1| = total view (List.range NPROC) + 1 :=
      abs_of_pos (by omega)
    rw [maxTickets_eq hfit, random_values (by omega) (by omega), habs, runs_lbsScan hfit, hrange,
      show ∀ o : Option ℕ, o.toList = [i] ↔ o = some i by rintro (_ | _) <;> simp]
    rcases lt_trichotomy r 0 with hr | rfl | hr
    · exact iff_of_false (fun h => by omega) fun h => by omega
    · rw [draw_eq_some_of_le hrun (by simp) hbefore hone (le_refl 0)]
      rw [hrange] at hhigh
      refine ⟨fun h => .inl ⟨rfl, fun p hp => h.2 p (List.mem_range.mpr hp)⟩, fun h => ⟨by omega, ?_⟩⟩
      exact fun p hp => (h.resolve_right (by omega)).2 p (List.mem_range.mp hp)
    · rw [draw_eq_some hrun (by simp) hbefore
        (List.nodup_cons.mp (List.nodup_append.mp hnodup).2.1).1 hr]
      rw [hrange] at hhigh
      exact ⟨fun h => .inr (by omega), fun h => by omega⟩
  rw [wins, Set.ext hiff]
  refine ncard_draws (by omega) fun hfirst => List.sum_eq_zero fun x hx => ?_
  obtain ⟨q, hq, rfl⟩ := List.mem_map.mp hx
  exact if_neg (hfirst q (List.mem_range.mp hq))

end Shares

/-- A draw more, for one of two processes, is out of proportion. -/
theorem fair_iff {a b : ℤ} (hb : 1 ≤ b) (extra : Prop) [Decidable extra] :
    (a + if extra then 1 else 0) * b = b * a ↔ ¬ extra := by
  split
  · next hextra =>
    rw [add_one_mul, mul_comm b a]
    exact iff_of_false (by omega) (not_not.mpr hextra)
  · next hextra =>
    rw [add_zero, mul_comm b a]
    exact iff_of_true rfl hextra

/-- **Lottery shares.** When every RUNNABLE process has a ticket and the total is below
`RAND_MAX`, two RUNNABLE processes win in proportion to their tickets exactly if neither of
them is the foremost, or they are the same. -/
theorem lottery_fair_iff (view : ℕ → Proc)
    (hpos : ∀ p < NPROC, (view p).state = .runnable → 1 ≤ (view p).tickets)
    (hT : total view (List.range NPROC) < RAND_MAX) (i j : ℕ) (hi : i < NPROC) (hj : j < NPROC)
    (hirun : (view i).state = .runnable) (hjrun : (view j).state = .runnable) :
    (wins view i : ℤ) * (view j).tickets = wins view j * (view i).tickets ↔
      i = j ∨ ¬ Foremost view i ∧ ¬ Foremost view j := by
  classical
  rw [wins_eq hpos hT hi hirun, wins_eq hpos hT hj hjrun]
  rcases lt_trichotomy i j with hlt | rfl | hlt
  · have hnot : ¬ Foremost view j := fun h => h i hlt hirun
    rw [if_neg hnot, add_zero, fair_iff (hpos j hj hjrun)]
    exact ⟨fun h => .inr ⟨h, hnot⟩, fun h => (h.resolve_left hlt.ne).1⟩
  · exact iff_of_true rfl (.inl rfl)
  · have hnot : ¬ Foremost view i := fun h => h j hlt hjrun
    rw [if_neg hnot, add_zero, eq_comm, fair_iff (hpos i hi hirun)]
    exact ⟨fun h => .inr ⟨hnot, h⟩, fun h => (h.resolve_left hlt.ne').2⟩

/-- Two processes behind the foremost one. -/
def threeHolders (p : ℕ) : Proc :=
  if p < 3 then { Proc.zero with state := .runnable, tickets := p + 1 } else .zero

theorem lottery_fair_iff_threeHolders :
    (wins threeHolders 1 : ℤ) * 3 = wins threeHolders 2 * 2 := by
  refine (lottery_fair_iff threeHolders (fun p hp => ?_) (by decide +kernel) 1 2 (by decide)
    (by decide) rfl rfl).mpr (.inr ⟨fun h => h 0 (by decide) rfl, fun h => h 0 (by decide) rfl⟩)
  revert p
  decide +kernel

/-- Two holders of one ticket each: the first wins two of the three draws. -/
theorem lottery_unfair :
    (wins (twoHolders 1 1) 0 : ℤ) * 1 ≠ wins (twoHolders 1 1) 1 * 1 := by
  classical
  have hpos : ∀ p < NPROC, (twoHolders 1 1 p).state = .runnable → 1 ≤ (twoHolders 1 1 p).tickets := by
    decide +kernel
  have hT : total (twoHolders 1 1) (List.range NPROC) < RAND_MAX := by decide +kernel
  have hfirst : Foremost (twoHolders 1 1) 0 := fun p hp => absurd hp (Nat.not_lt_zero p)
  have hsecond : ¬ Foremost (twoHolders 1 1) 1 := fun h => h 0 (by decide) rfl
  rw [wins_eq hpos hT (by decide) rfl, wins_eq hpos hT (by decide) rfl, if_pos hfirst,
    if_neg hsecond]
  decide

end Xv6.Sched
