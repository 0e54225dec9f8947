import Mathlib.Data.List.Basic
import Mathlib.Data.List.Perm.Basic

/-!
Ring buffers: `N` slots read as a list from one slot on, wrapping at the end.

`slot N s k` is the slot `k` places after `s`; the entries of the buffer from
`s` on are `window N f s n`. Positions are compared and subtracted, never
divided, so that facts about them are linear arithmetic for any `N`. `shiftOut` is
the in-place deletion that closes the gap by shifting every later entry one slot
towards the front. The last section is about deletions that know an entry by a key
which other entries may share.
-/

namespace Xv6.Ring

open Function (update update_of_ne update_self)

variable {α : Type*} {N s n k : ℕ}

/-! ### Slots -/

/-- The slot after `i`. -/
def next (N i : ℕ) : ℕ := if i + 1 = N then 0 else i + 1

/-- The slot `k` places after `s`. -/
def slot (N s k : ℕ) : ℕ := if s + k < N then s + k else s + k - N

/-- The number of slots from `s` up to, but not including, `t`. -/
def span (N s t : ℕ) : ℕ := if s ≤ t then t - s else t + N - s

theorem next_lt (hs : s < N) : next N s < N := by
  unfold next; split <;> omega

theorem mod_eq_next (hs : s < N) : (s + 1) % N = next N s := by
  unfold next
  split
  · next h => rw [h, Nat.mod_self]
  · exact Nat.mod_eq_of_lt (by omega)

theorem slot_zero (hs : s < N) : slot N s 0 = s := by simp [slot, hs]

theorem slot_succ (hk : k < N) : slot N s (k + 1) = slot N (next N s) k := by
  unfold slot next; split_ifs <;> omega

theorem slot_inj {j : ℕ} (hj : j < N) (hk : k < N) :
    slot N s j = slot N s k ↔ j = k := by
  unfold slot; split_ifs <;> omega

theorem span_lt {t : ℕ} (hs : s < N) (ht : t < N) : span N s t < N := by
  unfold span; split <;> omega

theorem slot_span {t : ℕ} (hs : s < N) (ht : t < N) : slot N s (span N s t) = t := by
  unfold slot span; split_ifs <;> omega

theorem span_next {t : ℕ} (hs : s < N) (ht : t < N) (hn : s ≠ t) :
    span N s t = span N (next N s) t + 1 := by
  unfold span next; split_ifs <;> omega

/-! ### Windows -/

/-- The `n` entries of the buffer from slot `s` on. -/
def window (N : ℕ) (f : ℕ → α) (s n : ℕ) : List α :=
  (List.range n).map fun k => f (slot N s k)

@[simp] theorem window_zero (f : ℕ → α) : window N f s 0 = [] := rfl

@[simp] theorem length_window (f : ℕ → α) : (window N f s n).length = n := by
  simp [window]

theorem window_concat (f : ℕ → α) :
    window N f s (n + 1) = window N f s n ++ [f (slot N s n)] := by
  simp [window, List.range_succ]

theorem window_cons (hs : s < N) (hn : n < N) (f : ℕ → α) :
    window N f s (n + 1) = f s :: window N f (next N s) n := by
  simp only [window, List.range_succ_eq_map, List.map_cons, List.map_map, slot_zero hs]
  refine congrArg _ (List.map_congr_left fun k hk => ?_)
  simp only [Function.comp_apply, Nat.succ_eq_add_one]
  rw [slot_succ (by have := List.mem_range.mp hk; omega)]

theorem window_congr {f g : ℕ → α} (h : ∀ k < n, f (slot N s k) = g (slot N s k)) :
    window N f s n = window N g s n :=
  List.map_congr_left fun k hk => h k (List.mem_range.mp hk)

/-- A store behind the window is not seen in it. -/
theorem window_update (hn : n ≤ k) (hk : k < N) (f : ℕ → α) (x : α) :
    window N (update f (slot N s k) x) s n = window N f s n := by
  refine window_congr fun j hj => update_of_ne ?_ _ _
  rw [Ne, slot_inj (by omega) hk]
  omega

/-! ### Deletion by shifting -/

/-- Walk from `curr` to `stop`; from the first entry that `hit` holds of, copy
into every slot the entry after it. `fuel` bounds the number of slots walked. -/
def shiftOut (N : ℕ) (hit : α → Bool) (stop : ℕ) : ℕ → ℕ → Bool → (ℕ → α) → ℕ → α
  | 0, _, _, f => f
  | fuel + 1, curr, found, f =>
    if curr = stop then f
    else
      let found := found || hit (f curr)
      let f := if found then update f curr (f ((curr + 1) % N)) else f
      shiftOut N hit stop fuel ((curr + 1) % N) found f

section ShiftOut

variable {hit : α → Bool} {stop fuel : ℕ}

/-- The walk leaves alone what lies outside the slots from `curr` to `stop`. -/
theorem shiftOut_of_notMem {found : Bool} (hs : s < N) (hstop : stop < N) (f : ℕ → α) {i : ℕ}
    (hi : ∀ k < span N s stop, i ≠ slot N s k) :
    shiftOut N hit stop fuel s found f i = f i := by
  induction fuel generalizing s found f with
  | zero => rfl
  | succ fuel ih =>
    unfold shiftOut
    split
    · rfl
    · next hne =>
      have hspan := span_next hs hstop hne
      have hlt := span_lt hs hstop
      have hi0 : i ≠ s := slot_zero hs ▸ hi 0 (by omega)
      rw [mod_eq_next hs, ih (next_lt hs)]
      · split
        · exact update_of_ne hi0 _ _
        · rfl
      · intro k hk
        rw [← slot_succ (by omega)]
        exact hi (k + 1) (by omega)

/-- Once the entry is found, the whole rest moves one slot down. -/
theorem window_shiftOut_true (hit : α → Bool) (hs : s < N) (hstop : stop < N) (hfuel : span N s stop ≤ fuel)
    (f : ℕ → α) :
    window N (shiftOut N hit stop fuel s true f) s (span N s stop) =
      window N f (next N s) (span N s stop) := by
  induction fuel generalizing s f with
  | zero => simp [Nat.le_zero.mp hfuel]
  | succ fuel ih =>
    by_cases hne : s = stop
    · simp [hne, span]
    · have hspan := span_next hs hstop hne
      have hlt := span_lt hs hstop
      have hnext := next_lt hs
      set n := span N (next N s) stop with hn
      set f' := update f s (f (next N s)) with hf'
      have hstep : shiftOut N hit stop (fuel + 1) s true f =
          shiftOut N hit stop fuel (next N s) true f' := by
        simp [shiftOut, hne, mod_eq_next hs, hf']
      -- `s` itself lies `N - 1` places after the next slot, outside the rest of the walk.
      have hs' : s = slot N (next N s) (N - 1) := by
        unfold slot next; split_ifs <;> omega
      have hself : shiftOut N hit stop fuel (next N s) true f' s = f (next N s) := by
        rw [shiftOut_of_notMem hnext hstop, hf', update_self]
        intro k hk heq
        have := (slot_inj (by omega) (by omega)).mp (hs'.symm.trans heq)
        omega
      rw [hspan, window_cons hs (by omega), hstep, hself, ih hnext (by omega),
        window_cons hnext (by omega)]
      refine congrArg _ (window_congr fun k hk => update_of_ne ?_ _ _)
      rw [← slot_succ (by omega)]
      intro heq
      have := (slot_inj (by omega) (by omega)).mp (heq.trans hs')
      omega

/-- **Deletion.** When some entry up to `stop` is hit, the walk removes the first
such entry and keeps the order of all others. -/
theorem window_shiftOut (hs : s < N) (hstop : stop < N) (hfuel : span N s stop ≤ fuel)
    (f : ℕ → α) (hex : ∃ x ∈ window N f s (span N s stop), hit x = true) :
    window N (shiftOut N hit stop fuel s false f) s (span N s stop - 1) =
      (window N f s (span N s stop)).eraseP hit := by
  induction fuel generalizing s f with
  | zero => simp [Nat.le_zero.mp hfuel] at hex
  | succ fuel ih =>
    by_cases hne : s = stop
    · simp [hne, span] at hex
    · have hspan := span_next hs hstop hne
      have hlt := span_lt hs hstop
      have hnext := next_lt hs
      set n := span N (next N s) stop with hn
      rw [hspan, window_cons hs (by omega)] at hex ⊢
      rw [Nat.add_sub_cancel, List.eraseP_cons]
      by_cases hhit : hit (f s) = true
      · -- Here the shift starts: the result is that of the walk with the flag set.
        have hstep : shiftOut N hit stop (fuel + 1) s false f =
            shiftOut N hit stop (fuel + 1) s true f := by
          simp [shiftOut, hhit]
        have htrue := window_shiftOut_true hit hs hstop hfuel f
        rw [hspan, window_concat, window_concat] at htrue
        simpa [hhit, hstep] using (List.append_inj' htrue rfl).1
      · have htail : ∃ x ∈ window N f (next N s) n, hit x = true := by
          obtain ⟨x, hx, hxhit⟩ := hex
          rcases List.mem_cons.mp hx with rfl | hx
          · exact absurd hxhit hhit
          · exact ⟨x, hx, hxhit⟩
        have hpos : 0 < n := by
          obtain ⟨x, hx, -⟩ := htail
          have := List.length_pos_of_mem hx
          simpa using this
        have hstep : shiftOut N hit stop (fuel + 1) s false f =
            shiftOut N hit stop fuel (next N s) false f := by
          simp [shiftOut, hne, mod_eq_next hs, hhit]
        have hself : shiftOut N hit stop fuel (next N s) false f s = f s := by
          refine shiftOut_of_notMem hnext hstop f fun k hk heq => ?_
          have hs' : s = slot N (next N s) (N - 1) := by
            unfold slot next; split_ifs <;> omega
          have := (slot_inj (by omega) (by omega)).mp (hs'.symm.trans heq)
          omega
        obtain ⟨m, hm⟩ : ∃ m, n = m + 1 := ⟨n - 1, by omega⟩
        have hrec := ih hnext (by omega) f htail
        rw [← hn, hm, Nat.add_sub_cancel] at hrec
        rw [hm, window_cons hs (by omega), hstep, hself, hrec]
        simp [hhit]

end ShiftOut

/-! ### Deletion by key -/

/-- Some entries are to go, and among the entries with one key those come first. The keys of the
entries to go are removed one after another, in any order: removing the first entry with such a
key leaves the entries that are to stay, and of those to go the ones with the other keys. -/
theorem eraseP_key {κ : Type*} [DecidableEq κ] {key : α → κ} {hit : α → Bool} {l : List α}
    {v : κ} {vs : List κ}
    (order : l.Pairwise fun a b => key a = key b → hit b = true → hit a = true)
    (perm : (v :: vs).Perm ((l.filter hit).map key)) :
    (∃ x ∈ l, key x = v) ∧
      vs.Perm (((l.eraseP fun x => decide (key x = v)).filter hit).map key) ∧
      (l.eraseP fun x => decide (key x = v)).filter (fun x => !hit x) = l.filter fun x => !hit x := by
  obtain ⟨x, hx, hxv⟩ := List.mem_map.mp (perm.subset List.mem_cons_self)
  obtain ⟨hxl, hxhit⟩ := List.mem_filter.mp hx
  obtain ⟨a, l₁, l₂, hbefore, ha, hl, herase⟩ :=
    List.exists_of_eraseP (p := fun x => decide (key x = v)) hxl (by simpa using hxv)
  have hav : key a = v := by simpa using ha
  -- the first element with the key comes before one that is to go, or is that one
  have hahit : hit a = true := by
    rw [hl] at hxl order
    rcases List.mem_append.mp hxl with hx₁ | hx₂
    · exact absurd hxv (by simpa using hbefore x hx₁)
    · rcases List.mem_cons.mp hx₂ with rfl | hx₂
      · exact hxhit
      · have hpair := (List.pairwise_cons.mp (List.pairwise_append.mp order).2.1).1 x hx₂
        exact hpair (hav.trans hxv.symm) hxhit
  refine ⟨⟨x, hxl, hxv⟩, ?_, ?_⟩
  · rw [hl, List.filter_append, List.filter_cons_of_pos hahit, List.map_append, List.map_cons,
      hav] at perm
    rw [herase, List.filter_append, List.map_append]
    exact (perm.trans List.perm_middle).cons_inv
  · rw [herase, hl, List.filter_append, List.filter_append, List.filter_cons_of_neg (by simp [hahit])]

end Xv6.Ring
