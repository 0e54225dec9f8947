import Mathlib.Data.List.Basic

/-!
Sequences of writes to an address space.

A store maps addresses to values; `applyAll` performs a list of writes in
order. The lemmas are what redo logging rests on: a store is changed only where
it is written, and where it is written the old contents do not matter, so a
sequence may be interrupted and replayed from its start.
-/

namespace Xv6.Writes

open Function (update update_of_ne update_self)

variable {Addr Val : Type*} [DecidableEq Addr]

/-- Perform the writes of a list, first to last. -/
def applyAll (store : Addr → Val) : List (Addr × Val) → Addr → Val
  | [] => store
  | w :: ws => applyAll (update store w.1 w.2) ws

@[simp] theorem applyAll_nil (store : Addr → Val) : applyAll store [] = store := rfl

theorem applyAll_cons (store : Addr → Val) (w : Addr × Val) (ws : List (Addr × Val)) :
    applyAll store (w :: ws) = applyAll (update store w.1 w.2) ws := rfl

theorem applyAll_append (store : Addr → Val) (ws vs : List (Addr × Val)) :
    applyAll store (ws ++ vs) = applyAll (applyAll store ws) vs := by
  induction ws generalizing store with
  | nil => rfl
  | cons w ws ih => exact ih (update store w.1 w.2)

/-- The last write decides: appending one write is one update. -/
theorem applyAll_concat (store : Addr → Val) (ws : List (Addr × Val)) (w : Addr × Val) :
    applyAll store (ws ++ [w]) = update (applyAll store ws) w.1 w.2 := by
  rw [applyAll_append]
  rfl

/-- An address no write names keeps its value. -/
theorem applyAll_of_notMem {a : Addr} {ws : List (Addr × Val)} (store : Addr → Val)
    (h : a ∉ ws.map Prod.fst) : applyAll store ws a = store a := by
  induction ws generalizing store with
  | nil => rfl
  | cons w ws ih =>
    rw [List.map_cons, List.mem_cons, not_or] at h
    rw [applyAll_cons, ih _ h.2, update_of_ne h.1]

/-- A written address holds the same value whatever the store held before. -/
theorem applyAll_of_mem {a : Addr} {ws : List (Addr × Val)} (store store' : Addr → Val)
    (h : a ∈ ws.map Prod.fst) : applyAll store ws a = applyAll store' ws a := by
  induction ws generalizing store store' with
  | nil => cases h
  | cons w ws ih =>
    rw [applyAll_cons, applyAll_cons]
    by_cases later : a ∈ ws.map Prod.fst
    · exact ih _ _ later
    · -- `w` is the only write to `a`, and both stores take its value.
      have here : a = w.1 := (List.mem_cons.mp h).resolve_right later
      rw [applyAll_of_notMem _ later, applyAll_of_notMem _ later, here,
        update_self, update_self]

/-- Two stores that agree off the written addresses give the same result. -/
theorem applyAll_congr {a : Addr} {ws : List (Addr × Val)} {store store' : Addr → Val}
    (h : a ∉ ws.map Prod.fst → store a = store' a) :
    applyAll store ws a = applyAll store' ws a := by
  by_cases mem : a ∈ ws.map Prod.fst
  · exact applyAll_of_mem _ _ mem
  · rw [applyAll_of_notMem _ mem, applyAll_of_notMem _ mem, h mem]

/-- With one write per address, each written address holds its own value. -/
theorem applyAll_of_nodup {ws : List (Addr × Val)} (nodup : (ws.map Prod.fst).Nodup)
    (store : Addr → Val) {w : Addr × Val} (hw : w ∈ ws) : applyAll store ws w.1 = w.2 := by
  induction ws generalizing store with
  | nil => cases hw
  | cons v ws ih =>
    rw [List.map_cons, List.nodup_cons] at nodup
    rw [applyAll_cons]
    rcases List.mem_cons.mp hw with rfl | later
    · rw [applyAll_of_notMem _ nodup.1, update_self]
    · exact ih nodup.2 _ later

end Xv6.Writes
