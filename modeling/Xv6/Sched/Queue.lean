import Mathlib.Data.Int.Basic
import Xv6.Param
import Xv6.Lib.Ring

/-!
`struct priority_queue` of the MLFQ scheduler: a ring of `NPROC + 1` slots.

The entries from `front` up to `back` are the queue's list (`toList`); `length` is
kept beside them. Each operation is what `enqueue`, `dequeue` and `delqueue` do to
the queue itself, and on a well-formed queue it is the list operation its name
says. Entries are slots of the process table.
-/

namespace Xv6.Sched

open Function (update)
open Xv6.Ring (span span_lt)

structure Queue where
  front : ℕ
  back : ℕ
  length : ℤ
  procs : ℕ → ℕ

namespace Queue

/-- A queue of the zero-initialised array `queues`. -/
def zero : Queue := ⟨0, 0, 0, fun _ => 0⟩

/-- `enqueue`: store at `back` and advance it. -/
def push (q : Queue) (p : ℕ) : Queue where
  front := q.front
  back := Ring.next (NPROC + 1) q.back
  length := q.length + 1
  procs := update q.procs q.back p

/-- `dequeue`: advance `front`. -/
def pop (q : Queue) : Queue where
  front := Ring.next (NPROC + 1) q.front
  back := q.back
  length := q.length - 1
  procs := q.procs

/-- `delqueue`: from the first entry with the given pid on, every entry is
overwritten by the next, and `back` moves one slot back. The loop walks from
`front` to `back`, which is less than one turn of the ring. -/
def remove (q : Queue) (pidOf : ℕ → ℤ) (pid : ℤ) : Queue where
  front := q.front
  back := if q.back = 0 then NPROC else q.back - 1
  length := q.length - 1
  procs := Ring.shiftOut (NPROC + 1) (fun p => decide (pidOf p = pid)) q.back (NPROC + 1)
    q.front false q.procs

/-- `q.procs[q.front]`, as the scheduler reads it. -/
def head (q : Queue) : ℕ := q.procs q.front

/-- The entries from `front` up to `back`. -/
def toList (q : Queue) : List ℕ :=
  Ring.window (NPROC + 1) q.procs q.front (span (NPROC + 1) q.front q.back)

/-- The indices are slots of the ring and `length` counts the entries. -/
structure Ok (q : Queue) : Prop where
  front_lt : q.front < NPROC + 1
  back_lt : q.back < NPROC + 1
  length_eq : q.length = span (NPROC + 1) q.front q.back

@[simp] theorem toList_zero : zero.toList = [] := rfl

theorem zero_ok : zero.Ok := ⟨by decide, by decide, rfl⟩

namespace Ok

variable {q : Queue}

variable (ok : q.Ok)
include ok

theorem length_toList : q.length = q.toList.length := by
  rw [ok.length_eq, toList, Ring.length_window]

/-- A queue with room is not full. -/
theorem length_ne (room : q.toList.length < NPROC) : q.length ≠ NPROC := by
  rw [ok.length_toList]
  exact_mod_cast Nat.ne_of_lt room

theorem length_ne_zero {p : ℕ} {l : List ℕ} (h : q.toList = p :: l) : q.length ≠ 0 := by
  rw [ok.length_toList, h, List.length_cons]
  omega

/-- `length` is the distance from `front` to `back` around the ring. -/
theorem length_eq_emod : q.length = ((q.back : ℤ) - q.front) % (NPROC + 1) := by
  have hf := ok.front_lt
  have hb := ok.back_lt
  rw [ok.length_eq]
  unfold span
  unfold NPROC at *
  split <;> omega

theorem head_eq {p : ℕ} {l : List ℕ} (h : q.toList = p :: l) : q.head = p := by
  have hlt := span_lt ok.front_lt ok.back_lt
  have hpos : span (NPROC + 1) q.front q.back = l.length + 1 := by
    simpa [toList] using congrArg List.length h
  rw [toList, hpos, Ring.window_cons ok.front_lt (by omega)] at h
  exact (List.cons.inj h).1

theorem push (p : ℕ) (room : q.toList.length < NPROC) :
    (q.push p).Ok ∧ (q.push p).toList = q.toList ++ [p] := by
  have hf := ok.front_lt
  have hb := ok.back_lt
  have hlen := ok.length_eq
  have hspan : span (NPROC + 1) q.front (Ring.next (NPROC + 1) q.back) =
      span (NPROC + 1) q.front q.back + 1 := by
    rw [toList, Ring.length_window] at room
    unfold span Ring.next at *
    split_ifs at * <;> omega
  refine ⟨⟨hf, Ring.next_lt hb, ?_⟩, ?_⟩
  · simp only [Queue.push, hspan, hlen]
    push_cast
    rfl
  · simp only [toList, Queue.push, hspan]
    have hslot := Ring.slot_span hf hb
    have hlt := span_lt hf hb
    rw [Ring.window_concat]
    nth_rewrite 1 [← hslot]
    rw [Ring.window_update le_rfl hlt, hslot, Function.update_self]

theorem pop {p : ℕ} {l : List ℕ} (h : q.toList = p :: l) :
    q.pop.Ok ∧ q.pop.toList = l := by
  have hf := ok.front_lt
  have hb := ok.back_lt
  have hne : q.front ≠ q.back := by
    intro heq
    simp [toList, heq, span] at h
  have hspan := Ring.span_next hf hb hne
  have hlt := span_lt hf hb
  refine ⟨⟨Ring.next_lt hf, hb, ?_⟩, ?_⟩
  · simp only [Queue.pop, ok.length_eq, hspan]
    push_cast
    omega
  · rw [toList, hspan, Ring.window_cons hf (by omega)] at h
    exact (List.cons.inj h).2

theorem remove (pidOf : ℕ → ℤ) {pid : ℤ} (mem : ∃ p ∈ q.toList, pidOf p = pid) :
    (q.remove pidOf pid).Ok ∧
      (q.remove pidOf pid).toList = q.toList.eraseP (fun p => decide (pidOf p = pid)) := by
  have hf := ok.front_lt
  have hb := ok.back_lt
  have hne : q.front ≠ q.back := by
    intro heq
    simp [toList, heq, span] at mem
  have hspan : span (NPROC + 1) q.front (if q.back = 0 then NPROC else q.back - 1) =
      span (NPROC + 1) q.front q.back - 1 := by
    unfold span
    split_ifs <;> omega
  have hpos : 0 < span (NPROC + 1) q.front q.back := by
    unfold span
    split_ifs <;> omega
  have hlt := span_lt hf hb
  refine ⟨⟨hf, ?_, ?_⟩, ?_⟩
  · simp only [Queue.remove]
    split_ifs <;> omega
  · simp only [Queue.remove, hspan, ok.length_eq]
    omega
  · simp only [toList, Queue.remove, hspan]
    exact Ring.window_shiftOut hf hb (Nat.le_of_lt hlt) q.procs (by simpa [toList] using mem)

end Ok

end Queue

end Xv6.Sched
