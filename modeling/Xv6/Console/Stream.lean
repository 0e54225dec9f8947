import Xv6.Console.Model

/-!
The line discipline of the console.

`Line` says what the console is for: a line that is being edited, and what has been
committed of the input. Backspace and kill-line act on the line being edited only; a newline,
a ^D or a full buffer commits it; a character that finds the buffer full is dropped.

* `Cons.Shows`: the three indices and the ring stand for a `Line`.
* `Call.Ok`: what a call has got so far.
* `Serves`: what an iteration of a call does, in terms of what waits in the buffer.
* `console_line_discipline`: what readers get, in whatever order their calls interleave with
  the input, is the committed input.
-/

namespace Xv6.Console

open Function (update update_of_ne update_self)
open Run (ReachableUnder relOf execAll)

/-! ### What the console is for -/

structure Line where
  /-- all that was ever committed -/
  committed : List UInt8
  /-- what no reader has taken yet of it -/
  pending : List UInt8
  edit : List UInt8

namespace Line

def used (l : Line) : ℕ := l.pending.length + l.edit.length

def commit (l : Line) : Line :=
  { committed := l.committed ++ l.edit, pending := l.pending ++ l.edit, edit := [] }

/-- A character is appended to the line. -/
def type (l : Line) (c : UInt8) : Line :=
  let l' := { l with edit := l.edit ++ [c] }
  if c = newline ∨ c = C 'D' ∨ l'.used = INPUT_BUF_SIZE then l'.commit else l'

def input (l : Line) (c : UInt8) : Line :=
  if c = C 'P' then l
  else if c = C 'U' then { l with edit := [] }
  else if c = C 'H' ∨ c = delete then { l with edit := l.edit.dropLast }
  else if c = 0 ∨ l.used = INPUT_BUF_SIZE then l
  else l.type (cook c)

def event (l : Line) : Event → Line
  | .input c => l.input c
  | .byte _ _ => { l with pending := l.pending.tail }
  | .eof _ => { l with pending := l.pending.tail }

end Line

/-- The line after a history. -/
def lineOf (history : List Event) : Line := history.foldl Line.event ⟨[], [], []⟩

/-- The character that an event takes from the buffer: a ^D at an end of file. -/
def Event.taken : Event → Option UInt8
  | .input _ => none
  | .byte _ c => some c
  | .eof _ => some (C 'D')

/-- The byte that an event delivers to call `k`. -/
def Event.byteOf (k : ℕ) : Event → Option UInt8
  | .byte k' c => if k' = k then some c else none
  | _ => none

/-- What readers have taken. -/
def stream (history : List Event) : List UInt8 := history.filterMap Event.taken

/-- The bytes that call `k` got. -/
def bytesOf (k : ℕ) (history : List Event) : List UInt8 := history.filterMap (Event.byteOf k)

theorem lineOf_concat (history : List Event) (event : Event) :
    lineOf (history ++ [event]) = (lineOf history).event event := by
  simp only [lineOf, List.foldl_append, List.foldl_cons, List.foldl_nil]

theorem stream_concat (history : List Event) (event : Event) :
    stream (history ++ [event]) = stream history ++ stream [event] :=
  List.filterMap_append

theorem bytesOf_concat (k : ℕ) (history : List Event) (event : Event) :
    bytesOf k (history ++ [event]) = bytesOf k history ++ bytesOf k [event] :=
  List.filterMap_append

theorem bytesOf_byte (k : ℕ) (history : List Event) (c : UInt8) :
    bytesOf k (history ++ [.byte k c]) = bytesOf k history ++ [c] := by
  rw [bytesOf_concat]
  simp only [bytesOf, List.filterMap_cons, Event.byteOf, if_true, List.filterMap_nil]

theorem bytesOf_eof (k k' : ℕ) (history : List Event) :
    bytesOf k (history ++ [.eof k']) = bytesOf k history :=
  (bytesOf_concat k history _).trans (List.append_nil _)

theorem bytesOf_input (k : ℕ) (history : List Event) (c : UInt8) :
    bytesOf k (history ++ [.input c]) = bytesOf k history :=
  (bytesOf_concat k history _).trans (List.append_nil _)

theorem count_eof (k : ℕ) (history : List Event) :
    (history ++ [Event.eof k]).count (.eof k) = history.count (.eof k) + 1 := by
  rw [List.count_append, List.count_singleton_self]

theorem count_of_ne {k : ℕ} {event : Event} (hne : event ≠ .eof k) (history : List Event) :
    (history ++ [event]).count (.eof k) = history.count (.eof k) := by
  rw [List.count_append, List.count_eq_zero.mpr fun hmem => hne (List.mem_singleton.mp hmem).symm,
    Nat.add_zero]

/-! ### The ring and its indices -/

theorem wraps : Ring.Wraps INPUT_BUF_SIZE 32 := ⟨by decide, by decide, by decide⟩

/-- The ring and its indices stand for a line. -/
structure Cons.Shows (s : Cons) (l : Line) : Prop where
  used_le : s.used ≤ INPUT_BUF_SIZE
  all : Ring.between INPUT_BUF_SIZE s.buf s.r s.e = l.pending ++ l.edit
  mark : (s.w - s.r).toNat = l.pending.length
  /-- a newline is committed at once -/
  line : newline ∉ l.edit

namespace Cons.Shows

variable {s : Cons} {l : Line}

section

variable (h : s.Shows l)
include h

theorem used_eq : s.used = l.used := by
  rw [Line.used, ← List.length_append, ← h.all, Ring.length_between]
  rfl

theorem mark_le : (s.w - s.r).toNat ≤ (s.e - s.r).toNat := by
  have hused := h.used_eq
  unfold Cons.used Line.used at hused
  rw [h.mark, hused]
  exact Nat.le_add_right _ _

theorem pending : Ring.between INPUT_BUF_SIZE s.buf s.r s.w = l.pending := by
  rw [Ring.between_take h.mark_le, h.all, h.mark, List.take_left]

/-- The length of the line being edited. -/
theorem length_edit : (s.e - s.w).toNat = l.edit.length := by
  have hused := h.used_eq
  have hmark := h.mark
  unfold Cons.used Line.used at hused
  bv_omega

theorem edit_nil : l.edit = [] ↔ s.e = s.w := by
  rw [← List.length_eq_zero_iff, ← h.length_edit, Ring.dist_eq_zero, eq_comm]

/-- The last character of the line being edited is the last one in the ring. -/
theorem edit_concat (hne : s.e ≠ s.w) :
    l.edit = l.edit.dropLast ++ [s.last] ∧ s.erase.Shows { l with edit := l.edit.dropLast } := by
  have hedit : l.edit ≠ [] := fun hnil => hne (h.edit_nil.mp hnil)
  have hre : s.r ≠ s.e := by
    intro he
    have hall := h.all
    rw [he, Ring.between_self] at hall
    exact hedit (List.append_eq_nil_iff.mp hall.symm).2
  have hback := Ring.between_concat wraps hre h.used_le s.buf
  rw [h.all, ← List.dropLast_append_getLast hedit, ← List.append_assoc] at hback
  obtain ⟨hfront, hlast⟩ := List.append_inj' hback rfl
  have hlast' : l.edit.getLast hedit = s.last := List.singleton_inj.mp hlast
  refine ⟨?_, ?_, hfront.symm, h.mark, ?_⟩
  · rw [← hlast', List.dropLast_append_getLast hedit]
  · have hlen := congrArg List.length hfront
    rw [Ring.length_between, List.length_append, List.length_dropLast] at hlen
    have hle := h.used_le
    rw [h.used_eq] at hle
    unfold Line.used at hle
    show (s.e - 1#32 - s.r).toNat ≤ INPUT_BUF_SIZE
    omega
  · exact fun hmem => h.line (List.dropLast_subset _ hmem)

theorem put (hroom : s.used < INPUT_BUF_SIZE) {c : UInt8} :
    Ring.between INPUT_BUF_SIZE (s.put c).buf (s.put c).r (s.put c).e =
      l.pending ++ (l.edit ++ [c]) ∧ (s.put c).used = s.used + 1 := by
  constructor
  · rw [← List.append_assoc, ← h.all]
    exact Ring.between_put wraps hroom s.buf c
  · exact Ring.dist_succ wraps hroom

/-- An ordinary character. -/
theorem type (hroom : s.used < INPUT_BUF_SIZE) (c : UInt8) :
    (if c = newline ∨ c = C 'D' ∨ (s.put c).used = INPUT_BUF_SIZE then (s.put c).commit
      else s.put c).Shows (l.type c) := by
  obtain ⟨hall, hused⟩ := h.put hroom (c := c)
  have hline : ({ l with edit := l.edit ++ [c] } : Line).used = (s.put c).used := by
    rw [hused, h.used_eq]
    simp only [Line.used, List.length_append, List.length_singleton]
    omega
  unfold Line.type
  dsimp only
  rw [hline]
  split
  case isTrue =>
    refine ⟨?_, ?_, ?_, List.not_mem_nil⟩
    · show (s.put c).used ≤ _
      omega
    · rw [Line.commit, List.append_nil]
      exact hall
    · show (s.put c).used = (l.pending ++ (l.edit ++ [c])).length
      rw [← hline]
      exact List.length_append.symm
  case isFalse hc =>
    refine ⟨by omega, hall, h.mark, ?_⟩
    intro hmem
    rcases List.mem_append.mp hmem with hmem | hmem
    · exact h.line hmem
    · exact hc (.inl (List.mem_singleton.mp hmem).symm)

theorem killLoop : (Cons.killLoop l.edit.length s).Shows { l with edit := [] } := by
  generalize hn : l.edit.length = n
  induction n generalizing s l with
  | zero =>
    have hnil := List.length_eq_zero_iff.mp hn
    rw [← hnil]
    exact h
  | succ n ih =>
    have hne : s.e ≠ s.w := by
      intro he
      rw [h.edit_nil.mpr he] at hn
      cases hn
    obtain ⟨hlast, herase⟩ := h.edit_concat hne
    have hnewline : s.last ≠ newline := by
      intro hl
      apply h.line
      rw [hlast, hl]
      exact List.mem_append_right _ (List.mem_singleton_self _)
    rw [Cons.killLoop, if_pos ⟨hne, hnewline⟩]
    have hlen : l.edit.dropLast.length = n := by
      rw [List.length_dropLast, hn, Nat.add_sub_cancel]
    have hrest := ih herase hlen
    exact hrest

theorem erase : (if s.e ≠ s.w then s.erase else s).Shows { l with edit := l.edit.dropLast } := by
  split
  case isTrue hne => exact (h.edit_concat hne).2
  case isFalse heq =>
    have hnil : l.edit = [] := h.edit_nil.mpr (not_not.mp heq)
    rw [hnil, List.dropLast_nil, ← hnil]
    exact h

theorem killLine : s.killLine.Shows { l with edit := [] } := by
  unfold Cons.killLine
  rw [h.length_edit]
  exact h.killLoop

theorem pending_nil : l.pending = [] ↔ s.r = s.w := by
  rw [← List.length_eq_zero_iff, ← h.mark, Ring.dist_eq_zero]

/-- A reader takes the next character. -/
theorem take (hne : s.r ≠ s.w) :
    l.pending = s.front :: l.pending.tail ∧ s.take.Shows { l with pending := l.pending.tail } := by
  obtain ⟨c, rest, hpending⟩ := List.exists_cons_of_ne_nil fun hnil => hne (h.pending_nil.mp hnil)
  have hre : s.r ≠ s.e := by
    intro he
    have hall := h.all
    rw [he, Ring.between_self, hpending] at hall
    cases hall
  have hall := h.all
  rw [Ring.between_cons wraps hre h.used_le, hpending, List.cons_append] at hall
  obtain ⟨hfront, hrest⟩ := List.cons.inj hall
  have hmark := h.mark
  have hused := h.used_le
  have hw := Ring.dist_pred wraps hne
  have he := Ring.dist_pred wraps hre
  rw [hpending, List.tail_cons]
  refine ⟨congrArg (· :: rest) hfront.symm, ?_, hrest, ?_, h.line⟩
  · show (s.e - (s.r + 1#32)).toNat ≤ INPUT_BUF_SIZE
    unfold Cons.used at hused
    omega
  · show (s.w - (s.r + 1#32)).toNat = rest.length
    rw [hpending, List.length_cons] at hmark
    omega

end

end Cons.Shows

@[simp] theorem Cons.untake_take (s : Cons) : s.take.untake = s := by
  simp only [Cons.take, Cons.untake, BitVec.add_sub_cancel]

/-! ### Calls -/

/-- What a call has got, how often it took a ^D, and what it returns. -/
def Call.Ok (got : List UInt8) (eofs : ℕ) (killed : Bool) : Call → Prop
  | .future => got = [] ∧ eofs = 0
  | .reading target n _ =>
    newline ∉ got ∧ C 'D' ∉ got ∧ (got.length : ℤ) = target - n ∧ (0 ≤ n ∨ n = target) ∧ eofs = 0
  | .returned target ret =>
    newline ∉ got.dropLast ∧ C 'D' ∉ got ∧ (got.length : ℤ) ≤ max target 0 ∧
    (ret = got.length ∨ ret = -1 ∧ killed = true) ∧
    eofs = if ret = 0 ∧ 0 < target then 1 else 0

namespace Call.Ok

variable {call : Call} {got : List UInt8} {eofs : ℕ} {killed : Bool} {target n : ℤ} {stage : Stage}

theorem wake (h : call.Ok got eofs killed) : call.wake.Ok got eofs killed := by
  cases call with
  | future => exact h
  | reading target n stage => cases stage <;> exact h
  | returned target ret => exact h

theorem kill (h : call.Ok got eofs killed) : call.Ok got eofs true := by
  cases call with
  | future => exact h
  | reading target n stage => exact h
  | returned target ret =>
    obtain ⟨hline, heof, hlen, hret, heofs⟩ := h
    exact ⟨hline, heof, hlen, hret.imp_right fun hk => ⟨hk.1, rfl⟩, heofs⟩

/-- A call that has not got all it asked for, or nothing, returns what it has. -/
theorem stop (h : (reading target n stage).Ok got eofs killed) (hn : n < target ∨ n ≤ 0) :
    (returned target (target - n)).Ok got eofs killed := by
  obtain ⟨hline, heof, hlen, hbound, rfl⟩ := h
  refine ⟨fun hmem => hline (List.dropLast_subset _ hmem), heof, by omega, .inl hlen.symm, ?_⟩
  rw [if_neg (by omega)]

theorem fail (h : (reading target n stage).Ok got eofs true) :
    (returned target (-1)).Ok got eofs true := by
  obtain ⟨hline, heof, hlen, hbound, rfl⟩ := h
  refine ⟨fun hmem => hline (List.dropLast_subset _ hmem), heof, by omega, .inr ⟨rfl, rfl⟩, ?_⟩
  rw [if_neg (by omega)]

section

variable (h : (reading target n stage).Ok got eofs killed) (hpos : 0 < n)
include h hpos

/-- A call that has got nothing takes a ^D. -/
theorem eof (hn : ¬ n < target) : (returned target (target - n)).Ok got (eofs + 1) killed := by
  obtain ⟨hline, heof, hlen, hbound, rfl⟩ := h
  refine ⟨fun hmem => hline (List.dropLast_subset _ hmem), heof, by omega, .inl hlen.symm, ?_⟩
  rw [if_pos (by omega)]

theorem byte {c : UInt8} (hc : c ≠ C 'D') (hne : c ≠ newline) :
    (reading target (n - 1) stage).Ok (got ++ [c]) eofs killed := by
  obtain ⟨hline, heof, hlen, hbound, rfl⟩ := h
  refine ⟨?_, ?_, ?_, by omega, rfl⟩
  · simpa only [List.mem_append, List.mem_singleton, not_or] using ⟨hline, hne.symm⟩
  · simpa only [List.mem_append, List.mem_singleton, not_or] using ⟨heof, hc.symm⟩
  · rw [List.length_append, List.length_singleton]
    omega

theorem newline :
    (returned target (target - (n - 1))).Ok (got ++ [Console.newline]) eofs killed := by
  obtain ⟨hline, heof, hlen, hbound, rfl⟩ := h
  refine ⟨?_, ?_, ?_, .inl ?_, ?_⟩
  · rwa [List.dropLast_concat]
  · have hne : C 'D' ≠ Console.newline := by decide
    simpa only [List.mem_append, List.mem_singleton, not_or] using ⟨heof, hne⟩
  · rw [List.length_append, List.length_singleton]
    omega
  · rw [List.length_append, List.length_singleton]
    omega
  · rw [if_neg (by omega)]

end

end Call.Ok

/-! ### The whole console -/

/-- What is committed and not taken yet. -/
def State.waiting (s : State) : List UInt8 :=
  Ring.between INPUT_BUF_SIZE s.cons.buf s.cons.r s.cons.w

/-- What an iteration of call `k` does, with `n` bytes of `target` still to come. It sleeps, or
gives up, while nothing waits; a ^D ends it, and stays if the call has got something; any other
character is delivered, and a newline ends it as well. -/
def Serves (s : State) (k : ℕ) (target n : ℤ) (t : State) : Prop :=
  (s.waiting = [] ∧ t.waiting = [] ∧ t.history = s.history ∧
    t.call k = if s.killed k then .returned target (-1) else .reading target n .sleeping) ∨
  ∃ c rest, s.waiting = c :: rest ∧
    (c = C 'D' ∧ t.call k = .returned target (target - n) ∧
        (n < target ∧ t.waiting = c :: rest ∧ t.history = s.history ∨
          n = target ∧ t.waiting = rest ∧ t.history = s.history ++ [.eof k]) ∨
      c ≠ C 'D' ∧ t.waiting = rest ∧ t.history = s.history ++ [.byte k c] ∧
        t.call k = if c = newline then .returned target (target - (n - 1))
          else .reading target (n - 1) .looping)

/-- Input and readers agree. -/
structure Inv (s : State) : Prop where
  shows : s.cons.Shows (lineOf s.history)
  taken : stream s.history ++ (lineOf s.history).pending = (lineOf s.history).committed
  calls : ∀ k, (s.call k).Ok (bytesOf k s.history) (s.history.count (.eof k)) (s.killed k)

namespace Inv

variable {s t : State} {k : ℕ} {call : Call}

/-- A call goes on without touching the buffer. -/
theorem setCall (h : Inv s) (lock : Option ℕ)
    (hok : call.Ok (bytesOf k s.history) (s.history.count (.eof k)) (s.killed k)) :
    Inv { s with lock := lock, call := update s.call k call } := by
  refine { h with calls := fun k' => ?_ }
  rcases update_cases s.call k call k' with ⟨rfl, hu⟩ | ⟨-, hu⟩ <;> simp only [hu]
  · exact hok
  · exact h.calls k'

/-- Call `k` takes a character out of the buffer. -/
theorem takes (h : Inv s) (hne : s.cons.r ≠ s.cons.w) (lock : Option ℕ) {event : Event}
    (hevent : event = .byte k s.cons.front ∨ s.cons.front = C 'D' ∧ event = .eof k)
    (hok : call.Ok (bytesOf k (s.history ++ [event])) ((s.history ++ [event]).count (.eof k))
      (s.killed k)) :
    Inv { s with cons := s.cons.take, lock := lock, call := update s.call k call,
                 history := s.history ++ [event] } := by
  obtain ⟨hpending, hshows⟩ := h.shows.take hne
  have hline : lineOf (s.history ++ [event]) =
      { lineOf s.history with pending := (lineOf s.history).pending.tail } := by
    rw [lineOf_concat]
    rcases hevent with rfl | ⟨-, rfl⟩ <;> rfl
  have hstream : stream [event] = [s.cons.front] := by
    rcases hevent with rfl | ⟨hfront, rfl⟩
    · rfl
    · rw [hfront]
      rfl
  refine ⟨?_, ?_, ?_⟩
  · rw [hline]
    exact hshows
  · rw [stream_concat, hline, hstream, List.append_assoc, ← h.taken]
    exact congrArg (stream s.history ++ ·) hpending.symm
  · intro k'
    by_cases hk : k' = k
    · subst hk
      simp only [update_self]
      exact hok
    · have hbytes : bytesOf k' [event] = [] := by
        rcases hevent with rfl | ⟨-, rfl⟩
        · simp only [bytesOf, List.filterMap_cons, Event.byteOf, if_neg (Ne.symm hk),
            List.filterMap_nil]
        · rfl
      have hother : event ≠ .eof k' := by
        rcases hevent with rfl | ⟨-, rfl⟩
        · exact Event.noConfusion
        · exact fun he => hk (Event.eof.inj he).symm
      simp only [update_of_ne hk]
      rw [bytesOf_concat, hbytes, List.append_nil, count_of_ne hother]
      exact h.calls k'

variable {stage : Stage}

/-- One iteration of the loop of `consoleread`. -/
theorem readLoop (h : Inv s) {target n : ℤ}
    (hcall : s.call k = .reading target n stage) : Inv (s.readLoop k target n true) := by
  have hok := h.calls k
  rw [hcall] at hok
  unfold State.readLoop
  split
  case isFalse hn => exact h.setCall none (hok.stop (.inr (by omega)))
  case isTrue hn =>
  split
  case isTrue =>
    split
    case isTrue hkilled =>
      rw [hkilled] at hok
      refine h.setCall none ?_
      rw [hkilled]
      exact hok.fail
    case isFalse => exact h.setCall none hok
  case isFalse hne =>
  dsimp only
  split
  case isTrue heof =>
    split
    case isTrue hlt =>
      rw [Cons.untake_take]
      exact h.setCall none (hok.stop (.inl hlt))
    case isFalse hle =>
      refine h.takes hne none (.inr ⟨heof, rfl⟩) ?_
      rw [bytesOf_eof, count_eof]
      exact hok.eof hn hle
  case isFalse hc =>
  rw [if_pos rfl]
  split
  case isTrue hnl =>
    refine h.takes hne none (.inl rfl) ?_
    rw [bytesOf_byte, count_of_ne Event.noConfusion, hnl]
    exact hok.newline hn
  case isFalse hnl =>
    refine h.takes hne s.lock (.inl rfl) ?_
    rw [bytesOf_byte, count_of_ne Event.noConfusion]
    exact hok.byte hn hc hnl

/-- **What an iteration delivers.** -/
theorem serves (h : Inv s) {target n : ℤ}
    (hcall : s.call k = .reading target n stage) (hn : 0 < n) :
    Serves s k target n (s.readLoop k target n true) := by
  have hok := h.calls k
  rw [hcall] at hok
  obtain ⟨-, -, hlen, -, -⟩ := hok
  unfold State.readLoop
  rw [if_pos hn]
  split
  case isTrue heq =>
    have hnil : s.waiting = [] := h.shows.pending.trans (h.shows.pending_nil.mpr heq)
    split
    case isTrue hkilled =>
      refine .inl ⟨hnil, hnil, rfl, ?_⟩
      rw [if_pos hkilled]
      exact update_self ..
    case isFalse hkilled =>
      refine .inl ⟨hnil, hnil, rfl, ?_⟩
      rw [if_neg hkilled]
      exact update_self ..
  case isFalse hne =>
  obtain ⟨hpending, hshows⟩ := h.shows.take hne
  have hwaiting : s.waiting = s.cons.front :: (lineOf s.history).pending.tail :=
    h.shows.pending.trans hpending
  refine .inr ⟨s.cons.front, (lineOf s.history).pending.tail, hwaiting, ?_⟩
  dsimp only
  split
  case isTrue heof =>
    refine .inl ⟨heof, ?_⟩
    split
    case isTrue hlt =>
      refine ⟨update_self .., .inl ⟨hlt, ?_, rfl⟩⟩
      rw [Cons.untake_take]
      exact hwaiting
    case isFalse hle =>
      exact ⟨update_self .., .inr ⟨by omega, hshows.pending, rfl⟩⟩
  case isFalse hc =>
  rw [if_pos rfl]
  split <;> exact .inr ⟨hc, hshows.pending, rfl, update_self ..⟩

theorem run (h : Inv s) (hs : s.run k true = some t) : Inv t := by
  unfold State.run at hs
  have hok := h.calls k
  split at hs
  case h_1 target n hcall =>
    obtain ⟨-, rfl⟩ := Run.of_guard hs
    rw [hcall] at hok
    exact h.setCall (some k) hok
  case h_2 target n hcall =>
    cases hs
    exact h.readLoop hcall
  case h_3 => cases hs

theorem cons_store (s : State) (c : UInt8) :
    (s.store c).cons = if c = Console.newline ∨ c = C 'D' ∨ (s.cons.put c).used = INPUT_BUF_SIZE then
      (s.cons.put c).commit else s.cons.put c := by
  unfold State.store
  dsimp only
  split <;> rfl

/-- The buffer after a character stands for the line after it. -/
theorem shows_consoleintr (h : Inv s) (c : UInt8) :
    (s.consoleintr c).cons.Shows ((lineOf s.history).input c) := by
  have hshows := h.shows
  have hused := hshows.used_eq
  unfold State.consoleintr Line.input
  split
  · exact hshows
  split
  · exact hshows.killLine
  split
  · have herase := hshows.erase
    split
    · rwa [if_pos ‹_›] at herase
    · rwa [if_neg ‹_›] at herase
  split
  case isTrue hroom =>
    have hnot : ¬ (c = 0 ∨ (lineOf s.history).used = INPUT_BUF_SIZE) := by
      rw [← hused]
      exact fun hor => hor.elim hroom.1 (Nat.ne_of_lt hroom.2)
    rw [if_neg hnot, cons_store]
    exact hshows.type hroom.2 (cook c)
  case isFalse hfull =>
    have hor : c = 0 ∨ (lineOf s.history).used = INPUT_BUF_SIZE := by
      rw [← hused]
      by_contra hnot
      have hne := not_or.mp hnot
      exact hfull ⟨hne.1, Nat.lt_of_le_of_ne hshows.used_le hne.2⟩
    rw [if_pos hor]
    exact hshows

/-- What is committed becomes pending. -/
theorem taken_type {out : List UInt8} {l : Line} (h : out ++ l.pending = l.committed) (c : UInt8) :
    out ++ (l.type c).pending = (l.type c).committed := by
  unfold Line.type
  dsimp only
  split
  · unfold Line.commit
    rw [← List.append_assoc, h]
  · exact h

theorem taken_input {out : List UInt8} {l : Line} (h : out ++ l.pending = l.committed) (c : UInt8) :
    out ++ (l.input c).pending = (l.input c).committed := by
  unfold Line.input
  split
  · exact h
  split
  · exact h
  split
  · exact h
  split
  · exact h
  · exact taken_type h (cook c)

theorem calls_consoleintr (s : State) (c : UInt8) (k : ℕ) :
    (s.consoleintr c).call k = s.call k ∨ (s.consoleintr c).call k = (s.call k).wake := by
  unfold State.consoleintr State.store State.wakeup
  dsimp only
  split_ifs <;> first | exact .inl rfl | exact .inr rfl

theorem frame_consoleintr (s : State) (c : UInt8) :
    (s.consoleintr c).history = s.history ∧ (s.consoleintr c).killed = s.killed := by
  unfold State.consoleintr State.store State.wakeup
  dsimp only
  split_ifs <;> exact ⟨rfl, rfl⟩

theorem consoleintr (h : Inv s) (c : UInt8) : Inv ((s.consoleintr c).log (.input c)) := by
  obtain ⟨hhistory, hkilled⟩ := frame_consoleintr s c
  have hall : ((s.consoleintr c).log (.input c)).history = s.history ++ [.input c] :=
    congrArg (· ++ _) hhistory
  refine ⟨?_, ?_, ?_⟩
  · rw [hall, lineOf_concat]
    exact h.shows_consoleintr c
  · rw [hall, lineOf_concat, stream_concat]
    exact (congrArg (· ++ _) (List.append_nil _)).trans (taken_input h.taken c)
  · intro k
    rw [hall, bytesOf_input, count_of_ne Event.noConfusion]
    have hok := h.calls k
    have hk : ((s.consoleintr c).log (.input c)).killed k = s.killed k := congrFun hkilled k
    rw [hk]
    rcases calls_consoleintr s c k with hcall | hcall
    · exact (congrArg (Call.Ok _ _ _) hcall).mpr hok
    · exact (congrArg (Call.Ok _ _ _) hcall).mpr hok.wake

theorem exec (h : Inv s) {a : Action} (ha : CopyoutOk s a) (hs : exec s a = some t) : Inv t := by
  cases a with
  | consoleintr c =>
    obtain ⟨-, rfl⟩ := Run.of_guard hs
    exact h.consoleintr c
  | consoleread k n =>
    obtain ⟨hcall, rfl⟩ := Run.of_guard hs
    have hok := h.calls k
    rw [hcall] at hok
    obtain ⟨hgot, heofs⟩ := hok
    refine h.setCall s.lock ?_
    rw [hgot, heofs]
    exact ⟨List.not_mem_nil, List.not_mem_nil, by simp, .inr rfl, rfl⟩
  | run k mapped =>
    obtain rfl : mapped = true := ha
    exact h.run hs
  | kill k =>
    cases hs
    refine { h with calls := ?_ }
    intro k'
    by_cases hk : k' = k
    · subst hk
      simp only [State.setCall, update_self]
      exact (h.calls k').wake.kill
    · simp only [State.setCall, update_of_ne hk]
      exact h.calls k'

theorem init (h : Init s) : Inv s := by
  obtain ⟨hw, he, -, hcall, hhistory⟩ := h
  refine ⟨?_, ?_, ?_⟩
  · rw [hhistory]
    refine ⟨?_, ?_, ?_, List.not_mem_nil⟩
    · rw [Cons.used, he, BitVec.sub_self]
      exact Nat.zero_le _
    · rw [he, Ring.between_self]
      rfl
    · rw [hw, BitVec.sub_self]
      rfl
  · rw [hhistory]
    rfl
  · intro k
    rw [hcall, hhistory]
    exact ⟨rfl, rfl⟩

/-! ### Early returns -/

theorem call_readLoop_of_ne {k' : ℕ} (hne : k ≠ k') (target n : ℤ) (mapped : Bool) :
    (s.readLoop k' target n mapped).call k = s.call k := by
  unfold State.readLoop State.release State.log State.setCall
  dsimp only
  split_ifs <;> exact update_of_ne hne _ _

theorem call_run_of_ne {k' : ℕ} (hne : k ≠ k') {mapped : Bool} (hs : s.run k' mapped = some t) :
    t.call k = s.call k := by
  unfold State.run at hs
  split at hs
  case h_1 =>
    obtain ⟨-, rfl⟩ := Run.of_guard hs
    exact update_of_ne hne _ _
  case h_2 target n hcall =>
    cases hs
    exact call_readLoop_of_ne hne target n mapped
  case h_3 => cases hs

theorem early_readLoop (h : Inv s) {target n ret : ℤ}
    (hafter : (s.readLoop k target n true).call k = .returned target ret) (hpos : 0 < ret)
    (hlt : ret < target) :
    (bytesOf k (s.readLoop k target n true).history).getLast? = some Console.newline ∨
      (lineOf (s.readLoop k target n true).history).pending.head? = some (C 'D') := by
  unfold State.readLoop at hafter ⊢
  simp only [State.release, State.log, State.setCall] at hafter ⊢
  split at hafter
  case isFalse hn =>
    simp only [update_self, Call.returned.injEq] at hafter
    omega
  case isTrue hn =>
  rw [if_pos hn]
  split at hafter
  case isTrue =>
    split at hafter <;> simp only [update_self, Call.returned.injEq, reduceCtorEq] at hafter
    omega
  case isFalse hne =>
  obtain ⟨hpending, -⟩ := h.shows.take hne
  rw [if_neg hne]
  split at hafter
  case isTrue heof =>
    rw [if_pos heof]
    split at hafter
    case isTrue hback =>
      -- the ^D is put back
      right
      rw [if_pos hback, hpending, heof]
      rfl
    case isFalse hle =>
      simp only [update_self, Call.returned.injEq] at hafter
      omega
  case isFalse hc =>
  simp only [if_true, if_neg hc] at hafter ⊢
  split at hafter
  case isTrue hnl =>
    left
    rw [if_pos hnl, bytesOf_byte, hnl]
    exact List.getLast?_concat
  case isFalse hnl =>
    simp only [update_self, reduceCtorEq] at hafter

/-- A call that returns early has got a whole line, or has left a ^D where it is. -/
theorem early_return (h : Inv s) {a : Action} (ha : CopyoutOk s a) (hs : Console.exec s a = some t)
    {target n ret : ℤ} (hbefore : s.call k = .reading target n stage)
    (hafter : t.call k = .returned target ret) (hpos : 0 < ret) (hlt : ret < target) :
    (bytesOf k t.history).getLast? = some Console.newline ∨
      (lineOf t.history).pending.head? = some (C 'D') := by
  have hwake : (s.call k).wake ≠ .returned target ret := by
    rw [hbefore]
    cases stage <;> exact Call.noConfusion
  have hsame : s.call k ≠ .returned target ret := by
    rw [hbefore]
    exact Call.noConfusion
  cases a with
  | consoleintr c =>
    obtain ⟨-, rfl⟩ := Run.of_guard hs
    rcases calls_consoleintr s c k with hcall | hcall
    · exact absurd (hcall.symm.trans hafter) hsame
    · exact absurd (hcall.symm.trans hafter) hwake
  | consoleread k' m =>
    obtain ⟨hcall, rfl⟩ := Run.of_guard hs
    have hne : k ≠ k' := by
      rintro rfl
      cases hcall.symm.trans hbefore
    exact absurd ((update_of_ne hne _ _).symm.trans hafter) hsame
  | kill k' =>
    cases hs
    by_cases hk : k = k'
    · subst hk
      exact absurd ((update_self _ _ _).symm.trans hafter) hwake
    · exact absurd ((update_of_ne hk _ _).symm.trans hafter) hsame
  | run k' mapped =>
    obtain rfl : mapped = true := ha
    by_cases hk : k = k'
    · subst hk
      unfold Console.exec State.run at hs
      dsimp only at hs
      rw [hbefore] at hs
      cases stage with
      | acquiring =>
        obtain ⟨-, rfl⟩ := Run.of_guard hs
        cases (update_self _ _ _).symm.trans hafter
      | looping =>
        cases hs
        exact h.early_readLoop hafter hpos hlt
      | sleeping => cases hs
    · exact absurd ((call_run_of_ne hk hs).symm.trans hafter) hsame

end Inv

/-- **The line discipline.** For any interleaving of input characters and `consoleread` calls
with valid destinations: the indices are in order, and at most `INPUT_BUF_SIZE` apart; what
the readers have taken, a ^D for each end of file, together with what waits in the buffer, is
the committed input; each call has got at most one line and no ^D, and returns 0 for each
^D it takes; a call takes one character after the other, and a newline or a ^D ends it, the ^D
without being delivered, and without being taken if the call has got something; and a call
that returns less than it could hold at the end of no line has left a ^D for the next one. -/
theorem console_line_discipline (s : State) (hs : ReachableUnder Init (relOf exec) CopyoutOk s) :
    (s.cons.w - s.cons.r).toNat ≤ (s.cons.e - s.cons.r).toNat ∧
    (s.cons.e - s.cons.r).toNat ≤ INPUT_BUF_SIZE ∧
    stream s.history ++ Ring.between INPUT_BUF_SIZE s.cons.buf s.cons.r s.cons.w =
      (lineOf s.history).committed ∧
    (∀ k, (s.call k).Ok (bytesOf k s.history) (s.history.count (.eof k)) (s.killed k)) ∧
    (∀ k target n, s.call k = .reading target n .looping → 0 < n →
      ∃ t, exec s (.run k true) = some t ∧ Serves s k target n t) ∧
    ∀ a t k target n stage ret, CopyoutOk s a → exec s a = some t →
      s.call k = .reading target n stage → t.call k = .returned target ret →
      0 < ret → ret < target →
      (bytesOf k t.history).getLast? = some newline ∨
        (lineOf t.history).pending.head? = some (C 'D') := by
  have h : Inv s := hs.invariant Inv (fun _ => Inv.init) fun _ _ _ h ha hstep => h.exec ha hstep
  refine ⟨h.shows.mark_le, h.shows.used_le, ?_, h.calls, ?_, ?_⟩
  · rw [h.shows.pending]
    exact h.taken
  · intro k target n hcall hn
    refine ⟨s.readLoop k target n true, ?_, h.serves hcall hn⟩
    simp only [exec, State.run, hcall]
  · intro a t k target n stage ret ha hstep hbefore hafter hpos hlt
    exact h.early_return ha hstep hbefore hafter hpos hlt

/-- An empty console whose indices are about to wrap. -/
def fresh : State where
  cons := ⟨fun _ => 0, 4294967295#32, 4294967295#32, 4294967295#32⟩
  lock := none
  call _ := .future
  killed _ := false
  history := []

theorem fresh_init : Init fresh := ⟨rfl, rfl, rfl, fun _ => rfl, rfl⟩

/-- `x`, a backspace, `a` and ^D come in; a first call gets `a`, and a second one is about to get
the end of the file. -/
def typed : List Action :=
  [.consoleintr 120, .consoleintr (C 'H'), .consoleread 0 9, .consoleintr 97, .consoleintr (C 'D')] ++
    List.replicate 3 (.run 0 true) ++ [.consoleread 1 9, .run 1 true]

theorem console_line_discipline_typed : ∃ s, ReachableUnder Init (relOf exec) CopyoutOk s ∧
    s.call 0 = .returned 9 1 ∧ s.call 1 = .reading 9 9 .looping ∧ bytesOf 0 s.history = [97] ∧
    (lineOf s.history).committed = [97, C 'D'] ∧ s.waiting = [C 'D'] ∧
    ∃ t, exec s (.run 1 true) = some t ∧ t.call 1 = .returned 9 0 ∧ t.waiting = [] := by
  obtain ⟨s, hreach, hfirst, hsecond, hbytes, hcommitted, hwaiting⟩ :
      ∃ s, ReachableUnder Init (relOf exec) (fun _ a => a.mapped = true) s ∧ s.call 0 = .returned 9 1 ∧
        s.call 1 = .reading 9 9 .looping ∧ bytesOf 0 s.history = [97] ∧
        (lineOf s.history).committed = [97, C 'D'] ∧ s.waiting = [C 'D'] :=
    Run.exists_reachableUnder typed fresh_init (by decide +kernel)
  refine ⟨s, hreach, hfirst, hsecond, hbytes, hcommitted, hwaiting, ?_⟩
  obtain ⟨-, -, -, -, hserves, -⟩ := console_line_discipline s hreach
  obtain ⟨t, hstep, hserved⟩ := hserves 1 9 9 hsecond (by decide)
  refine ⟨t, hstep, ?_⟩
  rcases hserved with ⟨hnil, -⟩ | ⟨c, rest, hcons, hend⟩
  · cases hwaiting.symm.trans hnil
  · cases hwaiting.symm.trans hcons
    rcases hend with ⟨-, hcall, ⟨hlt, -⟩ | ⟨-, hrest, -⟩⟩ | ⟨hne, -⟩
    · exact absurd hlt (by decide)
    · exact ⟨hcall, hrest⟩
    · exact absurd rfl hne

end Xv6.Console
