import Mathlib.Data.List.Nodup
import Xv6.Intr.Model

/-!
`noff` and `intena` belong to the thread that runs, wherever it runs.

`Runs` is the part of the invariant that looks at one CPU and the thread on it: `noff`
counts the thread's own nesting, the flag is off inside of it, and `intena` is what the
flag was before the thread's outermost `acquire`. A thread that is switched out keeps its
`intena` in `sched` (`Parked`) and puts it back when it runs again, on whatever CPU.
That a thread runs on one CPU at a time follows from `p->lock`: the scheduler takes it
before it looks at `p->state`, and a process that has changed its own state holds it.

* `Good`: what is left of a call, run from the locks held, reaches `sched` with `p->lock`
  only and ends with the process RUNNING.
* `Runs.*`: one lemma for each step of a thread on its CPU.
* `Parked.runs`: a thread that comes back from `swtch`.
-/

namespace Xv6.Intr

open ThreadState (depth)
/-! ### What is left of a call -/

/-- The instructions left, from the locks held and with the process RUNNING or not, call
`sched` with the thread's own lock only, do not give it up while the process is not
RUNNING, and end with the process RUNNING. A lock that is not held, or is held twice, makes
the kernel panic, so nothing is asked of the rest then. -/
def Good (me : Option Lock) : List Instr → List Lock → Bool → Prop
  | [], _, run => run = true
  | .acquire lk :: rest, held, run => lk ∉ held → Good me rest (lk :: held) run
  | .release lk :: rest, held, run =>
    lk ∈ held → (some lk = me → run = true) ∧ Good me rest (held.erase lk) run
  | .setState st :: rest, held, _ =>
    st ≠ .running ∧ (∃ l, me = some l ∧ l ∈ held) ∧ Good me rest held false
  | .sched :: rest, held, _ => (∃ l, me = some l ∧ held = [l]) ∧ Good me rest held true

variable {me : Option Lock} {run : Bool} {x : Thread} {code : List Instr}

/-- A process that is RUNNING may do what it may do otherwise. -/
theorem Good.running {held : List Lock} (h : Good me code held run) :
    Good me code held true := by
  induction code generalizing held run with
  | nil => rfl
  | cons i rest ih =>
    cases i with
    | acquire lk => exact fun hlk => ih (h hlk)
    | release lk => exact fun hlk => ⟨fun _ => rfl, ih (h hlk).2⟩
    | setState st => exact h
    | sched => exact h

theorem Call.good {call : Call} {held : List Lock} (hold : call.Holding x held)
    (hcode : call.code x = some code) : Good x.lock code held true := by
  cases call with
  | acquire lk =>
    cases hcode
    exact fun _ => rfl
  | release lk =>
    cases hcode
    exact fun _ => ⟨fun _ => rfl, rfl⟩
  | yield =>
    cases x with
    | scheduler c => cases hcode
    | proc p =>
      cases hcode
      obtain rfl : held = [] := hold
      refine fun _ => ⟨by decide, ⟨_, rfl, List.mem_singleton_self _⟩, ⟨_, rfl, rfl⟩, ?_⟩
      exact fun _ => ⟨fun _ => rfl, rfl⟩
  | sleep lk =>
    cases x with
    | scheduler c => cases hcode
    | proc p =>
      cases hcode
      obtain ⟨rfl, hne⟩ := hold
      have hne' : Lock.proc p ≠ lk := fun he => hne (congrArg some he.symm)
      have herase : [Lock.proc p, lk].erase lk = [.proc p] := by
        rw [List.erase_cons_tail (by simpa using hne'), List.erase_cons_head]
      intro _ _
      rw [herase]
      refine ⟨fun _ => rfl, by decide, ⟨_, rfl, List.mem_singleton_self _⟩, ⟨_, rfl, rfl⟩, ?_⟩
      exact fun _ => ⟨fun _ => rfl, fun _ => rfl⟩
  | exit =>
    cases x with
    | scheduler c => cases hcode
    | proc p =>
      cases hcode
      obtain rfl : held = [waitLock] := hold
      have hne : Lock.proc p ≠ waitLock := Lock.noConfusion
      have herase : [Lock.proc p, waitLock].erase waitLock = [.proc p] := by
        rw [List.erase_cons_tail (by simpa using hne), List.erase_cons_head]
      intro _
      refine ⟨by decide, ⟨_, rfl, List.mem_cons_self⟩, fun _ => ?_⟩
      exact ⟨fun he => absurd (Option.some.inj he) hne.symm, ⟨_, rfl, rfl⟩, rfl⟩

/-- The rest of an activation, from where it stands. -/
def Frame.Good (me : Option Lock) (f : Frame) (held : List Lock) (run : Bool) : Prop :=
  match f.micro with
  | .reading lk => lk ∉ held → Intr.Good me f.todo (lk :: held) run
  | .masking lk _ => lk ∉ held → Intr.Good me f.todo (lk :: held) run
  | .taking lk => lk ∉ held → Intr.Good me f.todo (lk :: held) run
  | .switched _ => False
  | _ => Intr.Good me f.todo held run

/-- An activation that was interrupted: the flag was on. -/
structure Frame.Lower (me : Option Lock) (f : Frame) : Prop where
  micro : f.micro = .next ∨
    ((∃ lk, f.micro = .reading lk) ∨ ∃ lk, f.micro = .masking lk true) ∧ f.before = some true
  good : f.Good me [] true

/-! ### A thread on a CPU -/

/-- The registers of a CPU and the thread on it. -/
structure Runs (r : Regs) (me : Option Lock) (ts : ThreadState) (run : Bool) : Prop where
  noff : r.noff = ts.depth
  off : 0 < ts.depth → r.intr = false
  nodup : ts.held.Nodup
  reading : ts.held = [] → ∀ lk, ts.top.micro = .reading lk → ts.top.before = some r.intr
  masking : ts.held = [] → ∀ lk old, ts.top.micro = .masking lk old →
    ts.top.before = some old ∧ r.intr = old
  /-- `intena` is right for a process inside a critical section, -/
  saved : ∀ l, me = some l → 0 < ts.depth → (∀ b, ts.top.micro ≠ .restoring b) →
    ∀ b, ts.top.before = some b → r.intena = b
  /-- or will be when `sched` has restored it -/
  restoring : ∀ b, ts.top.micro = .restoring b → (∃ l, ts.held = [l]) ∧
    ∀ b', ts.top.before = some b' → b = b'
  good : ts.top.Good me ts.held run
  below : ∀ f ∈ ts.below, f.Lower me

/-- A process that is switched out, or has not run yet. -/
structure Parked (l : Lock) (ts : ThreadState) : Prop where
  held : ts.held = [l]
  top : (∃ b, ts.top.micro = .switched b ∧ ∀ b', ts.top.before = some b' → b = b') ∨
    (ts.top.micro = .next ∧ ts.top.before = none)
  good : Good (some l) ts.top.todo [l] true
  below : ∀ f ∈ ts.below, f.Lower (some l)

theorem depth_next {ts : ThreadState} (h : ts.top.micro = .next) : ts.depth = ts.held.length := by
  simp only [depth, h]

variable {r : Regs} {ts : ThreadState}

/-- The flag has not been read for the next `acquire`, and `sched` has nothing to restore. -/
def Micro.plain : Micro → Bool
  | .reading _ | .masking _ _ | .restoring _ => false
  | _ => true

namespace Runs

theorem of_plain (hm : ts.top.micro.plain = true) (noff : r.noff = ts.depth)
    (off : 0 < ts.depth → r.intr = false) (nodup : ts.held.Nodup)
    (saved : ∀ l, me = some l → 0 < ts.depth → ∀ b, ts.top.before = some b → r.intena = b)
    (good : ts.top.Good me ts.held run) (below : ∀ f ∈ ts.below, f.Lower me) :
    Runs r me ts run := by
  refine ⟨noff, off, nodup, ?_, ?_, fun l hl hd _ => saved l hl hd, ?_, good, below⟩ <;> intros <;>
    simp_all [Micro.plain]

variable {rest : List Instr}

section

variable (h : Runs r me ts run)
include h

theorem good_next (hm : ts.top.micro = .next) : Good me ts.top.todo ts.held run := by
  simpa only [Frame.Good, hm] using h.good

variable {lk : Lock}

/-- The start of `acquire`. -/
theorem acquire (hm : ts.top.micro = .next) (ht : ts.top.todo = .acquire lk :: rest) :
    Runs r me { ts with
        top := { micro := .reading lk, todo := rest,
                 before := if ts.held = [] then some r.intr else ts.top.before } } run := by
  have hg := h.good_next hm
  rw [ht] at hg
  have hdepth := depth_next hm
  refine ⟨h.noff.trans hdepth, fun hd => h.off (hdepth ▸ hd), h.nodup, ?_, ?_, ?_, ?_, hg, h.below⟩
  · intro hnil lk' _
    exact if_pos hnil
  · intro _ lk' old hmask
    cases hmask
  · intro l hl hd _ b hb
    have hne : ts.held ≠ [] := List.ne_nil_of_length_pos hd
    rw [if_neg hne] at hb
    refine h.saved l hl (hdepth ▸ hd) (fun b' hb' => ?_) b hb
    cases hm.symm.trans hb'
  · intro b hb
    cases hb

/-- `push_off` reads the flag. -/
theorem read (hm : ts.top.micro = .reading lk) :
    Runs r me { ts with top := { ts.top with micro := .masking lk r.intr } } run := by
  have hg : lk ∉ ts.held → Good me ts.top.todo (lk :: ts.held) run := by
    simpa only [Frame.Good, hm] using h.good
  have hdepth : ts.depth = ts.held.length := by simp only [depth, hm]
  refine ⟨h.noff.trans hdepth, fun hd => h.off (hdepth ▸ hd), h.nodup, ?_, ?_, ?_, ?_, hg, h.below⟩
  · intro _ lk' hr
    cases hr
  · intro hnil lk' old hmask
    cases hmask
    exact ⟨h.reading hnil lk hm, rfl⟩
  · intro l hl hd _ b hb
    refine h.saved l hl (hdepth ▸ hd) (fun b' hb' => ?_) b hb
    cases hm.symm.trans hb'
  · intro b hb
    cases hb

/-- `push_off` turns interrupts off and counts. -/
theorem mask {old : Bool} (hm : ts.top.micro = .masking lk old) :
    Runs { intr := false, noff := r.noff + 1, intena := if r.noff = 0 then old else r.intena } me
      { ts with top := { ts.top with micro := .taking lk } } run := by
  have hg : lk ∉ ts.held → Good me ts.top.todo (lk :: ts.held) run := by
    simpa only [Frame.Good, hm] using h.good
  have hdepth : ts.depth = ts.held.length := by simp only [depth, hm]
  refine of_plain rfl (congrArg (· + 1) (h.noff.trans hdepth)) (fun _ => rfl) h.nodup ?_ hg h.below
  intro l hl _ b hb
  have hnoff := h.noff.trans hdepth
  by_cases hnil : ts.held = []
  · rw [hnoff, hnil, if_pos List.length_nil]
    exact Option.some.inj ((h.masking hnil lk old hm).1.symm.trans hb)
  · have hpos : 0 < ts.held.length := List.length_pos_of_ne_nil hnil
    rw [hnoff, if_neg (Nat.pos_iff_ne_zero.mp hpos)]
    refine h.saved l hl (hdepth ▸ hpos) (fun b' hb' => ?_) b hb
    cases hm.symm.trans hb'

/-- The lock word is taken. -/
theorem take (hm : ts.top.micro = .taking lk) (hlk : lk ∉ ts.held) :
    Runs r me { ts with top := { ts.top with micro := .next }, held := lk :: ts.held } run := by
  have hg : lk ∉ ts.held → Good me ts.top.todo (lk :: ts.held) run := by
    simpa only [Frame.Good, hm] using h.good
  have hdepth : ts.depth = ts.held.length + 1 := by simp only [depth, hm]
  refine of_plain rfl (h.noff.trans hdepth) (fun _ => h.off (hdepth ▸ Nat.succ_pos _))
    (List.nodup_cons.mpr ⟨hlk, h.nodup⟩) ?_ (hg hlk) h.below
  intro l hl _ b hb
  refine h.saved l hl (hdepth ▸ Nat.succ_pos _) (fun b' hb' => ?_) b hb
  cases hm.symm.trans hb'

/-- `release` clears the lock word. -/
theorem release (hm : ts.top.micro = .next)
    (ht : ts.top.todo = .release lk :: rest) (hlk : lk ∈ ts.held) :
    Runs r me { ts with top := { ts.top with micro := .popping, todo := rest },
                          held := ts.held.erase lk } run := by
  have hg := h.good_next hm
  rw [ht] at hg
  have hdepth := depth_next hm
  have hlen : (ts.held.erase lk).length + 1 = ts.held.length := by
    have hpos := List.length_pos_of_mem hlk
    rw [List.length_erase_of_mem hlk]
    omega
  have hpos : 0 < ts.depth := by
    rw [hdepth]
    exact List.length_pos_of_mem hlk
  refine of_plain rfl ((h.noff.trans hdepth).trans hlen.symm) (fun _ => h.off hpos)
    (h.nodup.erase lk) ?_ (hg hlk).2 h.below
  intro l hl _ b hb
  refine h.saved l hl hpos (fun b' hb' => ?_) b hb
  cases hm.symm.trans hb'

/-- `pop_off` counts down and turns interrupts on again at the end. -/
theorem pop (hm : ts.top.micro = .popping) :
    Runs { r with noff := r.noff - 1, intr := if r.noff - 1 = 0 then r.intena else false } me
      { ts with top := { ts.top with micro := .next } } run := by
  have hg : Good me ts.top.todo ts.held run := by
    simpa only [Frame.Good, hm] using h.good
  have hdepth : ts.depth = ts.held.length + 1 := by simp only [depth, hm]
  have hnoff : r.noff - 1 = ts.held.length := by
    rw [h.noff, hdepth]
    exact Nat.add_sub_cancel _ _
  refine of_plain rfl hnoff ?_ h.nodup ?_ hg h.below
  · intro hd
    have hpos : 0 < ts.held.length := hd
    rw [hnoff, if_neg (Nat.pos_iff_ne_zero.mp hpos)]
  · intro l hl _ b hb
    refine h.saved l hl (hdepth ▸ Nat.succ_pos _) (fun b' hb' => ?_) b hb
    cases hm.symm.trans hb'

/-- `sched` puts `intena` back. -/
theorem restore {intena : Bool} (hm : ts.top.micro = .restoring intena) :
    Runs { r with intena := intena } me { ts with top := { ts.top with micro := .next } } run := by
  have hg : Good me ts.top.todo ts.held run := by
    simpa only [Frame.Good, hm] using h.good
  have hdepth : ts.depth = ts.held.length := by simp only [depth, hm]
  exact of_plain rfl (h.noff.trans hdepth) (fun hd => h.off (hdepth ▸ hd)) h.nodup
    (fun l _ _ b hb => (h.restoring intena hm).2 b hb) hg h.below

/-- A change of what is left to do, between instructions. -/
theorem retodo (hm : ts.top.micro = .next) {run' : Bool} (hg : Good me code ts.held run') :
    Runs r me { ts with top := { ts.top with todo := code } } run' := by
  refine { h with good := ?_ }
  simpa only [Frame.Good, hm] using hg

/-- With the flag on, the thread is outside of critical sections. -/
theorem outside (hon : r.intr = true) :
    ts.held = [] ∧ (ts.top.micro = .next ∨ (∃ lk, ts.top.micro = .reading lk) ∨
      ∃ lk old, ts.top.micro = .masking lk old) := by
  have hzero : ts.depth = 0 := by
    by_contra hne
    cases hon.symm.trans (h.off (Nat.pos_of_ne_zero hne))
  have hg := h.good
  unfold depth at hzero
  unfold Frame.Good at hg
  cases hm : ts.top.micro with
  | next =>
    rw [hm] at hzero
    exact ⟨List.length_eq_zero_iff.mp hzero, .inl rfl⟩
  | reading lk =>
    rw [hm] at hzero
    exact ⟨List.length_eq_zero_iff.mp hzero, .inr (.inl ⟨lk, rfl⟩)⟩
  | masking lk old =>
    rw [hm] at hzero
    exact ⟨List.length_eq_zero_iff.mp hzero, .inr (.inr ⟨lk, old, rfl⟩)⟩
  | taking lk | popping =>
    rw [hm] at hzero
    cases hzero
  | switched b =>
    rw [hm] at hg
    exact hg.elim
  | restoring b =>
    obtain ⟨⟨l, hl⟩, -⟩ := h.restoring b hm
    rw [hm, hl] at hzero
    cases hzero

end

/-- An interrupt: the handler begins on top of what it interrupted. -/
theorem interrupt (h : Runs r me ts true) (hon : r.intr = true) :
    Runs { r with intr := false } me
      { ts with top := { micro := .next, todo := [], before := none },
                below := ts.top :: ts.below } true := by
  obtain ⟨hnil, hmicro⟩ := h.outside hon
  have hdepth : ts.depth = ts.held.length := by
    rcases hmicro with hm | ⟨lk, hm⟩ | ⟨lk, old, hm⟩ <;> simp only [depth, hm]
  refine of_plain rfl (h.noff.trans hdepth) (fun _ => rfl) h.nodup ?_ rfl ?_
  · intro l _ _ b hb
    cases hb
  · intro f hf
    rcases List.mem_cons.mp hf with rfl | hf
    · refine ⟨?_, hnil ▸ h.good⟩
      rcases hmicro with hm | ⟨lk, hm⟩ | ⟨lk, old, hm⟩
      · exact .inl hm
      · exact .inr ⟨.inl ⟨lk, hm⟩, hon ▸ h.reading hnil lk hm⟩
      · obtain ⟨hb, rfl⟩ := h.masking hnil lk old hm
        rw [hon] at hb hm
        exact .inr ⟨.inr ⟨lk, hm⟩, hb⟩
    · exact h.below f hf

section

variable (h : Runs r me ts run) (hm : ts.top.micro = .next)
include h hm

/-- The end of a handler. -/
theorem sret (hnil : ts.held = []) {f : Frame} {below : List Frame} (hbelow : ts.below = f :: below) :
    Runs { r with intr := true } me { ts with top := f, below := below } true := by
  have hlower : f.Lower me := h.below f (hbelow ▸ List.mem_cons_self)
  have hzero : r.noff = 0 := by rw [h.noff, depth_next hm, hnil, List.length_nil]
  have hdepth : ({ ts with top := f, below := below } : ThreadState).depth = 0 := by
    have hlen : ts.held.length = 0 := by rw [hnil, List.length_nil]
    rcases hlower.micro with hf | ⟨⟨lk, hf⟩ | ⟨lk, hf⟩, -⟩ <;> simp only [depth, hf, hlen]
  refine ⟨hzero.trans hdepth.symm, ?_, h.nodup, ?_, ?_, ?_, ?_, hnil ▸ hlower.good, ?_⟩
  · intro hd
    rw [hdepth] at hd
    exact absurd hd (Nat.lt_irrefl 0)
  · intro _ lk hr
    rcases hlower.micro with hf | ⟨-, hb⟩
    · cases hf.symm.trans hr
    · exact hb
  · intro _ lk old hmask
    rcases hlower.micro with hf | ⟨⟨lk', hf⟩ | ⟨lk', hf⟩, hb⟩
    · cases hf.symm.trans hmask
    · cases hf.symm.trans hmask
    · cases hf.symm.trans hmask
      exact ⟨hb, rfl⟩
  · intro l _ hd
    rw [hdepth] at hd
    exact absurd hd (Nat.lt_irrefl 0)
  · intro b hb
    rcases hlower.micro with hf | ⟨⟨lk', hf⟩ | ⟨lk', hf⟩, -⟩ <;> cases hf.symm.trans hb
  · intro f' hf'
    exact h.below f' (hbelow ▸ List.mem_cons_of_mem f hf')

/-- `intr_on` and `intr_off`, outside of critical sections. -/
theorem setIntr (hnil : ts.held = []) (on : Bool) : Runs { r with intr := on } me ts run := by
  have hdepth : ts.depth = 0 := by rw [depth_next hm, hnil, List.length_nil]
  refine { h with off := ?_, reading := ?_, masking := ?_ }
  · intro hd
    rw [hdepth] at hd
    exact absurd hd (Nat.lt_irrefl 0)
  · intro _ lk hr
    cases hm.symm.trans hr
  · intro _ lk old hmask
    cases hm.symm.trans hmask

/-- `sched` saves `intena` and leaves. -/
theorem sched (ht : ts.top.todo = .sched :: rest) :
    ∃ l, me = some l ∧ ts.held = [l] ∧ r.noff = 1 ∧ r.intr = false ∧
      Parked l { ts with top := { ts.top with micro := .switched r.intena, todo := rest } } := by
  have hg := h.good_next hm
  rw [ht] at hg
  obtain ⟨⟨l, hl, hheld⟩, hrest⟩ := hg
  have hdepth : ts.depth = 1 := by rw [depth_next hm, hheld, List.length_singleton]
  have hpos : 0 < ts.depth := hdepth ▸ Nat.one_pos
  refine ⟨l, hl, hheld, h.noff.trans hdepth, h.off hpos, hheld, .inl ⟨r.intena, rfl, ?_⟩, ?_, ?_⟩
  · intro b hb
    refine h.saved l hl hpos (fun b' hb' => ?_) b hb
    cases hm.symm.trans hb'
  · rw [hheld, hl] at hrest
    exact hrest
  · exact fun f hf => hl ▸ h.below f hf

end

end Runs

/-- A switched-out process runs again: the scheduler has taken its lock. -/
theorem Parked.runs {l : Lock} (h : Parked l ts) (hnoff : r.noff = 1) (hintr : r.intr = false) :
    Runs r (some l) { ts with top := ts.top.resume } true := by
  have hgood := h.good
  rw [← h.held] at hgood
  have hnodup : ts.held.Nodup := h.held ▸ List.nodup_singleton l
  rcases h.top with ⟨b, hm, hb⟩ | ⟨hm, hnone⟩
  · have hres : ts.top.resume = { ts.top with micro := .restoring b } := by
      simp only [Frame.resume, hm]
    rw [hres]
    refine ⟨?_, fun _ => hintr, hnodup, ?_, ?_, ?_, ?_, hgood, h.below⟩
    · rw [hnoff]
      simp only [depth, h.held, List.length_singleton]
    · intro _ lk hr
      cases hr
    · intro _ lk old hmask
      cases hmask
    · intro l' _ _ hne
      exact absurd rfl (hne b)
    · intro b' hb'
      cases hb'
      exact ⟨⟨l, h.held⟩, hb⟩
  · have hres : ts.top.resume = ts.top := by
      cases htop : ts.top with
      | mk micro todo before =>
        rw [htop] at hm
        cases hm
        rfl
    rw [hres]
    refine .of_plain (by rw [hm]; rfl) ?_ (fun _ => hintr) hnodup ?_ ?_ h.below
    · show r.noff = ts.depth
      rw [hnoff, depth_next hm, h.held, List.length_singleton]
    · intro l' _ _ b hb
      cases hnone.symm.trans hb
    · simpa only [Frame.Good, hm] using hgood

end Xv6.Intr
