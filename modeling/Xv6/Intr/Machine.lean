import Xv6.Intr.Nesting

/-!
Interrupt nesting on a machine with any number of CPUs and processes.

* `Inv`: each CPU and the thread on it satisfy `Runs`, a lock is owned by the CPU whose
  thread holds it, a thread is on one CPU, and the others are parked.
* `Inv.onCpu`: a step that changes one CPU and its thread.
* `Inv.exec`: every step of the machine keeps the invariant.
* `interrupt_nesting`: what follows for every reachable state.
-/

namespace Xv6.Intr

open Function (update update_of_ne update_self update_eq_self)
open Run (Reachable ReachableUnder relOf execAll)

/-- `p->state == RUNNING`, for a process. -/
def State.running (s : State) : Thread → Bool
  | .scheduler _ => true
  | .proc p => s.pstate p = .running

variable {st : ProcState}

theorem State.running_update_of_ne {s : State} {t : Thread} {p : ℕ} (h : t ≠ .proc p) :
    State.running { s with pstate := update s.pstate p st } t = s.running t := by
  cases t with
  | scheduler d => rfl
  | proc q =>
    have hqp : q ≠ p := fun he => h (congrArg Thread.proc he)
    simp only [State.running, update_of_ne hqp]

/-- The scheduler thread of a CPU that runs process `p`. -/
structure Behind (p : ℕ) (ts : ThreadState) : Prop where
  micro : ts.top.micro = .next
  todo : ts.top.todo = []
  below : ts.below = []
  held : ts.held = [.proc p]

/-- The states in which a process has a context to go back to. -/
def Live (st : ProcState) : Prop := st = .used ∨ st = .runnable ∨ st = .sleeping

structure Inv (s : State) : Prop where
  runs : ∀ c, Runs (s.regs c) (s.current c).lock (s.thread (s.current c))
    (s.running (s.current c))
  home : ∀ {c c'}, s.current c = .scheduler c' → c' = c
  once : ∀ {c c'}, s.current c = s.current c' → c = c'
  own : ∀ {lk c}, s.owner lk = some c ↔ lk ∈ (s.thread (s.current c)).held
  /-- a process that is not RUNNING has its lock until it is switched out -/
  alive : ∀ {c p}, s.current c = .proc p →
    s.pstate p = .running ∨ .proc p ∈ (s.thread (.proc p)).held
  behind : ∀ {c p}, s.current c = .proc p → Behind p (s.thread (.scheduler c))
  parked : ∀ {p}, Live (s.pstate p) → (∀ c, s.current c ≠ .proc p) →
    Parked (.proc p) (s.thread (.proc p))
  panics : ∀ {c msg}, s.panicked c = some msg →
    msg = "acquire" ∨ msg = "release" ∨ msg = "sched running"

variable {ts : ThreadState} {r : Regs}

theorem Runs.toRunning {me : Option Lock} {run : Bool}
    (h : Runs r me ts run) : Runs r me ts true := by
  refine { h with good := ?_ }
  have hg := h.good
  unfold Frame.Good at hg ⊢
  cases hm : ts.top.micro <;> rw [hm] at hg
  case reading lk | masking lk old | taking lk => exact fun hlk => (hg hlk).running
  case switched b => exact hg
  case next | popping | restoring b => exact hg.running

theorem Behind.runs {p : ℕ} (h : Behind p ts) (hnoff : r.noff = 1)
    (hintr : r.intr = false) : Runs r none ts true := by
  refine ⟨?_, fun _ => hintr, h.held ▸ List.nodup_singleton _, ?_, ?_, ?_, ?_, ?_, ?_⟩
  · rw [hnoff, depth_next h.micro, h.held, List.length_singleton]
  · intro _ lk hr
    cases h.micro.symm.trans hr
  · intro _ lk old hmask
    cases h.micro.symm.trans hmask
  · intro l hl
    cases hl
  · intro b hb
    cases h.micro.symm.trans hb
  · simp only [Frame.Good, h.micro, h.todo, Good]
  · intro f hf
    rw [h.below] at hf
    cases hf

namespace Inv

variable {s t : State} {c p : ℕ}

section

variable (h : Inv s)
include h

/-- A process that some CPU runs is not parked, and its lock is not with another thread. -/
theorem not_current {q : ℕ} (hst : s.pstate q ≠ .running)
    (hown : .proc q ∈ (s.thread (s.current c)).held) (hne : s.current c ≠ .proc q) (c' : ℕ) :
    s.current c' ≠ .proc q := by
  intro hc'
  have hheld : .proc q ∈ (s.thread (s.current c')).held := by
    rw [hc']
    exact (h.alive hc').resolve_left hst
  have hcc : c' = c := Option.some.inj ((h.own.mpr hheld).symm.trans (h.own.mpr hown))
  exact hne (hcc ▸ hc')

/-- A step that changes CPU `c` and the thread on it. -/
theorem onCpu (owner : Lock → Option ℕ)
    (hruns : Runs r (s.current c).lock ts (s.running (s.current c)))
    (hown : ∀ {lk c'}, owner lk = some c' ↔
      lk ∈ (update s.thread (s.current c) ts (s.current c')).held)
    (halive : ∀ {p}, s.current c = .proc p → s.pstate p = .running ∨ .proc p ∈ ts.held) :
    Inv { s with
      regs := update s.regs c r
      thread := update s.thread (s.current c) ts
      owner := owner } := by
  refine { h with runs := ?_, own := hown, alive := ?_, behind := ?_, parked := ?_ }
  · intro c'
    by_cases hc : c' = c
    · subst hc
      simp only [update_self]
      exact hruns
    · have hne : s.current c' ≠ s.current c := fun he => hc (h.once he)
      simp only [update_of_ne hc, update_of_ne hne]
      exact h.runs c'
  · intro c' q hq
    by_cases hc : s.current c = .proc q
    · show _ ∨ _ ∈ (update s.thread (s.current c) ts (.proc q)).held
      rw [hc, update_self]
      exact halive hc
    · show _ ∨ _ ∈ (update s.thread (s.current c) ts (.proc q)).held
      rw [update_of_ne (Ne.symm hc)]
      exact h.alive hq
  · intro c' q hq
    have hne : Thread.scheduler c' ≠ s.current c := by
      intro he
      obtain rfl := h.home he.symm
      cases he.trans hq
    show Behind q (update s.thread (s.current c) ts (.scheduler c'))
    rw [update_of_ne hne]
    exact h.behind hq
  · intro q hlive hq
    show Parked _ (update s.thread (s.current c) ts (.proc q))
    rw [update_of_ne (Ne.symm (hq c))]
    exact h.parked hlive hq

/-- The same, when the locks held do not change. -/
theorem onCpu_same (hruns : Runs r (s.current c).lock ts (s.running (s.current c)))
    (hheld : ts.held = (s.thread (s.current c)).held) :
    Inv { s with regs := update s.regs c r, thread := update s.thread (s.current c) ts } := by
  refine h.onCpu s.owner hruns ?_ ?_
  · intro lk c'
    by_cases hc : s.current c' = s.current c
    · rw [hc, update_self, hheld, ← hc]
      exact h.own
    · rw [update_of_ne hc]
      exact h.own
  · intro p hp
    rw [hheld, hp]
    exact h.alive hp

/-- A CPU switches to a thread that is on no other CPU. -/
theorem once_update {th : Thread} (hnot : ∀ c', c' ≠ c → s.current c' ≠ th) {c₁ c₂ : ℕ}
    (he : update s.current c th c₁ = update s.current c th c₂) : c₁ = c₂ := by
  by_cases h₁ : c₁ = c <;> by_cases h₂ : c₂ = c
  · exact h₁.trans h₂.symm
  · rw [h₁, update_self, update_of_ne h₂] at he
    exact absurd he.symm (hnot c₂ h₂)
  · rw [h₂, update_self, update_of_ne h₁] at he
    exact absurd he (hnot c₁ h₁)
  · rw [update_of_ne h₁, update_of_ne h₂] at he
    exact h.once he

theorem onThread_same (hruns : Runs (s.regs c) (s.current c).lock ts (s.running (s.current c)))
    (hheld : ts.held = (s.thread (s.current c)).held) : Inv (s.setThread (s.current c) ts) := by
  have hall := h.onCpu_same hruns hheld
  rwa [update_eq_self] at hall

theorem panic {msg : String} (hmsg : msg = "acquire" ∨ msg = "release" ∨ msg = "sched running") :
    Inv (s.panic c msg) := by
  refine { h with panics := ?_ }
  intro c' msg' hp
  have hp' : update s.panicked c (some msg) c' = some msg' := hp
  by_cases hc : c' = c
  · rw [hc, update_self] at hp'
    exact Option.some.inj hp' ▸ hmsg
  · rw [update_of_ne hc] at hp'
    exact h.panics hp'

/-! ### The steps of a thread -/

variable {rest : List Instr}

/-- The lock word of `lk` is cleared by the thread that holds it. -/
theorem release {lk : Lock} (hm : (s.thread (s.current c)).top.micro = .next)
    (ht : (s.thread (s.current c)).top.todo = .release lk :: rest) (hown : s.owner lk = some c) :
    Inv { s.setThread (s.current c) { s.thread (s.current c) with
            top := { (s.thread (s.current c)).top with micro := .popping, todo := rest }
            held := (s.thread (s.current c)).held.erase lk } with
          owner := update s.owner lk none } := by
  have hruns := h.runs c
  have hlk := h.own.mp hown
  have hall := h.onCpu (update s.owner lk none) (hruns.release hm ht hlk) ?_ ?_
  · rwa [update_eq_self] at hall
  · intro lk' c'
    by_cases hl : lk' = lk
    · subst hl
      rw [update_self]
      refine iff_of_false (Option.some_ne_none c').symm fun hmem => ?_
      by_cases hc : s.current c' = s.current c
      · rw [hc, update_self] at hmem
        exact (hruns.nodup.not_mem_erase) hmem
      · rw [update_of_ne hc] at hmem
        have hcc : c' = c := Option.some.inj ((h.own.mpr hmem).symm.trans hown)
        exact hc (congrArg s.current hcc)
    · rw [update_of_ne hl]
      by_cases hc : s.current c' = s.current c
      · rw [hc, update_self, List.mem_erase_of_ne hl, ← hc]
        exact h.own
      · rw [update_of_ne hc]
        exact h.own
  · intro p hp
    -- a process gives its own lock up only while it is RUNNING
    by_cases hself : lk = .proc p
    · have hg := hruns.good_next hm
      rw [ht] at hg
      have hrun := (hg hlk).1 (by rw [hself, hp]; rfl)
      rw [hp] at hrun
      exact .inl (of_decide_eq_true hrun)
    · rcases h.alive hp with hr | hmem
      · exact .inl hr
      · right
        rw [hp]
        exact (List.mem_erase_of_ne (Ne.symm hself)).mpr hmem

/-- Process `p`, which no other CPU runs, changes its state and its context, and CPU `c` goes on
with thread `th`. -/
theorem onProc (th : Thread) (st : ProcState) (ts : ThreadState)
    (hcur : ∀ q, s.current c = .proc q → q = p) (hother : ∀ c', c' ≠ c → s.current c' ≠ .proc p)
    (hhome : ∀ d, th = .scheduler d → d = c) (honce : ∀ c', c' ≠ c → s.current c' ≠ th)
    (hruns : Runs (s.regs c) th.lock (update s.thread (.proc p) ts th)
      (State.running { s with pstate := update s.pstate p st } th))
    (hheld : (update s.thread (.proc p) ts th).held = (s.thread (s.current c)).held)
    (hproc : ∀ q, th = .proc q →
      q = p ∧ (st = .running ∨ .proc p ∈ ts.held) ∧ Behind p (s.thread (.scheduler c)))
    (hpark : Live st → th ≠ .proc p → Parked (.proc p) ts) :
    Inv { s with
      pstate := update s.pstate p st
      thread := update s.thread (.proc p) ts
      current := update s.current c th } := by
  have hsched : ∀ d, Thread.scheduler d ≠ .proc p := fun d => Thread.noConfusion
  refine ⟨?_, ?_, h.once_update honce, ?_, ?_, ?_, ?_, h.panics⟩
  · intro c'
    by_cases hc : c' = c
    · subst hc
      simp only [update_self]
      exact hruns
    · have hold := h.runs c'
      rw [← State.running_update_of_ne (hother c' hc)] at hold
      simp only [update_of_ne hc, update_of_ne (hother c' hc)]
      exact hold
  · intro c' d hd
    by_cases hc : c' = c
    · subst hc
      simp only [update_self] at hd
      exact hhome d hd
    · simp only [update_of_ne hc] at hd
      exact h.home hd
  · intro lk c'
    by_cases hc : c' = c
    · subst hc
      simp only [update_self]
      rw [hheld]
      exact h.own
    · simp only [update_of_ne hc, update_of_ne (hother c' hc)]
      exact h.own
  · intro c' q hq
    by_cases hc : c' = c
    · subst hc
      simp only [update_self] at hq
      obtain ⟨rfl, halive, -⟩ := hproc q hq
      simp only [update_self]
      exact halive
    · simp only [update_of_ne hc] at hq
      have hqp : q ≠ p := fun he => hother c' hc (he ▸ hq)
      have hne : Thread.proc q ≠ .proc p := fun he => hqp (Thread.proc.inj he)
      simp only [update_of_ne hqp, update_of_ne hne]
      exact h.alive hq
  · intro c' q hq
    by_cases hc : c' = c
    · subst hc
      simp only [update_self] at hq
      obtain ⟨rfl, -, hbehind⟩ := hproc q hq
      exact hbehind
    · simp only [update_of_ne hc] at hq
      exact h.behind hq
  · intro q hlive hq
    by_cases hqp : q = p
    · subst hqp
      simp only [update_self] at hlive ⊢
      exact hpark hlive fun he => hq c ((update_self ..).trans he)
    · have hne : Thread.proc q ≠ .proc p := fun he => hqp (Thread.proc.inj he)
      simp only [update_of_ne hqp] at hlive
      simp only [update_of_ne hne]
      refine h.parked hlive fun c' hc' => ?_
      by_cases hc : c' = c
      · exact hqp (hcur q (hc ▸ hc'))
      · exact hq c' ((update_of_ne hc _ _).trans hc')

/-- A process is on one CPU. -/
theorem other_of_current (hp : s.current c = .proc p) (c' : ℕ) (hc : c' ≠ c) :
    s.current c' ≠ .proc p :=
  fun he => hc (h.once (he.trans hp.symm))

/-- A process changes its own state. -/
theorem setState (hp : s.current c = .proc p) (hm : (s.thread (.proc p)).top.micro = .next)
    (ht : (s.thread (.proc p)).top.todo = .setState st :: rest) :
    Inv { s.setTop (.proc p) { (s.thread (.proc p)).top with todo := rest } with
          pstate := update s.pstate p st } := by
  have hruns := h.runs c
  rw [hp] at hruns
  have hg := hruns.good_next hm
  rw [ht] at hg
  obtain ⟨hst, ⟨l, hl, hmem⟩, hrest⟩ := hg
  obtain rfl : Lock.proc p = l := Option.some.inj hl
  have hother := h.other_of_current hp
  have hrun : State.running { s with pstate := update s.pstate p st } (.proc p) = false := by
    simp only [State.running, update_self]
    exact decide_eq_false hst
  have hall := h.onProc (.proc p) st
    { s.thread (.proc p) with top := { (s.thread (.proc p)).top with todo := rest } }
    (fun q hq => (Thread.proc.inj (hp.symm.trans hq)).symm) hother (fun d => nofun) hother ?_ ?_
    (fun q hq => ⟨(Thread.proc.inj hq).symm, .inr hmem, h.behind hp⟩) fun _ hne => absurd rfl hne
  · rwa [show update s.current c (.proc p) = s.current by rw [← hp, update_eq_self]] at hall
  · rw [update_self, hrun]
    exact hruns.retodo hm hrest
  · rw [update_self, hp]

/-- `sched` switches to the scheduler of the CPU. -/
theorem sched (hp : s.current c = .proc p) (hm : (s.thread (.proc p)).top.micro = .next)
    (ht : (s.thread (.proc p)).top.todo = .sched :: rest) :
    s.owner (.proc p) = some c ∧ (s.regs c).noff = 1 ∧ (s.regs c).intr = false ∧
    Inv { s.setTop (.proc p)
            { (s.thread (.proc p)).top with micro := .switched (s.regs c).intena, todo := rest } with
          current := update s.current c (.scheduler c) } := by
  have hruns := h.runs c
  rw [hp] at hruns
  obtain ⟨l, hl, hheld, hnoff, hintr, hpark⟩ := hruns.sched hm ht
  obtain rfl : Lock.proc p = l := Option.some.inj hl
  have hbehind := h.behind hp
  have hsched : Thread.scheduler c ≠ .proc p := Thread.noConfusion
  refine ⟨h.own.mpr ?_, hnoff, hintr, ?_⟩
  · rw [hp, hheld]
    exact List.mem_singleton_self _
  have hall := h.onProc (.scheduler c) (s.pstate p) _
    (fun q hq => (Thread.proc.inj (hp.symm.trans hq)).symm) (h.other_of_current hp)
    (fun d hd => (Thread.scheduler.inj hd).symm) (fun c' hc hx => hc (h.home hx).symm) ?_ ?_
    (fun q => nofun) fun _ _ => hpark
  · rwa [update_eq_self] at hall
  · exact hbehind.runs hnoff hintr
  · rw [update_of_ne hsched, hbehind.held, ← hheld, hp]

theorem instr (hm : (s.thread (s.current c)).top.micro = .next)
    (hs : s.instr c (s.thread (s.current c)).top = some t) : Inv t := by
  have hruns := h.runs c
  unfold State.instr at hs
  split at hs
  case h_1 => cases hs
  case h_2 lk rest htodo =>
    cases hs
    exact h.onThread_same (hruns.acquire hm htodo) rfl
  case h_3 lk rest htodo =>
    split at hs
    case isTrue hown =>
      cases hs
      exact h.release hm htodo hown
    case isFalse =>
      cases hs
      exact h.panic (.inr (.inl rfl))
  case h_4 st rest htodo =>
    cases hx : s.current c with
    | scheduler d =>
      rw [hx] at hs
      cases hs
    | proc p =>
      rw [hx] at hs hm htodo
      cases hs
      exact h.setState hx hm htodo
  case h_5 rest htodo =>
    cases hx : s.current c with
    | scheduler d =>
      rw [hx] at hs
      cases hs
    | proc p =>
      rw [hx] at hs hm htodo
      obtain ⟨hown, hnoff, hintr, hinv⟩ := h.sched hx hm htodo
      simp only [hown, hnoff, hintr, ne_eq, not_true_eq_false, if_false, Bool.false_eq_true] at hs
      split at hs
      · cases hs
        exact h.panic (.inr (.inr rfl))
      · cases hs
        exact hinv

/-- The lock word of a free lock is taken. -/
theorem take {lk : Lock} (hm : (s.thread (s.current c)).top.micro = .taking lk)
    (hfree : s.owner lk = none) :
    Inv { s.setThread (s.current c) { s.thread (s.current c) with
            top := { (s.thread (s.current c)).top with micro := .next }
            held := lk :: (s.thread (s.current c)).held } with
          owner := update s.owner lk (some c) } := by
  have hnot : ∀ c', lk ∉ (s.thread (s.current c')).held := fun c' hmem => by
    cases hfree.symm.trans (h.own.mpr hmem)
  have hall := h.onCpu (update s.owner lk (some c)) ((h.runs c).take hm (hnot c)) ?_ ?_
  · rwa [update_eq_self] at hall
  · intro lk' c'
    by_cases hc : c' = c
    · subst hc
      rw [update_self]
      by_cases hl : lk' = lk
      · subst hl
        rw [update_self]
        exact iff_of_true rfl List.mem_cons_self
      · rw [update_of_ne hl, h.own]
        exact (List.mem_cons.trans (or_iff_right hl)).symm
    · have hne : s.current c' ≠ s.current c := fun he => hc (h.once he)
      rw [update_of_ne hne]
      by_cases hl : lk' = lk
      · subst hl
        rw [update_self]
        exact iff_of_false (fun he => hc (Option.some.inj he).symm) (hnot c')
      · rw [update_of_ne hl]
        exact h.own
  · intro p hp
    rcases h.alive hp with hr | hmem
    · exact .inl hr
    · right
      rw [hp]
      exact List.mem_cons_of_mem lk hmem

/-- `pop_off` finds the flag off and something to count down. -/
theorem popping (hm : (s.thread (s.current c)).top.micro = .popping) :
    (s.regs c).intr = false ∧ ¬(s.regs c).noff < 1 := by
  have hruns := h.runs c
  have hdepth : (s.thread (s.current c)).depth = (s.thread (s.current c)).held.length + 1 := by
    simp only [ThreadState.depth, hm]
  refine ⟨hruns.off (hdepth ▸ Nat.succ_pos _), ?_⟩
  rw [hruns.noff, hdepth]
  omega

theorem micro (hs : s.micro c = some t) : Inv t := by
  have hruns := h.runs c
  unfold State.micro at hs
  dsimp only at hs
  split at hs
  case h_1 hm => exact h.instr hm hs
  case h_2 lk hm =>
    cases hs
    exact h.onThread_same (hruns.read hm) rfl
  case h_3 lk old hm =>
    cases hs
    exact h.onCpu_same (hruns.mask hm) rfl
  case h_4 lk hm =>
    split at hs
    · split at hs
      · cases hs
        exact h.panic (.inl rfl)
      · cases hs
    · cases hs
      exact h.take hm ‹_›
  case h_5 hm =>
    obtain ⟨hintr, hnoff⟩ := h.popping hm
    rw [hintr, if_neg Bool.false_ne_true, if_neg hnoff] at hs
    cases hs
    exact h.onCpu_same (hruns.pop hm) rfl
  case h_6 => cases hs
  case h_7 b hm =>
    cases hs
    exact h.onCpu_same (hruns.restore hm) rfl

/-! ### The other steps -/

/-- Between calls, the thread is RUNNING. -/
theorem running_of_idle (hidle : s.Idle c) : s.running (s.current c) = true := by
  have hg := (h.runs c).good_next hidle.1
  rwa [List.isEmpty_iff.mp hidle.2] at hg

/-- With the flag on, the thread is RUNNING: it holds no lock. -/
theorem running_of_intr (hon : (s.regs c).intr = true) : s.running (s.current c) = true := by
  obtain ⟨hnil, -⟩ := (h.runs c).outside hon
  cases hx : s.current c with
  | scheduler d => rfl
  | proc p =>
    rw [hx] at hnil
    rcases h.alive hx with hr | hmem
    · exact decide_eq_true hr
    · rw [hnil] at hmem
      cases hmem

/-- The scheduler of CPU `c` switches to `p`, whose lock it holds. -/
theorem switch (hsched : s.current c = .scheduler c) (hidle : s.Idle c)
    (hbelow : (s.thread (.scheduler c)).below = [])
    (hheld : (s.thread (.scheduler c)).held = [.proc p]) (hst : s.pstate p = .runnable) :
    Inv { s.setTop (.proc p) (s.thread (.proc p)).top.resume with
          pstate := update s.pstate p .running
          current := update s.current c (.proc p) } := by
  have hruns := h.runs c
  rw [hsched] at hruns
  have hmicro : (s.thread (.scheduler c)).top.micro = .next := hsched ▸ hidle.1
  have htodo : (s.thread (.scheduler c)).top.todo = [] :=
    List.isEmpty_iff.mp (hsched ▸ hidle.2)
  have hdepth : (s.thread (.scheduler c)).depth = 1 := by
    rw [depth_next hmicro, hheld, List.length_singleton]
  have hnot : ∀ c', s.current c' ≠ .proc p := by
    refine h.not_current (c := c) (by rw [hst]; decide) ?_ ?_
    · rw [hsched, hheld]
      exact List.mem_singleton_self _
    · rw [hsched]
      exact Thread.noConfusion
  have hpark := h.parked (.inr (.inl hst)) hnot
  have hnew := hpark.runs (hruns.noff.trans hdepth) (hruns.off (hdepth ▸ Nat.one_pos))
  have hrun : State.running { s with pstate := update s.pstate p .running } (.proc p) = true := by
    simp only [State.running, update_self, decide_true]
  refine h.onProc (.proc p) _ _ (fun q hq => nomatch hsched.symm.trans hq) (fun c' _ => hnot c')
    (fun d => nofun) (fun c' _ => hnot c') ?_ ?_
    (fun q hq => ⟨(Thread.proc.inj hq).symm, .inl rfl, hmicro, htodo, hbelow, hheld⟩)
    fun _ hne => absurd rfl hne
  · rw [update_self, hrun]
    exact hnew
  · rw [update_self, hsched, hheld]
    exact hpark.held

/-- A process that is marked RUNNING without being switched to. -/
theorem markRunning : Inv { s with pstate := update s.pstate p .running } := by
  have hkeep : ∀ {q}, s.pstate q = .running → update s.pstate p .running q = .running := by
    intro q hq
    by_cases hqp : q = p
    · rw [hqp, update_self]
    · rw [update_of_ne hqp, hq]
  refine { h with runs := ?_, alive := ?_, parked := ?_ }
  · intro c
    cases hrun : State.running { s with pstate := update s.pstate p .running } (s.current c) with
    | true => exact (h.runs c).toRunning
    | false =>
      cases hx : s.current c with
      | scheduler d =>
        rw [hx] at hrun
        cases hrun
      | proc q =>
        have hold := h.runs c
        rw [hx] at hrun hold
        have hne : s.pstate q ≠ .running := fun hq => of_decide_eq_false hrun (hkeep hq)
        rw [show s.running (.proc q) = false from decide_eq_false hne] at hold
        exact hold
  · intro c q hq
    exact (h.alive hq).imp_left hkeep
  · intro q hlive hq
    by_cases hqp : q = p
    · subst hqp
      simp only [Live, update_self] at hlive
      rcases hlive with hl | hl | hl <;> cases hl
    · simp only [update_of_ne hqp] at hlive
      exact h.parked hlive hq

end

/-- The context of a new process. -/
theorem parked_forkret (q : ℕ) : Parked (.proc q) (forkret q) where
  held := rfl
  top := .inr ⟨rfl, rfl⟩
  good := fun _ => ⟨fun _ => rfl, rfl⟩
  below := fun f hf => by cases hf

/-- A thread that holds the lock of process `q` changes its state and its context. -/
theorem change (h : Inv s) {q : ℕ}
    (hnot : ∀ c, s.current c ≠ .proc q) (hpark : Live st → Parked (.proc q) ts) :
    Inv { s with pstate := update s.pstate q st, thread := update s.thread (.proc q) ts } := by
  have hs : ∀ d, Thread.scheduler d ≠ .proc q := fun d => Thread.noConfusion
  refine { h with runs := ?_, own := ?_, alive := ?_, behind := ?_, parked := ?_ }
  · intro c
    have hold := h.runs c
    rw [← State.running_update_of_ne (hnot c)] at hold
    simp only [update_of_ne (hnot c)]
    exact hold
  · intro lk c
    simp only [update_of_ne (hnot c)]
    exact h.own
  · intro c p hp
    have hpq : p ≠ q := fun he => hnot c (he ▸ hp)
    have hne : Thread.proc p ≠ .proc q := fun he => hpq (Thread.proc.inj he)
    simp only [update_of_ne hpq, update_of_ne hne]
    exact h.alive hp
  · intro c p hp
    exact h.behind hp
  · intro p hlive hp
    by_cases hpq : p = q
    · subst hpq
      simp only [update_self] at hlive ⊢
      exact hpark hlive
    · have hne : Thread.proc p ≠ .proc q := fun he => hpq (Thread.proc.inj he)
      simp only [update_of_ne hpq] at hlive
      simp only [update_of_ne hne]
      exact h.parked hlive hp

/-- The state that another thread gives a process is one with a context only if the process
had one already, or has just got it. -/
theorem live_of_mayChange {st st' : ProcState} (hmay : mayChange st st' = true) :
    st ≠ .running ∧ (Live st' → st' = .used ∨ Live st) := by
  cases st <;> cases st' <;> cases hmay
  · exact ⟨by decide, fun _ => .inl rfl⟩
  · exact ⟨by decide, fun _ => .inr (.inl rfl)⟩
  · exact ⟨by decide, fun _ => .inr (.inl rfl)⟩
  · exact ⟨by decide, fun _ => .inr (.inr (.inr rfl))⟩
  · refine ⟨by decide, fun hl => ?_⟩
    rcases hl with hl | hl | hl <;> cases hl

theorem exec (h : Inv s) {a : Action} (hs : exec s a = some t) : Inv t := by
  cases a with
  | call c call =>
    obtain ⟨⟨-, hidle, hold⟩, hs⟩ := Option.ite_none_right_eq_some.mp hs
    obtain ⟨code, hcode, rfl⟩ := Option.map_eq_some_iff.mp hs
    have hruns := h.runs c
    have hgood := call.good hold hcode
    rw [← h.running_of_idle hidle] at hgood
    exact h.onThread_same (hruns.retodo hidle.1 hgood) rfl
  | step c =>
    obtain ⟨-, hs⟩ := Option.ite_none_right_eq_some.mp hs
    exact h.micro hs
  | setIntr c on =>
    obtain ⟨⟨-, hidle, hnil⟩, rfl⟩ := Run.of_guard hs
    have hall := h.onCpu_same ((h.runs c).setIntr hidle.1 hnil on) rfl
    rwa [update_eq_self] at hall
  | interrupt c =>
    obtain ⟨⟨-, hon⟩, rfl⟩ := Run.of_guard hs
    have hruns := h.runs c
    have hrun := h.running_of_intr hon
    rw [hrun] at hruns
    have hnew := hruns.interrupt hon
    rw [← hrun] at hnew
    exact h.onCpu_same hnew rfl
  | sret c =>
    simp only [Intr.exec] at hs
    split at hs
    case h_1 => cases hs
    case h_2 f below hbelow =>
      obtain ⟨⟨-, hidle, hnil⟩, rfl⟩ := Run.of_guard hs
      have hnew := (h.runs c).sret hidle.1 hnil hbelow
      have hrun := h.running_of_idle hidle
      exact h.onCpu_same ((congrArg (Runs _ _ _) hrun).mpr hnew) rfl
  | switch c p =>
    obtain ⟨⟨-, hsched, hidle, hbelow, hheld, hst⟩, rfl⟩ := Run.of_guard hs
    exact h.switch hsched hidle hbelow hheld hst
  | badSwitch c p =>
    obtain ⟨-, rfl⟩ := Run.of_guard hs
    exact (h.panic (.inr (.inl rfl))).markRunning
  | change c q st =>
    obtain ⟨⟨-, hidle, hmem, hne, hmay⟩, hs⟩ := Option.ite_none_right_eq_some.mp hs
    obtain ⟨hstate, hlive⟩ := live_of_mayChange hmay
    have hnot := h.not_current hstate hmem hne
    split at hs
    case isTrue hused =>
      cases hs
      exact h.change hnot fun _ => parked_forkret q
    case isFalse hused =>
      cases hs
      have hkeep := h.change hnot fun hl => h.parked ((hlive hl).resolve_left hused) hnot
      rwa [update_eq_self] at hkeep

theorem init (h : Init s) : Inv s := by
  have hrun : ∀ c, Runs (s.regs c) (s.current c).lock (s.thread (s.current c))
      (s.running (s.current c)) := by
    intro c
    obtain ⟨hm, htodo, hbelow, hheld⟩ := h.thread c
    rw [h.current c]
    have hdepth : (s.thread (.scheduler c)).depth = 0 := by
      rw [depth_next hm, hheld, List.length_nil]
    refine ⟨(h.noff c).trans hdepth.symm, ?_, hheld ▸ List.nodup_nil, ?_, ?_, ?_, ?_, ?_, ?_⟩
    · intro hd
      rw [hdepth] at hd
      exact absurd hd (Nat.lt_irrefl 0)
    · intro _ lk hr
      cases hm.symm.trans hr
    · intro _ lk old hmask
      cases hm.symm.trans hmask
    · intro l hl
      cases hl
    · intro b hb
      cases hm.symm.trans hb
    · simp only [Frame.Good, hm, htodo, Good, State.running]
    · intro f hf
      rw [hbelow] at hf
      cases hf
  refine ⟨hrun, ?_, ?_, ?_, ?_, ?_, ?_, ?_⟩
  · intro c c' hc
    exact (Thread.scheduler.inj ((h.current c).symm.trans hc)).symm
  · intro c c' hc
    rw [h.current c, h.current c'] at hc
    exact Thread.scheduler.inj hc
  · intro lk c
    obtain ⟨-, -, -, hheld⟩ := h.thread c
    rw [h.owner lk, h.current c, hheld]
    exact iff_of_false (Option.some_ne_none c).symm List.not_mem_nil
  · intro c p hp
    cases (h.current c).symm.trans hp
  · intro c p hp
    cases (h.current c).symm.trans hp
  · intro p hlive _
    rw [h.pstate p] at hlive
    rcases hlive with hl | hl | hl <;> cases hl
  · intro c msg hp
    cases (h.panicked c).symm.trans hp

end Inv

/-- The thread on CPU `c` is about to enter `sched`. -/
def State.AtSched (s : State) (c : ℕ) : Prop :=
  (s.thread (s.current c)).top.micro = .next ∧
    (s.thread (s.current c)).top.todo.head? = some .sched

/-- The process on CPU `c` is in the `pop_off` of its outermost `release`, and the flag was
`b` just before the matching `acquire`. -/
structure State.AtLastPop (s : State) (c : ℕ) (b : Bool) : Prop where
  isProc : ∃ p, s.current c = .proc p
  micro : (s.thread (s.current c)).top.micro = .popping
  held : (s.thread (s.current c)).held = []
  before : (s.thread (s.current c)).top.before = some b

namespace Inv

variable {s t : State} {c : ℕ}

theorem noff_of_atSched (h : Inv s) (hat : s.AtSched c) : (s.regs c).noff = 1 := by
  obtain ⟨hm, hhead⟩ := hat
  obtain ⟨rest, htodo⟩ := List.head?_eq_some_iff.mp hhead
  obtain ⟨-, -, -, hnoff, -, -⟩ := (h.runs c).sched hm htodo
  exact hnoff

/-- The outermost `release` puts the flag back. -/
theorem regs_of_lastPop (h : Inv s) {b : Bool} (hat : s.AtLastPop c b)
    (hs : s.micro c = some t) : (t.regs c).noff = 0 ∧ (t.regs c).intr = b := by
  obtain ⟨⟨p, hp⟩, hm, hheld, hbefore⟩ := hat
  have hruns := h.runs c
  have hdepth : (s.thread (s.current c)).depth = 1 := by
    simp only [ThreadState.depth, hm, hheld, List.length_nil]
  have hintena : (s.regs c).intena = b := by
    refine hruns.saved (.proc p) (by rw [hp]; rfl) (hdepth ▸ Nat.one_pos) (fun b' hb' => ?_) b hbefore
    cases hm.symm.trans hb'
  obtain ⟨hintr, hnoff⟩ := h.popping hm
  have hone : (s.regs c).noff - 1 = 0 := by rw [hruns.noff, hdepth]
  simp only [State.micro, hm, hintr, if_neg hnoff, hone, if_true, Bool.false_eq_true, if_false,
    Option.some.injEq] at hs
  rw [← hs]
  simp only [State.setRegs, update_self]
  exact ⟨trivial, hintena⟩

end Inv

/-- **Interrupt nesting across context switches.** For any number of CPUs and processes, in
any interleaving of the single steps of `acquire`, `release`, `sched`, the schedulers and
interrupts: a CPU inside `push_off` has interrupts off, `pop_off` and the checks of `sched`
on the lock, `noff` and the flag never panic, `sched` is entered with `noff` 1, and the end
of a process's outermost `release` leaves the flag, on the CPU it then runs on, as it was
before the matching `acquire`. -/
theorem interrupt_nesting (s : State) (hs : Reachable Init (relOf exec) s) (c : ℕ) :
    (0 < (s.regs c).noff → (s.regs c).intr = false) ∧
    (∀ msg, s.panicked c = some msg →
      msg = "acquire" ∨ msg = "release" ∨ msg = "sched running") ∧
    (s.AtSched c → (s.regs c).noff = 1) ∧
    (∀ b, s.AtLastPop c b → ∀ t, exec s (.step c) = some t →
      (t.regs c).noff = 0 ∧ (t.regs c).intr = b) := by
  have hinv : Inv s := hs.invariant Inv (fun _ => Inv.init) fun _ _ _ h _ hstep => h.exec hstep
  refine ⟨?_, fun msg hp => hinv.panics hp, hinv.noff_of_atSched, ?_⟩
  · intro hpos
    rw [(hinv.runs c).noff] at hpos
    exact (hinv.runs c).off hpos
  · intro b hat t hstep
    obtain ⟨-, hmicro⟩ := Option.ite_none_right_eq_some.mp hstep
    exact hinv.regs_of_lastPop hat hmicro

/-- Two CPUs at boot: interrupts are on at CPU 0 and off at the others. -/
def booted : State where
  regs c := { intr := c == 0, noff := 0, intena := false }
  current c := .scheduler c
  panicked _ := none
  owner _ := none
  pstate _ := .unused
  thread _ := { top := { micro := .next, todo := [], before := none }, below := [], held := [] }

theorem booted_init : Init booted :=
  ⟨fun _ => rfl, fun _ => rfl, fun _ => rfl, fun _ => rfl, fun _ => rfl,
    fun _ => ⟨rfl, rfl, rfl, rfl⟩⟩

/-- A call to `acquire` or `release`, to its end. -/
def acquires (c : ℕ) (lk : Lock) : List Action := .call c (.acquire lk) :: List.replicate 4 (.step c)

def releases (c : ℕ) (lk : Lock) : List Action := .call c (.release lk) :: List.replicate 2 (.step c)

/-- Process 0 is made and runs on CPU 0, is interrupted there, yields with interrupts on, and
goes on at CPU 1, up to the `pop_off` at the end of `yield`. -/
def migrates : List Action :=
  acquires 0 (.proc 0) ++ [.change 0 0 .used, .change 0 0 .runnable, .switch 0 0, .step 0, .step 0,
    .interrupt 0, .sret 0, .call 0 .yield] ++ List.replicate 6 (.step 0) ++
  releases 0 (.proc 0) ++ acquires 1 (.proc 0) ++ [.switch 1 0, .step 1, .step 1]

/-- CPU 1 had interrupts off, but the process had them on. -/
theorem interrupt_nesting_migrates : ∃ s : State, s.AtLastPop 1 true ∧
    (booted.regs 1).intr = false ∧
    ∃ t, exec s (.step 1) = some t ∧ (t.regs 1).noff = 0 ∧ (t.regs 1).intr = true := by
  obtain ⟨s, hreach, hcur, hmicro, hheld, hbefore, hsome⟩ : ∃ s, Reachable Init (relOf exec) s ∧
      s.current 1 = .proc 0 ∧ (s.thread (.proc 0)).top.micro = .popping ∧
      (s.thread (.proc 0)).held = [] ∧ (s.thread (.proc 0)).top.before = some true ∧
      (exec s (.step 1)).isSome := Run.exists_reachable migrates booted_init (by decide +kernel)
  rw [← hcur] at hmicro hheld hbefore
  have hat : s.AtLastPop 1 true := ⟨⟨0, hcur⟩, hmicro, hheld, hbefore⟩
  obtain ⟨t, ht⟩ := Option.isSome_iff_exists.mp hsome
  exact ⟨s, hat, rfl, t, ht, (interrupt_nesting s hreach 1).2.2.2 true hat t ht⟩

end Xv6.Intr
