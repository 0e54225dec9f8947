import Xv6.Wait.Model

/-!
The invariant behind `exit` and `wait`.

`State.Inv` has three parts. Parents: whoever is a parent is alive, since `exit` gives all
children away before it makes the process ZOMBIE, and a process can only make itself a
parent. Waking: a process asleep in `wait` has a ZOMBIE child only while the `exit` that
made `initproc` its parent is about to wake `initproc` up. And what each call has seen so
far of the table (`Pc.Ok`), which nobody else changes while it holds `wait_lock`
(`Pc.Ok.transfer`).

Each assignment of the model keeps the invariant under the lemma named after it.
-/

namespace Xv6.Wait

open Function (update update_self update_of_ne)
open State (setParent)

/-- SLEEPING, RUNNABLE or RUNNING. -/
def Live (st : ProcState) : Prop := st = .sleeping ∨ st = .runnable ∨ st = .running

/-- The child that a `fork` is making. -/
def Pc.child : Pc → Option Slot
  | .fork (.link q) | .fork (.run q) => some q
  | _ => none

/-- The call holds `wait_lock`. -/
def Pc.holds : Pc → Bool
  | .exit _ .acquire => false
  | .exit _ _ => true
  | .wait _ (.scan _ _) => true
  | _ => false

/-- Process `p` is SLEEPING inside `wait` or `waitx`. -/
def State.Asleep (s : State) (p : Slot) : Prop :=
  s.state p = .sleeping ∧ ∃ x, s.pc p = .wait x .asleep

/-- The slots below `i` hold no child of `p` any more. -/
def State.Moved (s : State) (p : Slot) (i : ℕ) : Prop := ∀ q : Slot, q < i → s.parent q ≠ some p

/-- What `exit` of `p` has done so far. -/
def Exit.Ok (s : State) (p : Slot) : Exit → Prop
  | .acquire => True
  | .reparent i => s.Moved p i
  | .wakeInit i _ => s.Moved p (i + 1)
  | .wakeParent r j =>
    s.Moved p NPROC ∧ s.parent p = r ∧ ∀ q : Slot, r = some q → q < j → ¬ s.Asleep q
  | .zombie r => s.Moved p NPROC ∧ s.parent p = r ∧ ∀ q, r = some q → ¬ s.Asleep q

/-- What the call that `p` is in has seen of the table. -/
def Pc.Ok (s : State) (p : Slot) : Pc → Prop
  | .fork (.link q) => s.state q = .used
  | .fork (.run q) => s.state q = .used ∧ s.parent q = some p
  | .exit _ e => p ≠ initproc ∧ e.Ok s p
  | .wait _ (.scan i _) => ∀ q : Slot, q < i → s.parent q = some p → s.state q ≠ .zombie
  | _ => True

structure State.Inv (s : State) : Prop where
  parent_live : ∀ {q r}, s.parent q = some r → Live (s.state r)
  has_parent : ∀ {q}, q ≠ initproc → Live (s.state q) ∨ s.state q = .zombie → s.parent q ≠ none
  init_live : Live (s.state initproc)
  holds_lock : ∀ {p}, (s.pc p).holds = true → s.waitLock = some p
  holds_running : ∀ {p}, (s.pc p).holds = true → s.state p = .running
  child_unique : ∀ {p p' q}, (s.pc p).child = some q → (s.pc p').child = some q → p' = p
  ok : ∀ p, (s.pc p).Ok s p
  asleep_chan : ∀ {p}, s.Asleep p → s.chan p = some (.proc p)
  woken : ∀ {p q}, s.state q = .zombie → s.parent q = some p → s.Asleep p →
    p = initproc ∧ ∃ e st i, s.waitLock = some e ∧ s.pc e = .exit st (.wakeInit i 0)

/-- Nothing that `p` has seen under `wait_lock` is different in `t`. -/
structure Unchanged (s t : State) (p : Slot) : Prop where
  children : ∀ {q}, t.parent q = some p → s.parent q = some p
  parent : t.parent p = s.parent p
  asleep : ∀ {q}, t.Asleep q → s.Asleep q
  zombie : ∀ {q}, t.state q = .zombie → s.state q = .zombie

theorem Exit.Ok.transfer {s t : State} {p : Slot} {e : Exit} (h : e.Ok s p)
    (hseen : e ≠ .acquire → Unchanged s t p) : e.Ok t p := by
  have hmoved : ∀ {i}, e ≠ .acquire → s.Moved p i → t.Moved p i :=
    fun he hm q hq hpar => hm q hq ((hseen he).children hpar)
  cases e with
  | acquire => trivial
  | reparent i | wakeInit i j => exact hmoved nofun h
  | wakeParent r j =>
    obtain ⟨hm, hr, hawake⟩ := h
    exact ⟨hmoved nofun hm, (hseen nofun).parent.trans hr,
      fun q hq hj hsl => hawake q hq hj ((hseen nofun).asleep hsl)⟩
  | zombie r =>
    obtain ⟨hm, hr, hawake⟩ := h
    exact ⟨hmoved nofun hm, (hseen nofun).parent.trans hr,
      fun q hq hsl => hawake q hq ((hseen nofun).asleep hsl)⟩

/-- A process that makes a child has nobody else change it, and one that holds `wait_lock` has
nobody else change what it has seen. -/
theorem Pc.Ok.transfer {s t : State} {p : Slot} {pc : Pc} (h : pc.Ok s p)
    (hused : ∀ q, pc.child = some q → s.state q = .used → t.state q = .used)
    (hparent : ∀ q, pc.child = some q → s.state q = .used → s.parent q = some p →
      t.parent q = some p)
    (hseen : pc.holds = true → Unchanged s t p) : pc.Ok t p := by
  cases pc with
  | free | dead => trivial
  | fork f =>
    cases f with
    | link q => exact hused q rfl h
    | run q => exact ⟨hused q rfl h.1, hparent q rfl h.1 h.2⟩
  | exit st e =>
    refine ⟨h.1, h.2.transfer fun he => hseen ?_⟩
    cases e with
    | acquire => exact absurd rfl he
    | _ => rfl
  | wait x w =>
    cases w with
    | acquire | asleep => trivial
    | scan i kids =>
      have hsame := hseen rfl
      exact fun q hq hpar hz => h q hq (hsame.children hpar) (hsame.zombie hz)

namespace State.Inv

variable {s t : State} {p q r : Slot} {pc : Pc}

theorem boot_inv : boot.Inv := by
  have hstate : ∀ q, q ≠ initproc → boot.state q = .unused := by
    intro q hq
    simp [boot, update_of_ne hq]
  constructor <;> intros <;> simp_all [boot, Pc.holds, Pc.child, Pc.Ok, State.Asleep, Live]

theorem ok_at (h : s.Inv) (hpc : s.pc p = pc) : pc.Ok s p := hpc ▸ h.ok p

theorem child_used (h : s.Inv) (hq : (s.pc p).child = some q) : s.state q = .used := by
  have hok := h.ok p
  cases hpc : s.pc p with
  | fork f =>
    rw [hpc] at hq hok
    cases f with
    | link q' => cases hq; exact hok
    | run q' => cases hq; exact hok.1
  | _ => rw [hpc] at hq; cases hq

/-- A process without `wait_lock` in its hands moves on. -/
theorem not_holds (h : s.Inv) (hfree : s.waitLock = none) (p : Slot) : (s.pc p).holds = false := by
  by_contra hp
  have hlock := h.holds_lock ((Bool.not_eq_false _).mp hp)
  rw [hfree] at hlock
  cases hlock

/-- Only one process holds `wait_lock`. -/
theorem holds_unique (h : s.Inv) (hp : (s.pc p).holds = true) (hq : (s.pc q).holds = true) :
    q = p :=
  Option.some.inj ((h.holds_lock hq).symm.trans (h.holds_lock hp))

/-! ### One assignment at a time -/

/-- One process changes its state. -/
theorem setState (h : s.Inv) {st : ProcState}
    (hlive : Live (s.state p) → Live st ∨ p ≠ initproc ∧ ∀ q, s.parent q ≠ some p)
    (hparent : p ≠ initproc → Live st ∨ st = .zombie → s.parent p ≠ none)
    (hholds : (s.pc p).holds = true → st = .running)
    (hchild : ∀ r, (s.pc r).child = some p → st = .used)
    (hzombie : st = .zombie →
      (∀ q, (s.pc q).holds = false) ∧ ∀ r, s.parent p = some r → ¬ s.Asleep r)
    (hsleep : st = .sleeping → ∀ x, s.pc p = .wait x .asleep → (∀ q, (s.pc q).holds = false) ∧
      s.chan p = some (.proc p) ∧ ∀ q, s.parent q = some p → s.state q ≠ .zombie) :
    (s.setState p st).Inv := by
  have hself : (s.setState p st).state p = st := update_self ..
  have hstate : ∀ {q}, q ≠ p → (s.setState p st).state q = s.state q := fun hq => update_of_ne hq ..
  have hasleep : ∀ {q}, (s.setState p st).Asleep q → q ≠ p → s.Asleep q :=
    fun hsl hq => ⟨hstate hq ▸ hsl.1, hsl.2⟩
  have hcases : ∀ {q}, (s.setState p st).state q = .zombie →
      q = p ∧ st = .zombie ∨ q ≠ p ∧ s.state q = .zombie := by
    intro q hz
    by_cases hq : q = p
    · exact .inl ⟨hq, by rwa [hq, hself] at hz⟩
    · exact .inr ⟨hq, hstate hq ▸ hz⟩
  have hnone : ∀ {q}, (∀ r, (s.pc r).holds = false) → (s.pc q).holds ≠ true := by
    intro q hfree hq
    rw [hfree q] at hq
    cases hq
  refine { h with
    parent_live := ?_, has_parent := ?_, init_live := ?_, holds_running := ?_, ok := ?_
    asleep_chan := ?_, woken := ?_ }
  · intro q r hq
    by_cases hr : r = p
    · subst hr
      rw [hself]
      exact (hlive (h.parent_live hq)).resolve_right fun hno => hno.2 q hq
    · rw [hstate hr]
      exact h.parent_live hq
  · intro q hq hlz
    by_cases hqp : q = p
    · subst hqp
      rw [hself] at hlz
      exact hparent hq hlz
    · rw [hstate hqp] at hlz
      exact h.has_parent hq hlz
  · by_cases hp : initproc = p
    · subst hp
      rw [hself]
      exact (hlive h.init_live).resolve_right fun hno => hno.1 rfl
    · rw [hstate hp]
      exact h.init_live
  · intro q hq
    by_cases hqp : q = p
    · subst hqp
      exact hself.trans (hholds hq)
    · exact (hstate hqp).trans (h.holds_running hq)
  · refine fun q => (h.ok q).transfer (fun r hr hused => ?_) (fun _ _ _ hpar => hpar)
      fun hq => ⟨fun hr => hr, rfl, fun {r} hsl => ?_, fun {r} hz => ?_⟩
    · by_cases hrp : r = p
      · subst hrp
        exact hself.trans (hchild q hr)
      · exact (hstate hrp).trans hused
    · by_cases hrp : r = p
      · subst hrp
        obtain ⟨hst, x, hx⟩ := hsl
        exact absurd hq (hnone (hsleep (hself.symm.trans hst) x hx).1)
      · exact hasleep hsl hrp
    · rcases hcases hz with ⟨-, hst⟩ | ⟨-, hz⟩
      · exact absurd hq (hnone (hzombie hst).1)
      · exact hz
  · intro q hsl
    by_cases hq : q = p
    · subst hq
      obtain ⟨hst, x, hx⟩ := hsl
      exact (hsleep (hself.symm.trans hst) x hx).2.1
    · exact h.asleep_chan (hasleep hsl hq)
  · intro r q hz hpar hsl
    by_cases hr : r = p
    · subst hr
      obtain ⟨hst, x, hx⟩ := hsl
      rcases hcases hz with ⟨-, hst'⟩ | ⟨-, hz⟩
      · cases hst'.symm.trans (hself.symm.trans hst)
      · exact absurd hz ((hsleep (hself.symm.trans hst) x hx).2.2 q hpar)
    · rcases hcases hz with ⟨rfl, hst⟩ | ⟨-, hz⟩
      · exact absurd (hasleep hsl hr) ((hzombie hst).2 r hpar)
      · exact h.woken hz hpar (hasleep hsl hr)

/-- A live process is no child that `fork` is still making. -/
theorem not_child (h : s.Inv) (hp : Live (s.state p)) (r : Slot) : (s.pc r).child ≠ some p := by
  intro hr
  rw [h.child_used hr] at hp
  simp [Live] at hp

/-- A live process changes between the live states. -/
theorem setLive (h : s.Inv) {st : ProcState} (hold : Live (s.state p)) (hnew : Live st)
    (hrun : (s.pc p).holds = true → st = .running)
    (hsleep : st = .sleeping → ∀ x, s.pc p ≠ .wait x .asleep) : (s.setState p st).Inv := by
  refine h.setState (fun _ => .inl hnew) (fun hp _ => h.has_parent hp (.inl hold)) hrun
    (fun r hr => absurd hr (h.not_child hold r)) ?_ fun hst x hx => absurd hx (hsleep hst x)
  rintro rfl
  simp [Live] at hnew

/-- No process asleep in `wait` has a ZOMBIE child. -/
def NoneStuck (s : State) : Prop :=
  ∀ p q, s.state q = .zombie → s.parent q = some p → ¬ s.Asleep p

section

variable (h : s.Inv)
include h

/-- A process that is not SLEEPING goes to another point of its call. -/
theorem setPc (hst : s.state p ≠ .sleeping)
    (hholds : pc.holds = true → s.waitLock = some p ∧ s.state p = .running) (hok : pc.Ok s p)
    (hchild : ∀ q, pc.child = some q → ∀ p', p' ≠ p → (s.pc p').child ≠ some q)
    (hwoken : ∀ st i, s.pc p = .exit st (.wakeInit i 0) → NoneStuck s) : (s.setPc p pc).Inv := by
  have hcases : ∀ q, q = p ∧ (s.setPc p pc).pc q = pc ∨ q ≠ p ∧ (s.setPc p pc).pc q = s.pc q := by
    intro q
    by_cases hqp : q = p
    · exact .inl ⟨hqp, by rw [hqp]; exact update_self ..⟩
    · exact .inr ⟨hqp, update_of_ne hqp ..⟩
  have hasleep : ∀ {q}, (s.setPc p pc).Asleep q → s.Asleep q := by
    rintro q ⟨hsl, x, hpc⟩
    rcases hcases q with ⟨rfl, -⟩ | ⟨-, hq⟩
    · exact absurd hsl hst
    · exact ⟨hsl, x, hq ▸ hpc⟩
  have hseen : ∀ q, Unchanged s (s.setPc p pc) q := fun q => ⟨fun hr => hr, rfl, hasleep, fun hz => hz⟩
  refine { h with
    holds_lock := ?_, holds_running := ?_, child_unique := ?_, ok := ?_
    asleep_chan := fun hq => h.asleep_chan (hasleep hq), woken := ?_ }
  · intro q hq
    rcases hcases q with ⟨rfl, hpc⟩ | ⟨-, hpc⟩
    · exact (hholds (hpc ▸ hq)).1
    · exact h.holds_lock (hpc ▸ hq)
  · intro q hq
    rcases hcases q with ⟨rfl, hpc⟩ | ⟨-, hpc⟩
    · exact (hholds (hpc ▸ hq)).2
    · exact h.holds_running (hpc ▸ hq)
  · intro q₁ q₂ q' h₁ h₂
    rcases hcases q₁ with ⟨hq₁, hpc₁⟩ | ⟨hq₁, hpc₁⟩ <;>
      rcases hcases q₂ with ⟨hq₂, hpc₂⟩ | ⟨hq₂, hpc₂⟩
    · exact hq₂.trans hq₁.symm
    · exact absurd (hpc₂ ▸ h₂) (hchild q' (hpc₁ ▸ h₁) q₂ hq₂)
    · exact absurd (hpc₁ ▸ h₁) (hchild q' (hpc₂ ▸ h₂) q₁ hq₁)
    · exact h.child_unique (hpc₁ ▸ h₁) (hpc₂ ▸ h₂)
  · intro q
    have hold : ((s.setPc p pc).pc q).Ok s q := by
      rcases hcases q with ⟨rfl, hpc⟩ | ⟨-, hpc⟩
      · rwa [hpc]
      · rw [hpc]
        exact h.ok q
    exact hold.transfer (fun _ _ hst => hst) (fun _ _ _ hpar => hpar) fun _ => hseen q
  · intro r q hz hpar hsl
    obtain ⟨hr, e, st, i, hlock, hpc⟩ := h.woken hz hpar (hasleep hsl)
    have hne : e ≠ p := by
      rintro rfl
      exact hwoken st i hpc r q hz hpar (hasleep hsl)
    exact ⟨hr, e, st, i, hlock, (update_of_ne hne ..).trans hpc⟩

/-- Nobody is in a section of `wait_lock` any more. -/
theorem release (hp : ∀ p, (s.pc p).holds = false) : s.release.Inv := by
  refine { h with holds_lock := ?_, woken := ?_ }
  · intro p hholds
    rw [show (s.release.pc p).holds = false from hp p] at hholds
    cases hholds
  · intro r q hz hpar hsl
    obtain ⟨-, e, st, i, -, hpc⟩ := h.woken hz hpar hsl
    have hholds := hp e
    rw [hpc] at hholds
    cases hholds

theorem acquire (hfree : s.waitLock = none) : (s.acquire p).Inv := by
  have hp := h.not_holds hfree
  refine { h with holds_lock := ?_, woken := ?_ }
  · intro q hholds
    rw [show ((s.acquire p).pc q).holds = false from hp q] at hholds
    cases hholds
  · intro r q hz hpar hsl
    obtain ⟨-, e, st, i, hlock, -⟩ := h.woken hz hpar hsl
    rw [hfree] at hlock
    cases hlock

theorem setChan (chan : Option Chan) (hp : ¬ s.Asleep p) : (s.setChan p chan).Inv := by
  refine { h with asleep_chan := ?_ }
  intro q hq
  have hne : q ≠ p := by
    rintro rfl
    exact hp hq
  simpa [State.setChan, update_of_ne hne] using h.asleep_chan (p := q) hq

/-- `exit` makes the process ZOMBIE. -/
theorem setZombie (hinit : p ≠ initproc) (hst : s.state p = .running) (hpc : s.pc p = .dead)
    (hchildren : ∀ q, s.parent q ≠ some p) (hparent : ∀ r, s.parent p = some r → ¬ s.Asleep r)
    (hp : ∀ q, (s.pc q).holds = false) : (s.setState p .zombie).Inv := by
  have hlive : Live (s.state p) := .inr (.inr hst)
  refine h.setState (fun _ => .inr ⟨hinit, hchildren⟩) (fun _ _ => h.has_parent hinit (.inl hlive))
    (fun hholds => ?_) (fun r hr => absurd hr (h.not_child hlive r)) (fun _ => ⟨hp, hparent⟩) nofun
  rw [hpc] at hholds
  cases hholds

/-- A process goes to sleep in `wait`. -/
theorem setAsleep (hst : s.state p = .running) {x : Bool} (hpc : s.pc p = .wait x .asleep)
    (hchan : s.chan p = some (.proc p)) (hkids : ∀ q, s.parent q = some p → s.state q ≠ .zombie)
    (hp : ∀ q, (s.pc q).holds = false) : (s.setState p .sleeping).Inv := by
  have hlive : Live (s.state p) := .inr (.inr hst)
  refine h.setState (fun _ => .inl (.inl rfl)) (fun hinit _ => h.has_parent hinit (.inl hlive))
    (fun hholds => ?_) (fun r hr => absurd hr (h.not_child hlive r)) nofun
    fun _ _ _ => ⟨hp, hchan, hkids⟩
  rw [hpc] at hholds
  cases hholds

/-- `fork` makes the process the parent of its child. -/
theorem link (hfree : s.waitLock = none) (hst : s.state p = .running)
    (hpc : s.pc p = .fork (.link q)) : (s.setParent q (some p)).Inv := by
  have hchild : (s.pc p).child = some q := by
    rw [hpc]
    rfl
  have hq : s.state q = .used := h.child_used hchild
  have hp := h.not_holds hfree
  have hinit : q ≠ initproc := by
    rintro rfl
    have hlive := h.init_live
    rw [hq] at hlive
    simp [Live] at hlive
  refine { h with parent_live := ?_, has_parent := ?_, ok := ?_, woken := ?_ }
  · intro q' r hpar
    by_cases hqq : q' = q
    · subst hqq
      simp only [setParent, update_self, Option.some.injEq] at hpar
      subst hpar
      exact .inr (.inr hst)
    · exact h.parent_live (by simpa [setParent, update_of_ne hqq] using hpar)
  · intro q' hq' hlz
    by_cases hqq : q' = q
    · subst hqq
      simp [setParent]
    · simpa [setParent, update_of_ne hqq] using h.has_parent hq' hlz
  · refine fun p' => (h.ok p').transfer (fun _ _ hst => hst) (fun q' hq' _ hpar => ?_) fun hp' => ?_
    · by_cases hqq : q' = q
      · subst hqq
        rw [h.child_unique hchild hq']
        exact update_self ..
      · exact (update_of_ne hqq ..).trans hpar
    · rw [hp p'] at hp'
      cases hp'
  · intro r q' hz hpar hsl
    have hne : q' ≠ q := by
      rintro rfl
      rw [show s.state q' = _ from hz] at hq
      cases hq
    exact h.woken hz (by simpa [setParent, update_of_ne hne] using hpar) hsl

/-- A process that is not alive is in no section of `wait_lock`. -/
theorem not_holds_of_dead (hdead : ¬ Live (s.state q)) : (s.pc q).holds ≠ true :=
  fun hq => hdead (.inr (.inr (h.holds_running hq)))

/-- `fork` makes its child RUNNABLE. -/
theorem setRunnable (hq : s.state q = .used) (hparent : s.parent q ≠ none)
    (hchild : ∀ p, (s.pc p).child ≠ some q) : (s.setState q .runnable).Inv := by
  have hdead : ¬ Live (s.state q) := by simp [hq, Live]
  exact h.setState (fun _ => .inl (.inr (.inl rfl))) (fun _ _ => hparent)
    (fun hholds => absurd hholds (h.not_holds_of_dead hdead))
    (fun r hr => absurd hr (hchild r)) nofun nofun

/-- `allocproc` takes a slot. -/
theorem allocproc (hq : s.state q = .unused) : (s.allocproc q).Inv := by
  have hdead : ¬ Live (s.state q) := by simp [hq, Live]
  have hholds := h.not_holds_of_dead hdead
  have hused : (s.setState q .used).Inv :=
    h.setState (fun hlive => absurd hlive hdead) (fun _ => nofun) (fun hq => absurd hq hholds)
      (fun _ _ => rfl) nofun nofun
  have hself : (s.setState q .used).state q = .used := update_self ..
  have hpc : ((s.setState q .used).setPc q .free).Inv := by
    refine hused.setPc (by rw [hself]; decide) nofun trivial nofun fun st i hexit => ?_
    exact absurd (by rw [show s.pc q = _ from hexit]; rfl) hholds
  exact { hpc with }

/-- A free slot has no parent. -/
theorem clearParent (hq : s.state q = .unused) : (s.setParent q none).Inv := by
  have hpar : ∀ {p r}, (s.setParent q none).parent p = some r → s.parent p = some r := by
    intro p r hp
    have hpq : p ≠ q := by
      rintro rfl
      simp [setParent] at hp
    simpa [setParent, update_of_ne hpq] using hp
  have hother : ∀ {p}, s.state p ≠ .unused → (s.setParent q none).parent p = s.parent p := by
    intro p hp
    have hpq : p ≠ q := by
      rintro rfl
      exact hp hq
    exact update_of_ne hpq ..
  refine { h with
    parent_live := fun hp => h.parent_live (hpar hp)
    has_parent := fun hp hlz => ?_
    ok := fun p => (h.ok p).transfer (fun _ _ hst => hst) (fun r _ hused hr => ?_) fun hp =>
      ⟨hpar, hother ?_, fun hsl => hsl, fun hz => hz⟩
    woken := fun hz hp => h.woken hz (hpar hp) }
  · rw [hother fun hunused => ?_]
    · exact h.has_parent hp hlz
    · simp [setParent, hunused, Live] at hlz
  · rw [hother (by rw [hused]; decide)]
    exact hr
  · rw [h.holds_running hp]
    decide

/-- `freeproc` of a process that is not alive. -/
theorem freeproc (hdead : ¬ Live (s.state q)) (hchild : ∀ p, (s.pc p).child ≠ some q) :
    (s.freeproc q).Inv := by
  have hunused : (s.setState q .unused).Inv :=
    h.setState (fun hlive => absurd hlive hdead) (fun _ => nofun)
      (fun hq => absurd hq (h.not_holds_of_dead hdead)) (fun r hr => absurd hr (hchild r)) nofun nofun
  have hself : (s.setState q .unused).state q = .unused := update_self ..
  have hchan : (((s.setState q .unused).setParent q none).setChan q none).Inv := by
    refine (hunused.clearParent hself).setChan none fun hsl => ?_
    cases hself.symm.trans hsl.1
  exact { hchan with }

end

end State.Inv

end Xv6.Wait
