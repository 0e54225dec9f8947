import Mathlib.Data.List.Perm.Subperm
import Xv6.Virtio.Descriptors

/-!
The driver and the device together.

`Inv` follows each request from its thread to the device and back: the heads that are
`outstanding` (in the available ring, with the device, or in the used ring) are those of the
published chains whose `b->disk` is still set. A chain has three of the `NUM` descriptors and
no head is outstanding twice, so the rings never overflow and the 16-bit indices can wrap.

* `SameWork`: what a step that only moves a thread on leaves unchanged.
* `Inv.*`: one lemma for each step of a thread or of the device.
* `virtio_driver_safe`: what follows for every reachable state.
-/

namespace Xv6.Virtio

open Function (update update_of_ne update_self update_eq_self)
open Xv6.Ring (between cell)
open Run (Reachable relOf execAll)

/-! ### What a thread has in hand -/

namespace Thread

def req : Thread → Option Request
  | .rw req _ => some req
  | _ => none

/-- The descriptors it has allocated. -/
def chain : Thread → List ℕ
  | .rw _ (.formatting idx) => idx.list
  | .rw _ (.storing idx) => idx.list
  | .rw _ (.counting idx) => idx.list
  | .rw _ (.waiting idx) => idx.list
  | .rw _ (.asleep idx) => idx.list
  | .rw _ (.woken idx) => idx.list
  | _ => []

/-- The chain that is published and not freed yet. -/
def published : Thread → Option (Request × Idx)
  | .rw req (.waiting idx) => some (req, idx)
  | .rw req (.asleep idx) => some (req, idx)
  | .rw req (.woken idx) => some (req, idx)
  | _ => none

/-- The chain that is about to be published. -/
def prepared : Thread → Option (Request × Idx)
  | .rw req (.storing idx) => some (req, idx)
  | .rw req (.counting idx) => some (req, idx)
  | _ => none

/-- The chain whose head is in the next entry of the available ring. -/
def stored : Thread → Option Idx
  | .rw _ (.counting idx) => some idx
  | _ => none

def holds : Thread → Bool
  | .rw _ .allocating => true
  | .rw _ (.formatting _) => true
  | .rw _ (.storing _) => true
  | .rw _ (.counting _) => true
  | .rw _ (.waiting _) => true
  | .handling => true
  | _ => false

/-- The chain is formatted. -/
def Formatted (th : Thread) (req : Request) (idx : Idx) : Prop :=
  th.published = some (req, idx) ∨ th.prepared = some (req, idx)

variable {th : Thread} {r : Request} {idx : Idx}

theorem Formatted.chain (h : th.Formatted r idx) : th.chain = idx.list := by
  cases th with
  | rw req stage => cases stage <;> rcases h with h | h <;> cases h <;> rfl
  | _ => rcases h with h | h <;> cases h

theorem Formatted.req (h : th.Formatted r idx) : th.req = some r := by
  cases th with
  | rw req stage => cases stage <;> rcases h with h | h <;> cases h <;> rfl
  | _ => rcases h with h | h <;> cases h

theorem published_of_prepared (h : th.prepared = some (r, idx)) : th.published = none := by
  cases th with
  | rw req stage => cases stage <;> cases h <;> rfl
  | _ => cases h

theorem holds_of_stored (h : th.stored = some idx) : th.holds = true := by
  cases th with
  | rw req stage =>
    cases stage <;> cases h
    rfl
  | _ => cases h

theorem Formatted.head_mem (h : th.Formatted r idx) : idx.head ∈ th.chain := by
  rw [h.chain]
  exact List.mem_cons_self

theorem head_mem (h : th.published = some (r, idx)) : idx.head ∈ th.chain :=
  Formatted.head_mem (.inl h)

/-- Two threads that are at the same point for everybody else. -/
structure SameWork (th th' : Thread) : Prop where
  req : th'.req = th.req
  chain : th'.chain = th.chain
  published : th'.published = th.published
  prepared : th'.prepared = th.prepared
  stored : th'.stored = th.stored

variable (th : Thread)

theorem SameWork.refl : SameWork th th := ⟨rfl, rfl, rfl, rfl, rfl⟩

theorem sameWork_rouse : SameWork th th.rouse := by
  cases th with
  | rw req stage => cases stage <;> exact ⟨rfl, rfl, rfl, rfl, rfl⟩
  | _ => exact .refl _

theorem holds_rouse : th.rouse.holds = th.holds := by
  cases th with
  | rw req stage => cases stage <;> rfl
  | _ => rfl

theorem wake_eq (chan : Chan) : th.wake chan = th ∨ th.wake chan = th.rouse := by
  cases th with
  | rw req stage =>
    cases stage with
    | starved =>
      by_cases hc : chan = .free
      · exact .inr (if_pos hc)
      · exact .inl (if_neg hc)
    | asleep idx =>
      by_cases hc : chan = .buf req.b
      · exact .inr (if_pos hc)
      · exact .inl (if_neg hc)
    | _ => exact .inl rfl
  | _ => exact .inl rfl

theorem sameWork_wake (chan : Chan) : SameWork th (th.wake chan) := by
  rcases wake_eq th chan with h | h
  · rw [h]
    exact .refl th
  · rw [h]
    exact sameWork_rouse th

theorem holds_wake (chan : Chan) : (th.wake chan).holds = th.holds := by
  rcases wake_eq th chan with h | h
  · rw [h]
  · rw [h, holds_rouse]

end Thread

open Thread (SameWork sameWork_wake sameWork_rouse holds_wake holds_rouse head_mem)

theorem Woken.sameWork {s s' : State} (hw : Woken s s') (t : ℕ) :
    SameWork (s.thread t) (s'.thread t) := by
  rcases hw.thread t with ht | ht
  · rw [ht]
    exact .refl _
  · rw [ht]
    exact sameWork_wake _ _

theorem Woken.holds {s s' : State} (hw : Woken s s') (t : ℕ) :
    (s'.thread t).holds = (s.thread t).holds := by
  rcases hw.thread t with ht | ht
  · rw [ht]
  · rw [ht, holds_wake]

/-! ### The rings -/

theorem wraps : Ring.Wraps NUM 16 := ⟨by decide, by decide, by decide⟩

namespace State

/-- The heads that the device has not seen yet. -/
def offered (s : State) : List ℕ := between NUM s.avail.ring s.seen s.avail.idx

/-- The heads that the device has returned and `virtio_disk_intr` has not seen yet. -/
def done (s : State) : List ℕ := between NUM s.used.ring s.usedIdx s.used.idx

def outstanding (s : State) : List ℕ := s.offered ++ s.working ++ s.done

end State

/-! ### The invariant -/

/-- What is known of thread `t` while it is at `th`. -/
structure Thread.Ok (s : State) (t : ℕ) (th : Thread) : Prop where
  owner : ∀ {req}, th.req = some req → s.owner req.b = some t
  lock : th.holds = true → s.lock = some t
  linked : ∀ {req idx}, th.Formatted req idx → Linked s.desc idx ∧ (s.info idx.head).b = some req.b
  prepared : ∀ {req idx}, th.prepared = some (req, idx) → s.disk req.b = true
  stored : ∀ {idx}, th.stored = some idx → s.avail.ring (cell NUM s.avail.idx) = idx.head
  inFlight : ∀ {req idx}, th.published = some (req, idx) → s.disk req.b = true →
    idx.head ∈ s.outstanding

/-- A thread without a formatted chain. -/
theorem Thread.Ok.unformatted {s : State} {t : ℕ} {th : Thread}
    (howner : ∀ {req}, th.req = some req → s.owner req.b = some t)
    (hlock : th.holds = true → s.lock = some t) (hpub : th.published = none)
    (hprep : th.prepared = none) (hstored : th.stored = none) : th.Ok s t where
  owner := howner
  lock := hlock
  linked := by
    rintro req idx (hf | hf)
    · cases hpub.symm.trans hf
    · cases hprep.symm.trans hf
  prepared hp := nomatch hprep.symm.trans hp
  stored hs := nomatch hstored.symm.trans hs
  inFlight hp := nomatch hpub.symm.trans hp

variable {lock : Option ℕ}

theorem Thread.SameWork.ok {s : State} {t : ℕ} {th th' : Thread}
    (hs : SameWork th th') (hok : th.Ok s t) (hlock : th'.holds = true → lock = some t) :
    th'.Ok { s with lock := lock } t where
  owner hr := hok.owner (hs.req.symm.trans hr)
  lock := hlock
  linked hf := hok.linked (hf.imp hs.published.symm.trans hs.prepared.symm.trans)
  prepared hp := hok.prepared (hs.prepared.symm.trans hp)
  stored hst := hok.stored (hs.stored.symm.trans hst)
  inFlight hp := hok.inFlight (hs.published.symm.trans hp)

structure Inv (s : State) : Prop where
  panicked : s.panicked = none
  part : Partition s.free fun t => (s.thread t).chain
  thread : ∀ t, (s.thread t).Ok s t
  offered_le : (s.avail.idx - s.seen).toNat ≤ NUM
  done_le : (s.used.idx - s.usedIdx).toNat ≤ NUM
  nodup : s.outstanding.Nodup
  own : ∀ {h}, h ∈ s.outstanding → ∃ t req idx, (s.thread t).published = some (req, idx) ∧
    idx.head = h ∧ s.disk req.b = true
  status : ∀ {h}, h ∈ s.done → (s.info h).status = 0
  log : s.returned = s.processed ++ s.done

/-- What an iteration of `virtio_disk_intr` does: with no completion left it returns, and
otherwise it takes the next one, clears the flag of its buffer, which was set, wakes those that
sleep on it, and goes on. -/
def Handled (s : State) (t : ℕ) (s' : State) : Prop :=
  (s.usedIdx = s.used.idx ∧ s.done = [] ∧ s'.processed = s.processed ∧ s'.disk = s.disk ∧
    s'.thread t = .outside) ∨
  ∃ head rest b, s.done = head :: rest ∧ s'.done = rest ∧ s'.processed = s.processed ++ [head] ∧
    (s.info head).b = some b ∧ s.disk b = true ∧ s'.disk = update s.disk b false ∧
    ∀ t', s'.thread t' = (s.thread t').wake (.buf b)

namespace Inv

variable {s s' : State} {t : ℕ} {req : Request} {idx : Idx} {th : Thread}

/-! ### Steps that only move threads -/

variable {desc : ℕ → Desc} {old : Thread}

section

variable (h : Inv s)
include h

/-- Threads move on without changing the requests they have published. -/
theorem threads {thread : ℕ → Thread} {free : ℕ → Bool}
    (hpart : Partition free fun t => (thread t).chain)
    (hok : ∀ t, (thread t).Ok { s with lock := lock } t)
    (hpublished : ∀ t, (thread t).published = (s.thread t).published) :
    Inv { s with thread := thread, lock := lock, free := free } := by
  refine { h with part := hpart, thread := fun t => { hok t with }, own := fun hmem => ?_ }
  obtain ⟨t, req, idx, hpub, hrest⟩ := h.own hmem
  exact ⟨t, req, idx, (hpublished t).trans hpub, hrest⟩

/-- Threads move on without changing what they have in hand. -/
theorem sameWork {thread : ℕ → Thread} (hsame : ∀ t, SameWork (s.thread t) (thread t))
    (hlock : ∀ t, (thread t).holds = true → lock = some t) :
    Inv { s with thread := thread, lock := lock } := by
  refine h.threads ?_ (fun t => (hsame t).ok (h.thread t) (hlock t)) fun t => (hsame t).published
  have hchain : (fun t => (thread t).chain) = fun t => (s.thread t).chain :=
    funext fun t => (hsame t).chain
  rw [hchain]
  exact h.part

/-- Thread `t` moves on, takes the lock, keeps it or gives it up. -/
theorem move (hsame : SameWork (s.thread t) th) (hlock : th.holds = true → lock = some t)
    (hother : ∀ t', t' ≠ t → (s.thread t').holds = true → lock = some t') :
    Inv { s with thread := update s.thread t th, lock := lock } := by
  refine h.sameWork ?_ ?_
  · intro t'
    rcases update_cases s.thread t th t' with ⟨rfl, hu⟩ | ⟨-, hu⟩
    · rw [hu]
      exact hsame
    · rw [hu]
      exact .refl _
  · intro t' hl
    rcases update_cases s.thread t th t' with ⟨rfl, hu⟩ | ⟨hne, hu⟩
    · exact hlock (hu ▸ hl)
    · exact hother t' hne (hu ▸ hl)

/-- Nobody else holds the lock when it is free, or when `t` has it. -/
theorem alone (hl : s.lock = none ∨ s.lock = some t) (t' : ℕ) (hne : t' ≠ t) :
    (s.thread t').holds = false := by
  apply Bool.eq_false_iff.mpr
  intro hh
  have hlock := (h.thread t').lock hh
  rcases hl with hl | hl
  · cases hl.symm.trans hlock
  · exact hne (Option.some.inj (hl.symm.trans hlock)).symm

theorem acquire (hl : s.lock = none) (hth : s.thread t = old) (hsame : SameWork old th) :
    Inv { s with thread := update s.thread t th, lock := some t } := by
  refine h.move (hth ▸ hsame) (fun _ => rfl) fun t' hne hh => ?_
  cases (h.alone (.inl hl) t' hne).symm.trans hh

theorem release (hth : s.thread t = old) (hold : old.holds = true)
    (hsame : SameWork old th) (hnew : th.holds = false) :
    Inv { s with thread := update s.thread t th, lock := none } := by
  subst hth
  refine h.move hsame (fun hh => ?_) fun t' hne hh => ?_
  · cases hnew.symm.trans hh
  · cases (h.alone (.inr ((h.thread t).lock hold)) t' hne).symm.trans hh

/-- A call begins. -/
theorem call (hout : s.thread t = .outside) (hok : th.Ok s t) (hchain : th.chain = [])
    (hpub : th.published = none) : Inv (s.setThread t th) := by
  refine h.threads ?_ ((Function.forall_update_iff s.thread fun t' th => th.Ok s t').mpr
    ⟨hok, fun t' _ => h.thread t'⟩) (update_same _ (by rw [hpub, hout]; rfl))
  have hall := funext (update_same Thread.chain (f := s.thread) (by rw [hchain, hout]; rfl))
  rw [hall]
  exact h.part

/-! ### Descriptors -/

/-- Descriptors that are free may change. -/
theorem redesc (hdesc : ∀ i, s.free i = false → desc i = s.desc i) :
    Inv { s with desc := desc } := by
  refine { h with thread := fun t => { h.thread t with linked := fun hf => ?_ } }
  obtain ⟨hlink, hb⟩ := (h.thread t).linked hf
  refine ⟨hlink.congr fun i hi => hdesc i ?_, hb⟩
  rw [← hf.chain] at hi
  exact h.part.not_free hi

theorem woken (hw : Woken s s') (hfree : s'.free = s.free)
    (hdesc : ∀ i, s.free i = false → s'.desc i = s.desc i) : Inv s' := by
  have hinv := (h.redesc hdesc).sameWork hw.sameWork fun t hh =>
    (h.thread t).lock ((hw.holds t).symm.trans hh)
  rw [hw.rest, hfree]
  exact hinv

/-- Three descriptors are taken. -/
theorem taken (hth : s.thread t = .rw req .allocating) (hnodup : idx.list.Nodup)
    (hfree : ∀ i ∈ idx.list, i < NUM ∧ s.free i = true) :
    Inv { s with
      free := fun i => s.free i && decide (i ∉ idx.list)
      thread := update s.thread t (.rw req (.formatting idx)) } := by
  have hok : (Thread.rw req .allocating).Ok s t := hth ▸ h.thread t
  have hnew : (Thread.rw req (.formatting idx)).Ok s t := .unformatted hok.owner hok.lock rfl rfl rfl
  refine h.threads ?_ ((Function.forall_update_iff s.thread fun t' th => th.Ok s t').mpr
    ⟨hnew, fun t' _ => h.thread t'⟩) (update_same _ (by rw [hth]; rfl))
  have hnil : (s.thread t).chain = [] := by rw [hth]; rfl
  have hpart := h.part.take hnil hnodup hfree
  have hchain : (fun t' => (update s.thread t (.rw req (.formatting idx)) t').chain) =
      update (fun t' => (s.thread t').chain) t idx.list := Function.comp_update Thread.chain ..
  rw [hchain]
  exact hpart

/-! ### Requests -/

/-- A descriptor has one thread. -/
theorem same_thread {t' i : ℕ} (hi : i ∈ (s.thread t).chain) (hi' : i ∈ (s.thread t').chain) :
    t' = t :=
  h.part.unique t' t i hi' hi

/-- A buffer has one request. -/
theorem same_buf {t' : ℕ} {req' : Request} (hreq : (s.thread t).req = some req)
    (hreq' : (s.thread t').req = some req') (hb : req'.b = req.b) : t' = t := by
  have hown := (h.thread t).owner hreq
  have hown' := (h.thread t').owner hreq'
  rw [hb] at hown'
  exact Option.some.inj (hown'.symm.trans hown)

/-- A thread that has not published its chain has none of the outstanding heads. -/
theorem not_outstanding {i : ℕ} (hi : i ∈ (s.thread t).chain)
    (hpub : (s.thread t).published = none) : i ∉ s.outstanding := by
  intro hmem
  obtain ⟨t', req', idx', hpub', rfl, -⟩ := h.own hmem
  rw [h.same_thread hi (head_mem hpub')] at hpub'
  cases hpub.symm.trans hpub'

/-- A published chain whose buffer is done is not outstanding any more. -/
theorem not_outstanding_of_done (hpub : (s.thread t).published = some (req, idx))
    (hdisk : s.disk req.b = false) : idx.head ∉ s.outstanding := by
  intro hmem
  obtain ⟨t', req', idx', hpub', hhead, hdisk'⟩ := h.own hmem
  have ht : t' = t := h.same_thread (head_mem hpub) (hhead ▸ head_mem hpub')
  rw [ht, hpub] at hpub'
  cases hpub'
  cases hdisk.symm.trans hdisk'

theorem outstanding_lt {i : ℕ} (hi : i ∈ s.outstanding) : i < NUM := by
  obtain ⟨t, req, idx, hpub, rfl, -⟩ := h.own hi
  exact h.part.lt t _ (head_mem hpub)

end

theorem length_le_of_nodup {l : List ℕ} (hnodup : l.Nodup) (hlt : ∀ i ∈ l, i < NUM) :
    l.length ≤ NUM := by
  have hsub : l ⊆ List.range NUM := fun i hi => List.mem_range.mpr (hlt i hi)
  have hlen := (List.subperm_of_subset hnodup hsub).length_le
  rwa [List.length_range] at hlen

/-- There is room for another outstanding head. -/
theorem length_outstanding (h : Inv s) {i : ℕ} (hi : i < NUM) (hnew : i ∉ s.outstanding) :
    s.outstanding.length < NUM := by
  apply length_le_of_nodup (l := i :: s.outstanding) (List.nodup_cons.mpr ⟨hnew, h.nodup⟩)
  intro j hj
  rcases List.mem_cons.mp hj with rfl | hj
  · exact hi
  · exact h.outstanding_lt hj

/-- A thread moves on with the descriptors it has. -/
theorem part_update (h : Inv s) (hth : s.thread t = old)
    (hchain : th.chain = old.chain) : Partition s.free fun t' => (update s.thread t th t').chain := by
  rw [funext (update_same Thread.chain (hth ▸ hchain))]
  exact h.part

/-- What `virtio_disk_rw` writes into the descriptors is a chain. -/
theorem linked_format (s : State) (req : Request) {idx : Idx} (hnodup : idx.list.Nodup) :
    Linked (s.format req idx).desc idx := by
  obtain ⟨⟨h₀₁, h₀₂⟩, h₁₂⟩ := Idx.nodup_list.mp hnodup
  simp only [State.format]
  refine ⟨?_, ?_, ?_⟩
  · rw [update_of_ne h₀₂, update_of_ne h₀₁, update_self]
    have hflags : VRING_DESC_F_NEXT &&& VRING_DESC_F_NEXT ≠ 0#16 := by decide
    exact ⟨decide_eq_true hflags, rfl⟩
  · rw [update_of_ne h₁₂, update_self]
    have hflags : ∀ write : Bool, ((if write then 0#16 else VRING_DESC_F_WRITE) |||
        VRING_DESC_F_NEXT) &&& VRING_DESC_F_NEXT ≠ 0#16 := by
      decide
    exact ⟨decide_eq_true (hflags req.write), rfl⟩
  · rw [update_self]
    have hflags : ¬ VRING_DESC_F_WRITE &&& VRING_DESC_F_NEXT ≠ 0#16 := by decide
    exact ⟨decide_eq_false hflags, rfl⟩

section

variable (h : Inv s)
include h

/-- The chain of another thread stays as it is when that of `t` is rewritten. -/
theorem linked_of_ne (hchain : (s.thread t).chain = idx.list) {t' : ℕ} {req' : Request} {idx' : Idx}
    (hne : t' ≠ t) (hf : (s.thread t').Formatted req' idx')
    (hdesc : ∀ i, i ∉ idx.list → desc i = s.desc i) (x : Info) :
    Linked desc idx' ∧ (update s.info idx.head x idx'.head).b = some req'.b := by
  obtain ⟨hlink, hb⟩ := (h.thread t').linked hf
  have hout : ∀ i ∈ idx'.list, i ∉ idx.list := by
    intro i hi' hi
    rw [← hf.chain] at hi'
    rw [← hchain] at hi
    exact hne (h.same_thread hi hi')
  refine ⟨hlink.congr fun i hi => hdesc i (hout i hi), ?_⟩
  have hne' : idx'.head ≠ idx.head := by
    intro he
    exact hout idx'.head List.mem_cons_self (he ▸ List.mem_cons_self)
  rw [update_of_ne hne']
  exact hb

/-- The completions that wait for the driver are not those of a chain outside the device. -/
theorem status_update {i : ℕ} (hnew : i ∉ s.outstanding) (x : Info) {hd : ℕ} (hmem : hd ∈ s.done) :
    (update s.info i x hd).status = 0 := by
  have hne : hd ≠ i := by
    rintro rfl
    exact hnew (List.mem_append_right _ hmem)
  rw [update_of_ne hne]
  exact h.status hmem

/-- The chain is formatted. -/
theorem format (hth : s.thread t = .rw req (.formatting idx)) :
    Inv ((s.format req idx).setThread t (.rw req (.storing idx))) := by
  have hok : (Thread.rw req (.formatting idx)).Ok s t := hth ▸ h.thread t
  have hchain : (s.thread t).chain = idx.list := by rw [hth]; rfl
  have hhead : idx.head ∈ (s.thread t).chain := by
    rw [hchain]
    exact List.mem_cons_self
  have hnew : idx.head ∉ s.outstanding := h.not_outstanding hhead (by rw [hth]; rfl)
  have hraise : ∀ {b}, s.disk b = true → update s.disk req.b true b = true := by
    intro b hb
    rcases update_cases s.disk req.b true b with ⟨-, hu⟩ | ⟨-, hu⟩
    · exact hu
    · exact hu.trans hb
  refine { h with
    part := h.part_update hth rfl
    thread := (Function.forall_update_iff s.thread fun t' th => th.Ok _ t').mpr
      ⟨⟨hok.owner, hok.lock, ?_, ?_, nofun, nofun⟩, fun t' hne => ?_⟩
    own := fun hmem => ?_
    status := fun hmem => h.status_update hnew _ hmem }
  · rintro req' idx' (hf | hf) <;> cases hf
    refine ⟨linked_format s req (hchain ▸ h.part.nodup t), ?_⟩
    show (update s.info idx.head _ idx.head).b = some req.b
    rw [update_self]
  · rintro req' idx' hp
    cases hp
    exact update_self ..
  · have hok' := h.thread t'
    refine { hok' with
      linked := fun hf => ?_, prepared := fun hp => hraise (hok'.prepared hp)
      inFlight := fun {req' _} hpub hdisk => ?_ }
    · refine h.linked_of_ne hchain hne hf (fun i hi => ?_) _
      simp only [Idx.mem_list, not_or] at hi
      show update (update (update s.desc idx.head _) idx.middle _) idx.tail _ i = s.desc i
      rw [update_of_ne hi.2.2, update_of_ne hi.2.1, update_of_ne hi.1]
    · have hb : req'.b ≠ req.b := fun hb =>
        hne (h.same_buf (by rw [hth]; rfl) (Thread.Formatted.req (.inl hpub)) hb)
      exact hok'.inFlight hpub ((update_of_ne hb ..).symm.trans hdisk)
  · obtain ⟨t', req', idx', hpub, hhead', hdisk⟩ := h.own hmem
    have hpublished := update_same Thread.published (f := s.thread) (a := t)
      (v := .rw req (.storing idx)) (by rw [hth]; rfl) t'
    exact ⟨t', req', idx', hpublished.trans hpub, hhead', hraise hdisk⟩

/-- The ring has room for the chain of `t`. -/
theorem room (hprep : (s.thread t).prepared = some (req, idx)) :
    idx.head ∉ s.outstanding ∧ (s.avail.idx - s.seen).toNat < NUM := by
  have hform : (s.thread t).Formatted req idx := .inr hprep
  have hnew := h.not_outstanding hform.head_mem (Thread.published_of_prepared hprep)
  have hlen := h.length_outstanding (h.part.lt t _ hform.head_mem) hnew
  refine ⟨hnew, ?_⟩
  simp only [State.outstanding, State.offered, List.length_append, Ring.length_between] at hlen
  omega

/-- The head is stored in the available ring. -/
theorem store (hth : s.thread t = .rw req (.storing idx)) :
    Inv { s.setThread t (.rw req (.counting idx)) with
      avail := { s.avail with ring := update s.avail.ring (cell NUM s.avail.idx) idx.head } } := by
  have hprep : (s.thread t).prepared = some (req, idx) := by rw [hth]; rfl
  have hroom := (h.room hprep).2
  have hoffered : between NUM (update s.avail.ring (cell NUM s.avail.idx) idx.head) s.seen
      s.avail.idx = s.offered := by
    unfold State.offered between
    rw [Ring.cell_eq_slot wraps hroom, Ring.window_update (Nat.le_refl _) hroom]
  have hout : State.outstanding { s.setThread t (.rw req (.counting idx)) with
      avail := { s.avail with ring := update s.avail.ring (cell NUM s.avail.idx) idx.head } } =
      s.outstanding :=
    congrArg (fun l => l ++ s.working ++ s.done) hoffered
  have hok : (Thread.rw req (.storing idx)).Ok s t := hth ▸ h.thread t
  refine { h with
    part := h.part_update hth rfl
    thread := (Function.forall_update_iff s.thread fun t' th => th.Ok _ t').mpr
      ⟨⟨hok.owner, hok.lock, hok.linked, hok.prepared, ?_, nofun⟩, fun t' hne => ?_⟩
    nodup := hout ▸ h.nodup
    own := fun hmem => ?_ }
  · intro idx' hs
    cases hs
    exact update_self ..
  · have hok' := h.thread t'
    refine { hok' with
      stored := fun hs => ?_
      inFlight := fun hpub hdisk => by rw [hout]; exact hok'.inFlight hpub hdisk }
    -- only the thread with the lock is between the two steps
    cases (h.alone (.inr (hok.lock rfl)) t' hne).symm.trans (Thread.holds_of_stored hs)
  · rw [hout] at hmem
    obtain ⟨t', req', idx', hpub, hrest⟩ := h.own hmem
    have hpublished := update_same Thread.published (f := s.thread) (a := t)
      (v := .rw req (.counting idx)) (by rw [hth]; rfl) t'
    exact ⟨t', req', idx', hpublished.trans hpub, hrest⟩

/-- The chain is published. -/
theorem count (hth : s.thread t = .rw req (.counting idx)) :
    Inv { s.setThread t (.rw req (.waiting idx)) with
      avail := { s.avail with idx := s.avail.idx + 1#16 } } := by
  have hprep : (s.thread t).prepared = some (req, idx) := by rw [hth]; rfl
  have hok : (Thread.rw req (.counting idx)).Ok s t := hth ▸ h.thread t
  obtain ⟨hnew, hroom⟩ := h.room hprep
  have hstored : s.avail.ring (cell NUM s.avail.idx) = idx.head := hok.stored rfl
  have hoffered : between NUM s.avail.ring s.seen (s.avail.idx + 1#16) = s.offered ++ [idx.head] := by
    have hput := Ring.between_put wraps hroom s.avail.ring idx.head
    rwa [← hstored, update_eq_self, hstored] at hput
  have hperm : (State.outstanding { s.setThread t (.rw req (.waiting idx)) with
      avail := { s.avail with idx := s.avail.idx + 1#16 } }).Perm (idx.head :: s.outstanding) := by
    show (between NUM s.avail.ring s.seen (s.avail.idx + 1#16) ++ s.working ++ s.done).Perm _
    rw [hoffered, List.append_assoc, List.append_assoc, State.outstanding, List.append_assoc]
    exact List.perm_middle
  refine { h with
    part := h.part_update hth rfl
    thread := (Function.forall_update_iff s.thread fun t' th => th.Ok _ t').mpr
      ⟨⟨hok.owner, hok.lock, ?_, nofun, nofun, ?_⟩, fun t' hne => ?_⟩
    offered_le := ?_
    nodup := hperm.nodup_iff.mpr (List.nodup_cons.mpr ⟨hnew, h.nodup⟩)
    own := fun hmem => ?_ }
  · rintro req' idx' (hf | hf) <;> cases hf
    exact hok.linked (.inr rfl)
  · intro req' idx' hpub _
    cases hpub
    exact hperm.mem_iff.mpr List.mem_cons_self
  · have hok' := h.thread t'
    refine { hok' with
      stored := fun hs => ?_
      inFlight := fun hpub hdisk =>
        hperm.mem_iff.mpr (List.mem_cons_of_mem _ (hok'.inFlight hpub hdisk)) }
    cases (h.alone (.inr (hok.lock rfl)) t' hne).symm.trans (Thread.holds_of_stored hs)
  · show (s.avail.idx + 1#16 - s.seen).toNat ≤ NUM
    rw [Ring.dist_succ wraps hroom]
    exact hroom
  · rcases List.mem_cons.mp (hperm.mem_iff.mp hmem) with rfl | hmem
    · have hself : (update s.thread t (.rw req (.waiting idx)) t).published = some (req, idx) := by
        rw [update_self]
        rfl
      exact ⟨t, req, idx, hself, rfl, hok.prepared rfl⟩
    · obtain ⟨t', req', idx', hpub, hrest⟩ := h.own hmem
      have hne : t' ≠ t := by
        rintro rfl
        rw [hth] at hpub
        cases hpub
      exact ⟨t', req', idx', (congrArg Thread.published (update_of_ne hne _ _)).trans hpub, hrest⟩

/-- The chain of a finished request is free, and nobody has been woken yet. -/
theorem give (hth : s.thread t = .rw req (.waiting idx)) (hdisk : s.disk req.b = false)
    (hdesc : ∀ i, i ∉ idx.list → desc i = s.desc i) (x : Info) :
    Inv { s with
      info := update s.info idx.head x
      desc := desc
      free := fun i => s.free i || decide (i ∈ idx.list)
      thread := update s.thread t .outside
      lock := none } := by
  have hpub : (s.thread t).published = some (req, idx) := by rw [hth]; rfl
  have hform : (s.thread t).Formatted req idx := .inl hpub
  have hlock : s.lock = some t := (h.thread t).lock (by rw [hth]; rfl)
  have hnew := h.not_outstanding_of_done hpub hdisk
  refine { h with
    part := ?_
    thread := (Function.forall_update_iff s.thread fun t' th => th.Ok _ t').mpr
      ⟨.unformatted nofun nofun rfl rfl rfl, fun t' hne => { h.thread t' with
        lock := fun hh => nomatch (h.alone (.inr hlock) t' hne).symm.trans hh
        linked := fun hf => h.linked_of_ne hform.chain hne hf hdesc x }⟩
    own := fun hmem => ?_
    status := fun hmem => h.status_update hnew x hmem }
  · have hpart := h.part.give (t := t) hform.chain
    have hchain : (fun t' => (update s.thread t .outside t').chain) =
        update (fun t' => (s.thread t').chain) t [] := Function.comp_update Thread.chain ..
    rw [hchain]
    exact hpart
  · obtain ⟨t', req', idx', hpub', hhead, hdisk'⟩ := h.own hmem
    have hne : t' ≠ t := by
      rintro rfl
      cases hpub.symm.trans hpub'
      exact hnew (hhead ▸ hmem)
    exact ⟨t', req', idx', (congrArg Thread.published (update_of_ne hne _ _)).trans hpub', hhead, hdisk'⟩

/-- The requester frees its chain. -/
theorem finish (hth : s.thread t = .rw req (.waiting idx)) (hdisk : s.disk req.b = false) :
    ∃ s', ({ s with info := update s.info idx.head { s.info idx.head with b := none } } : State).freeChain
      idx.head = .ok s' ∧ Inv (s'.release t .outside) := by
  have hform : (s.thread t).Formatted req idx := .inl (by rw [hth]; rfl)
  have hlock : s.lock = some t := (h.thread t).lock (by rw [hth]; rfl)
  obtain ⟨hlink, -⟩ := (h.thread t).linked hform
  obtain ⟨s', hfree, hfreed, hdesc, hw⟩ := freeChain_spec
    (s := { s with info := update s.info idx.head { s.info idx.head with b := none } }) hlink
    (hform.chain ▸ h.part.nodup t) (fun i hi => h.part.lt t i (hform.chain ▸ hi))
    fun i hi => h.part.not_free (t := t) (hform.chain ▸ hi)
  refine ⟨s', hfree, ?_⟩
  have hgiven := h.give hth hdisk hdesc { s.info idx.head with b := none }
  rw [← hfreed] at hgiven
  have hsame : ∀ t', SameWork (update s.thread t .outside t') (update s'.thread t .outside t') := by
    intro t'
    rcases update_cases s'.thread t .outside t' with ⟨rfl, hu⟩ | ⟨hne, hu⟩
    · rw [hu, update_self]
      exact .refl _
    · rw [hu, update_of_ne hne]
      exact hw.sameWork t'
  have hnone : ∀ t', (update s'.thread t .outside t').holds = true → (none : Option ℕ) = some t' := by
    intro t' hh
    rcases update_cases s'.thread t .outside t' with ⟨rfl, hu⟩ | ⟨hne, hu⟩
    · cases (congrArg Thread.holds hu).symm.trans hh
    · have hh' : (s'.thread t').holds = true := (congrArg Thread.holds hu).symm.trans hh
      cases (h.alone (.inr hlock) t' hne).symm.trans ((hw.holds t').symm.trans hh')
  have hinv := hgiven.sameWork hsame hnone
  rw [hw.rest]
  exact hinv

/-- A call returns from its wait exactly if the request is done. -/
theorem waits (hth : s.thread t = .rw req (.waiting idx)) : ∃ s', Virtio.exec s (.run t) = some s' ∧
    (s'.thread t = .outside ↔ s.disk req.b = false) := by
  rw [Virtio.exec, if_pos h.panicked, State.run, hth]
  dsimp only
  rw [State.rw]
  by_cases hdisk : s.disk req.b = true
  · refine ⟨_, if_pos hdisk, ?_⟩
    simp only [State.release, State.setThread, update_self, hdisk, reduceCtorEq]
  · have hdisk' := Bool.eq_false_iff.mpr hdisk
    obtain ⟨s', hfree, -⟩ := h.finish hth hdisk'
    refine ⟨s'.release t .outside, ?_, ?_⟩
    · rw [if_neg hdisk]
      dsimp only
      rw [hfree]
      rfl
    · exact ⟨fun _ => hdisk', fun _ => update_self ..⟩

/-! ### `virtio_disk_intr` -/

/-- The next completion, and what is known of it. -/
theorem next (hne : s.usedIdx ≠ s.used.idx) :
    ∃ rest t req idx, s.done = idx.head :: rest ∧ s.used.ring (cell NUM s.usedIdx) = idx.head ∧
      between NUM s.used.ring (s.usedIdx + 1#16) s.used.idx = rest ∧
      (s.thread t).published = some (req, idx) ∧ (s.info idx.head).status = 0 ∧
      (s.info idx.head).b = some req.b ∧ s.disk req.b = true := by
  have hdone : s.done = _ := Ring.between_cons wraps hne h.done_le s.used.ring
  have hmem : s.used.ring (cell NUM s.usedIdx) ∈ s.done := hdone ▸ List.mem_cons_self
  obtain ⟨t, req, idx, hpub, hhead, hdisk⟩ := h.own (List.mem_append_right _ hmem)
  rw [← hhead] at hdone hmem
  exact ⟨_, t, req, idx, hdone, hhead.symm, rfl, hpub, h.status hmem,
    ((h.thread t).linked (.inl hpub)).2, hdisk⟩

/-- A completion is processed. -/
theorem process (hne : s.usedIdx ≠ s.used.idx) {rest : List ℕ} (hdone : s.done = idx.head :: rest)
    (hrest : between NUM s.used.ring (s.usedIdx + 1#16) s.used.idx = rest)
    (hpub : (s.thread t).published = some (req, idx)) :
    Inv { { s with disk := update s.disk req.b false }.wakeup (.buf req.b) with
      usedIdx := s.usedIdx + 1#16
      processed := s.processed ++ [idx.head] } := by
  have hperm : s.outstanding.Perm (idx.head :: (s.offered ++ s.working ++ rest)) := by
    rw [State.outstanding, hdone]
    exact List.perm_middle
  have hnodup := List.nodup_cons.mp (hperm.nodup_iff.mp h.nodup)
  have hform : (s.thread t).Formatted req idx := .inl hpub
  -- another request has another buffer and another head
  have hother : ∀ {t' req' idx'}, (s.thread t').published = some (req', idx') →
      (idx'.head = idx.head ↔ req'.b = req.b) := by
    intro t' req' idx' hpub'
    have hform' : (s.thread t').Formatted req' idx' := .inl hpub'
    constructor
    · intro he
      have ht := h.same_thread hform.head_mem (he ▸ hform'.head_mem)
      rw [ht, hpub] at hpub'
      cases hpub'
      rfl
    · intro he
      have ht := h.same_buf hform.req hform'.req he
      rw [ht, hpub] at hpub'
      cases hpub'
      rfl
  have hinv : Inv { s with
      disk := update s.disk req.b false
      usedIdx := s.usedIdx + 1#16
      processed := s.processed ++ [idx.head] } := by
    have hout : State.outstanding { s with
        disk := update s.disk req.b false
        usedIdx := s.usedIdx + 1#16
        processed := s.processed ++ [idx.head] } = s.offered ++ s.working ++ rest :=
      congrArg (s.offered ++ s.working ++ ·) hrest
    refine { h with
      thread := fun t' => { h.thread t' with
        prepared := fun {req' _} hp => ?_, inFlight := fun {req' _} hpub' hdisk' => ?_ }
      done_le := ?_, nodup := hout ▸ hnodup.2, own := fun hmem => ?_, status := fun hmem => ?_
      log := ?_ }
    · have hne' : req'.b ≠ req.b := by
        intro he
        rw [h.same_buf hform.req (Thread.Formatted.req (.inr hp)) he] at hp
        cases (Thread.published_of_prepared hp).symm.trans hpub
      exact (update_of_ne hne' ..).trans ((h.thread t').prepared hp)
    · have hne' : req'.b ≠ req.b := by
        intro he
        have hclear : update s.disk req.b false req'.b = false := by rw [he, update_self]
        cases hclear.symm.trans hdisk'
      rw [hout]
      have hmem := hperm.mem_iff.mp
        ((h.thread t').inFlight hpub' ((update_of_ne hne' ..).symm.trans hdisk'))
      exact (List.mem_cons.mp hmem).resolve_left fun he => hne' ((hother hpub').mp he)
    · have hdist := Ring.dist_pred wraps hne
      have hle := h.done_le
      show (s.used.idx - (s.usedIdx + 1#16)).toNat ≤ NUM
      omega
    · rw [hout] at hmem
      obtain ⟨t', req', idx', hpub', hhead', hdisk'⟩ :=
        h.own (hperm.mem_iff.mpr (List.mem_cons_of_mem _ hmem))
      have hne' : req'.b ≠ req.b := fun he =>
        hnodup.1 ((hother hpub').mpr he ▸ hhead'.symm ▸ hmem)
      exact ⟨t', req', idx', hpub', hhead', (update_of_ne hne' ..).trans hdisk'⟩
    · apply h.status
      rw [hdone]
      exact List.mem_cons_of_mem _ (hrest ▸ hmem)
    · show s.returned = s.processed ++ [idx.head] ++ between NUM s.used.ring (s.usedIdx + 1#16) s.used.idx
      rw [hrest, List.append_assoc, List.singleton_append, ← hdone]
      exact h.log
  refine hinv.sameWork (fun t' => sameWork_wake _ _) fun t' hh => ?_
  exact (h.thread t').lock ((holds_wake (s.thread t') (.buf req.b)).symm.trans hh)

theorem handle (hth : s.thread t = .handling) : Inv (s.handle t) := by
  unfold State.handle
  split
  case isTrue =>
    exact h.release hth rfl ⟨rfl, rfl, rfl, rfl, rfl⟩ rfl
  case isFalse hne =>
    obtain ⟨rest, t', req, idx, hdone, hid, hrest, hpub, hstatus, hb, -⟩ := h.next hne
    dsimp only
    rw [hid, hstatus, hb]
    exact h.process hne hdone hrest hpub

/-- **One iteration of `virtio_disk_intr`.** -/
theorem handled (t : ℕ) : Handled s t (s.handle t) := by
  unfold State.handle
  split
  case isTrue heq =>
    refine .inl ⟨heq, ?_, rfl, rfl, update_self ..⟩
    rw [State.done, heq]
    exact Ring.between_self _
  case isFalse hne =>
    obtain ⟨rest, t', req, idx, hdone, hid, hrest, -, hstatus, hb, hdisk⟩ := h.next hne
    dsimp only
    rw [hid, hstatus, hb]
    exact .inr ⟨idx.head, rest, req.b, hdone, hrest, rfl, hb, hdisk, rfl, fun _ => rfl⟩

/-! ### The device -/

/-- The device reads the next entry of the available ring. -/
theorem deviceTake (hne : s.seen ≠ s.avail.idx) :
    Inv { s with
      working := s.working ++ [s.avail.ring (cell NUM s.seen)]
      seen := s.seen + 1#16 } := by
  have hoffered := Ring.between_cons wraps hne h.offered_le s.avail.ring
  have hperm : (State.outstanding { s with
      working := s.working ++ [s.avail.ring (cell NUM s.seen)]
      seen := s.seen + 1#16 }).Perm s.outstanding := by
    have hmove : (between NUM s.avail.ring (s.seen + 1#16) s.avail.idx ++
        (s.working ++ [s.avail.ring (cell NUM s.seen)])).Perm (s.offered ++ s.working) := by
      rw [State.offered, hoffered, ← List.append_assoc]
      exact List.perm_append_singleton _ _
    exact hmove.append_right s.done
  refine { h with
    thread := fun t => { h.thread t with
      inFlight := fun hpub hdisk => hperm.mem_iff.mpr ((h.thread t).inFlight hpub hdisk) }
    offered_le := ?_
    nodup := hperm.nodup_iff.mpr h.nodup
    own := fun hmem => h.own (hperm.mem_iff.mp hmem) }
  have hdist := Ring.dist_pred wraps hne
  have hle := h.offered_le
  show (s.avail.idx - (s.seen + 1#16)).toNat ≤ NUM
  omega

/-- The device returns a chain. -/
theorem deviceComplete {head : ℕ} (hwork : head ∈ s.working) : Inv (s.complete head) := by
  have hmem : head ∈ s.outstanding :=
    List.mem_append_left _ (List.mem_append_right _ hwork)
  obtain ⟨t, req, idx, hpub, rfl, hdisk⟩ := h.own hmem
  obtain ⟨hlink, hb⟩ := (h.thread t).linked (.inl hpub)
  have haddr : (s.desc (s.desc (s.desc idx.head).next).next).addr = .status idx.head := by
    rw [hlink.head.2, hlink.middle.2]
    exact hlink.tail.2
  -- the rings together hold every head once, and this one is in neither
  have hroom : (s.used.idx - s.usedIdx).toNat < NUM := by
    have hlen := length_le_of_nodup h.nodup fun i hi => h.outstanding_lt hi
    have hpos := List.length_pos_of_mem hwork
    simp only [State.outstanding, State.done, List.length_append, Ring.length_between] at hlen
    omega
  have hdone : between NUM (s.used.push idx.head).ring s.usedIdx (s.used.push idx.head).idx =
      s.done ++ [idx.head] :=
    Ring.between_put wraps hroom s.used.ring idx.head
  have hstate : s.complete idx.head = { s with
      info := update s.info idx.head { s.info idx.head with status := 0 }
      working := s.working.erase idx.head
      used := s.used.push idx.head
      returned := s.returned ++ [idx.head] } := by
    simp only [State.complete, haddr, State.writeStatus]
  have hperm : (s.offered ++ s.working.erase idx.head ++ (s.done ++ [idx.head])).Perm s.outstanding := by
    have hback : (s.working.erase idx.head ++ [idx.head]).Perm s.working :=
      (List.perm_append_singleton _ _).trans (List.perm_cons_erase hwork).symm
    have hswap : (s.working.erase idx.head ++ (s.done ++ [idx.head])).Perm (s.working ++ s.done) := by
      refine List.Perm.trans ?_ (hback.append_right s.done)
      rw [List.append_assoc]
      exact List.perm_append_comm.append_left _
    rw [State.outstanding, List.append_assoc, List.append_assoc]
    exact hswap.append_left s.offered
  have hout : State.outstanding { s with
      info := update s.info idx.head { s.info idx.head with status := 0 }
      working := s.working.erase idx.head
      used := s.used.push idx.head
      returned := s.returned ++ [idx.head] } =
      s.offered ++ s.working.erase idx.head ++ (s.done ++ [idx.head]) :=
    congrArg (s.offered ++ s.working.erase idx.head ++ ·) hdone
  rw [hstate]
  refine { h with
    thread := fun t' => { h.thread t' with
      linked := fun hf => ?_
      inFlight := fun hpub' hdisk' => by
        rw [hout]
        exact hperm.mem_iff.mpr ((h.thread t').inFlight hpub' hdisk') }
    done_le := ?_
    nodup := by rw [hout]; exact hperm.nodup_iff.mpr h.nodup
    own := fun hmem' => h.own (hperm.mem_iff.mp (hout ▸ hmem'))
    status := fun {hd} hmem' => ?_
    log := ?_ }
  · obtain ⟨hlink', hb'⟩ := (h.thread t').linked hf
    have hsame := update_same Info.b (f := s.info) (a := idx.head)
      (v := { s.info idx.head with status := 0 }) rfl
    exact ⟨hlink', (hsame _).trans hb'⟩
  · show (s.used.idx + 1#16 - s.usedIdx).toNat ≤ NUM
    rw [Ring.dist_succ wraps hroom]
    exact hroom
  · show (update s.info idx.head _ hd).status = 0
    rcases update_cases s.info idx.head { s.info idx.head with status := 0 } hd with
      ⟨-, hu⟩ | ⟨hne, hu⟩
    · rw [hu]
    · rw [hu]
      have hmem'' : hd ∈ s.done ++ [idx.head] := hdone ▸ hmem'
      rcases List.mem_append.mp hmem'' with hd' | hd'
      · exact h.status hd'
      · exact absurd (List.mem_singleton.mp hd') hne
  · show s.returned ++ [idx.head] = s.processed ++ between NUM (s.used.push idx.head).ring
      s.usedIdx (s.used.push idx.head).idx
    rw [hdone, h.log, List.append_assoc]

/-! ### All steps -/

theorem rw {stage : Stage} (hth : s.thread t = .rw req stage) (hs : s.rw t req stage = some s') :
    Inv s' := by
  cases stage with
  | entering | woken =>
    obtain ⟨hl, rfl⟩ := Run.of_guard hs
    exact h.acquire hl hth ⟨rfl, rfl, rfl, rfl, rfl⟩
  | allocating =>
    obtain ⟨s₁, r, halloc, hspec⟩ := alloc3Desc_spec s
    simp only [State.rw, halloc] at hs
    cases hspec with
    | taken idx hnodup hfree =>
      cases hs
      exact h.taken hth hnodup hfree
    | failed hfree hdesc hw =>
      cases hs
      have hinv := h.woken hw hfree hdesc
      have hth₁ : s₁.thread t = .rw req .allocating := by
        rcases hw.thread t with ht | ht <;> rw [ht, hth]
        rfl
      exact hinv.release hth₁ rfl ⟨rfl, rfl, rfl, rfl, rfl⟩ rfl
  | formatting idx =>
    cases hs
    exact h.format hth
  | storing idx =>
    cases hs
    exact h.store hth
  | counting idx =>
    cases hs
    exact h.count hth
  | waiting idx =>
    simp only [State.rw] at hs
    split at hs
    · cases hs
      exact h.release hth rfl ⟨rfl, rfl, rfl, rfl, rfl⟩ rfl
    case isFalse hdisk =>
      obtain ⟨s₁, hfree, hinv⟩ := h.finish hth (Bool.eq_false_iff.mpr hdisk)
      rw [hfree] at hs
      cases hs
      exact hinv
  | starved | asleep => cases hs

theorem run (hs : s.run t = some s') : Inv s' := by
  unfold State.run at hs
  split at hs
  case h_1 => cases hs
  case h_2 req stage hth => exact h.rw hth hs
  case h_3 hth =>
    obtain ⟨hl, rfl⟩ := Run.of_guard hs
    exact h.acquire hl hth ⟨rfl, rfl, rfl, rfl, rfl⟩
  case h_4 hth =>
    cases hs
    exact h.handle hth

theorem exec {a : Action} (hs : exec s a = some s') : Inv s' := by
  cases a with
  | lockBuf t b =>
    obtain ⟨⟨-, hfree⟩, rfl⟩ := Run.of_guard hs
    refine { h with thread := fun t' => { h.thread t' with owner := fun {req} hreq => ?_ } }
    have hold := (h.thread t').owner hreq
    have hne : req.b ≠ b := by
      rintro rfl
      cases hfree.symm.trans hold
    exact (update_of_ne hne _ _).trans hold
  | unlockBuf t b =>
    obtain ⟨⟨hout, hown⟩, rfl⟩ := Run.of_guard hs
    refine { h with thread := fun t' => { h.thread t' with owner := fun {req} hreq => ?_ } }
    have hold := (h.thread t').owner hreq
    have hne : req.b ≠ b := by
      rintro rfl
      cases Option.some.inj (hold.symm.trans hown)
      rw [hout] at hreq
      cases hreq
    exact (update_of_ne hne _ _).trans hold
  | virtioDiskRw t req =>
    obtain ⟨⟨hout, hown⟩, rfl⟩ := Run.of_guard hs
    refine h.call hout (.unformatted (fun hr => ?_) nofun rfl rfl rfl) rfl rfl
    cases hr
    exact hown
  | virtioDiskIntr t =>
    obtain ⟨hout, rfl⟩ := Run.of_guard hs
    exact h.call hout (.unformatted nofun nofun rfl rfl rfl) rfl rfl
  | kill t =>
    cases hs
    refine h.move (sameWork_rouse _) (fun hh => ?_) fun t' _ hh => (h.thread t').lock hh
    exact (h.thread t).lock ((holds_rouse _).symm.trans hh)
  | run t =>
    obtain ⟨-, hs⟩ := Option.ite_none_right_eq_some.mp hs
    exact h.run hs
  | take =>
    obtain ⟨hne, rfl⟩ := Run.of_guard hs
    exact h.deviceTake hne
  | complete head =>
    obtain ⟨hmem, rfl⟩ := Run.of_guard hs
    exact h.deviceComplete hmem

end

theorem init (h : Init s) : Inv s := by
  have hoffered : s.offered = [] := by
    rw [State.offered, h.avail, h.seen]
    exact Ring.between_self _
  have hdone : s.done = [] := by
    rw [State.done, h.used, h.usedIdx]
    exact Ring.between_self _
  have hout : s.outstanding = [] := by
    rw [State.outstanding, hoffered, hdone, h.working]
    rfl
  refine ⟨h.panicked, ?_, fun t => ?_, ?_, ?_, ?_, fun hmem => ?_, fun hmem => ?_, ?_⟩
  · refine ⟨?_, ?_, ?_, ?_⟩
    · intro i hi
      refine iff_of_true (h.free i hi) fun t => ?_
      rw [h.thread t]
      exact List.not_mem_nil
    · intro t i hi
      rw [h.thread t] at hi
      cases hi
    · intro t
      rw [h.thread t]
      exact List.nodup_nil
    · intro t t' i hi
      rw [h.thread t] at hi
      cases hi
  · rw [h.thread t]
    exact .unformatted nofun nofun rfl rfl rfl
  · rw [h.avail, h.seen]
    decide
  · rw [h.used, h.usedIdx]
    decide
  · rw [hout]
    exact List.nodup_nil
  · rw [hout] at hmem
    cases hmem
  · rw [hdone] at hmem
    cases hmem
  · rw [h.returned, h.processed, hdone]
    rfl

end Inv

/-- **The disk driver.** For any number of threads in `virtio_disk_rw` and `virtio_disk_intr`,
each request with its own locked buffer, and a device that returns each published head once with
status 0, in any order: nothing panics, and no null buffer is used; the free descriptors and the
chains of three partition `0..NUM-1`; a published chain has its own buffer in `info`, with `disk`
set exactly while the head is outstanding, and its call waits as long, also when it is woken
earlier; the completions are processed once each, in the order in which the device returned them:
`virtio_disk_intr` goes on until none is left, with one in each iteration; and `alloc3_desc` never
panics and takes three descriptors or leaves the free ones as they were. -/
theorem virtio_driver_safe (s : State) (hs : Reachable Init (relOf exec) s) :
    s.panicked = none ∧
    (∀ i, i < NUM → (s.free i = true ↔ ∀ t, i ∉ (s.thread t).chain)) ∧
    (∀ t, (s.thread t).chain.Nodup ∧ ∀ i ∈ (s.thread t).chain, i < NUM) ∧
    (∀ t t' i, i ∈ (s.thread t).chain → i ∈ (s.thread t').chain → t = t') ∧
    (∀ t req idx, (s.thread t).published = some (req, idx) →
      (s.info idx.head).b = some req.b ∧ (s.disk req.b = true ↔ idx.head ∈ s.outstanding)) ∧
    s.outstanding.Nodup ∧
    (∀ t req idx, s.thread t = .rw req (.waiting idx) → ∃ s', exec s (.run t) = some s' ∧
      (s'.thread t = .outside ↔ s.disk req.b = false)) ∧
    s.returned = s.processed ++ s.done ∧
    (∀ t, s.thread t = .handling → ∃ s', exec s (.run t) = some s' ∧ Handled s t s') ∧
    ∃ s' r, s.alloc3Desc = .ok (s', r) ∧ (r = none → s'.free = s.free) := by
  have h : Inv s := hs.invariant Inv (fun _ => Inv.init) fun _ _ _ h _ hstep => h.exec hstep
  refine ⟨h.panicked, h.part.free_iff, fun t => ⟨h.part.nodup t, h.part.lt t⟩, h.part.unique, ?_,
    h.nodup, ?_, h.log, ?_, ?_⟩
  · intro t req idx hpub
    refine ⟨((h.thread t).linked (.inl hpub)).2, (h.thread t).inFlight hpub, ?_⟩
    intro hmem
    by_contra hdisk
    exact h.not_outstanding_of_done hpub (Bool.eq_false_iff.mpr hdisk) hmem
  · intro t req idx hth
    exact h.waits hth
  · intro t hth
    refine ⟨s.handle t, ?_, h.handled t⟩
    rw [exec, if_pos h.panicked, State.run, hth]
  · obtain ⟨s', r, halloc, hspec⟩ := alloc3Desc_spec s
    refine ⟨s', r, halloc, ?_⟩
    rintro rfl
    cases hspec with
    | failed hfree _ _ => exact hfree

/-- The driver after `virtio_disk_init`. -/
def fresh : State where
  desc _ := .zero
  avail := ⟨0#16, fun _ => 0⟩
  used := ⟨0#16, fun _ => 0⟩
  free i := decide (i < NUM)
  usedIdx := 0#16
  info _ := ⟨none, 0⟩
  ops _ := ⟨0, 0⟩
  disk _ := false
  owner _ := none
  lock := none
  thread _ := .outside
  panicked := none
  seen := 0#16
  working := []
  returned := []
  processed := []

theorem fresh_init : Init fresh :=
  ⟨rfl, rfl, rfl, fun _ hi => decide_eq_true hi, fun _ => rfl, rfl, fun _ => rfl, rfl, rfl, rfl, rfl, rfl⟩

/-- Thread `t` reads the block of buffer `t`, up to its wait. -/
def submits (t : ℕ) : List Action :=
  [.lockBuf t t, .virtioDiskRw t ⟨t, 40 + t, false⟩] ++ List.replicate 6 (.run t)

/-- Two requests are published, and the device returns the second one first; a third thread
finds too few descriptors. The interrupt is handled, and the first thread is killed while it
sleeps, and finds that its request is not done. -/
def twoRequests : List Action :=
  submits 0 ++ submits 1 ++ [.lockBuf 2 2, .virtioDiskRw 2 ⟨2, 42, true⟩, .run 2, .run 2,
    .take, .take, .complete 3, .virtioDiskIntr 3, .run 3, .run 3, .run 3, .kill 0, .run 0]

theorem virtio_driver_safe_twoRequests : ∃ s, Reachable Init (relOf exec) s ∧ s.panicked = none ∧
    s.thread 2 = .rw ⟨2, 42, true⟩ .starved ∧ s.returned = [3] ∧ s.processed = [3] ∧
    s.thread 0 = .rw ⟨0, 40, false⟩ (.waiting ⟨0, 1, 2⟩) ∧
    ∃ s', exec s (.run 0) = some s' ∧ s'.thread 0 ≠ .outside := by
  obtain ⟨s, hreach, hstarved, hreturned, hprocessed, hwaiting, hdisk⟩ : ∃ s,
      Reachable Init (relOf exec) s ∧ s.thread 2 = .rw ⟨2, 42, true⟩ .starved ∧
      s.returned = [3] ∧ s.processed = [3] ∧
      s.thread 0 = .rw ⟨0, 40, false⟩ (.waiting ⟨0, 1, 2⟩) ∧ s.disk 0 = true :=
    Run.exists_reachable twoRequests fresh_init (by decide +kernel)
  have hsafe := virtio_driver_safe s hreach
  obtain ⟨s', hstep, hwaits⟩ := hsafe.2.2.2.2.2.2.1 0 _ _ hwaiting
  refine ⟨s, hreach, hsafe.1, hstarved, hreturned, hprocessed, hwaiting, s', hstep, fun hout => ?_⟩
  cases hdisk.symm.trans (hwaits.mp hout)

end Xv6.Virtio
