import Xv6.Cache.Invariant
import Xv6.Lib.Run

/-!
The representation of the buffer cache, over whole runs.

Every step keeps the invariant of `Xv6.Cache.Invariant` as long as no buffer gets `2^32`
references (`State.Inv.step`), and the invariant gives the properties of the cache
(`buffer_cache`). `refcnt` is a `uint`: with `2^32` references it is 0, and the buffer is
given to another block while it is in use (`pinned_buffer_recycled`).
-/

namespace Xv6.Cache

open Function (update update_self update_of_ne update_idem)

namespace State

variable {D : Type} {s t : State D} {p : Slot} {b : Buf} {dev n : ℕ}

/-! ### References -/

theorem refs_setOwner (s : State D) (b : Buf) (o : Option Slot) (b' : Buf) :
    (s.setOwner b o).refs b' + (if b' = b then s.holders b else 0) =
      s.refs b' + if b' = b ∧ o ≠ none then 1 else 0 := by
  have hw : (s.setOwner b o).waiters b' = s.waiters b' := rfl
  have hr : (s.setOwner b o).releasers b' = s.releasers b' := rfl
  have hp : (s.setOwner b o).pins b' = s.pins b' := rfl
  have hh : (s.setOwner b o).holders b' = if b' = b then (if o = none then 0 else 1) else s.holders b' := by
    unfold holders setOwner
    by_cases hb : b' = b
    · subst hb
      simp
    · simp [hb]
  unfold refs
  rw [hh, hw, hr, hp]
  by_cases hb : b' = b
  · subst hb
    cases o <;> simp <;> omega
  · simp [hb]

theorem refs_wait (hpc : s.pc p = .idle) (b' : Buf) :
    (s.setPc p (.wait b dev n)).refs b' = s.refs b' + if b' = b then 1 else 0 := by
  have hrefs := refs_setPc s p (.wait b dev n) b'
  simpa [hpc, Pc.waitsFor, Pc.releases, eq_comm] using hrefs

theorem refs_acquire (hpc : s.pc p = .wait b dev n) (hfree : s.owner b = none) (b' : Buf) :
    ((s.setPc p (.locked b dev n)).setOwner b (some p)).refs b' = s.refs b' := by
  have howner := refs_setOwner (s.setPc p (.locked b dev n)) b (some p) b'
  have hrefs := refs_setPc s p (.locked b dev n) b'
  have hheld : (s.setPc p (.locked b dev n)).holders b = 0 := holders_free hfree
  rw [hheld] at howner
  simp only [hpc, Pc.waitsFor, Pc.releases, Option.some.injEq, reduceCtorEq, if_false,
    eq_comm (a := b)] at hrefs
  simp only [ite_self, ne_eq, reduceCtorEq, not_false_eq_true, and_true] at howner
  omega

theorem refs_release (hpc : s.pc p = .idle) (howner : s.owner b = some p) (b' : Buf) :
    ((s.setPc p (.release b)).setOwner b none).refs b' = s.refs b' := by
  have hown := refs_setOwner (s.setPc p (.release b)) b none b'
  have hrefs := refs_setPc s p (.release b) b'
  have hheld : (s.setPc p (.release b)).holders b = 1 := by
    apply holders_owner
    rw [show (s.setPc p (.release b)).owner b = some p from howner]
    simp
  rw [hheld] at hown
  simp only [hpc, Pc.waitsFor, Pc.releases, Option.some.injEq, reduceCtorEq, if_false,
    eq_comm (a := b)] at hrefs
  simp only [ne_eq, not_true_eq_false, and_false, if_false] at hown
  omega

theorem refs_decref (hpc : s.pc p = .release b) (b' : Buf) :
    (s.setPc p .idle).refs b' + (if b' = b then 1 else 0) = s.refs b' := by
  have hrefs := refs_setPc s p .idle b'
  simpa [hpc, Pc.waitsFor, Pc.releases, eq_comm] using hrefs

theorem refs_fill (hpc : s.pc p = .locked b dev n) (b' : Buf) :
    (s.setPc p .idle).refs b' = s.refs b' := by
  have hrefs := refs_setPc s p .idle b'
  simpa [hpc, Pc.waitsFor, Pc.releases] using hrefs

theorem refs_pins {k : ℕ} (s : State D) (b b' : Buf) :
    { s with pins := update s.pins b k : State D }.refs b' + (if b' = b then s.pins b else 0) =
      s.refs b' + if b' = b then k else 0 := by
  have hold : s.refs b' = s.holders b' + s.waiters b' + s.releasers b' + s.pins b' := rfl
  have hnew : { s with pins := update s.pins b k : State D }.refs b' =
      s.holders b' + s.waiters b' + s.releasers b' + update s.pins b k b' := rfl
  by_cases hb : b' = b
  · subst hb
    rw [update_self] at hnew
    simp only [if_true]
    omega
  · rw [update_of_ne hb] at hnew
    simp only [hb, if_false]
    omega

/-- All references but the pins are by different processes, or by one that holds the buffer. -/
theorem refs_le (s : State D) (b : Buf) : s.refs b ≤ 2 * NPROC + 1 + s.pins b := by
  have hw : s.waiters b ≤ NPROC := Count.countOf_le _ _ |>.trans_eq (Fintype.card_fin _)
  have hr : s.releasers b ≤ NPROC := Count.countOf_le _ _ |>.trans_eq (Fintype.card_fin _)
  have hh : s.holders b ≤ 1 := by
    unfold holders
    split <;> omega
  unfold refs
  omega

/-! ### Steps -/

theorem decref_eq (s : State D) (b : Buf) :
    ∃ links, s.decref b = { s.setRefcnt b (s.refcnt b - 1) with links := links } := by
  unfold State.decref
  dsimp only
  split
  · exact ⟨_, rfl⟩
  · exact ⟨s.links, rfl⟩

/-- What the section of `bget` does: the block is cached, or it takes the place of the least
recently used buffer. -/
theorem bget_cases (ht : s.bget p dev n = some t) :
    (∃ b, s.lookup dev n = some (some (.buf b)) ∧
      t = (s.setRefcnt b (s.refcnt b + 1)).setPc p (.wait b dev n)) ∨
    ∃ b, s.lookup dev n = some none ∧ s.victim = some (some (.buf b)) ∧
      t = (s.recycle b dev n).setPc p (.wait b dev n) := by
  unfold State.bget at ht
  split at ht
  · rename_i b hl
    exact .inl ⟨b, hl, (Option.some.inj ht).symm⟩
  · rename_i hl
    split at ht
    · rename_i b hv
      exact .inr ⟨b, hl, hv, (Option.some.inj ht).symm⟩
    · cases ht
  · cases ht

theorem Inv.bget (h : s.Inv) (hpc : s.pc p = .idle) (hdev : dev ≠ 0)
    (ht : s.bget p dev n = some t) (hbound : ∀ b, t.refs b < 2 ^ 32) : t.Inv := by
  have hidle : ∀ {b dev n}, s.pc p = .locked b dev n → False := by
    intro b dev n hl
    cases hpc.symm.trans hl
  obtain ⟨b, hl, rfl⟩ | ⟨b, hl, hv, rfl⟩ := bget_cases ht
  · obtain ⟨hd, hn⟩ := h.lookup_some hl
    refine { toContent := ?_, count := ?_, bounded := hbound }
    · refine (h.toContent.setRefcnt _).setPc (by simp) ?_ fun hl => (hidle hl).elim
      intro b' dev' n' hc
      cases hc
      exact ⟨hd, hn, hdev⟩
    · exact h.count_incr (refs_wait hpc)
  · have hzero := h.victim_some hv
    have howner := h.owner_of_unused hzero
    refine { toContent := ?_, count := ?_, bounded := hbound }
    · have hrec := h.toContent.recycle howner (h.not_wait_of_unused hzero) (h.lookup_none hl) hdev
      refine hrec.setPc (by simp) ?_ fun hl => (hidle hl).elim
      intro b' dev' n' hc
      cases hc
      exact ⟨update_self .., update_self .., hdev⟩
    · have hone : s.refcnt b + 1 = 1 := by
        rw [hzero]
        rfl
      have hcount := h.count_incr (t := s.setPc p (.wait b dev n)) (refs_wait hpc)
      rwa [hone] at hcount

theorem fill_pc (s : State D) (b : Buf) : (s.fill b).pc = s.pc := by
  unfold State.fill
  split <;> rfl

theorem Inv.fill (h : s.Inv) (hdev : s.dev b ≠ 0) : (s.fill b).Inv := by
  have hcontent := h.toContent.fill hdev
  have hkeep : (s.fill b).refcnt = s.refcnt ∧ (s.fill b).refs = s.refs := by
    unfold State.fill
    split <;> exact ⟨rfl, rfl⟩
  refine { toContent := hcontent, count := ?_, bounded := ?_ }
  · rw [hkeep.1, hkeep.2]
    exact h.count
  · rw [hkeep.2]
    exact h.bounded

/-- The end of `bread`. -/
theorem Inv.leaveBread (h : s.Inv) (hpc : s.pc p = .locked b dev n) (hv : s.valid b = true) :
    (s.setPc p .idle).Inv := by
  refine { toContent := h.toContent.setPc (by simp) (by simp) ?_, count := ?_, bounded := ?_ }
  · intro b' dev' n' hl
    cases hpc.symm.trans hl
    exact hv
  · intro b'
    rw [refs_fill hpc]
    exact h.count b'
  · intro b'
    rw [refs_fill hpc]
    exact h.bounded b'

theorem Inv.valid_of_idle (h : s.Inv) (hpc : s.pc p = .idle) (howner : s.owner b = some p) :
    s.valid b = true := by
  obtain ⟨-, hv | ⟨dev, n, hl⟩⟩ := h.owner_ok howner
  · exact hv
  · cases hpc.symm.trans hl

/-- Every step keeps the invariant, unless it makes the references of a buffer `2^32`. -/
theorem Inv.step (h : s.Inv) {a : Action D} (ht : exec s a = some t)
    (hbound : ∀ b, t.refs b < 2 ^ 32) : t.Inv := by
  cases a with
  | bread p dev n =>
    obtain ⟨⟨hpc, hdev⟩, ht⟩ := Option.ite_none_right_eq_some.mp ht
    exact h.bget hpc hdev ht hbound
  | acquiresleep p =>
    simp only [exec] at ht
    split at ht
    · rename_i b dev n hpc
      obtain ⟨hfree, rfl⟩ := Run.of_guard ht
      refine { toContent := h.toContent.acquire hpc hfree, count := ?_, bounded := hbound }
      intro b'
      rw [refs_acquire hpc hfree]
      exact h.count b'
    · cases ht
  | fill p =>
    simp only [exec] at ht
    split at ht
    · rename_i b dev n hpc
      cases ht
      obtain ⟨howner, -, -⟩ := h.locked_ok hpc
      exact (h.fill (h.owner_ok howner).1).leaveBread ((congrFun (fill_pc s b) p).trans hpc)
        (fill_valid s b)
    · cases ht
  | store p b d =>
    obtain ⟨⟨hpc, howner⟩, rfl⟩ := Run.of_guard ht
    exact { h.toContent.store (h.valid_of_idle hpc howner) d with
      count := h.count, bounded := hbound }
  | bwrite p b =>
    obtain ⟨⟨hpc, howner⟩, rfl⟩ := Run.of_guard ht
    exact { h.toContent.bwrite (h.valid_of_idle hpc howner) with
      count := h.count, bounded := hbound }
  | brelse p b =>
    obtain ⟨⟨hpc, howner⟩, rfl⟩ := Run.of_guard ht
    refine { toContent := ?_, count := ?_, bounded := hbound }
    · have hidle : ∀ {b dev n}, s.pc p = .locked b dev n → s.valid b = true := by
        intro b dev n hl
        cases hpc.symm.trans hl
      exact (h.toContent.release howner hpc).setPc (by simp) (by simp) hidle
    · intro b'
      rw [refs_release hpc howner]
      exact h.count b'
  | decref p =>
    simp only [exec] at ht
    split at ht
    · rename_i b hpc
      cases ht
      obtain ⟨links, heq⟩ := decref_eq s b
      have hcontent := h.toContent.decref b
      rw [heq] at hcontent hbound ⊢
      refine { toContent := ?_, count := h.count_decr (refs_decref hpc), bounded := hbound }
      refine hcontent.setPc (by simp) (by simp) ?_
      intro b' dev' n' hl
      cases hpc.symm.trans hl
    · cases ht
  | bpin b =>
    cases ht
    refine { h with count := ?_, bounded := hbound }
    apply h.count_incr
    intro b'
    have hpins := refs_pins (k := s.pins b + 1) s b b'
    change (s.bpin b).refs b' + _ = _ at hpins
    split at hpins <;> rename_i hb
    · rw [if_pos hb]
      omega
    · rw [if_neg hb]
      omega
  | bunpin b =>
    obtain ⟨hpos, rfl⟩ := Run.of_guard ht
    refine { h with count := ?_, bounded := hbound }
    apply h.count_decr
    intro b'
    have hpins := refs_pins (k := s.pins b - 1) s b b'
    change (s.bunpin b).refs b' + _ = _ at hpins
    split at hpins <;> rename_i hb
    · rw [if_pos hb]
      omega
    · rw [if_neg hb]
      omega

theorem Inv.init (h : Init s) : s.Inv := by
  obtain ⟨hlinks, hblock, hvalid, hcnt, howner, hpc, hpins, hstored⟩ := h
  have hrefs : ∀ b, s.refs b = 0 := by
    intro b
    have hw : s.waiters b = 0 := by
      apply Count.countOf_eq_zero
      intro p
      rw [Function.comp_apply, hpc]
      exact Option.some_ne_none b ∘ Eq.symm
    have hr : s.releasers b = 0 := by
      apply Count.countOf_eq_zero
      intro p
      rw [Function.comp_apply, hpc]
      exact Option.some_ne_none b ∘ Eq.symm
    simp only [refs, holders_free (howner b), hw, hr, hpins]
  refine {
    list := ⟨_, List.reverse_perm _, hlinks ▸ Links.binit_ring⟩
    unique := fun hdev => absurd (hblock _).1 hdev
    count := fun b => by rw [hcnt, hrefs]; rfl
    bounded := fun b => by rw [hrefs]; decide
    wait_ok := ?_, locked_ok := ?_, owner_ok := ?_, valid_dev := ?_
    stored_ok := fun _ => hstored _, data_ok := ?_ }
  · intro p b dev n hp
    cases (hpc p).symm.trans hp
  · intro p b dev n hp
    cases (hpc p).symm.trans hp
  · intro p b hp
    cases (howner b).symm.trans hp
  · intro b hv
    cases (hvalid b).symm.trans hv
  · intro b hv
    cases (hvalid b).symm.trans hv

end State

/-! ### Runs -/

/-- The step does not make the references of a buffer `2^32`. -/
def NoWrap {D : Type} (s : State D) (a : Action D) : Prop :=
  ∀ t, exec s a = some t → ∀ b, t.refs b < 2 ^ 32

section

variable {D : Type} {s t : State D}

theorem State.Inv.of_reachable (h : Run.ReachableUnder Init (Run.relOf exec) NoWrap s) : s.Inv :=
  h.invariant State.Inv (fun _ => State.Inv.init) fun _ _ t inv hno hstep =>
    inv.step hstep (hno t hstep)

/-- A buffer in use keeps its block. -/
theorem State.Inv.block_kept (h : s.Inv) {a : Action D} (ht : exec s a = some t) {b : Buf}
    (hb : s.refcnt b ≠ 0) : t.dev b = s.dev b ∧ t.blockno b = s.blockno b := by
  cases a with
  | bread p dev n =>
    obtain ⟨-, ht⟩ := Option.ite_none_right_eq_some.mp ht
    obtain ⟨b', hl, rfl⟩ | ⟨b', hl, hv, rfl⟩ := State.bget_cases ht
    · exact ⟨rfl, rfl⟩
    · have hne : b ≠ b' := by
        rintro rfl
        exact hb (h.victim_some hv)
      exact ⟨update_of_ne hne .., update_of_ne hne ..⟩
  | acquiresleep p =>
    simp only [exec] at ht
    split at ht
    · obtain ⟨-, rfl⟩ := Run.of_guard ht
      exact ⟨rfl, rfl⟩
    · cases ht
  | fill p =>
    simp only [exec] at ht
    split at ht
    · cases ht
      unfold State.fill
      split <;> exact ⟨rfl, rfl⟩
    · cases ht
  | decref p =>
    simp only [exec] at ht
    split at ht
    · rename_i b' hpc
      cases ht
      obtain ⟨links, heq⟩ := State.decref_eq s b'
      rw [heq]
      exact ⟨rfl, rfl⟩
    · cases ht
  | store | bwrite | brelse | bunpin =>
    obtain ⟨-, rfl⟩ := Run.of_guard ht
    exact ⟨rfl, rfl⟩
  | bpin b' =>
    cases ht
    exact ⟨rfl, rfl⟩

/-- A process in `bread` was there before the step, or enters it. -/
theorem reading_of_exec {a : Action D} (ht : exec s a = some t) {q : Slot} {x : ℕ × ℕ}
    (hq : (t.pc q).reading = some x) : (s.pc q).reading = some x ∨ a = .bread q x.1 x.2 := by
  have hset : ∀ {u : State D} {p : Slot} {c : Pc}, (∀ {r}, u.pc r = s.pc r) →
      (∀ {y}, c.reading = some y → (s.pc p).reading = some y ∨ a = .bread p y.1 y.2) →
      ((u.setPc p c).pc q).reading = some x →
      (s.pc q).reading = some x ∨ a = .bread q x.1 x.2 := by
    intro u p c hu hc hx
    by_cases hqp : q = p
    · subst hqp
      rw [show (u.setPc q c).pc q = c from update_self ..] at hx
      exact hc hx
    · rw [show (u.setPc p c).pc q = u.pc q from update_of_ne hqp .., hu] at hx
      exact .inl hx
  cases a with
  | bread p dev n =>
    obtain ⟨-, ht⟩ := Option.ite_none_right_eq_some.mp ht
    obtain ⟨b, -, rfl⟩ | ⟨b, -, -, rfl⟩ := State.bget_cases ht
    · refine hset rfl ?_ hq
      rintro y ⟨⟩
      exact .inr rfl
    · refine hset rfl ?_ hq
      rintro y ⟨⟩
      exact .inr rfl
  | acquiresleep p =>
    simp only [exec] at ht
    split at ht
    · rename_i b dev n hpc
      obtain ⟨-, rfl⟩ := Run.of_guard ht
      refine hset (u := s) rfl ?_ hq
      rintro y ⟨⟩
      exact .inl (by rw [hpc]; rfl)
    · cases ht
  | fill p =>
    simp only [exec] at ht
    split at ht
    · rename_i b dev n hpc
      cases ht
      refine hset (congrFun (State.fill_pc s b) _) ?_ hq
      rintro y ⟨⟩
    · cases ht
  | brelse p b =>
    obtain ⟨-, rfl⟩ := Run.of_guard ht
    refine hset (u := s) rfl ?_ hq
    rintro y ⟨⟩
  | decref p =>
    simp only [exec] at ht
    split at ht
    · rename_i b hpc
      cases ht
      obtain ⟨links, heq⟩ := State.decref_eq s b
      rw [heq] at hq
      refine hset rfl ?_ hq
      rintro y ⟨⟩
    · cases ht
  | store | bwrite | bunpin =>
    obtain ⟨-, rfl⟩ := Run.of_guard ht
    exact .inl hq
  | bpin b =>
    cases ht
    exact .inl hq

/-- What `bread` returns. -/
theorem State.Inv.bread_returns (h : s.Inv) {p : Slot} {b : Buf} {dev n : ℕ}
    (hpc : s.pc p = .locked b dev n) (ht : exec s (.fill p) = some t) :
    t.owner b = some p ∧ t.dev b = dev ∧ t.blockno b = n ∧
      t.data b = (t.stored b).getD (t.disk dev n) := by
  obtain ⟨howner, hdev, hn⟩ := h.locked_ok hpc
  have hfill := h.toContent.fill (h.owner_ok howner).1
  have hkeep : (s.fill b).owner = s.owner ∧ (s.fill b).dev = s.dev ∧
      (s.fill b).blockno = s.blockno := by
    unfold State.fill
    split <;> exact ⟨rfl, rfl, rfl⟩
  have hdata := hfill.data_ok (State.fill_valid s b)
  rw [hkeep.2.1, hkeep.2.2, hdev, hn] at hdata
  simp only [exec, hpc] at ht
  cases ht
  exact ⟨(congrFun hkeep.1 b).trans howner, (congrFun hkeep.2.1 b).trans hdev,
    (congrFun hkeep.2.2 b).trans hn, hdata⟩

end

/-- **The buffer cache.** In every run of any processes in which no buffer has `2^32`
references at once: the links form one circular list of all buffers; a block has at most
one buffer; `refcnt` is the number of references, by those who hold the buffer (or are
still in `brelse`), wait for it or have pinned it; no step gives a buffer with a reference
to another block; both loops of `bget` end; and `bread` returns with the lock of a buffer
that holds the block, and in it what was last stored there since the block entered the
cache, or else what the disk holds. -/
theorem buffer_cache {D : Type} (s : State D)
    (hs : Run.ReachableUnder Init (Run.relOf exec) NoWrap s) :
    (∃ xs : List Buf, xs.Perm (List.finRange NBUF) ∧
      Circular s.links.next s.links.prev .head (xs.map .buf)) ∧
    (∀ b b', s.dev b ≠ 0 → s.dev b' = s.dev b → s.blockno b' = s.blockno b → b' = b) ∧
    (∀ b, (s.refcnt b).toNat = s.holders b + s.releasers b + s.waiters b + s.pins b) ∧
    (∀ a t b, exec s a = some t → s.refcnt b ≠ 0 →
      t.dev b = s.dev b ∧ t.blockno b = s.blockno b) ∧
    ((∀ dev n, s.lookup dev n ≠ none) ∧ s.victim ≠ none) ∧
    ∀ p b dev n t, s.pc p = .locked b dev n → exec s (.fill p) = some t →
      t.owner b = some p ∧ t.dev b = dev ∧ t.blockno b = n ∧
        t.data b = (t.stored b).getD (t.disk dev n) := by
  have h := State.Inv.of_reachable hs
  refine ⟨h.list, fun _ _ => h.unique, ?_, fun _ _ _ ht => h.block_kept ht, ⟨?_, ?_⟩,
    fun _ _ _ _ _ => h.bread_returns⟩
  · intro b
    rw [h.refs_eq b]
    unfold State.refs
    omega
  · intro dev n
    obtain ⟨xs, -, heq⟩ := h.lookup_eq dev n
    rw [heq]
    exact Option.some_ne_none _
  · obtain ⟨xs, -, heq⟩ := h.victim_eq
    rw [heq]
    exact Option.some_ne_none _

/-- The cache after `binit`, over a disk of zeroes. -/
def booted : State ℕ where
  links := .binit
  dev _ := 0
  blockno _ := 0
  valid _ := false
  refcnt _ := 0
  data _ := 0
  owner _ := none
  pc _ := .idle
  disk _ _ := 0
  pins _ := 0
  stored _ := none

theorem booted_init : Init booted :=
  ⟨rfl, fun _ => ⟨rfl, rfl⟩, fun _ => rfl, fun _ => rfl, fun _ => rfl, fun _ => rfl, fun _ => rfl,
    fun _ => rfl⟩

/-- The first process. -/
def first : Slot := ⟨0, NPROC_pos⟩

/-- The second process. -/
def second : Slot := ⟨1, one_lt_NPROC⟩

/-- The buffer that `bget` takes first. -/
def lru : Buf := ⟨0, Nat.zero_lt_succ _⟩

/-- `NoWrap` as a test. -/
def noWrap (s : State ℕ) (a : Action ℕ) : Bool :=
  (exec s a).all fun t => decide (∀ b, t.refs b < 2 ^ 32)

theorem noWrap_iff {s : State ℕ} {a : Action ℕ} (h : noWrap s a = true) : NoWrap s a := by
  intro t ht
  rw [noWrap, ht] at h
  exact of_decide_eq_true h

/-- The first process stores 7 in block 5 of device 1 and releases it; the second reads the
block. -/
def writeThenRead : List (Action ℕ) :=
  [.bread first 1 5, .acquiresleep first, .fill first, .store first lru 7, .brelse first lru,
    .decref first, .bread second 1 5, .acquiresleep second]

theorem buffer_cache_writeThenRead : ∃ s t : State ℕ, s.pc second = .locked lru 1 5 ∧
    exec s (.fill second) = some t ∧ t.owner lru = some second ∧ t.data lru = 7 := by
  obtain ⟨s, hs, hpc, hstored⟩ : ∃ s, Run.ReachableUnder Init (Run.relOf exec)
      (fun s a => noWrap s a = true) s ∧ s.pc second = .locked lru 1 5 ∧
        (exec s (.fill second)).map (fun t => t.stored lru) = some (some 7) :=
    Run.exists_reachableUnder writeThenRead booted_init (by decide +kernel)
  obtain ⟨t, ht, hstored⟩ := Option.map_eq_some_iff.mp hstored
  obtain ⟨howner, -, -, hdata⟩ :=
    (buffer_cache s (hs.mono fun _ _ => noWrap_iff)).2.2.2.2.2 second lru 1 5 t hpc ht
  rw [hstored] at hdata
  exact ⟨s, t, hpc, ht, howner, hdata⟩

/-! ### `refcnt` wraps -/

/-- The state after `k` further `bpin`s of `b`. -/
def State.pinned {D : Type} (s : State D) (b : Buf) (k : ℕ) : State D :=
  { s.setRefcnt b (s.refcnt b + UInt32.ofNat k) with pins := update s.pins b (s.pins b + k) }

theorem State.reachable_pinned {D : Type} {s : State D} (hs : Run.Reachable Init (Run.relOf exec) s)
    (b : Buf) (k : ℕ) : Run.Reachable Init (Run.relOf exec) (s.pinned b k) := by
  induction k with
  | zero =>
    have hnone : s.pinned b 0 = s := by
      simp [State.pinned, State.setRefcnt]
    rwa [hnone]
  | succ k ih =>
    refine .next (a := .bpin b) ih trivial ?_
    change some ((s.pinned b k).bpin b) = _
    simp [State.pinned, State.bpin, State.setRefcnt, UInt32.ofNat_add, UInt32.add_assoc,
      Nat.add_assoc]

/-- Block 5 of device 1 is read by the first process and pinned `2^32 - 1` times. Then
`refcnt` is 0, and when another process reads block 6, `bget` gives it the buffer that the
first one holds. -/
theorem pinned_buffer_recycled : ∃ s t : State ℕ, Run.Reachable Init (Run.relOf exec) s ∧
    s.owner lru = some first ∧ s.pins lru = 2 ^ 32 - 1 ∧ s.refcnt lru = 0 ∧
    exec s (.bread second 1 6) = some t ∧ s.blockno lru = 5 ∧ t.blockno lru = 6 := by
  obtain ⟨s, hreach, howner, hpins, hcnt, hold, hnew⟩ : ∃ s : State ℕ, Run.Reachable Init (Run.relOf exec) s ∧
      s.owner lru = some first ∧ s.pins lru = 0 ∧ s.refcnt lru = 1 ∧ s.blockno lru = 5 ∧
      (exec (s.pinned lru (2 ^ 32 - 1)) (.bread second 1 6)).map (fun t => t.blockno lru) = some 6 :=
    Run.exists_reachable [.bread first 1 5, .acquiresleep first, .fill first] booted_init
      (by decide +kernel)
  obtain ⟨t, ht, hnew⟩ := Option.map_eq_some_iff.mp hnew
  refine ⟨s.pinned lru (2 ^ 32 - 1), t, State.reachable_pinned hreach lru _, howner, ?_, ?_, ht,
    hold, hnew⟩
  · simp [State.pinned, hpins]
  · simp only [State.pinned, State.setRefcnt, update_self, hcnt]
    rfl

end Xv6.Cache
