import Xv6.Buffers.Invariant

/-!
Each operation on buffers and on the log keeps `Core`.
-/

namespace Xv6.Buffers

open Cache (Buf Slot)
open Cache.State (of_setPc)
open Xv6.Count (countOf countOf_update countOf_pos)
open Function (update update_self update_of_ne)

variable {cm : Commit}

namespace Base

variable {c : Cache.State Block} {log : Log} {loc : Slot → Loc} {p : Slot}

/-- A change of what a process knows of its commit. -/
theorem setCommit (h : Base c log loc) {l : Loc} (hheld : l.held = (loc p).held)
    (htx : l.tx = (loc p).tx)
    (hok : ∀ {cm}, l.commit = some cm →
      log.committing = true ∧ log.lh = cm.lh ∧ ∀ n ∈ cm.unpinned, n ∈ cm.clean)
    (hclean : ∀ {cm b}, l.commit = some cm → c.valid b = true → c.blockno b ∈ cm.clean →
      Settled c loc b)
    (hunique : ∀ {cm q cm'}, l.commit = some cm → (loc q).commit = some cm' → q = p) :
    Base c log (update loc p l) := by
  have hsame : ∀ q b', (update loc p l q).held b' = (loc q).held b' := fun q =>
    congrFun (update_same Loc.held hheld q)
  have hcm : ∀ {q cm}, (update loc p l q).commit = some cm →
      q = p ∧ l.commit = some cm ∨ q ≠ p ∧ (loc q).commit = some cm := by
    intro q cm hq
    rcases update_cases loc p l q with ⟨rfl, hu⟩ | ⟨hqp, hu⟩ <;> rw [hu] at hq
    · exact .inl ⟨rfl, hq⟩
    · exact .inr ⟨hqp, hq⟩
  have hset : ∀ {b'}, Settled c loc b' → Settled c (update loc p l) b' := fun hs =>
    hs.congr rfl rfl fun q => hsame q _
  refine { h with
    held_ok := ?_, locked_ok := ?_, coherent := ?_, commit_ok := ?_, commit_unique := ?_, tx_ok := ?_ }
  · intro q b' x hq
    rw [hsame] at hq
    exact h.held_ok hq
  · intro q b' dev m hq r
    rw [hsame]
    exact h.locked_ok hq r
  · intro b' hv
    by_cases hs : Settled c loc b'
    · exact .inl (hset hs)
    · obtain ⟨hlh, hnot⟩ := (h.coherent hv).resolve_left hs
      refine .inr ⟨hlh, fun q cm hq hmem => ?_⟩
      obtain ⟨-, hq⟩ | ⟨-, hq⟩ := hcm hq
      · exact hs (hclean hq hv hmem)
      · exact hnot q cm hq hmem
  · intro q cm hq
    obtain ⟨-, hq⟩ | ⟨-, hq⟩ := hcm hq
    · exact hok hq
    · exact h.commit_ok hq
  · intro q r cm cm' hq hr
    obtain ⟨hqp, hq⟩ | ⟨-, hq⟩ := hcm hq <;> obtain ⟨hrp, hr⟩ | ⟨-, hr⟩ := hcm hr
    · exact hqp.trans hrp.symm
    · exact hqp.trans (hunique hq hr).symm
    · exact (hunique hr hq).trans hrp.symm
    · exact h.commit_unique hq hr
  · exact fun q => (update_same Loc.tx htx q).trans (h.tx_ok q)

/-- The commit is over. -/
theorem dropCommit (h : Base c log loc) (hcm : (loc p).commit = some cm) :
    Base c log (update loc p { loc p with commit := none }) ∧
      ∀ q, (update loc p { loc p with commit := none } q).commit = none := by
  constructor
  · refine h.setCommit rfl rfl ?_ ?_ ?_
    · intro cm' hcm'
      cases hcm'
    · intro cm' b hcm'
      cases hcm'
    · intro cm' q cm'' hcm'
      cases hcm'
  · intro q
    by_cases hq : q = p
    · subst hq
      rw [update_self]
    · rw [update_of_ne hq]
      cases hqc : (loc q).commit with
      | none => rfl
      | some cm' => exact absurd (h.commit_unique hqc hcm) hq

end Base

namespace Core

variable {c t : Cache.State Block} {log : Log} {loc : Slot → Loc} {p : Slot} {b : Buf} {n : ℕ}
  {x : ℕ × Bool}

section

variable (h : Core c log loc)
include h

/-- What is pinned stays pinned, and nothing else becomes so. -/
theorem of_base {loc' : Slot → Loc} (hbase : Base c log loc')
    (hpinned : ∀ {m}, Pinned log.lh loc' m ↔ Pinned log.lh loc m) : Core c log loc' where
  toBase := hbase
  pins_one hd hpin := h.pins_one hd (hpinned.mp hpin)
  pins_zero hnot := h.pins_zero fun hpin => hnot ⟨hpin.1, hpinned.mpr hpin.2⟩
  pinned_cached hpin := h.pinned_cached (hpinned.mp hpin)

/-! ### `bread` -/

/-- The section of `bget`. -/
theorem bget (ht : Cache.exec c (.bread p ROOTDEV n) = some t) : Core t log loc := by
  obtain ⟨⟨hpc, -⟩, hget⟩ := Option.ite_none_right_eq_some.mp ht
  have hlocked : ∀ {q b' dev m} {x : Cache.State Block} {b₀ : Buf}, x.pc = c.pc →
      (x.setPc p (.wait b₀ ROOTDEV n)).pc q = .locked b' dev m → ∀ r, (loc r).held b' = none := by
    intro q b' dev m x b₀ hx hq
    obtain ⟨-, hq⟩ | ⟨-, hq⟩ := of_setPc hq
    · cases hq
    · rw [hx] at hq
      exact h.locked_ok hq
  obtain ⟨b, hl, rfl⟩ | ⟨b, hl, hv, rfl⟩ := Cache.State.bget_cases hget
  · refine { h with cache := ?_, locked_ok := hlocked rfl }
    exact h.cache_step ht fun _ => Nat.le_succ _
  -- the buffer `b` had no references, so nobody holds it and its block is not pinned
  have hzero := h.cache.victim_some hv
  have howner := h.cache.owner_of_unused hzero
  have hpins : c.pins b = 0 := by
    have hrefs := h.cache.refs_eq b
    rw [hzero] at hrefs
    simp only [Cache.State.refs, UInt32.toNat_zero] at hrefs
    omega
  have hother : ∀ {b'}, b' ≠ b →
      ((c.recycle b ROOTDEV n).setPc p (.wait b ROOTDEV n)).dev b' = c.dev b' ∧
      ((c.recycle b ROOTDEV n).setPc p (.wait b ROOTDEV n)).blockno b' = c.blockno b' ∧
      ((c.recycle b ROOTDEV n).setPc p (.wait b ROOTDEV n)).valid b' = c.valid b' := fun hb' =>
    ⟨update_of_ne hb' .., update_of_ne hb' .., update_of_ne hb' ..⟩
  have hself : ((c.recycle b ROOTDEV n).setPc p (.wait b ROOTDEV n)).dev b = ROOTDEV ∧
      ((c.recycle b ROOTDEV n).setPc p (.wait b ROOTDEV n)).blockno b = n ∧
      ((c.recycle b ROOTDEV n).setPc p (.wait b ROOTDEV n)).valid b = false :=
    ⟨update_self .., update_self .., update_self ..⟩
  have hvalid : ∀ {b'}, ((c.recycle b ROOTDEV n).setPc p (.wait b ROOTDEV n)).valid b' = true → b' ≠ b := by
    rintro b' hv rfl
    rw [hself.2.2] at hv
    cases hv
  have hnew : ¬ Pinned log.lh loc n := fun hpin => by
    obtain ⟨b₀, hd, hn⟩ := h.pinned_cached hpin
    exact h.cache.lookup_none hl b₀ ⟨hd, hn⟩
  refine { h with
    cache := h.cache_step ht fun _ => Nat.le_succ _
    locked_ok := hlocked rfl
    held_ok := ?_, dev_ok := ?_, coherent := ?_
    pins_one := ?_, pins_zero := ?_, pinned_cached := ?_ }
  · intro q b' x hq
    have hold := h.held_ok hq
    have hb' : b' ≠ b := by
      rintro rfl
      rw [howner] at hold
      cases hold.1
    exact ⟨hold.1, (hother hb').2.1.trans hold.2.1, (hother hb').2.2.trans hold.2.2⟩
  · intro b' hd
    by_cases hb' : b' = b
    · subst hb'
      exact hself.1
    · exact (hother hb').1.trans (h.dev_ok ((hother hb').1.symm.trans_ne hd))
  · intro b' hv
    have hb' := hvalid hv
    rcases h.coherent ((hother hb').2.2.symm.trans hv) with hset | hlogged
    · refine .inl (hset.congr rfl ?_ fun _ => rfl)
      rw [(hother hb').1, (hother hb').2.1]
      rfl
    · refine .inr ?_
      rwa [(hother hb').2.1]
  · intro b' hd hpin
    by_cases hb' : b' = b
    · subst hb'
      rw [hself.2.1] at hpin
      exact absurd hpin hnew
    · rw [(hother hb').2.1] at hpin
      exact h.pins_one ((hother hb').1.symm.trans hd) hpin
  · intro b' hnot
    by_cases hb' : b' = b
    · subst hb'
      exact hpins
    · apply h.pins_zero
      rwa [(hother hb').2.1, (hother hb').1] at hnot
  · intro m hpin
    obtain ⟨b₀, hd, hn⟩ := h.pinned_cached hpin
    have hb₀ : b₀ ≠ b := by
      rintro rfl
      have hone := h.pins_one hd (hn ▸ hpin)
      omega
    exact ⟨b₀, (hother hb₀).1.trans hd, (hother hb₀).2.1.trans hn⟩

/-- `acquiresleep` -/
theorem acquire (ht : Cache.exec c (.acquiresleep p) = some t) : Core t log loc := by
  have hinv : t.Inv := by
    apply h.cache_step ht
    intro b
    simp only [Cache.exec] at ht
    split at ht
    · obtain ⟨-, rfl⟩ := Run.of_guard ht
      exact Nat.le_succ _
    · cases ht
  simp only [Cache.exec] at ht
  split at ht
  · rename_i b dev n hpc
    obtain ⟨hfree, rfl⟩ := Run.of_guard ht
    refine { h with cache := hinv, held_ok := ?_, locked_ok := ?_ }
    · intro q b' x hq
      have hold := h.held_ok hq
      have hb' : b' ≠ b := by
        rintro rfl
        cases hfree.symm.trans hold.1
      exact ⟨(update_of_ne hb' ..).trans hold.1, hold.2⟩
    · intro q b' dev' m hq
      obtain ⟨-, hq⟩ | ⟨-, hq⟩ := of_setPc (s := c) hq
      · cases hq
        exact h.not_held_of_free hfree
      · exact h.locked_ok hq
  · cases ht

/-- The disk is read into a buffer that nobody holds. -/
theorem fillBlock (hnone : ∀ q, (loc q).held b = none) (hdev : c.dev b ≠ 0) :
    Core (c.fill b) log loc := by
  have hinv := h.cache.fill hdev
  unfold Cache.State.fill at hinv ⊢
  by_cases hv : c.valid b = true
  · rwa [if_pos hv]
  rw [if_neg hv] at hinv ⊢
  refine { h with cache := hinv, held_ok := ?_, coherent := ?_ }
  · intro q b' x hq
    have hb' : b' ≠ b := by
      rintro rfl
      cases (hnone q).symm.trans hq
    obtain ⟨howner, hn, hv'⟩ := h.held_ok hq
    exact ⟨howner, hn, (update_of_ne hb' ..).trans hv'⟩
  · intro b' hv'
    by_cases hb' : b' = b
    · subst hb'
      exact .inl (.inl (update_self ..))
    · exact (h.coherent ((update_of_ne hb' ..).symm.trans hv')).imp_left fun hset =>
        hset.congr (update_of_ne hb' ..) rfl fun _ => rfl

/-! ### What a process knows of the buffers it holds -/

/-- A change of what the owner of `b` knows of it, which leaves the buffer settled or in the
log. -/
theorem setHeld {l : Loc} (hcommit : l.commit = (loc p).commit) (htx : l.tx = (loc p).tx)
    (hsame : ∀ {b'}, b' ≠ b → l.held b' = (loc p).held b')
    (hself : ∀ {x}, l.held b = some x → c.owner b = some p ∧ c.blockno b = x.1 ∧ c.valid b = true)
    (hpc : ∀ {q dev m}, c.pc q = .locked b dev m → l.held b = none)
    (hset : Settled c loc b → Settled c (update loc p l) b ∨ Logged log.lh loc (c.blockno b)) :
    Core c log (update loc p l) := by
  have hheld : ∀ {q b' x}, (update loc p l q).held b' = some x →
      q = p ∧ b' = b ∧ l.held b = some x ∨ (loc q).held b' = some x := by
    intro q b' x hq
    by_cases hb' : b' = b
    · by_cases hqp : q = p
      · subst hb' hqp
        rw [update_self] at hq
        exact .inl ⟨rfl, rfl, hq⟩
      · rw [update_of_ne hqp] at hq
        exact .inr hq
    · rw [held_update_of_ne hb' hsame] at hq
      exact .inr hq
  have hcm : ∀ q, (update loc p l q).commit = (loc q).commit := update_same Loc.commit hcommit
  have hpinned : ∀ {m}, Pinned log.lh (update loc p l) m ↔ Pinned log.lh loc m := by
    intro m
    unfold Pinned
    simp only [hcm]
  have hlogged : ∀ {m}, Logged log.lh loc m → Logged log.lh (update loc p l) m := fun hm =>
    ⟨hm.1, fun q cm hq => hm.2 q cm ((hcm q).symm.trans hq)⟩
  refine h.of_base { h.toBase with
    held_ok := ?_, locked_ok := ?_, coherent := ?_, commit_ok := ?_, commit_unique := ?_
    tx_ok := ?_ } hpinned
  · intro q b' x hq
    obtain ⟨rfl, rfl, hx⟩ | hq := hheld hq
    · exact hself hx
    · exact h.held_ok hq
  · intro q b' dev m hq r
    by_cases hb' : b' = b
    · subst hb'
      by_cases hr : r = p
      · subst hr
        rw [update_self]
        exact hpc hq
      · rw [update_of_ne hr]
        exact h.locked_ok hq r
    · rw [held_update_of_ne hb' hsame]
      exact h.locked_ok hq r
  · intro b' hv
    rcases h.coherent hv with hs | hl
    · by_cases hb' : b' = b
      · subst hb'
        exact (hset hs).imp_right hlogged
      · exact .inl (hs.congr rfl rfl (held_update_of_ne hb' hsame))
    · exact .inr (hlogged hl)
  · intro q cm hq
    rw [hcm] at hq
    exact h.commit_ok hq
  · intro q r cm cm' hq hr
    rw [hcm] at hq hr
    exact h.commit_unique hq hr
  · exact fun q => (update_same Loc.tx htx q).trans (h.tx_ok q)

/-- A process that holds a buffer is owed a write of it, or no longer is. -/
theorem setOwed (hb : (loc p).held b = some x) (owed : Bool)
    (hset : Settled c loc b → Settled c (update loc p ((loc p).hold b x.1 owed)) b ∨
      Logged log.lh loc (c.blockno b)) :
    Core c log (update loc p ((loc p).hold b x.1 owed)) := by
  refine h.setHeld rfl rfl Loc.hold_held_of_ne ?_ ?_ hset
  · intro y hy
    rw [Loc.hold_held] at hy
    cases hy
    have hok := h.held_ok hb
    exact hok
  · intro q dev m hq
    cases (h.locked_ok hq p).symm.trans hb

/-- The process goes on, outside `bread`. -/
theorem setPc {pc : Cache.Pc} (hinv : (c.setPc p pc).Inv) (hpc : ∀ b dev n, pc ≠ .locked b dev n) :
    Core (c.setPc p pc) log loc := by
  refine { h with cache := hinv, locked_ok := ?_ }
  intro q b dev n hq
  obtain ⟨-, hq⟩ | ⟨-, hq⟩ := of_setPc hq
  · exact absurd hq (hpc b dev n)
  · exact h.locked_ok hq

/-- The end of `bread`: the process holds the buffer. -/
theorem fill {dev : ℕ} (hpc : c.pc p = .locked b dev n) (ht : Cache.exec c (.fill p) = some t) :
    Core t log (update loc p ((loc p).hold b n false)) := by
  obtain ⟨howner, hdev, hn⟩ := h.cache.locked_ok hpc
  have hnone := h.locked_ok hpc
  simp only [Cache.exec, hpc] at ht
  cases ht
  have hpc' : (c.fill b).pc p = .locked b dev n := (congrFun (Cache.State.fill_pc c b) p).trans hpc
  have hfill := h.fillBlock hnone (h.cache.owner_ok howner).1
  have hvalid := Cache.State.fill_valid c b
  obtain ⟨howner', -, hn'⟩ := hfill.cache.locked_ok hpc'
  have hidle := hfill.setPc (hfill.cache.leaveBread hpc' hvalid) (by simp)
  refine hidle.setHeld rfl rfl Loc.hold_held_of_ne ?_ ?_ ?_
  · intro x hx
    rw [Loc.hold_held] at hx
    cases hx
    exact ⟨howner', hn', hvalid⟩
  · intro q dev' m hq
    obtain ⟨-, hq⟩ | ⟨hne, hq⟩ := of_setPc hq
    · cases hq
    · have hq' := (hfill.cache.locked_ok hq).1
      exact absurd (Option.some.inj (hq'.symm.trans howner')) hne
  · rintro (hs | ⟨q, m, hq⟩)
    · exact .inl (.inl hs)
    · cases (hnone q).symm.trans hq

/-! ### Changes of a buffer -/

variable {d : Block}

/-- What the process stores is owed a write. -/
theorem storeOwed (hb : (loc p).held b = some (n, true)) (hinv : (c.store b d).Inv) :
    Core (c.store b d) log loc := by
  have hset : ∀ {b'}, Settled c loc b' → Settled (c.store b d) loc b' := by
    intro b' hs
    by_cases hb' : b' = b
    · subst hb'
      exact .inr ⟨p, n, hb⟩
    · exact hs.congr (update_of_ne hb' ..) rfl fun _ => rfl
  exact { h with cache := hinv, coherent := fun hv => (h.coherent hv).imp_left hset }

theorem store (hb : (loc p).held b = some x) (ht : Cache.exec c (.store p b d) = some t) :
    Core t log (update loc p ((loc p).hold b x.1 true)) := by
  have hinv := h.cache_step ht
  obtain ⟨⟨hpc, howner⟩, rfl⟩ := Run.of_guard ht
  have hheld : (update loc p ((loc p).hold b x.1 true) p).held b = some (x.1, true) := by
    rw [update_self, Loc.hold_held]
  have howed := h.setOwed hb true fun _ => .inl (.inr ⟨p, x.1, hheld⟩)
  exact howed.storeOwed hheld (hinv fun _ => Nat.le_succ _)

/-- A copy that failed: it has changed nothing, or the block is in the log. -/
theorem copyFail (hd : d = c.data b ∨ Logged log.lh loc (c.blockno b))
    (ht : Cache.exec c (.store p b d) = some t) : Core t log loc := by
  have hinv := h.cache_step ht
  obtain ⟨-, rfl⟩ := Run.of_guard ht
  refine { h with cache := hinv fun _ => Nat.le_succ _, coherent := fun {b'} hv => ?_ }
  rcases h.coherent hv with hs | hl
  · by_cases hb' : b' = b
    · subst hb'
      refine hd.imp_left fun heq => hs.congr ?_ rfl fun _ => rfl
      rw [heq]
      exact update_self ..
    · exact .inl (hs.congr (update_of_ne hb' ..) rfl fun _ => rfl)
  · exact .inr hl

/-- `bwrite`: the disk gets what the buffer holds. -/
theorem writeBack (hv : c.valid b = true) (hinv : (c.bwrite b).Inv) :
    Core (c.bwrite b) log loc ∧ c.data b = (c.bwrite b).disk (c.dev b) (c.blockno b) := by
  have hself : c.data b = (c.bwrite b).disk (c.dev b) (c.blockno b) := by
    simp [Cache.State.bwrite]
  have hset : ∀ {b'}, c.valid b' = true → Settled c loc b' → Settled (c.bwrite b) loc b' := by
    intro b' hv' hs
    by_cases hb' : b' = b
    · subst hb'
      exact .inl hself
    -- another buffer holds another block
    · refine hs.congr rfl ?_ fun _ => rfl
      have hne : c.blockno b' ≠ c.blockno b := fun heq =>
        hb' (h.block_unique (h.dev_of_valid hv) (h.dev_of_valid hv') heq)
      change update c.disk (c.dev b) (update (c.disk (c.dev b)) (c.blockno b) (c.data b))
        (c.dev b') (c.blockno b') = _
      rw [h.dev_of_valid hv, h.dev_of_valid hv', update_self, update_of_ne hne]
  exact ⟨{ h with
    cache := hinv, coherent := fun hv' => (h.coherent hv').imp_left (hset hv') }, hself⟩

end

/-- The unpinned blocks decide what is pinned. -/
theorem pinned_update {l : Loc} {lh : List ℕ} {m : ℕ}
    (hl : (∃ cm, l.commit = some cm ∧ m ∈ cm.unpinned) ↔
      ∃ cm, (loc p).commit = some cm ∧ m ∈ cm.unpinned) :
    Pinned lh (update loc p l) m ↔ Pinned lh loc m := by
  have hsame : ∀ q, (∃ cm, (update loc p l q).commit = some cm ∧ m ∈ cm.unpinned) =
      ∃ cm, (loc q).commit = some cm ∧ m ∈ cm.unpinned :=
    update_same (fun l : Loc => ∃ cm, l.commit = some cm ∧ m ∈ cm.unpinned) (propext hl)
  refine and_congr_right fun _ => forall_congr' fun q => ?_
  simp only [← not_and, ← not_exists, hsame]

section

variable (h : Core c log loc)
include h

theorem wrote (hset : ∀ {b}, c.valid b = true → c.blockno b = n → Settled c loc b) :
    Core c log (update loc p ((loc p).wrote n)) := by
  have hcases : ∀ {cm}, ((loc p).wrote n).commit = some cm →
      ∃ cm', (loc p).commit = some cm' ∧ cm = { cm' with clean := n :: cm'.clean } := by
    intro cm hcm
    obtain ⟨cm', hcm', rfl⟩ := Option.map_eq_some_iff.mp hcm
    exact ⟨cm', hcm', rfl⟩
  refine h.of_base (h.toBase.setCommit rfl rfl ?_ ?_ ?_) (pinned_update ?_)
  · intro cm hcm
    obtain ⟨cm', hcm', rfl⟩ := hcases hcm
    obtain ⟨hc, hlh, hun⟩ := h.commit_ok hcm'
    exact ⟨hc, hlh, fun m hm => List.mem_cons_of_mem _ (hun m hm)⟩
  · intro cm b hcm hv hmem
    obtain ⟨cm', hcm', rfl⟩ := hcases hcm
    rcases List.mem_cons.mp hmem with heq | hmem
    · exact hset hv heq
    · exact h.clean_ok hcm' hv hmem
  · intro cm q cm'' hcm hq
    obtain ⟨cm', hcm', rfl⟩ := hcases hcm
    exact h.commit_unique hq hcm'
  · constructor
    · rintro ⟨cm, hcm, hm⟩
      obtain ⟨cm', hcm', rfl⟩ := hcases hcm
      exact ⟨cm', hcm', hm⟩
    · rintro ⟨cm', hcm', hm⟩
      exact ⟨{ cm' with clean := n :: cm'.clean }, by rw [Loc.wrote_eq hcm'], hm⟩

theorem bwrite (hb : (loc p).held b = some x) (ht : Cache.exec c (.bwrite p b) = some t) :
    Core t log (update loc p (((loc p).hold b x.1 false).wrote x.1)) := by
  have hinv := h.cache_step ht
  obtain ⟨⟨hpc, howner⟩, rfl⟩ := Run.of_guard ht
  have hok := h.held_ok hb
  obtain ⟨hwritten, hself⟩ := h.writeBack hok.2.2 (hinv fun _ => Nat.le_succ _)
  have hpaid := hwritten.setOwed hb false fun _ => .inl (.inl hself)
  have hclean := hpaid.wrote (p := p) (n := x.1) (by
    intro b' hv heq
    have hb' : b' = b := h.block_unique (h.dev_of_held hb) (h.dev_of_valid hv)
      (heq.trans hok.2.1.symm)
    subst hb'
    exact .inl hself)
  rwa [update_self, Function.update_idem] at hclean

/-! ### `brelse` -/

/-- `releasesleep` of a buffer that is owed nothing. -/
theorem brelse (hb : (loc p).held b = some (n, false)) (ht : Cache.exec c (.brelse p b) = some t) :
    Core t log (update loc p ((loc p).drop b)) := by
  have hinv := h.cache_step ht
  obtain ⟨⟨hpc, howner⟩, rfl⟩ := Run.of_guard ht
  have hdrop : ((loc p).drop b).held b = none := update_self ..
  have hdropped : Core c log (update loc p ((loc p).drop b)) := by
    refine h.setHeld rfl rfl (fun hb' => update_of_ne hb' ..) ?_ (fun _ => hdrop) ?_
    · intro x hx
      cases hdrop.symm.trans hx
    · exact fun hs => .inl (.inl (h.eq_disk_of_settled hs hb))
  have hnone : ∀ q, (update loc p ((loc p).drop b) q).held b = none := by
    intro q
    by_cases hq : q = p
    · subst hq
      rw [update_self, hdrop]
    · rw [update_of_ne hq]
      cases hqb : (loc q).held b with
      | none => rfl
      | some x => exact absurd (h.held_unique hb hqb) hq
  refine { hdropped with cache := hinv fun _ => Nat.le_succ _, held_ok := ?_, locked_ok := ?_ }
  · intro q b' x hq
    have hb' : b' ≠ b := by
      rintro rfl
      cases (hnone q).symm.trans hq
    have hold := hdropped.held_ok hq
    exact ⟨(update_of_ne hb' ..).trans hold.1, hold.2⟩
  · intro q b' dev m hq
    obtain ⟨-, hq⟩ | ⟨-, hq⟩ := of_setPc (s := c) hq
    · cases hq
    · exact hdropped.locked_ok hq

/-- The section of `brelse`. -/
theorem decref (ht : Cache.exec c (.decref p) = some t) : Core t log loc := by
  have hinv := h.cache_step ht
  simp only [Cache.exec] at ht
  split at ht
  · rename_i b hpc
    cases ht
    obtain ⟨links, heq⟩ := Cache.State.decref_eq c b
    rw [heq] at hinv ⊢
    refine { h with cache := hinv fun _ => Nat.le_succ _, locked_ok := ?_ }
    intro q b' dev m hq
    obtain ⟨-, hq⟩ | ⟨-, hq⟩ := of_setPc hq
    · cases hq
    · exact h.locked_ok hq
  · cases ht

/-! ### The log -/

/-- `log_write` of a block that is in the log. -/
theorem logAgain (hb : (loc p).held b = some x) (hlh : c.blockno b ∈ log.lh)
    (hnone : ∀ q, (loc q).commit = none) :
    Core c log (update loc p ((loc p).hold b x.1 false)) :=
  h.setOwed hb false fun _ => .inr (.of_none hlh hnone)

/-- `log_write` of another block adds it to the log and pins it. -/
theorem logNew (hb : (loc p).held b = some x) (hlh : c.blockno b ∉ log.lh)
    (hlen : log.lh.length < LOGSIZE) (hnone : ∀ q, (loc q).commit = none) :
    Core (c.bpin b) { log with lh := log.lh ++ [c.blockno b] } loc := by
  have hdev := h.dev_of_held hb
  have hpinned : ∀ {lh m}, Pinned lh loc m ↔ m ∈ lh := by
    intro lh m
    refine and_iff_left ?_
    intro q cm hq
    cases (hnone q).symm.trans hq
  have hzero : c.pins b = 0 := h.pins_zero fun hpin => hlh (hpinned.mp hpin.2)
  have hself : (c.bpin b).pins b = 1 := by
    change update c.pins b (c.pins b + 1) b = 1
    rw [update_self, hzero]
  have hother : ∀ {b'}, b' ≠ b → (c.bpin b).pins b' = c.pins b' := fun hb' => update_of_ne hb' ..
  have hinv : (c.bpin b).Inv := by
    refine h.cache_step (a := .bpin b) rfl ?_
    intro b'
    by_cases hb' : b' = b
    · subst hb'
      exact (update_self ..).le
    · exact (update_of_ne hb' ..).le.trans (Nat.le_succ _)
  refine { h with
    cache := hinv, coherent := ?_, commit_ok := ?_, lh_nodup := ?_, lh_le := ?_
    pins_one := ?_, pins_zero := ?_, pinned_cached := ?_ }
  · intro b' hv
    exact (h.coherent hv).imp_right fun hl => ⟨List.mem_append_left _ hl.1, hl.2⟩
  · intro q cm hq
    cases (hnone q).symm.trans hq
  · exact (List.perm_append_singleton ..).nodup_iff.mpr (List.nodup_cons.mpr ⟨hlh, h.lh_nodup⟩)
  · rw [List.length_append]
    exact hlen
  · intro b' hd hpin
    by_cases hb' : b' = b
    · subst hb'
      exact hself
    · rw [hother hb']
      refine h.pins_one hd (hpinned.mpr ?_)
      rcases List.mem_append.mp (hpinned.mp hpin) with hmem | hmem
      · exact hmem
      · exact absurd (h.block_unique hdev hd (List.mem_singleton.mp hmem)) hb'
  · intro b' hnot
    have hb' : b' ≠ b := by
      rintro rfl
      exact hnot ⟨hdev, hpinned.mpr (List.mem_append_right _ (List.mem_singleton_self _))⟩
    rw [hother hb']
    refine h.pins_zero fun hpin => hnot ⟨hpin.1, hpinned.mpr ?_⟩
    exact List.mem_append_left _ (hpinned.mp hpin.2)
  · intro m hpin
    rcases List.mem_append.mp (hpinned.mp hpin) with hmem | hmem
    · exact h.pinned_cached (hpinned.mpr hmem)
    · exact ⟨b, hdev, (List.mem_singleton.mp hmem).symm⟩

/-- `bunpin` by the commit, after it has written the block home. -/
theorem bunpin (hb : (loc p).held b = some x)
    (hcm : (loc p).commit = some cm) (hlh : x.1 ∈ cm.lh) (hclean : x.1 ∈ cm.clean)
    (hun : x.1 ∉ cm.unpinned) (ht : Cache.exec c (.bunpin b) = some t) :
    Core t log (update loc p { loc p with
      commit := some { cm with unpinned := x.1 :: cm.unpinned } }) := by
  have hinv := h.cache_step ht
  obtain ⟨hpos, rfl⟩ := Run.of_guard ht
  have hdev := h.dev_of_held hb
  have hblock := (h.held_ok hb).2.1
  obtain ⟨hcommitting, hlog, hsub⟩ := h.commit_ok hcm
  have honly : ∀ {q cm'}, (loc q).commit = some cm' → cm = cm' := by
    intro q cm' hq
    rw [h.commit_unique hq hcm, hcm] at hq
    exact Option.some.inj hq
  -- only this block's pin goes
  have hpinned : ∀ {m}, Pinned log.lh (update loc p { loc p with
      commit := some { cm with unpinned := x.1 :: cm.unpinned } }) m ↔
        Pinned log.lh loc m ∧ m ≠ x.1 := by
    intro m
    constructor
    · rintro ⟨hm, hall⟩
      have hp := hall p _ (by rw [update_self])
      rw [List.mem_cons, not_or] at hp
      exact ⟨⟨hm, fun q cm' hq => honly hq ▸ hp.2⟩, hp.1⟩
    · rintro ⟨⟨hm, hall⟩, hne⟩
      refine ⟨hm, ?_⟩
      intro q cm' hq
      by_cases hqp : q = p
      · subst hqp
        rw [update_self] at hq
        cases hq
        rw [List.mem_cons, not_or]
        exact ⟨hne, hall q cm hcm⟩
      · rw [update_of_ne hqp] at hq
        exact absurd (h.commit_unique hq hcm) hqp
  have hold : Pinned log.lh loc (c.blockno b) := by
    rw [hblock]
    exact ⟨hlog ▸ hlh, fun q cm' hq => honly hq ▸ hun⟩
  have hself : (c.bunpin b).pins b = 0 := by
    change update c.pins b (c.pins b - 1) b = 0
    rw [update_self, h.pins_one hdev hold]
  have hother : ∀ {b'}, b' ≠ b → (c.bunpin b).pins b' = c.pins b' := fun hb' => update_of_ne hb' ..
  have hne : ∀ {b'}, b' ≠ b → c.dev b' = ROOTDEV → c.blockno b' ≠ x.1 := fun hb' hd heq =>
    hb' (h.block_unique hdev hd (heq.trans hblock.symm))
  have hbase : Base c log (update loc p { loc p with
      commit := some { cm with unpinned := x.1 :: cm.unpinned } }) := by
    refine h.toBase.setCommit rfl rfl ?_ ?_ ?_
    · intro cm' hcm'
      cases hcm'
      refine ⟨hcommitting, hlog, ?_⟩
      intro m hm
      rcases List.mem_cons.mp hm with rfl | hm
      · exact hclean
      · exact hsub m hm
    · intro cm' b' hcm' hv hmem
      cases hcm'
      exact h.clean_ok hcm hv hmem
    · intro cm' q cm'' _ hq
      exact h.commit_unique hq hcm
  refine { hbase with
    cache := hinv ?_, pins_one := ?_, pins_zero := ?_, pinned_cached := ?_ }
  · intro b'
    by_cases hb' : b' = b
    · subst hb'
      rw [hself]
      exact Nat.zero_le _
    · rw [hother hb']
      exact Nat.le_succ _
  · intro b' hd hpin
    have hb' : b' ≠ b := by
      rintro rfl
      exact (hpinned.mp hpin).2 hblock
    rw [hother hb']
    exact h.pins_one hd (hpinned.mp hpin).1
  · intro b' hnot
    by_cases hb' : b' = b
    · subst hb'
      exact hself
    · rw [hother hb']
      exact h.pins_zero fun hpin => hnot ⟨hpin.1, hpinned.mpr ⟨hpin.2, hne hb' hpin.1⟩⟩
  · intro m hpin
    exact h.pinned_cached (hpinned.mp hpin).1

/-- `log.lh.n = 0`, when all its blocks are on disk and unpinned. -/
theorem clearLh (hcm : (loc p).commit = some cm)
    (hall : ∀ n ∈ cm.lh, n ∈ cm.clean ∧ n ∈ cm.unpinned) :
    Core c { log with lh := [] } (update loc p { loc p with commit := some ⟨[], [], []⟩ }) := by
  obtain ⟨hcommitting, hlog, -⟩ := h.commit_ok hcm
  have hset : ∀ {b}, c.valid b = true → Settled c loc b := by
    intro b hv
    refine (h.coherent hv).resolve_right fun hl => hl.2 p cm hcm (hall _ ?_).1
    exact hlog ▸ hl.1
  have hbase : Base c { log with lh := [] }
      (update loc p { loc p with commit := some ⟨[], [], []⟩ }) := by
    obtain ⟨hdropped, hnone⟩ := h.toBase.dropCommit hcm
    have hset' : ∀ {b}, c.valid b = true →
        Settled c (update loc p { loc p with commit := none }) b := by
      intro b hv
      exact (hset hv).congr rfl rfl fun q => congrFun (update_same Loc.held (by rfl) q) b
    have hcleared : Base c { log with lh := [] }
        (update loc p { loc p with commit := none }) :=
      { hdropped with
        coherent := fun hv => .inl (hset' hv)
        commit_ok := fun hq => by cases (hnone _).symm.trans hq
        lh_nodup := List.nodup_nil
        lh_le := Nat.zero_le _ }
    have hagain := hcleared.setCommit (p := p)
      (l := { loc p with commit := some ⟨[], [], []⟩ }) (by rw [update_self]) (by rw [update_self])
      ?_ ?_ ?_
    · rwa [Function.update_idem] at hagain
    · intro cm' hcm'
      cases hcm'
      exact ⟨hcommitting, rfl, fun m hm => absurd hm List.not_mem_nil⟩
    · intro cm' b' hcm' hv hmem
      exact hset' hv
    · intro cm' q cm'' _ hq
      cases (hnone q).symm.trans hq
  have hunpinned : ∀ {b}, ¬ (c.dev b = ROOTDEV ∧ Pinned log.lh loc (c.blockno b)) := by
    rintro b ⟨-, hmem, hnot⟩
    rw [hlog] at hmem
    exact hnot p cm hcm (hall _ hmem).2
  exact { hbase with
    pins_one := fun _ hpin => absurd hpin.1 List.not_mem_nil
    pins_zero := fun _ => h.pins_zero hunpinned
    pinned_cached := fun hpin => absurd hpin.1 List.not_mem_nil }

/-- `log.committing = 0` -/
theorem commitDone (hcm : (loc p).commit = some cm) (hlh : cm.lh = []) :
    Core c { log with committing := false } (update loc p { loc p with commit := none }) := by
  obtain ⟨hdropped, hnone⟩ := h.toBase.dropCommit hcm
  have hempty : log.lh = [] := (h.commit_ok hcm).2.1.trans hlh
  have hdone : Core c log (update loc p { loc p with commit := none }) := by
    refine h.of_base hdropped ?_
    intro m
    unfold Pinned
    rw [hempty]
    simp
  exact { hdone with
    commit_ok := fun hq => by cases (hnone _).symm.trans hq
    committing_ok := fun hc => by cases hc }

end

/-! ### Transactions -/

theorem countOf_inTx (inTx : Slot → Bool) (p : Slot) (b : Bool) :
    countOf (inTxOf ∘ update inTx p b) () + (if inTx p = true then 1 else 0) =
      countOf (inTxOf ∘ inTx) () + if b = true then 1 else 0 := by
  have hcount := countOf_update (inTxOf ∘ inTx) p (inTxOf b) ()
  rw [← Function.comp_update] at hcount
  cases hp : inTx p <;> cases b <;> simpa [inTxOf, hp] using hcount

variable (h : Core c log loc)
include h

/-- A process enters or leaves a transaction. -/
theorem setTx {outstanding : ℤ} (b : Bool)
    (hout : outstanding = countOf (inTxOf ∘ update log.inTx p b) ())
    (hnot : log.committing = false) :
    Core c { log with outstanding := outstanding, inTx := update log.inTx p b }
      (update loc p { loc p with tx := b }) := by
  have hsame : ∀ q, (update loc p { loc p with tx := b } q).held = (loc q).held ∧
      (update loc p { loc p with tx := b } q).commit = (loc q).commit := fun q =>
    ⟨update_same Loc.held (by rfl) q, update_same Loc.commit (by rfl) q⟩
  have hnone : ∀ q, (update loc p { loc p with tx := b } q).commit = none := fun q =>
    (hsame q).2.trans (h.no_commit hnot q)
  have hpinned : ∀ {m}, Pinned log.lh (update loc p { loc p with tx := b }) m ↔
      Pinned log.lh loc m := pinned_update Iff.rfl
  have htx : ∀ q, (update loc p { loc p with tx := b } q).tx = update log.inTx p b q := by
    intro q
    by_cases hq : q = p
    · subst hq
      rw [update_self, update_self]
    · rw [update_of_ne hq, update_of_ne hq]
      exact h.tx_ok q
  exact {
    cache := h.cache
    held_ok := fun hq => h.held_ok ((congrFun (hsame _).1 _).symm.trans hq)
    locked_ok := fun hq r => (congrFun (hsame r).1 _).trans (h.locked_ok hq r)
    dev_ok := h.dev_ok
    coherent := fun hv => (h.coherent hv).imp
      (fun hs => hs.congr rfl rfl fun q => congrFun (hsame q).1 _) fun hl => .of_none hl.1 hnone
    commit_ok := fun hq => by cases (hnone _).symm.trans hq
    commit_unique := fun hq => by cases (hnone _).symm.trans hq
    lh_nodup := h.lh_nodup
    lh_le := h.lh_le
    tx_ok := htx
    outstanding_ok := hout
    committing_ok := fun hc => by cases hnot.symm.trans hc
    pins_one := fun hd hpin => h.pins_one hd (hpinned.mp hpin)
    pins_zero := fun hnot => h.pins_zero fun hpin => hnot ⟨hpin.1, hpinned.mpr hpin.2⟩
    pinned_cached := fun hpin => h.pinned_cached (hpinned.mp hpin) }

theorem beginOp (htx : (loc p).tx = false) (hnot : log.committing = false) :
    Core c (log.beginOp p) (update loc p { loc p with tx := true }) := by
  refine h.setTx true ?_ hnot
  have hcount := countOf_inTx log.inTx p true
  rw [← h.tx_ok p, htx] at hcount
  rw [h.outstanding_ok]
  simp only [Bool.false_eq_true, if_false, if_true] at hcount
  omega

theorem endOp (htx : (loc p).tx = true) :
    Core c (log.endOp p) (update loc p { loc p with tx := false }) := by
  refine h.setTx false ?_ (h.not_committing htx)
  have hcount := countOf_inTx log.inTx p false
  rw [← h.tx_ok p, htx] at hcount
  rw [h.outstanding_ok]
  simp only [Bool.false_eq_true, if_false, if_true] at hcount
  omega

/-- The last transaction has ended: `log.committing = 1`. -/
theorem startCommit (hnot : log.committing = false)
    (hzero : log.outstanding = 0) :
    Core c { log with committing := true }
      (update loc p { loc p with commit := some ⟨log.lh, [], []⟩ }) := by
  have hnone := h.no_commit hnot
  have hstart : Core c { log with committing := true } loc :=
    { h with
      commit_ok := fun hq => by cases (hnone _).symm.trans hq
      committing_ok := fun _ => hzero }
  refine hstart.of_base (hstart.toBase.setCommit rfl rfl ?_ ?_ ?_) (pinned_update ?_)
  · intro cm hcm
    cases hcm
    exact ⟨rfl, rfl, fun m hm => absurd hm List.not_mem_nil⟩
  · intro cm b hcm hv hmem
    cases hcm
    exact absurd hmem List.not_mem_nil
  · intro cm q cm' _ hq
    cases (hnone q).symm.trans hq
  · constructor
    · rintro ⟨cm, hcm, hm⟩
      cases hcm
      exact absurd hm List.not_mem_nil
    · rintro ⟨cm, hcm, -⟩
      cases (hnone p).symm.trans hcm

end Core

end Xv6.Buffers
