import Xv6.Blocks.Ownership

/-!
Block ownership over whole runs.

`itrunc` frees the blocks of an inode one by one. It frees the entries of the indirect
block before it clears the slot of the indirect block, so in between the entries still
stand in a block whose blocks are free; the proof follows the places that are left
(`dropEntries`) instead of the state. The operations on the inode table do not touch the
places, and every run keeps the invariant.
-/

namespace Xv6.Blocks

open Function (update update_of_ne update_self update_apply update_eq_self update_idem)
open Fin (last)
open Slots (Owned)
open Wp

variable {s t : State} {i j b : ℕ} {d : Dinode} {busy : Option ℕ} {held : Place → Option ℕ}
  {pool : ℕ → Prop} {p : Place}

/-! ### `itrunc` -/

/-- A block that is held is not free. -/
theorem wp_bfree (h : Owned held s.bitmap pool) (hp : held p = some b) :
    wp (bfree b) (fun _ t => t = { s with bitmap := update s.bitmap b false }) NotBfree s := by
  have hused := h.used_of_held hp
  unfold bfree
  rw [wp_bind, wp_get, wp_ite, if_neg (by rw [hused]; decide), wp_bind, wp_modify]
  exact wp_logWrite rfl

theorem State.set_set (s : State) (bm bm' : ℕ → Bool) (bl bl' : ℕ → Block) (d d' : Dinode) :
    (s.set bm bl i d).set bm' bl' i d' = s.set bm' bl' i d' := by
  simp only [State.set, update_idem]

theorem State.set_self (s : State) : s.set s.bitmap s.block i (s.inode i) = s := by
  simp only [State.set, update_eq_self]

/-- An inode some of whose addresses have been cleared. -/
structure Dinode.Cleared (d d' : Dinode) : Prop where
  type : d'.type = d.type
  nlink : d'.nlink = d.nlink
  addrs : ∀ k, d'.addrs k ≠ 0 → d'.addrs k = d.addrs k

theorem Dinode.Cleared.refl (d : Dinode) : d.Cleared d := ⟨rfl, rfl, fun _ _ => rfl⟩

theorem Dinode.Cleared.trans {d₁ d₂ d₃ : Dinode} (h : d₁.Cleared d₂) (h' : d₂.Cleared d₃) :
    d₁.Cleared d₃ where
  type := h'.type.trans h.type
  nlink := h'.nlink.trans h.nlink
  addrs k hk := by
    have hd := h'.addrs k hk
    rw [hd] at hk ⊢
    exact h.addrs k hk

theorem Dinode.cleared_setAddr (d : Dinode) (k : Fin (NDIRECT + 1)) : d.Cleared (d.setAddr k 0) where
  type := rfl
  nlink := rfl
  addrs k' hk' := by
    by_cases heq : k' = k
    · rw [heq] at hk'
      exact absurd (d.setAddr_self k 0) hk'
    · exact d.setAddr_of_ne heq 0

/-- A cleared address stays so. -/
theorem Dinode.Cleared.eq_zero {d d' : Dinode} (h : d.Cleared d') {k : Fin (NDIRECT + 1)}
    (hk : d.addrs k = 0) : d'.addrs k = 0 := by
  by_contra hne
  exact hne ((h.addrs k hne).trans hk)

/-- The direct blocks in `ks` are freed. -/
theorem wp_truncDirect (ks : List (Fin NDIRECT)) (h : Owned s.held s.bitmap (· < s.size))
    (hl : s.Locked i) (hused : (s.inode i).type ≠ .free) :
    wp (truncDirect i ks) (fun _ t => ∃ bm d, t = s.set bm s.block i d ∧
      Owned t.held bm (· < s.size) ∧ (s.inode i).Cleared d ∧ ∀ k ∈ ks, d.addrs k.castSucc = 0)
      NotBfree s := by
  induction ks generalizing s with
  | nil =>
    refine ⟨s.bitmap, s.inode i, s.set_self.symm, ?_, .refl _, by simp⟩
    exact h
  | cons k rest ih =>
    unfold truncDirect
    rw [wp_bind, wp_get, wp_ite]
    split
    · rename_i hk
      have hheld : s.held (.slot i (.addr k.castSucc)) = some ((s.inode i).addrs k.castSucc) := by
        rw [State.held_slot, hl.current_eq, Dinode.holds_eq_some]
        exact ⟨hused, rfl, hk⟩
      refine (wp_bfree h hheld).bind ?_
      rintro _ t rfl
      generalize hu : s.set (update s.bitmap ((s.inode i).addrs k.castSucc) false) s.block i
        ((s.inode i).setAddr k.castSucc 0) = u
      have hself : u.inode i = (s.inode i).setAddr k.castSucc 0 := by
        rw [← hu]
        exact update_self ..
      have howned : Owned u.held u.bitmap (· < u.size) := by
        have hclear := h.clear hheld
        have hlast : k.castSucc ≠ last NDIRECT := (Fin.castSucc_lt_last k).ne
        rw [← hu, hl.held_set, ← hl.current_eq, holdings_clear_addr hlast]
        rw [hl.current_eq]
        exact hclear
      change wp (truncDirect i rest) _ _ (s.set _ _ _ _)
      rw [hu]
      refine (ih howned (by rw [← hu]; exact hl) (by rw [hself]; exact hused)).post ?_
      rintro _ v ⟨bm, d, hv, hov, hcleared, hzero⟩
      rw [hself] at hcleared
      refine ⟨bm, d, ?_, ?_, (Dinode.cleared_setAddr ..).trans hcleared, fun k' hk' => ?_⟩
      · rw [hv, ← hu, State.set_set]
        rfl
      · rw [← hu] at hov
        exact hov
      · rcases List.mem_cons.mp hk' with rfl | hmem
        · exact hcleared.eq_zero (Dinode.setAddr_self ..)
        · exact hzero k' hmem
    · rename_i hk
      refine (ih h hl hused).post ?_
      rintro _ v ⟨bm, d, hv, hov, hcleared, hzero⟩
      refine ⟨bm, d, hv, hov, hcleared, fun k' hk' => ?_⟩
      rcases List.mem_cons.mp hk' with rfl | hmem
      · exact hcleared.eq_zero (Decidable.not_not.mp hk)
      · exact hzero k' hmem

/-- The places without the entries `es` of the indirect block of `i`. -/
def dropEntries (held : Place → Option ℕ) (i : ℕ) : List (Fin NINDIRECT) → Place → Option ℕ
  | [] => held
  | e :: rest => dropEntries (update held (.slot i (.entry e)) none) i rest

theorem dropEntries_of_mem {es : List (Fin NINDIRECT)} {e : Fin NINDIRECT}
    (h : e ∈ es ∨ held (.slot i (.entry e)) = none) :
    dropEntries held i es (.slot i (.entry e)) = none := by
  induction es generalizing held with
  | nil => exact h.resolve_left (by simp)
  | cons f rest ih =>
    refine ih ?_
    by_cases hfe : e = f
    · subst hfe
      exact .inr (update_self ..)
    · rcases h with h | h
      · exact .inl ((List.mem_cons.mp h).resolve_left hfe)
      · exact .inr (by rw [update_of_ne (by simpa using hfe)]; exact h)

theorem dropEntries_of_ne {es : List (Fin NINDIRECT)} (h : ∀ e, p ≠ .slot i (.entry e)) :
    dropEntries held i es p = held p := by
  induction es generalizing held with
  | nil => rfl
  | cons e rest ih =>
    rw [dropEntries, ih, update_of_ne (h e)]

/-- The entries `es` of an indirect block are freed. -/
theorem wp_truncEntries (a : Block) (es : List (Fin NINDIRECT)) (hnodup : es.Nodup)
    (h : Owned held s.bitmap pool)
    (hheld : ∀ e ∈ es, held (.slot i (.entry e)) = if a e = 0 then none else some (a e)) :
    wp (truncEntries a es) (fun _ t => ∃ bm, t = { s with bitmap := bm } ∧
      Owned (dropEntries held i es) bm pool) NotBfree s := by
  induction es generalizing s held with
  | nil => exact ⟨s.bitmap, rfl, h⟩
  | cons e rest ih =>
    obtain ⟨hnot, hnodup⟩ := List.nodup_cons.mp hnodup
    have he := hheld e List.mem_cons_self
    have hrest : ∀ f ∈ rest, update held (.slot i (.entry e)) none (.slot i (.entry f)) =
        if a f = 0 then none else some (a f) := by
      intro f hf
      have hfe : f ≠ e := fun heq => hnot (heq ▸ hf)
      rw [update_of_ne (by simpa using hfe)]
      exact hheld f (List.mem_cons_of_mem e hf)
    unfold truncEntries
    split
    · rename_i hne
      rw [if_neg hne] at he
      refine (wp_bfree h he).bind ?_
      rintro _ t rfl
      exact ih hnodup (h.clear he) hrest
    · rename_i hzero
      rw [if_pos (Decidable.not_not.mp hzero)] at he
      have hsame : update held (.slot i (.entry e)) none = held := by
        rw [← he, update_eq_self]
      refine ih hnodup ?_ hrest
      rw [hsame]
      exact h

/-- Without the indirect block, an inode has neither its slot nor its entries. -/
theorem holdings_clear_indirect {nmeta : ℕ} {table : ℕ → Dinode} {block : ℕ → Block} :
    holdings nmeta (update table i ((table i).setAddr (last NDIRECT) 0)) block =
      update (dropEntries (holdings nmeta table block) i (List.finRange NINDIRECT))
        (.slot i .indirect) none := by
  funext p
  rw [update_apply]
  cases p with
  | layout c =>
    rw [if_neg (by simp), dropEntries_of_ne (by simp)]
    rfl
  | slot j x =>
    rw [holdings_update]
    by_cases hj : j = i
    · subst hj
      rw [if_pos rfl]
      cases x with
      | addr k =>
        by_cases hk : k = last NDIRECT
        · subst hk
          rw [if_pos rfl]
          exact if_pos (.inr (Dinode.setAddr_self ..))
        · rw [if_neg (by simpa using hk), dropEntries_of_ne (by simp)]
          exact Dinode.holds_congr rfl (Dinode.setAddr_of_ne _ hk _)
      | entry e =>
        have hnone : ((table j).setAddr (last NDIRECT) 0).addrAt block (.entry e) = 0 := by
          rw [Dinode.addrAt, Dinode.setAddr_self, if_pos rfl]
        rw [if_neg (by simp), dropEntries_of_mem (.inl (List.mem_finRange e))]
        exact if_pos (.inr hnone)
    · rw [if_neg hj, if_neg (by simp [hj]), dropEntries_of_ne (by simp [hj])]
      rfl

theorem wp_truncIndirect (h : Owned s.held s.bitmap (· < s.size)) (hl : s.Locked i)
    (hused : (s.inode i).type ≠ .free) :
    wp (truncIndirect i) (fun _ t => ∃ bm,
      t = s.set bm s.block i ((s.inode i).setAddr (last NDIRECT) 0) ∧
      Owned t.held bm (· < s.size)) NotBfree s := by
  unfold truncIndirect
  rw [wp_bind, wp_get, wp_ite]
  split
  · rename_i hne
    have hcur := hl.current_eq
    have hentries : ∀ e ∈ List.finRange NINDIRECT, s.held (.slot i (.entry e)) =
        if s.block ((s.inode i).addrs (last NDIRECT)) e = 0 then none
        else some (s.block ((s.inode i).addrs (last NDIRECT)) e) := by
      intro e _
      rw [State.held_slot, hcur]
      simp only [Dinode.holds, hused, Dinode.addrAt, if_neg hne, false_or]
    have hslot : dropEntries s.held i (List.finRange NINDIRECT) (.slot i .indirect) =
        some ((s.inode i).addrs (last NDIRECT)) := by
      rw [dropEntries_of_ne (by simp), State.held_slot, hcur, Dinode.holds_eq_some]
      exact ⟨hused, rfl, hne⟩
    refine (wp_truncEntries _ _ (List.nodup_finRange _) h hentries).bind ?_
    rintro _ t ⟨bm, rfl, hbm⟩
    refine (wp_bfree (s := { s with bitmap := bm }) hbm hslot).bind ?_
    rintro _ u rfl
    refine ⟨update bm ((s.inode i).addrs (last NDIRECT)) false, rfl, ?_⟩
    change Owned (s.set (update bm ((s.inode i).addrs (last NDIRECT)) false) s.block i _).held _ _
    rw [hl.held_set, ← hcur, holdings_clear_indirect, hcur]
    exact hbm.clear hslot
  · rename_i hzero
    have hzero := Decidable.not_not.mp hzero
    have hsame : (s.inode i).setAddr (last NDIRECT) 0 = s.inode i := by
      unfold Dinode.setAddr
      rw [← hzero, update_eq_self]
    refine ⟨s.bitmap, ?_, h⟩
    rw [hsame, State.set_self]

/-- An inode without contents. -/
def Dinode.truncated (d : Dinode) : Dinode := { d with size := 0, addrs := fun _ => 0 }

theorem wp_itrunc (h : Owned s.held s.bitmap (· < s.size)) (hl : s.Locked i)
    (hused : (s.inode i).type ≠ .free) :
    wp (itrunc i) (fun _ t => ∃ bm,
      t = { s with
        bitmap := bm
        inode := update s.inode i (s.inode i).truncated
        dinode := update s.dinode i (s.inode i).truncated } ∧
      Owned (holdings s.nmeta (update s.current i (s.inode i).truncated) s.block) bm (· < s.size))
      NotBfree s := by
  refine (wp_truncDirect (List.finRange NDIRECT) h hl hused).bind ?_
  rintro _ t ⟨bm, d, rfl, ho, ⟨htype, hnlink, _⟩, hzero⟩
  have hself : (s.set bm s.block i d).inode i = d := update_self ..
  refine (wp_truncIndirect (s := s.set bm s.block i d) ho hl (by rw [hself, htype]; exact hused)).bind ?_
  rw [hself]
  rintro _ u ⟨bm', rfl, ho'⟩
  rw [State.set_set] at ho' ⊢
  have hd : ({ d.setAddr (last NDIRECT) 0 with size := 0 } : Dinode) = (s.inode i).truncated := by
    have haddrs : (d.setAddr (last NDIRECT) 0).addrs = fun _ => 0 := by
      funext k
      refine Fin.lastCases ?_ (fun k => ?_) k
      · exact d.setAddr_self _ 0
      · rw [d.setAddr_of_ne (Fin.castSucc_lt_last k).ne]
        exact hzero k (List.mem_finRange k)
    change (⟨d.type, d.nlink, 0, (d.setAddr (last NDIRECT) 0).addrs⟩ : Dinode) =
      ⟨(s.inode i).type, (s.inode i).nlink, 0, fun _ => 0⟩
    rw [haddrs, htype, hnlink]
  rw [wp_bind]
  refine wp_save ⟨bm', ?_, ?_⟩
  · simp only [State.set, update_self, update_idem, hd]
  · rw [hl.held_set] at ho'
    rw [← update_idem (d.setAddr (last NDIRECT) 0), holdings_replace fun x => ?_]
    · exact ho'
    · rw [update_self, ← hd]
      exact Dinode.holds_of_addrs rfl rfl

theorem Ok.wp_itrunc (h : Ok none s) (hl : s.Locked i) :
    wp (itrunc i) (fun _ t => Ok none t ∧ t.Locked i ∧ t.inode i = (s.inode i).truncated)
      NotBfree s := by
  refine (Blocks.wp_itrunc h.owned hl (h.used i hl)).post ?_
  rintro _ t ⟨bm, rfl, ho⟩
  have hcur : State.current { s with
      bitmap := bm
      inode := update s.inode i (s.inode i).truncated
      dinode := update s.dinode i (s.inode i).truncated } =
        update s.current i (s.inode i).truncated :=
    (s.current_replace i _ _).trans (by rw [ite_self])
  generalize ht : ({ s with
      bitmap := bm
      inode := update s.inode i (s.inode i).truncated
      dinode := update s.dinode i (s.inode i).truncated } : State) = t at hcur ⊢
  have hlocked : ∀ j, t.Locked j ↔ s.Locked j := by
    rw [← ht]
    exact fun _ => Iff.rfl
  have hinode : t.inode = update s.inode i (s.inode i).truncated := by rw [← ht]
  have hdinode : t.dinode = update s.dinode i (s.inode i).truncated := by rw [← ht]
  have hheld : t.held = holdings s.nmeta (update s.current i (s.inode i).truncated) s.block := by
    rw [State.held, hcur, ← ht]
  refine ⟨⟨?_, ?_, fun j hj => ?_, fun j _ hj => ?_, fun j hj => ?_⟩, (hlocked i).mpr hl, ?_⟩
  · rw [hheld, ← ht]
    exact ho
  · rw [← ht]
    exact h.boot
  · rw [hcur] at hj ⊢
    by_cases hji : j = i
    · subst hji
      rw [update_self]
      intro bn hbn
      exact absurd hbn (Nat.not_lt_zero _)
    · rw [update_of_ne hji] at hj ⊢
      intro bn hbn
      obtain ⟨b, x, hx, hb⟩ := h.full j hj bn hbn
      refine ⟨b, x, hx, ?_⟩
      rw [hheld, holdings_update, if_neg hji]
      exact hb
  · rw [hinode, hdinode]
    by_cases hji : j = i
    · subst hji
      rw [update_self, update_self]
    · rw [update_of_ne hji, update_of_ne hji]
      exact h.synced j (by simp) ((hlocked j).mp hj)
  · rw [hinode]
    have hsame : (update s.inode i (s.inode i).truncated j).type = (s.inode j).type :=
      update_same Dinode.type (by rfl) j
    rw [hsame]
    exact h.used j ((hlocked j).mp hj)
  · rw [hinode, update_self]

/-! ### The inode table -/

/-- An inode that holds no blocks may be replaced by another one. -/
def Dinode.Bare (d : Dinode) : Prop := d.type = .free ∨ d.addrs = fun _ => 0

theorem Dinode.Bare.holds {block : ℕ → Block} {x : Slot} (h : d.Bare) : d.holds block x = none := by
  refine if_pos (h.imp id fun haddrs => ?_)
  cases x <;> simp [Dinode.addrAt, haddrs]

section

variable (h : Ok none s)
include h

/-- Inodes leave the table: what was read is on disk. -/
theorem Ok.forget {ref : ℕ → ℕ} {valid : ℕ → Bool}
    (hlocked : ∀ j, 0 < ref j ∧ valid j = true → s.Locked j) :
    Ok none { s with ref := ref, valid := valid } := by
  have hcur : State.current { s with ref := ref, valid := valid } = s.current := by
    funext j
    by_cases hj : s.Locked j
    · rw [hj.current_eq]
      change (if 0 < ref j ∧ valid j = true then s.inode j else s.dinode j) = s.inode j
      rw [← h.synced j (by simp) hj, ite_self]
    · rw [State.current_of_not_locked hj]
      exact if_neg fun ht => hj (hlocked j ht)
  refine h.of_held ?_ rfl rfl rfl (fun j hj => ?_) (fun j hj => ?_) fun j hj => ?_
  · rw [State.held, hcur]
    rfl
  · rw [hcur] at hj ⊢
    exact h.full j hj
  · exact h.synced j (by simp) (hlocked j hj)
  · exact h.used j (hlocked j hj)

/-- An inode that is not in the table and holds no blocks is replaced by an empty one;
what the table entry holds does not matter. -/
theorem Ok.renew (hl : ¬ s.Locked i) (hold : (s.dinode i).Bare) (hnew : d.Bare)
    (hsize : d.type ≠ .free → d.size = 0) (d' : Dinode) :
    Ok none { s with inode := update s.inode i d', dinode := update s.dinode i d } := by
  have hcur := s.current_replace i d' d
  rw [if_neg hl] at hcur
  have hne : ∀ j, s.Locked j → j ≠ i := by
    rintro j hj rfl
    exact hl hj
  refine h.of_held ?_ rfl rfl rfl (fun j hj => ?_) (fun j hj => ?_) fun j hj => ?_
  · rw [State.held, hcur]
    refine holdings_replace fun x => ?_
    rw [State.current_of_not_locked hl, hnew.holds, hold.holds]
  · rw [hcur] at hj ⊢
    by_cases hji : j = i
    · subst hji
      rw [update_self] at hj ⊢
      rw [hsize hj]
      intro bn hbn
      exact absurd hbn (Nat.not_lt_zero _)
    · rw [update_of_ne hji] at hj ⊢
      exact h.full j hj
  · change update s.inode i d' j = update s.dinode i d j
    rw [update_of_ne (hne j hj), update_of_ne (hne j hj)]
    exact h.synced j (by simp) hj
  · change (update s.inode i d' j).type ≠ .free
    rw [update_of_ne (hne j hj)]
    exact h.used j hj

theorem Ok.wp_iget (i : ℕ) : wp (iget i) (fun _ t => Ok none t) NotBfree s := by
  refine h.forget fun j hj => ?_
  obtain ⟨hpos, hvalid⟩ := hj
  by_cases hji : j = i
  · subst hji
    split at hvalid
    · rw [update_self] at hvalid
      cases hvalid
    · exact ⟨by omega, hvalid⟩
  · rw [update_of_ne hji] at hpos
    split at hvalid
    · rw [update_of_ne hji] at hvalid
      exact ⟨hpos, hvalid⟩
    · exact ⟨hpos, hvalid⟩

theorem Ok.wp_ilock (i : ℕ) : wp (ilock i) (fun _ t => Ok none t) NotBfree s := by
  unfold ilock
  rw [wp_bind, wp_get, wp_ite]
  split
  · rename_i hvalid
    split
    · exact Panic.noConfusion
    · rename_i htype
      have hl : ¬ s.Locked i := by
        rintro ⟨_, hv⟩
        rw [hvalid] at hv
        cases hv
      change Ok none { s with
        inode := update s.inode i (s.dinode i), valid := update s.valid i true }
      generalize ht : ({ s with
        inode := update s.inode i (s.dinode i), valid := update s.valid i true } : State) = t
      have hlocked : ∀ j, j ≠ i → (t.Locked j ↔ s.Locked j) := by
        intro j hj
        rw [← ht]
        unfold State.Locked
        dsimp only
        rw [update_of_ne hj]
      have hself : t.inode i = s.dinode i := by
        rw [← ht]
        exact update_self ..
      have hother : ∀ j, j ≠ i → t.inode j = s.inode j := by
        intro j hj
        rw [← ht]
        exact update_of_ne hj ..
      have hdinode : t.dinode = s.dinode := by rw [← ht]
      have hcur : t.current = s.current := by
        funext j
        by_cases hj : j = i
        · subst hj
          rw [State.current_of_not_locked hl, State.current, hself, hdinode, ite_self]
        · unfold State.current
          simp only [hlocked j hj, hother j hj, hdinode]
      refine h.of_held ?_ (by rw [← ht]) (by rw [← ht]) (by rw [← ht]) (fun j hj => ?_)
        (fun j hj => ?_) fun j hj => ?_
      · rw [State.held, hcur, ← ht]
        rfl
      · rw [hcur] at hj ⊢
        exact h.full j hj
      · by_cases hji : j = i
        · rw [hji, hself, hdinode]
        · rw [hother j hji, hdinode]
          exact h.synced j (by simp) ((hlocked j hji).mp hj)
      · by_cases hji : j = i
        · rw [hji, hself]
          exact htype
        · rw [hother j hji]
          exact h.used j ((hlocked j hji).mp hj)
  · exact h

theorem Ok.wp_ialloc (type : Fs.FileType) : wp (ialloc type) (fun _ t => Ok none t) NotBfree s := by
  unfold ialloc
  rw [wp_bind, wp_get]
  cases hf : (List.range' 1 (s.ninodes - 1)).find? fun i => (s.dinode i).type = .free with
  | none => exact h
  | some i =>
    have hfree : (s.dinode i).type = .free := by
      have hfound := List.find?_some hf
      exact of_decide_eq_true hfound
    have hl : ¬ s.Locked i := by
      intro hl
      have hused := h.used i hl
      rw [h.synced i (by simp) hl] at hused
      exact hused hfree
    have hrenew := h.renew (d := ⟨type, 0, 0, fun _ => 0⟩) hl (.inl hfree) (.inr rfl)
      (fun _ => rfl) (s.inode i)
    rw [update_eq_self] at hrenew
    dsimp only
    rw [wp_bind, wp_modify, wp_bind]
    apply wp_logWrite
    exact hrenew.wp_iget i

theorem Ok.wp_setNlink (hl : s.Locked i) (nlink : ℤ) :
    wp (setNlink i nlink) (fun _ t => Ok none t) NotBfree s := by
  rw [setNlink, wp_bind]
  exact wp_save (h.begin.commit hl rfl rfl (h.full_size hl))

theorem Ok.wp_freeInode (i : ℕ) : wp (freeInode i) (fun _ t => Ok none t) NotBfree s := by
  unfold freeInode
  rw [wp_bind, wp_get, wp_ite]
  split
  · rename_i hlast
    have hl : s.Locked i := ⟨by omega, hlast.2.1⟩
    refine (h.wp_itrunc hl).bind ?_
    rintro _ t ⟨ht, hlt, hinode⟩
    have hforget : Ok none { t with valid := update t.valid i false } := by
      refine ht.forget fun j hj => ?_
      obtain ⟨hpos, hvalid⟩ := hj
      by_cases hji : j = i
      · rw [hji, update_self] at hvalid
        cases hvalid
      · rw [update_of_ne hji] at hvalid
        exact ⟨hpos, hvalid⟩
    have hnot : ¬ State.Locked { t with valid := update t.valid i false } i := by
      rintro ⟨_, hv⟩
      dsimp only at hv
      rw [update_self] at hv
      cases hv
    have hbare : (t.dinode i).Bare := by
      rw [← ht.synced i (by simp) hlt, hinode]
      exact .inr rfl
    have hrenew := hforget.renew (d := { t.inode i with type := .free }) hnot hbare (.inl rfl)
      (fun hne => absurd rfl hne) { t.inode i with type := .free }
    rw [wp_bind]
    simp only [wp_bind]
    exact wp_save hrenew
  · exact h

theorem Ok.wp_iput (i : ℕ) : wp (iput i) (fun _ t => Ok none t) NotBfree s := by
  refine (h.wp_freeInode i).bind ?_
  rintro _ t ht
  refine ht.forget fun j hj => ?_
  obtain ⟨hpos, hvalid⟩ := hj
  by_cases hji : j = i
  · subst hji
    rw [update_self] at hpos
    exact ⟨by omega, hvalid⟩
  · rw [update_of_ne hji] at hpos
    exact ⟨hpos, hvalid⟩

/-! ### Runs -/

/-- Step lemma: every operation keeps the invariant, and frees no free block. -/
theorem Ok.wp_exec {a : Op} (hen : Enabled s a) :
    wp (exec a) (fun _ t => Ok none t) NotBfree s := by
  cases a with
  | beginOp | endOp => exact h.of_held rfl rfl rfl rfl h.full (fun j => h.synced j (by simp)) h.used
  | iget i => exact h.wp_iget i
  | ilock i => exact h.wp_ilock i
  | iput i => exact h.wp_iput i
  | ialloc type =>
    rw [exec, wp_bind]
    exact h.wp_ialloc type
  | setNlink i nlink => exact h.wp_setNlink hen nlink
  | readi i dst off n =>
    refine (h.wp_readi hen dst off n).bind ?_
    rintro _ t rfl
    exact h
  | writei i src off n =>
    rw [exec, wp_bind]
    exact h.wp_writei hen src off n
  | itrunc i =>
    refine (h.wp_itrunc hen).post ?_
    rintro _ t ⟨ht, _⟩
    exact ht

theorem Ok.step {a : Op} (hstep : step s a = some t) : Ok none t := by
  unfold Blocks.step at hstep
  split at hstep
  · rename_i hen
    have hwp := h.wp_exec hen
    split at hstep
    · rename_i u hexec
      cases hstep
      exact hwp.of_ok hexec
    · cases hstep
  · cases hstep

end

/-- The slot `x.2` of the allocated inode `x.1` refers to the block `b`. -/
def State.Refers (s : State) (x : ℕ × Slot) (b : ℕ) : Prop :=
  (s.dinode x.1).type ≠ .free ∧ (s.dinode x.1).addrAt s.block x.2 = b ∧ b ≠ 0

/-- A consistent image, with no inode in use: the blocks of the layout are marked as
used, a data block is marked if and only if it is referred to, and from one place only.
Every block of a file below its size has an address. -/
structure Consistent (s : State) : Prop where
  boot : 0 < s.nmeta
  layout : ∀ b, b < s.nmeta → b < s.size ∧ s.bitmap b = true
  data : ∀ b, s.nmeta ≤ b → b < s.size → (s.bitmap b = true ↔ ∃ x, s.Refers x b)
  once : ∀ x y b, s.Refers x b → s.Refers y b → x = y
  range : ∀ x b, s.Refers x b → s.nmeta ≤ b ∧ b < s.size
  full : ∀ i, (s.dinode i).type ≠ .free → ∀ bn, bn * BSIZE < (s.dinode i).size →
    ∃ x b, slotOf bn = some x ∧ s.Refers (i, x) b
  unused : ∀ i, s.ref i = 0

/-- Between operations the inodes on disk are the current ones. -/
theorem Ok.current_eq (h : Ok none s) (i : ℕ) : s.current i = s.dinode i := by
  by_cases hl : s.Locked i
  · rw [hl.current_eq]
    exact h.synced i (by simp) hl
  · exact State.current_of_not_locked hl

theorem Ok.held_iff (h : Ok none s) {x : Slot} :
    s.held (.slot i x) = some b ↔ s.Refers (i, x) b := by
  rw [State.held_slot, h.current_eq, Dinode.holds_eq_some]
  exact Iff.rfl

theorem held_layout {c : ℕ} : s.held (.layout c) = some b ↔ c = b ∧ b < s.nmeta := by
  change (if c < s.nmeta then some c else none) = some b ↔ _
  grind

namespace Consistent

theorem held_iff (h : Consistent s) {x : Slot} :
    s.held (.slot i x) = some b ↔ s.Refers (i, x) b := by
  have hl : ¬ s.Locked i := by
    rintro ⟨hpos, _⟩
    rw [h.unused] at hpos
    exact absurd hpos (Nat.lt_irrefl 0)
  rw [State.held_slot, State.current_of_not_locked hl, Dinode.holds_eq_some]
  exact Iff.rfl

theorem owned (h : Consistent s) : Owned s.held s.bitmap (· < s.size) := by
  constructor
  case unique =>
    intro p q b hp hq
    cases p with
    | layout c =>
      obtain ⟨rfl, hlt⟩ := held_layout.mp hp
      cases q with
      | layout c' => rw [(held_layout.mp hq).1]
      | slot j y =>
        have := (h.range _ _ (h.held_iff.mp hq)).1
        omega
    | slot i x =>
      have hx := h.held_iff.mp hp
      cases q with
      | layout c' =>
        have := (h.range _ _ hx).1
        have := (held_layout.mp hq).2
        omega
      | slot j y =>
        obtain ⟨rfl, rfl⟩ := Prod.mk.inj (h.once _ _ _ hx (h.held_iff.mp hq))
        rfl
  case used_iff =>
    intro b hb
    by_cases hlt : b < s.nmeta
    · exact ⟨fun _ => ⟨.layout b, held_layout.mpr ⟨rfl, hlt⟩⟩, fun _ => (h.layout b hlt).2⟩
    · rw [h.data b (Nat.le_of_not_lt hlt) hb]
      constructor
      · rintro ⟨⟨i, x⟩, hx⟩
        exact ⟨.slot i x, h.held_iff.mpr hx⟩
      · rintro ⟨p, hp⟩
        cases p with
        | layout c => exact absurd (held_layout.mp hp).2 hlt
        | slot i x => exact ⟨(i, x), h.held_iff.mp hp⟩
  case pool =>
    intro p b hp
    cases p with
    | layout c =>
      obtain ⟨rfl, hlt⟩ := held_layout.mp hp
      exact (h.layout c hlt).1
    | slot i x => exact (h.range _ _ (h.held_iff.mp hp)).2

theorem ok (h : Consistent s) : Ok none s := by
  have hl : ∀ i, ¬ s.Locked i := by
    rintro i ⟨hpos, _⟩
    rw [h.unused] at hpos
    exact absurd hpos (Nat.lt_irrefl 0)
  refine ⟨h.owned, h.boot, fun i hi bn hbn => ?_, fun i _ hi => absurd hi (hl i),
    fun i hi => absurd hi (hl i)⟩
  rw [State.current_of_not_locked (hl i)] at hi hbn
  obtain ⟨x, b, hx, hb⟩ := h.full i hi bn hbn
  exact ⟨b, x, hx, h.held_iff.mpr hb⟩

end Consistent

/-- Run lemma. -/
theorem ok_of_reachable (h : Run.Reachable Consistent (Run.relOf step) s) : Ok none s :=
  h.invariant (Ok none) (fun _ hc => hc.ok) fun _ _ _ hok _ hstep => hok.step hstep

/-- **Blocks are owned.** In every run from a consistent image, whichever operations
fail half way, the bitmap marks exactly the data blocks that one slot of one allocated
inode refers to, no block is referred to twice, and no free block is freed. -/
theorem block_ownership (h : Run.Reachable Consistent (Run.relOf step) s) :
    (∀ b, s.nmeta ≤ b → b < s.size → (s.bitmap b = true ↔ ∃! x, s.Refers x b)) ∧
      (∀ x y b, s.Refers x b → s.Refers y b → x = y) ∧ ∀ a, ¬ Panics s a .bfree := by
  have hok := ok_of_reachable h
  have honce : ∀ x y b, s.Refers x b → s.Refers y b → x = y := by
    rintro ⟨i, x⟩ ⟨j, y⟩ b hx hy
    have hplace := hok.owned.unique _ _ b (hok.held_iff.mpr hx) (hok.held_iff.mpr hy)
    obtain ⟨rfl, rfl⟩ := Place.slot.inj hplace
    rfl
  refine ⟨fun b hb hlt => ?_, honce, fun a hp => ?_⟩
  · rw [hok.owned.used_iff b hlt]
    constructor
    · rintro ⟨p, hp⟩
      cases p with
      | layout c =>
        have := (held_layout.mp hp).2
        omega
      | slot i x =>
        have hx := hok.held_iff.mp hp
        exact ⟨(i, x), hx, fun y hy => honce y (i, x) b hy hx⟩
    · rintro ⟨⟨i, x⟩, hx, _⟩
      exact ⟨.slot i x, hok.held_iff.mpr hx⟩
  · exact (hok.wp_exec hp.1).of_error hp.2 rfl

/-- A disk without inodes. -/
def blank (nmeta size ninodes : ℕ) : State where
  size := size
  ninodes := ninodes
  nmeta := nmeta
  bitmap b := b < nmeta
  block _ _ := 0
  dinode _ := ⟨.free, 0, 0, fun _ => 0⟩
  inode _ := ⟨.free, 0, 0, fun _ => 0⟩
  ref _ := 0
  valid _ := false
  outstanding := 0

theorem blank_consistent (nmeta size ninodes : ℕ) (hpos : 0 < nmeta) (hle : nmeta ≤ size) :
    Consistent (blank nmeta size ninodes) where
  boot := hpos
  layout b hb := ⟨Nat.lt_of_lt_of_le hb hle, decide_eq_true hb⟩
  data b hb _ := by
    refine ⟨fun hset => absurd (of_decide_eq_true hset) (Nat.not_lt.mpr hb), ?_⟩
    rintro ⟨x, htype, _⟩
    exact absurd rfl htype
  once x y b hx := absurd rfl hx.1
  range x b hx := absurd rfl hx.1
  full i hi := absurd rfl hi
  unused _ := rfl

/-- A file of thirteen blocks on a disk with thirteen free blocks: the disk is full once
the indirect block is allocated, and the file keeps it. -/
theorem block_ownership_fullDisk :
    ∃ s : State, (s.dinode 1).size = 12 * 1024 ∧ (s.dinode 1).addrs (last NDIRECT) = 16 ∧
      s.bitmap 16 = true ∧ ∃! x, s.Refers x 16 := by
  obtain ⟨s, hreach, hsize, haddr, hbit, hnmeta, hlen⟩ : ∃ s, Run.Reachable Consistent (Run.relOf step) s ∧
      (s.dinode 1).size = 12 * 1024 ∧ (s.dinode 1).addrs (last NDIRECT) = 16 ∧
      s.bitmap 16 = true ∧ s.nmeta ≤ 16 ∧ 16 < s.size :=
    Run.exists_reachable [.beginOp, .ialloc .file, .ilock 1, .writei 1 (fun _ => ⟨id, true⟩) 0 (13 * 1024)]
      (blank_consistent 4 17 3 (by decide) (by decide)) (by decide +kernel)
  exact ⟨s, hsize, haddr, hbit, ((block_ownership hreach).1 16 hnmeta hlen).mp hbit⟩

end Xv6.Blocks
