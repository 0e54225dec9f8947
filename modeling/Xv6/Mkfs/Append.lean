import Xv6.Mkfs.Image

/-!
What `iappend` does to an image.

While `iappend` runs, the inode is in the local variable `din`, and the image has blocks
that only `din` refers to; `Appending` is the layout in this state. One turn of the loop
appends the bytes that go into one block, and the run of the loop all of them
(`wp_appendLoop`).

The programs may fail in `E`. Either `E` allows every failure, or the blocks to come are
direct blocks and there is room for them, and then nothing fails.
-/

namespace Xv6.Mkfs

open Function (update update_self update_of_ne update_idem)
open Buffers (Block Inode encodeInode decodeInode)
open Blocks (slotOf)
open Wp

variable {E : Failure → Prop} {s t : State} {T : ℕ → Inode} {c : ℕ → List UInt8}
  {din din' ip : Inode} {img : ℕ → Block} {i n k a j x fbn off n1 free : ℕ} {p : List UInt8}

/-- The blocks that `n` bytes take. -/
def blocksFor (n : ℕ) : ℕ := (n + (BSIZE - 1)) / BSIZE

/-! ### Sectors -/

theorem wp_rsect {Q : Block → State → Prop} (hsec : x < s.nsect ∨ E .die)
    (h : x < s.nsect → Q (s.img x) s) : wp (rsect x) Q E s := by
  change wp (if x < s.nsect then pure (s.img x) else throw .die) Q E s
  split
  · rename_i hlt
    exact h hlt
  · rename_i hlt
    exact hsec.resolve_left hlt

theorem wp_assert {Q : Unit → State → Prop} {b : Prop} [Decidable b] (hb : b ∨ E .assertion)
    (h : b → Q () s) : wp (assert b) Q E s := by
  unfold assert
  split
  · rename_i hb'
    exact h hb'
  · rename_i hb'
    exact hb.resolve_left hb'

theorem wp_nextblock {Q : ℕ → State → Prop} :
    wp nextblock Q E s ↔ Q s.freeblock { s with freeblock := s.freeblock + 1 } := Iff.rfl

/-- The state after `wsect` of a sector that the image has. -/
def State.write (s : State) (sec : ℕ) (buf : Block) : State := { s with img := update s.img sec buf }

theorem wp_wsect {Q : Unit → State → Prop} {buf : Block} (hsec : x < s.nsect)
    (h : Q () (s.write x buf)) : wp (wsect x buf) Q E s := by
  have hmax : max s.nsect (x + 1) = s.nsect := Nat.max_eq_left hsec
  have hstate : ({ s with img := update s.img x buf, nsect := max s.nsect (x + 1) } : State) =
      s.write x buf := by
    rw [hmax]
    rfl
  rw [← hstate] at h
  exact h

/-! ### The state of `iappend` -/

/-- Inode `i` is being appended to; `T` are the inodes on disk. -/
structure Appending (T : ℕ → Inode) (i n : ℕ) (din : Inode) (c : ℕ → List UInt8) (s : State) :
    Prop where
  layout : Layout (update T i din) s.img s.freeblock c
  type : din.type = (T i).type
  inUse : (T i).type ≠ 0
  fits : din.Fits
  table : inodes s.img = T
  super : s.img 1 = superblock
  nsect : s.nsect = FSSIZE
  freeinode : s.freeinode = n

theorem maps_direct (hd : din.type ≠ 0) (hk : k < NDIRECT) (hx : din.addrs k ≠ 0) (img : ℕ → Block) :
    Maps (update T i din) img i k (din.addrs k) := by
  refine ⟨_, dif_pos hk, ?_⟩
  rw [held_slot, update_self]
  exact Blocks.Dinode.holds_eq_some.mpr ⟨view_ne_free hd, rfl, hx⟩

theorem addrs_ne_of_maps (hk : k < NDIRECT) (h : Maps (update T i din) img i k x) :
    din.addrs k ≠ 0 := by
  obtain ⟨y, hy, hslot⟩ := h
  cases (dif_pos hk).symm.trans hy
  rw [held_slot, update_self] at hslot
  obtain ⟨_, haddr, hx⟩ := Blocks.Dinode.holds_eq_some.mp hslot
  intro h0
  exact hx (haddr.symm.trans h0)

theorem maps_indirect (hd : din.type ≠ 0) (hk : ¬ k < NDIRECT) (hk' : k - NDIRECT < NINDIRECT)
    (ha : din.addrs NDIRECT ≠ 0)
    (hx : (img (din.addrs NDIRECT)).entry (k - NDIRECT) ≠ 0) :
    Maps (update T i din) img i k ((img (din.addrs NDIRECT)).entry (k - NDIRECT)) := by
  refine ⟨.entry ⟨k - NDIRECT, hk'⟩, (dif_neg hk).trans (dif_pos hk'), ?_⟩
  rw [held_slot, update_self]
  exact Blocks.Dinode.holds_eq_some.mpr ⟨view_ne_free hd, if_neg ha, hx⟩

/-- No direct block is there before it is needed for `n` bytes. -/
def Tight (din : Inode) (n : ℕ) : Prop := ∀ k < NDIRECT, din.addrs k ≠ 0 → k * BSIZE < n

namespace Appending

theorem type_ne (h : Appending T i n din c s) : din.type ≠ 0 := by
  rw [h.type]
  exact h.inUse

/-- A block after the meta blocks is written. -/
theorem write {c' : ℕ → List UInt8} {buf : Block} (h : Appending T i n din c s) (hx : nmeta ≤ x)
    (hl : Layout (update T i din) (update s.img x buf) free c') :
    Appending T i n din c' { s.write x buf with freeblock := free } where
  layout := hl
  type := h.type
  inUse := h.inUse
  fits := h.fits
  table := by
    rw [← h.table]
    apply inodes_congr
    intro b hb
    have := bmapstart_lt_nmeta
    exact update_of_ne (by omega) ..
  super := by
    have hmeta : 1 < nmeta := by decide
    rw [← h.super]
    exact update_of_ne (by omega) ..
  nsect := h.nsect
  freeinode := h.freeinode

end Appending

/-! ### Finding the block -/

section

variable (h : Appending T i n din c s)
include h

theorem wp_addrOf (hle : s.freeblock ≤ FSSIZE) (hk : k ≤ NDIRECT) :
    wp (addrOf din k) (fun r t => Appending T i n r.1 c t ∧ r.1.addrs k = r.2 ∧ r.2 ≠ 0 ∧
      (∀ l, l ≠ k → r.1.addrs l = din.addrs l) ∧
      (t.freeblock = s.freeblock ∨
        din.addrs k = 0 ∧ t.freeblock = s.freeblock + 1 ∧ r.2 = s.freeblock)) E s := by
  unfold addrOf
  split
  · rename_i h0
    have hfill := h.layout.fill_addr (i := i) (by rw [update_self]; exact h.type_ne) hk
      (by rw [update_self]; exact h0)
    rw [update_self, update_idem] at hfill
    have hfits : FSSIZE < 256 ^ 4 := by decide
    refine ⟨{ h with layout := hfill, fits := ?_ }, update_self .., h.layout.free_ne_zero,
      fun l hl => update_of_ne hl .., .inr ⟨h0, rfl, rfl⟩⟩
    refine { h.fits with addrs := ?_ }
    intro l
    dsimp only
    rw [Function.update_apply]
    split
    · omega
    · exact h.fits.addrs l
  · rename_i h0
    exact ⟨h, rfl, h0, fun _ _ => rfl, .inl rfl⟩

theorem wp_entryOf (ha : din.addrs NDIRECT ≠ 0) (hj : j < NINDIRECT)
    (hle : s.freeblock ≤ FSSIZE ∨ s.freeblock = din.addrs NDIRECT + 1) (hE : ∀ e, E e) :
    wp (entryOf (din.addrs NDIRECT) j) (fun x t => Appending T i n din c t ∧
      (t.img (din.addrs NDIRECT)).entry j = x ∧ x ≠ 0 ∧
      (t.freeblock ≤ FSSIZE ∨ t.freeblock = x + 1)) E s := by
  unfold entryOf
  rw [wp_bind]
  apply wp_rsect (.inr (hE _))
  intro hlt
  have hle' : s.freeblock ≤ FSSIZE := by
    have := h.nsect
    omega
  have hself : update T i din i = din := update_self ..
  have hheld : held (update T i din) s.img (.slot i .indirect) = some (din.addrs NDIRECT) := by
    rw [held_slot, hself]
    exact Blocks.Dinode.holds_eq_some.mpr ⟨view_ne_free h.type_ne, rfl, ha⟩
  split
  · rename_i h0
    have hfits : FSSIZE < 256 ^ 4 := by decide
    have hfill := h.layout.fill_entry (i := i) (j := j) (by rw [hself]; exact h.type_ne)
      (by rw [hself]; exact ha) hj (by rw [hself]; exact h0) (by omega)
    rw [hself] at hfill
    have hentry : (((s.img (din.addrs NDIRECT)).setEntry j s.freeblock)).entry j = s.freeblock := by
      have hsize : NINDIRECT * 4 = BSIZE := rfl
      exact Block.number_setNumber (by omega) (by omega)
    rw [wp_bind, wp_nextblock, wp_bind]
    refine wp_wsect (by exact hlt) ?_
    refine ⟨h.write (h.layout.nmeta_le_of_held hheld) hfill, ?_, h.layout.free_ne_zero, .inr rfl⟩
    change ((update s.img _ _) _).entry j = _
    rw [update_self, hentry]
  · rename_i h0
    exact ⟨h, rfl, h0, .inl hle'⟩

/-- The block for `fbn`. -/
theorem wp_sectorOf (hle : s.freeblock ≤ FSSIZE) (hfbn : fbn < MAXFILE)
    (hE : (∀ e, E e) ∨ fbn < NDIRECT) :
    wp (sectorOf din fbn) (fun r t => Appending T i n r.1 c t ∧ Maps (update T i r.1) t.img i fbn r.2 ∧
      (t.freeblock ≤ FSSIZE ∨ t.freeblock = r.2 + 1) ∧
      (∀ l < NDIRECT, l ≠ fbn → r.1.addrs l = din.addrs l) ∧
      (fbn < NDIRECT → t.freeblock = s.freeblock ∨
        (∀ x, ¬ Maps (update T i din) s.img i fbn x) ∧ t.freeblock = s.freeblock + 1)) E s := by
  unfold sectorOf
  split
  · rename_i hlt
    apply (wp_addrOf h hle (Nat.le_of_lt hlt)).post
    rintro ⟨din', x⟩ t ⟨ht, hx', hx, hother, hfree⟩
    dsimp only at ht hx' hx hfree
    subst hx'
    refine ⟨ht, maps_direct ht.type_ne hlt hx _, ?_, fun l _ => hother l, fun _ => ?_⟩
    · rcases hfree with hfree | ⟨_, hfree, hx'⟩
      · exact .inl (by omega)
      · exact .inr (by simp only [hx', hfree])
    · refine hfree.imp_right fun ⟨h0, hfree, _⟩ => ⟨fun x hx => ?_, hfree⟩
      exact addrs_ne_of_maps hlt hx h0
  · rename_i hlt
    have hE' := hE.resolve_right hlt
    have hj : fbn - NDIRECT < NINDIRECT := by
      have : MAXFILE = NDIRECT + NINDIRECT := rfl
      omega
    apply (wp_addrOf h hle (Nat.le_refl _)).bind
    rintro ⟨din', a⟩ t ⟨ht, ha', ha, hother, hfree⟩
    dsimp only at ht ha' ha hfree
    subst ha'
    apply (wp_entryOf ht ha hj (by omega) hE').bind
    rintro x u ⟨hu, rfl, hx, hfree'⟩
    exact ⟨hu, maps_indirect hu.type_ne hlt hj ha hx, hfree',
      fun l hl _ => hother l (Nat.ne_of_lt hl), fun h => absurd h hlt⟩

end

/-! ### The loop -/

/-- One turn fills up a block that there is, or takes a new one. -/
theorem blocksFor_turn (off n1 : ℕ) (h : 0 < n1) (h' : n1 ≤ BSIZE - off % BSIZE) :
    blocksFor (off + n1) = off / BSIZE + 1 ∧
      (off % BSIZE ≠ 0 → blocksFor off = off / BSIZE + 1) ∧
      (off % BSIZE = 0 → blocksFor off = off / BSIZE) := by
  have hBSIZE : BSIZE = 1024 := rfl
  unfold blocksFor
  rw [hBSIZE] at h' ⊢
  omega

/-- The bytes of a turn go into the block that gets an address. -/
theorem Tight.turn (h : Tight din off) (hn1 : 0 < n1)
    (hother : ∀ l < NDIRECT, l ≠ off / BSIZE → din'.addrs l = din.addrs l) :
    Tight din' (off + n1) := by
  intro k hk hne
  by_cases hkf : k = off / BSIZE
  · have := Nat.div_mul_le_self off BSIZE
    rw [hkf]
    omega
  · rw [hother k hk hkf] at hne
    exact Nat.lt_add_right n1 (h k hk hne)

/-- A turn takes a block only where none is partly filled. -/
theorem Appending.grow (h : Appending T i n din c s) (hoff : (c i).length = off)
    (hn1 : 0 < n1) (hroom : n1 ≤ BSIZE - off % BSIZE)
    (hfree : free = s.freeblock ∨
      (∀ x, ¬ Maps (update T i din) s.img i (off / BSIZE) x) ∧ free = s.freeblock + 1) :
    free + blocksFor off ≤ s.freeblock + blocksFor (off + n1) := by
  obtain ⟨hnext, hpartial, hwhole⟩ := blocksFor_turn off n1 hn1 hroom
  by_cases hmod : off % BSIZE = 0
  · have := hwhole hmod
    omega
  · have := hpartial hmod
    rcases hfree with heq | ⟨hnone, -⟩
    · omega
    · obtain ⟨hpos, hsame⟩ : 0 < off ∧ (off - 1) / BSIZE = off / BSIZE := by
        rw [show BSIZE = 1024 from rfl] at hmod ⊢
        omega
      obtain ⟨b, hb, _⟩ := h.layout.data i (off - 1) (by omega)
      rw [hsame] at hb
      exact absurd hb (hnone b)

/-- **The loop of `iappend`** appends all bytes. -/
theorem wp_appendLoop {fuel : ℕ} (hp : p.length ≤ fuel) (h : Appending T i n din c s)
    (hoff : (c i).length = off) (htight : Tight din off) (hle : s.freeblock ≤ FSSIZE)
    (hE : (∀ e, E e) ∨ off + p.length ≤ NDIRECT * BSIZE ∧
      s.freeblock + blocksFor (off + p.length) ≤ FSSIZE + blocksFor off) :
    wp (appendLoop fuel din off p) (fun r t => Appending T i n r.1 (update c i (c i ++ p)) t ∧
      r.2 = off + p.length ∧ Tight r.1 r.2 ∧ t.freeblock ≤ FSSIZE ∧
      (off + p.length ≤ NDIRECT * BSIZE →
        t.freeblock + blocksFor off ≤ s.freeblock + blocksFor (off + p.length))) E s := by
  induction fuel generalizing din off p s c with
  | zero =>
    have hnil : p = [] := List.eq_nil_of_length_eq_zero (Nat.le_zero.mp hp)
    subst hnil
    rw [List.append_nil, Function.update_eq_self]
    exact ⟨h, rfl, htight, hle, fun _ => Nat.le_refl _⟩
  | succ fuel ih =>
    unfold appendLoop
    split
    · rename_i hpos
      have hBSIZE : 0 < BSIZE := by decide
      have hdiv := Nat.div_add_mod off BSIZE
      have hmod := Nat.mod_lt off hBSIZE
      have hstart : off - off / BSIZE * BSIZE = off % BSIZE := by
        rw [Nat.mul_comm]
        omega
      have hroom : (off / BSIZE + 1) * BSIZE - off = BSIZE - off % BSIZE := by
        rw [Nat.add_mul, Nat.mul_comm]
        omega
      have hdirect : off + p.length ≤ NDIRECT * BSIZE → off / BSIZE < NDIRECT := by
        intro hlen
        exact (Nat.div_lt_iff_lt_mul hBSIZE).mpr (by omega)
      have hmax : NDIRECT ≤ MAXFILE := by decide
      -- What is written now, and what is left.
      obtain ⟨n1, hn1⟩ : ∃ n1, n1 = min p.length (BSIZE - off % BSIZE) := ⟨_, rfl⟩
      have hlen : (p.take n1).length = n1 := by
        rw [List.length_take]
        omega
      have hrest : (p.drop n1).length = p.length - n1 := List.length_drop ..
      have hsum : off + n1 + (p.drop n1).length = off + p.length := by omega
      dsimp only
      rw [hroom, ← hn1, wp_bind]
      apply wp_assert
      · rcases hE with hE | hsmall
        · exact .inr (hE _)
        · exact .inl (Nat.lt_of_lt_of_le (hdirect hsmall.1) hmax)
      intro hfbn
      apply (wp_sectorOf h hle hfbn (hE.imp_right fun hsmall => hdirect hsmall.1)).bind
      rintro ⟨din', x⟩ t ⟨ht, hmaps, hfree, hother, hfree'⟩
      obtain ⟨y, hy, hslot⟩ := id hmaps
      have hxfree := ht.layout.lt_free hslot
      have hxmeta := ht.layout.nmeta_le_of_held hslot
      have hgrow : off + p.length ≤ NDIRECT * BSIZE →
          t.freeblock + blocksFor off ≤ s.freeblock + blocksFor (off + n1) := fun hsmall =>
        h.grow hoff (by omega) (by omega) (hfree' (hdirect hsmall))
      have hmono : blocksFor (off + n1) ≤ blocksFor (off + p.length) :=
        Nat.div_le_div_right (by omega)
      rw [wp_bind]
      apply wp_rsect
      · rcases hE with hE | hsmall
        · exact .inr (hE _)
        · have := hgrow hsmall.1
          have := ht.nsect
          exact .inl (by omega)
      intro hx
      have hle' : t.freeblock ≤ FSSIZE := by
        have := ht.nsect
        omega
      rw [wp_bind]
      apply wp_wsect hx
      rw [hstart]
      have happend := ht.write hxmeta
        (ht.layout.append (l := p.take n1) (by rw [hoff]; exact hmaps) (by rw [hoff]; omega))
      rw [hoff] at happend
      apply (ih (by omega) happend (by rw [update_self, List.length_append, hlen, hoff])
        (htight.turn (by omega) hother) hle' ?_).post
      · rintro ⟨din'', off'⟩ u ⟨hu, hoff', hutight, hule, hudirect⟩
        rw [update_self, update_idem, List.append_assoc, List.take_append_drop] at hu
        rw [hsum] at hoff' hudirect
        refine ⟨hu, hoff', hutight, hule, ?_⟩
        intro hsmall
        have hnow := hgrow hsmall
        have hlater : u.freeblock + blocksFor (off + n1) ≤ t.freeblock + blocksFor (off + p.length) :=
          hudirect hsmall
        omega
      · rw [hsum]
        apply hE.imp_right
        intro hsmall
        have hnow := hgrow hsmall.1
        have hall := hsmall.2
        refine ⟨hsmall.1, ?_⟩
        change t.freeblock + blocksFor (off + p.length) ≤ FSSIZE + blocksFor (off + n1)
        omega
    · rename_i hpos
      have hnil : p = [] := List.eq_nil_of_length_eq_zero (by omega)
      subst hnil
      rw [List.append_nil, Function.update_eq_self]
      exact ⟨h, rfl, htight, hle, fun _ => Nat.le_refl _⟩

end Xv6.Mkfs
