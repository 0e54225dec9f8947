import Xv6.Blocks.Ownership
import Xv6.Buffers.Format
import Xv6.Mkfs.Model

/-!
The layout of an image that `mkfs` is making.

The blocks below `freeblock` are the meta blocks and the blocks that some inode refers to,
each of which is referred to once: this is `Slots.Owned` for the places of block addresses of
`Xv6.Blocks.Ownership`, with `freeblock` as the table of used blocks. Together with the
contents appended so far this is `Layout`, and what `mkfs` does to the image keeps it.
-/

namespace Xv6.Mkfs

open Function (update update_of_ne update_self update_apply)
open Buffers (Block Inode encodeInode decodeInode dip)
open Blocks (Place Slot slotOf holdings)
open Slots (Owned)

/-! ### The view of the block model -/

def fileType : ℕ → Fs.FileType
  | 0 => .free
  | 1 => .dir
  | 2 => .file
  | _ => .device

def view (ip : Inode) : Blocks.Dinode where
  type := fileType ip.type
  nlink := ip.nlink
  size := ip.size
  addrs k := ip.addrs k

def words (img : ℕ → Block) : ℕ → Blocks.Block := fun b j => (img b).entry j

/-- What the places of block addresses hold. -/
def held (table : ℕ → Inode) (img : ℕ → Block) : Place → Option ℕ :=
  holdings nmeta (fun i => view (table i)) (words img)

/-- The block `bn` of inode `i` is the disk block `b`. -/
def Maps (table : ℕ → Inode) (img : ℕ → Block) (i bn b : ℕ) : Prop :=
  ∃ x, slotOf bn = some x ∧ held table img (.slot i x) = some b

/-- The blocks below `free` are those in use, and inode `i` contains the bytes
`contents i`; after them, its last block has zeros. -/
structure Layout (table : ℕ → Inode) (img : ℕ → Block) (free : ℕ) (contents : ℕ → List UInt8) :
    Prop where
  owned : Owned (held table img) (fun b => decide (b < free)) fun _ => True
  zero : ∀ b, free ≤ b → img b = Block.zero
  mapped : ∀ i k, k < (contents i).length → ∃ b, Maps table img i (k / BSIZE) b
  bytes : ∀ i bn b, Maps table img i bn b → ∀ k < BSIZE,
    (img b).byte k = (contents i).getD (bn * BSIZE + k) 0

variable {table table' : ℕ → Inode} {img : ℕ → Block} {free i b x fbn : ℕ}
  {contents : ℕ → List UInt8} {din ip : Inode}

theorem fileType_eq_free {type : ℕ} : fileType type = .free ↔ type = 0 := by
  unfold fileType
  split <;> simp_all

theorem view_update (table : ℕ → Inode) (i : ℕ) (din : Inode) :
    (fun j => view (update table i din j)) = update (fun j => view (table j)) i (view din) := by
  funext j
  rw [update_apply, update_apply]
  split <;> rfl

theorem view_setAddr (din : Inode) {k : ℕ} (hk : k < NDIRECT + 1) (b : ℕ) :
    view { din with addrs := update din.addrs k b } = (view din).setAddr ⟨k, hk⟩ b := by
  have haddrs : (fun l : Fin (NDIRECT + 1) => update din.addrs k b l) =
      update (fun l : Fin (NDIRECT + 1) => din.addrs l) ⟨k, hk⟩ b := by
    funext l
    simp only [update_apply, Fin.ext_iff]
  simp only [view, Blocks.Dinode.setAddr, haddrs]

/-- A change of one block changes the words of that block. -/
theorem words_update (img : ℕ → Block) (b : ℕ) (d : Block) :
    words (update img b d) = update (words img) b fun j => d.entry j := by
  funext c j
  unfold words
  rw [update_apply, update_apply]
  split <;> rfl

/-- Only the type and the addresses matter. -/
theorem held_congr (h : ∀ i, (table' i).type = (table i).type ∧
    ∀ k ≤ NDIRECT, (table' i).addrs k = (table i).addrs k) : held table' img = held table img := by
  funext p
  cases p with
  | layout b => rfl
  | slot i y =>
    obtain ⟨htype, haddrs⟩ := h i
    have hview : ∀ k : Fin (NDIRECT + 1), (view (table' i)).addrs k = (view (table i)).addrs k :=
      fun k => haddrs k (Nat.lt_succ_iff.mp k.isLt)
    refine Blocks.Dinode.holds_congr (congrArg fileType htype) ?_
    cases y with
    | addr k => exact hview k
    | entry j => simp only [Blocks.Dinode.addrAt, hview]

theorem held_layout (h : b < nmeta) : held table img (.layout b) = some b := if_pos h

theorem held_slot {y : Slot} : held table img (.slot i y) = (view (table i)).holds (words img) y := rfl

theorem view_ne_free (h : ip.type ≠ 0) : (view ip).type ≠ .free := fun hf => h (fileType_eq_free.mp hf)

/-- `freeblock++` marks one more block as used. -/
theorem used_succ (free : ℕ) :
    (fun b => decide (b < free + 1)) = update (fun b => decide (b < free)) free true := by
  funext b
  rw [update_apply]
  by_cases hb : b = free
  · simp [hb]
  · rw [if_neg hb]
    congr 1
    exact propext (by omega)

/-- What is held stays when an empty place is filled. -/
theorem held_of_fill {f : Place → Option ℕ} {p q : Place} (hp : f p = none) (hq : f q = some b) :
    update f p (some free) q = some b := by
  have hne : q ≠ p := by
    rintro rfl
    cases hp.symm.trans hq
  rw [update_of_ne hne, hq]

namespace Layout

variable (h : Layout table img free contents)
include h

theorem nmeta_le : nmeta ≤ free := by
  have hlast : held table img (.layout (nmeta - 1)) = some (nmeta - 1) := held_layout (by decide)
  have hused := h.owned.used_of_held hlast
  have hpos : 0 < nmeta := by decide
  simp only [decide_eq_true_eq] at hused
  omega

theorem free_ne_zero : free ≠ 0 := by
  have hle := h.nmeta_le
  have hpos : 0 < nmeta := by decide
  omega

theorem lt_free {p : Place} (hp : held table img p = some b) : b < free := by
  simpa using h.owned.used_of_held hp

/-- A block that an inode refers to is no meta block. -/
theorem nmeta_le_of_held {y : Slot} (hp : held table img (.slot i y) = some b) : nmeta ≤ b := by
  by_contra hlt
  cases h.owned.unique _ _ _ hp (held_layout (by omega))

/-- The next block is held nowhere. -/
theorem fresh (p : Place) : held table img p ≠ some free := by
  intro hp
  exact Nat.lt_irrefl _ (h.lt_free hp)

/-- A new block goes into the empty place `p`. -/
theorem owned_fill {p : Place} (hp : held table img p = none) :
    Owned (update (held table img) p (some free)) (fun b => decide (b < free + 1)) fun _ => True := by
  rw [used_succ]
  exact h.owned.fill hp (by simp) trivial

theorem data (i k : ℕ) (hk : k < (contents i).length) : ∃ b, Maps table img i (k / BSIZE) b ∧
    (img b).byte (k % BSIZE) = (contents i).getD k 0 := by
  obtain ⟨b, hb⟩ := h.mapped i k hk
  refine ⟨b, hb, ?_⟩
  rw [h.bytes i _ b hb _ (Nat.mod_lt k (by decide)), Nat.div_add_mod']

/-- A file does not exceed the maximum size. -/
theorem length_le (i : ℕ) : (contents i).length ≤ MAXFILE * BSIZE := by
  by_contra hlt
  obtain ⟨b, y, hy, _⟩ := h.mapped i (MAXFILE * BSIZE) (by omega)
  exact Nat.lt_irrefl _ (Blocks.slotOf_lt hy)

/-! ### New blocks -/

/-- What holds once the next block has gone into the empty place `p`. The block is zero, and
there are no contents that it would hold. -/
theorem fill {img' : ℕ → Block} {p : Place} (hnone : held table img p = none)
    (hheld : held table' img' = update (held table img) p (some free))
    (himg : ∀ i bn b, Maps table img i bn b → img' b = img b)
    (hzero : ∀ b, free ≤ b → img' b = Block.zero) : Layout table' img' (free + 1) contents where
  owned := by
    rw [hheld]
    exact h.owned_fill hnone
  zero b hb := hzero b (by omega)
  mapped i k hk := by
    obtain ⟨b, y, hy, hslot⟩ := h.mapped i k hk
    refine ⟨b, y, hy, ?_⟩
    rw [hheld]
    exact held_of_fill hnone hslot
  bytes := by
    rintro i bn b ⟨y, hy, hslot⟩ k hk
    rw [hheld, update_apply] at hslot
    split at hslot
    · rename_i hp
      cases hslot
      rw [hzero free (Nat.le_refl _), Block.byte_zero, List.getD_eq_default]
      by_contra hlt
      obtain ⟨b, z, hz, hb⟩ := h.mapped i (bn * BSIZE + k) (by omega)
      have hquot : (bn * BSIZE + k) / BSIZE = bn := by
        rw [Nat.mul_comm, Nat.mul_add_div (by decide), Nat.div_eq_of_lt hk, Nat.add_zero]
      rw [hquot] at hz
      cases hy.symm.trans hz
      rw [hp, hnone] at hb
      cases hb
    · rw [himg i bn b ⟨y, hy, hslot⟩]
      exact h.bytes i bn b ⟨y, hy, hslot⟩ k hk

/-- `din.addrs[k] = xint(freeblock++)` -/
theorem fill_addr (hi : (table i).type ≠ 0) {k : ℕ} (hk : k ≤ NDIRECT) (h0 : (table i).addrs k = 0) :
    Layout (update table i { table i with addrs := update (table i).addrs k free }) img (free + 1)
      contents := by
  have hlt : k < NDIRECT + 1 := Nat.lt_succ_iff.mpr hk
  -- The new block is zero already.
  have hzero : update (words img) free (fun _ => 0) = words img := by
    apply Function.update_eq_self_iff.mpr
    funext j
    simp only [words, h.zero free (Nat.le_refl _), Block.entry, Block.number_zero]
  have hfill : holdings nmeta (update (fun j => view (table j)) i ((view (table i)).setAddr ⟨k, hlt⟩ free))
      (update (words img) free fun _ => 0) =
        update (held table img) (.slot i (.addr ⟨k, hlt⟩)) (some free) :=
    Blocks.holdings_fill_addr (view_ne_free hi) h0 h.free_ne_zero h.fresh
  have hheld : held (update table i { table i with addrs := update (table i).addrs k free }) img =
      update (held table img) (.slot i (.addr ⟨k, hlt⟩)) (some free) := by
    rw [hzero] at hfill
    rw [held, view_update, view_setAddr _ hlt, hfill]
  have hnone : held table img (.slot i (.addr ⟨k, hlt⟩)) = none := if_pos (.inr h0)
  exact h.fill hnone hheld (fun _ _ _ _ => rfl) h.zero

/-- Two inodes do not share an indirect block. -/
theorem indirect_unique (hi : (table i).type ≠ 0) (hind : (table i).addrs NDIRECT ≠ 0) {j : ℕ}
    (hj : (view (table j)).type ≠ .free)
    (heq : (view (table j)).addrs (Fin.last NDIRECT) = (table i).addrs NDIRECT) : j = i := by
  have hi' : held table img (.slot i .indirect) = some ((table i).addrs NDIRECT) :=
    Blocks.Dinode.holds_eq_some.mpr ⟨view_ne_free hi, rfl, hind⟩
  have hj' : held table img (.slot j .indirect) = some ((table i).addrs NDIRECT) :=
    Blocks.Dinode.holds_eq_some.mpr ⟨hj, heq, hind⟩
  cases h.owned.unique _ _ _ hj' hi'
  rfl

/-- A data block is no inode's indirect block. -/
theorem indirect_ne_of_maps (hx : Maps table img i fbn x) {j : ℕ} (hj : (view (table j)).type ≠ .free) :
    (view (table j)).addrs (Fin.last NDIRECT) ≠ x := by
  obtain ⟨y, hy, hslot⟩ := hx
  intro heq
  have hx0 : x ≠ 0 := (Blocks.Dinode.holds_eq_some.mp hslot).2.2
  have hj' : held table img (.slot j .indirect) = some x :=
    Blocks.Dinode.holds_eq_some.mpr ⟨hj, heq, hx0⟩
  cases h.owned.unique _ _ _ hslot hj'
  exact Blocks.slotOf_ne_indirect hy rfl

/-- `indirect[j] = xint(freeblock++)` -/
theorem fill_entry (hi : (table i).type ≠ 0) (hind : (table i).addrs NDIRECT ≠ 0) {j : ℕ}
    (hj : j < NINDIRECT) (h0 : (img ((table i).addrs NDIRECT)).entry j = 0) (hfree : free < 256 ^ 4) :
    Layout table (update img ((table i).addrs NDIRECT)
      ((img ((table i).addrs NDIRECT)).setEntry j free)) (free + 1) contents := by
  have hindirect : held table img (.slot i .indirect) = some ((table i).addrs NDIRECT) :=
    Blocks.Dinode.holds_eq_some.mpr ⟨view_ne_free hi, rfl, hind⟩
  have hentry : (fun l : Fin NINDIRECT => ((img ((table i).addrs NDIRECT)).setEntry j free).entry l) =
      update (words img ((table i).addrs NDIRECT)) ⟨j, hj⟩ free := by
    have hsize : NINDIRECT * 4 = BSIZE := rfl
    funext l
    rw [update_apply]
    by_cases hl : l = ⟨j, hj⟩
    · rw [if_pos hl, hl]
      exact Block.number_setNumber hfree (by omega)
    · have hne : l.val ≠ j := fun heq => hl (Fin.ext heq)
      rw [if_neg hl]
      exact Block.number_setNumber_of_not (by omega)
  have hfill : holdings nmeta (fun j => view (table j))
      (update (words img) ((table i).addrs NDIRECT)
        (update (words img ((table i).addrs NDIRECT)) ⟨j, hj⟩ free)) =
      update (held table img) (.slot i (.entry ⟨j, hj⟩)) (some free) :=
    Blocks.holdings_fill_entry (view_ne_free hi) hind h.free_ne_zero fun _ hj heq =>
      h.indirect_unique hi hind hj heq
  have hnone : held table img (.slot i (.entry ⟨j, hj⟩)) = none := by
    have haddr : (view (table i)).addrAt (words img) (.entry ⟨j, hj⟩) = 0 := (if_neg hind).trans h0
    exact if_pos (.inr haddr)
  rw [← hentry, ← words_update] at hfill
  apply h.fill hnone hfill
  · intro k bn b hb
    have hne := h.indirect_ne_of_maps hb (view_ne_free hi)
    exact update_of_ne (fun heq => hne heq.symm) ..
  · intro b hb
    have hlt := h.lt_free hindirect
    rw [update_of_ne (by omega)]
    exact h.zero b hb

/-! ### Writing -/

/-- The block a file's bytes are in belongs to that part of that file. -/
theorem maps_unique {j bn : ℕ} (hx : Maps table img i fbn x) (hb : Maps table img j bn x) :
    j = i ∧ bn = fbn := by
  obtain ⟨y, hy, hslot⟩ := hx
  obtain ⟨z, hz, hslot'⟩ := hb
  cases h.owned.unique _ _ _ hslot hslot'
  exact ⟨rfl, Blocks.slotOf_inj hz hy⟩

/-- The words of a data block do not matter to the layout. -/
theorem held_write (hx : Maps table img i fbn x) (d : Block) :
    held table (update img x d) = held table img := by
  rw [held, words_update]
  exact Blocks.holdings_write fun j hj => h.indirect_ne_of_maps hx hj

/-- Bytes are appended to a file, within one block. -/
theorem append {l : List UInt8} (hx : Maps table img i ((contents i).length / BSIZE) x)
    (hl : (contents i).length % BSIZE + l.length ≤ BSIZE) :
    Layout table (update img x ((img x).splice ((contents i).length % BSIZE) l)) free
      (update contents i (contents i ++ l)) := by
  have hheld := h.held_write hx ((img x).splice ((contents i).length % BSIZE) l)
  constructor
  case owned =>
    rw [hheld]
    exact h.owned
  case zero =>
    intro b hb
    obtain ⟨y, _, hslot⟩ := hx
    have hlt := h.lt_free hslot
    rw [update_of_ne (by omega)]
    exact h.zero b hb
  case mapped =>
    intro j k hk
    unfold Maps
    rw [hheld]
    by_cases hnew : j = i ∧ (contents i).length ≤ k
    · -- A new byte.
      obtain ⟨rfl, hle⟩ := hnew
      rw [update_self, List.length_append] at hk
      have hdiv := Nat.div_add_mod' (contents j).length BSIZE
      have hquot : k / BSIZE = (contents j).length / BSIZE := by
        apply Nat.div_eq_of_lt_le
        · omega
        · rw [Nat.add_mul]
          omega
      rw [hquot]
      exact ⟨x, hx⟩
    · apply h.mapped j k
      by_cases hj : j = i
      · subst hj
        omega
      · rwa [update_of_ne hj] at hk
  case bytes =>
    intro j bn b hb k hk
    unfold Maps at hb
    rw [hheld] at hb
    have hold := h.bytes j bn b hb k hk
    by_cases hbx : b = x
    · subst hbx
      obtain ⟨rfl, rfl⟩ := h.maps_unique hx hb
      have hlen := Nat.div_add_mod' (contents j).length BSIZE
      rw [update_self, update_self]
      by_cases hlow : k < (contents j).length % BSIZE
      · rw [Block.byte_splice_of_not (.inl hlow), hold, List.getD_append _ _ _ _ (by omega)]
      by_cases hhigh : (contents j).length % BSIZE + l.length ≤ k
      · rw [Block.byte_splice_of_not (.inr hhigh), hold, List.getD_eq_default _ _ (by omega),
          List.getD_eq_default _ _ (by rw [List.length_append]; omega)]
      · rw [Block.byte_splice (by omega) (by omega) (by omega),
          List.getD_append_right _ _ _ _ (by omega)]
        congr 1
        omega
    · rw [update_of_ne hbx, hold]
      by_cases hj : j = i
      · subst hj
        -- Another block of the file has no part in what is appended.
        have hne : bn ≠ (contents j).length / BSIZE := by
          rintro rfl
          obtain ⟨y, hy, hslot⟩ := hx
          obtain ⟨z, hz, hslot'⟩ := hb
          cases hy.symm.trans hz
          exact hbx (Option.some.inj (hslot'.symm.trans hslot))
        have hlen := Nat.div_add_mod' (contents j).length BSIZE
        rw [update_self]
        rcases Nat.lt_or_gt_of_ne hne with hlt | hgt
        · have hmul := Nat.mul_le_mul_right BSIZE hlt
          rw [Nat.succ_mul] at hmul
          rw [List.getD_append _ _ _ _ (by omega)]
        · have hmul := Nat.mul_le_mul_right BSIZE hgt
          rw [Nat.succ_mul] at hmul
          rw [List.getD_eq_default _ _ (by omega),
            List.getD_eq_default _ _ (by rw [List.length_append]; omega)]
      · rw [update_of_ne hj]

/-- What changes neither addresses nor the blocks after the meta blocks. -/
theorem keep {img' : ℕ → Block} (hheld : held table' img' = held table img)
    (himg : ∀ b, nmeta ≤ b → img' b = img b) : Layout table' img' free contents where
  owned := by
    rw [hheld]
    exact h.owned
  zero b hb := by
    rw [himg b (Nat.le_trans h.nmeta_le hb)]
    exact h.zero b hb
  mapped i k hk := by
    unfold Maps
    rw [hheld]
    exact h.mapped i k hk
  bytes i bn b hb k hk := by
    unfold Maps at hb
    rw [hheld] at hb
    obtain ⟨y, _, hslot⟩ := id hb
    rw [himg b (h.nmeta_le_of_held hslot)]
    exact h.bytes i bn b hb k hk

/-- Zeros can be counted as contents, as far as there are blocks. -/
theorem pad {n : ℕ} (hmapped : ∀ k < (contents i).length + n, ∃ b, Maps table img i (k / BSIZE) b) :
    Layout table img free (update contents i (contents i ++ List.replicate n 0)) where
  owned := h.owned
  zero := h.zero
  mapped j k hk := by
    by_cases hj : j = i
    · subst hj
      rw [update_self, List.length_append, List.length_replicate] at hk
      exact hmapped k hk
    · rw [update_of_ne hj] at hk
      exact h.mapped j k hk
  bytes j bn b hb k hk := by
    rw [h.bytes j bn b hb k hk]
    by_cases hj : j = i
    · subst hj
      rw [update_self]
      rcases Nat.lt_or_ge (bn * BSIZE + k) (contents j).length with hlt | hge
      · rw [List.getD_append _ _ _ _ hlt]
      · rw [List.getD_append_right _ _ _ _ hge, List.getD_eq_default _ _ hge, List.getD_eq_getElem?_getD,
          List.getElem?_getD_replicate_default_eq]
    · rw [update_of_ne hj]

/-- A meta block is written. -/
theorem write_meta (hb : b < nmeta) (hb0 : b ≠ 0) (d : Block) :
    Layout table (update img b d) free contents := by
  apply h.keep
  · rw [held, words_update]
    apply Blocks.holdings_write
    intro j hj heq
    have hindirect : held table img (.slot j .indirect) = some b :=
      Blocks.Dinode.holds_eq_some.mpr ⟨hj, heq, hb0⟩
    have := h.nmeta_le_of_held hindirect
    omega
  · intro c hc
    exact update_of_ne (by omega) ..

/-! ### Inodes -/

theorem congr_table (ht : ∀ i, (table' i).type = (table i).type ∧
    ∀ k ≤ NDIRECT, (table' i).addrs k = (table i).addrs k) : Layout table' img free contents :=
  h.keep (held_congr ht) fun _ _ => rfl

/-- A free inode is allocated, without blocks. -/
theorem alloc_inode (hi : (table i).type = 0) (haddrs : ∀ k, ip.addrs k = 0) :
    Layout (update table i ip) img free contents := by
  refine h.keep ?_ fun _ _ => rfl
  funext p
  cases p with
  | layout b => rfl
  | slot j y =>
    by_cases hj : j = i
    · subst hj
      have hold : (view (table j)).holds (words img) y = none :=
        if_pos (.inl (fileType_eq_free.mpr hi))
      have haddr : (view ip).addrAt (words img) y = 0 := by
        cases y with
        | addr k => exact haddrs k
        | entry e => exact if_pos (haddrs _)
      rw [held_slot, held_slot, hold, update_self]
      exact if_pos (.inr haddr)
    · rw [held_slot, held_slot, update_of_ne hj]

end Layout

/-! ### The inodes of an image -/

/-- The inode on disk, where `mkfs` has it; there is none after the last inode block. -/
def inodes (img : ℕ → Block) (i : ℕ) : Inode :=
  if i < NINODES then decodeInode i (dip i) (img (iblock i))
  else { inum := i, type := 0, major := 0, minor := 0, nlink := 0, size := 0, addrs := fun _ => 0 }

theorem iblock_eq (i : ℕ) : iblock i = i / 16 + 32 := rfl

theorem dip_eq (i : ℕ) : dip i = 64 * (i % 16) := rfl

theorem bmapstart_lt_nmeta : bmapstart < nmeta := by decide

/-- The inode blocks are between the log and the free map. -/
theorem iblock_lt (hi : i < NINODES) : 1 < iblock i ∧ iblock i < bmapstart := by
  have hmap : bmapstart = 45 := rfl
  unfold NINODES at hi
  rw [iblock_eq, hmap]
  omega

theorem dip_le (i : ℕ) : dip i + Buffers.DINODE ≤ BSIZE := by
  have hBSIZE : BSIZE = 1024 := rfl
  rw [dip_eq, hBSIZE, Buffers.DINODE]
  omega

theorem inodes_fits (img : ℕ → Block) (i : ℕ) : (inodes img i).Fits := by
  unfold inodes
  split
  · exact Buffers.decodeInode_fits ..
  · constructor <;> simp

theorem inodes_congr {img' : ℕ → Block} (h : ∀ b < bmapstart, img' b = img b) :
    inodes img' = inodes img := by
  funext i
  unfold inodes
  split
  · rename_i hi
    rw [h _ (iblock_lt hi).2]
  · rfl

/-- **Writing an inode.** -/
theorem inodes_encode (hi : i < NINODES) (hf : ip.Fits) (j : ℕ) :
    (inodes (update img (iblock i) (encodeInode ip (dip i) (img (iblock i)))) j).Same
      (update (inodes img) i ip j) := by
  by_cases hj : j = i
  · subst hj
    rw [update_self, inodes, if_pos hi, update_self]
    exact Buffers.decodeInode_encodeInode hf (dip_le j)
  · rw [update_of_ne hj]
    unfold inodes
    by_cases hlt : j < NINODES
    · rw [if_pos hlt, if_pos hlt]
      by_cases hblock : iblock j = iblock i
      · have hdip : dip j + Buffers.DINODE ≤ dip i ∨
            dip i + Buffers.DINODE ≤ dip j := by
          rw [iblock_eq, iblock_eq] at hblock
          rw [dip_eq, dip_eq, Buffers.DINODE]
          omega
        rw [hblock, update_self]
        exact Buffers.decodeInode_encodeInode_of_not hdip (dip_le i) hf
      · rw [update_of_ne hblock]
        exact ⟨rfl, rfl, rfl, rfl, rfl, fun _ _ => rfl⟩
    · rw [if_neg hlt, if_neg hlt]
      exact ⟨rfl, rfl, rfl, rfl, rfl, fun _ _ => rfl⟩

end Xv6.Mkfs
