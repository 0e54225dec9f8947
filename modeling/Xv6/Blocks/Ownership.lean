import Mathlib.Data.Fintype.Basic
import Xv6.Lib.Run
import Xv6.Lib.Slots
import Xv6.Lib.Wp
import Xv6.Blocks.Model

/-!
Who owns a block.

A block address stands in `addrs` of an inode or in the inode's indirect block; the
blocks before the data blocks belong to the layout. `State.held` collects these places,
and the invariant `Ok` says that the bitmap is right about them in the sense of
`Slots.Owned`. It is about the inodes as the kernel sees them, in the inode table or else
on disk; in between operations the two agree.

`readi` calls `bmap`, which would allocate, without writing the inode back. It never
allocates, because the kernel does not make holes: every block of a file below its size
has an address (`Full`), which `writei` keeps up block by block, however it ends.
-/

namespace Xv6.Blocks

open Function (update update_of_ne update_self update_apply update_eq_self)
open Fin (last)
open Slots (Owned)
open Wp

/-! ### Places of block addresses -/

/-- A direct slot, the slot of the indirect block, or an entry of the indirect block. -/
inductive Slot where
  | addr (k : Fin (NDIRECT + 1))
  | entry (j : Fin NINDIRECT)
deriving DecidableEq

/-- The slot of the indirect block. -/
abbrev Slot.indirect : Slot := .addr (last NDIRECT)

inductive Place where
  /-- One of the blocks before the data blocks. -/
  | layout (b : ℕ)
  | slot (i : ℕ) (x : Slot)
deriving DecidableEq

/-- The address in a slot, 0 if there is none. -/
def Dinode.addrAt (d : Dinode) (block : ℕ → Block) : Slot → ℕ
  | .addr k => d.addrs k
  | .entry j => if d.addrs (last NDIRECT) = 0 then 0 else block (d.addrs (last NDIRECT)) j

/-- The block that a slot of an allocated inode refers to. -/
def Dinode.holds (d : Dinode) (block : ℕ → Block) (x : Slot) : Option ℕ :=
  if d.type = .free ∨ d.addrAt block x = 0 then none else some (d.addrAt block x)

def holdings (nmeta : ℕ) (table : ℕ → Dinode) (block : ℕ → Block) : Place → Option ℕ
  | .layout b => if b < nmeta then some b else none
  | .slot i x => (table i).holds block x

/-- The inode as the kernel sees it. -/
def State.current (s : State) (i : ℕ) : Dinode :=
  if s.Locked i then s.inode i else s.dinode i

def State.held (s : State) : Place → Option ℕ := holdings s.nmeta s.current s.block

/-- The slot for the block `bn` of a file. -/
def slotOf (bn : ℕ) : Option Slot :=
  if h : bn < NDIRECT then some (.addr (Fin.castSucc ⟨bn, h⟩))
  else if h : bn - NDIRECT < NINDIRECT then some (.entry ⟨bn - NDIRECT, h⟩)
  else none

/-- The block `bn` of inode `i` is the disk block `b`. -/
def State.Maps (s : State) (i bn b : ℕ) : Prop :=
  ∃ x, slotOf bn = some x ∧ s.held (.slot i x) = some b

/-- The first `n` bytes of inode `i` have blocks. -/
def State.Full (s : State) (i n : ℕ) : Prop := ∀ bn, bn * BSIZE < n → ∃ b, s.Maps i bn b

/-- The invariant, while the inode `busy` may differ from its copy on disk. -/
structure Ok (busy : Option ℕ) (s : State) : Prop where
  owned : Owned s.held s.bitmap (· < s.size)
  boot : 0 < s.nmeta
  full : ∀ i, (s.current i).type ≠ .free → s.Full i (s.current i).size
  synced : ∀ i, busy ≠ some i → s.Locked i → s.inode i = s.dinode i
  used : ∀ i, s.Locked i → (s.inode i).type ≠ .free

variable {s t : State} {i j b bn : ℕ} {d : Dinode} {table : ℕ → Dinode} {block : ℕ → Block}
  {nmeta : ℕ} {x : Slot} {k : Fin (NDIRECT + 1)} {busy : Option ℕ}

theorem Dinode.holds_eq_some :
    d.holds block x = some b ↔ d.type ≠ .free ∧ d.addrAt block x = b ∧ b ≠ 0 := by
  unfold Dinode.holds
  grind

theorem State.held_slot : s.held (.slot i x) = (s.current i).holds s.block x := rfl

theorem State.Locked.current_eq (h : s.Locked i) : s.current i = s.inode i := if_pos h

theorem State.current_of_not_locked (h : ¬ s.Locked i) : s.current i = s.dinode i := if_neg h

theorem slotOf_ne_indirect (h : slotOf bn = some x) : x ≠ .indirect := by
  unfold slotOf at h
  split at h
  · rename_i hbn
    cases h
    intro heq
    have hval := congrArg Fin.val (Slot.addr.inj heq)
    simp only [Fin.val_castSucc, Fin.val_last] at hval
    omega
  · split at h
    · cases h
      intro heq
      cases heq
    · cases h

/-- Which block of a file a slot is for, if it is not the indirect slot. -/
def Slot.number : Slot → ℕ
  | .addr k => k
  | .entry j => NDIRECT + j

theorem number_slotOf (h : slotOf bn = some x) : x.number = bn := by
  unfold slotOf at h
  split at h
  · cases h
    rfl
  · split at h
    · cases h
      simp only [Slot.number]
      omega
    · cases h

theorem slotOf_lt (h : slotOf bn = some x) : bn < MAXFILE := by
  have hmax : MAXFILE = NDIRECT + NINDIRECT := rfl
  unfold slotOf at h
  split at h
  · omega
  · split at h
    · omega
    · cases h

/-- Different blocks of a file have different slots. -/
theorem slotOf_inj {bn' : ℕ} (h : slotOf bn = some x) (h' : slotOf bn' = some x) : bn = bn' :=
  (number_slotOf h).symm.trans (number_slotOf h')

/-! ### What a change does to the places -/

/-- A block that is held nowhere is no inode's indirect block. -/
theorem indirect_ne (h : ∀ p, holdings nmeta table block p ≠ some b) (hb : b ≠ 0)
    (hj : (table j).type ≠ .free) : (table j).addrs (last NDIRECT) ≠ b := by
  intro heq
  exact h (.slot j .indirect) (Dinode.holds_eq_some.mpr ⟨hj, heq, hb⟩)

theorem Dinode.holds_congr {d' : Dinode} {block' : ℕ → Block} (htype : d'.type = d.type)
    (haddr : d'.addrAt block' x = d.addrAt block x) : d'.holds block' x = d.holds block x := by
  simp only [Dinode.holds, htype, haddr]

/-- The contents of a block matter only to the inode whose indirect block it is. -/
theorem Dinode.holds_write {w : Block} (h : d.type ≠ .free → d.addrs (last NDIRECT) ≠ b) :
    d.holds (update block b w) x = d.holds block x := by
  by_cases hf : d.type = .free
  · simp only [Dinode.holds, hf, true_or, if_true]
  · refine Dinode.holds_congr rfl ?_
    cases x with
    | addr k => rfl
    | entry e => simp only [Dinode.addrAt, update_of_ne (h hf)]

open Dinode (holds_eq_some holds_congr holds_write)

/-- A zeroed block goes into an empty slot of `addrs`. -/
theorem Dinode.holds_fill_addr (hd : d.type ≠ .free) (hk : d.addrs k = 0) (hb : b ≠ 0)
    (hne : d.addrs (last NDIRECT) ≠ b) :
    (d.setAddr k b).holds (update block b fun _ => 0) x =
      if x = .addr k then some b else d.holds block x := by
  by_cases hx : x = .addr k
  · rw [if_pos hx, holds_eq_some, hx]
    exact ⟨hd, d.setAddr_self k b, hb⟩
  · rw [if_neg hx]
    refine holds_congr rfl ?_
    cases x with
    | addr k' => exact d.setAddr_of_ne (fun h => hx (congrArg Slot.addr h)) b
    | entry e =>
      simp only [Dinode.addrAt]
      by_cases hlast : last NDIRECT = k
      · -- A new indirect block has no entries yet.
        subst hlast
        rw [Dinode.setAddr_self, update_self, hk, if_neg hb, if_pos rfl]
      · rw [d.setAddr_of_ne hlast, update_of_ne hne]

/-- A block goes into an empty entry of the indirect block. -/
theorem Dinode.holds_fill_entry {e : Fin NINDIRECT} (hd : d.type ≠ .free)
    (hind : d.addrs (last NDIRECT) ≠ 0) (hb : b ≠ 0) :
    d.holds (update block (d.addrs (last NDIRECT))
        (update (block (d.addrs (last NDIRECT))) e b)) x =
      if x = .entry e then some b else d.holds block x := by
  by_cases hx : x = .entry e
  · rw [if_pos hx, holds_eq_some, hx]
    refine ⟨hd, ?_, hb⟩
    simp only [Dinode.addrAt, if_neg hind, update_self]
  · rw [if_neg hx]
    refine holds_congr rfl ?_
    cases x with
    | addr k => rfl
    | entry e' =>
      have he : e' ≠ e := fun h => hx (congrArg Slot.entry h)
      simp only [Dinode.addrAt, if_neg hind, update_self, update_of_ne he]

/-- A direct slot is cleared. -/
theorem Dinode.holds_clear_addr (hk : k ≠ last NDIRECT) :
    (d.setAddr k 0).holds block x =
      if x = .addr k then none else d.holds block x := by
  by_cases hx : x = .addr k
  · subst hx
    simp [Dinode.holds, Dinode.addrAt]
  · rw [if_neg hx]
    refine holds_congr rfl ?_
    cases x with
    | addr k' => exact d.setAddr_of_ne (fun h => hx (congrArg Slot.addr h)) 0
    | entry e => simp only [Dinode.addrAt, d.setAddr_of_ne hk.symm]

theorem holdings_update :
    holdings nmeta (update table i d) block (.slot j x) =
      if j = i then d.holds block x else (table j).holds block x := by
  simp only [holdings, update_apply]
  split <;> rfl

/-- A fresh zeroed block goes into `addrs`. -/
theorem holdings_fill_addr (hi : (table i).type ≠ .free) (hk : (table i).addrs k = 0) (hb : b ≠ 0)
    (hfresh : ∀ p, holdings nmeta table block p ≠ some b) :
    holdings nmeta (update table i ((table i).setAddr k b))
        (update block b fun _ => 0) =
      update (holdings nmeta table block) (.slot i (.addr k)) (some b) := by
  funext p
  rw [update_apply]
  cases p with
  | layout c => rfl
  | slot j x =>
    rw [holdings_update]
    by_cases hj : j = i
    · subst hj
      simp only [if_true, Dinode.holds_fill_addr hi hk hb (indirect_ne hfresh hb hi),
        Place.slot.injEq, true_and, holdings]
    · simp only [holds_write (indirect_ne hfresh hb), Place.slot.injEq, hj, false_and,
        if_false, holdings]

/-- The contents of a block that is no indirect block do not matter. -/
theorem holdings_write {w : Block}
    (h : ∀ j, (table j).type ≠ .free → (table j).addrs (last NDIRECT) ≠ b) :
    holdings nmeta table (update block b w) = holdings nmeta table block := by
  funext p
  cases p with
  | layout c => rfl
  | slot j x => exact holds_write (h j)

/-- A fresh block goes into the indirect block. -/
theorem holdings_fill_entry {e : Fin NINDIRECT} (hi : (table i).type ≠ .free)
    (hind : (table i).addrs (last NDIRECT) ≠ 0) (hb : b ≠ 0)
    (hunique : ∀ j, (table j).type ≠ .free →
      (table j).addrs (last NDIRECT) = (table i).addrs (last NDIRECT) → j = i) :
    holdings nmeta table (update block ((table i).addrs (last NDIRECT))
        (update (block ((table i).addrs (last NDIRECT))) e b)) =
      update (holdings nmeta table block) (.slot i (.entry e)) (some b) := by
  funext p
  rw [update_apply]
  cases p with
  | layout c => rfl
  | slot j x =>
    by_cases hj : j = i
    · subst hj
      simp only [holdings, Dinode.holds_fill_entry hi hind hb, Place.slot.injEq, true_and]
    · rw [if_neg (by simp [hj])]
      exact holds_write fun hf heq => hj (hunique j hf heq)

/-- A direct slot is cleared. -/
theorem holdings_clear_addr (hk : k ≠ last NDIRECT) :
    holdings nmeta (update table i ((table i).setAddr k 0)) block =
      update (holdings nmeta table block) (.slot i (.addr k)) none := by
  funext p
  rw [update_apply]
  cases p with
  | layout c => rfl
  | slot j x =>
    rw [holdings_update]
    by_cases hj : j = i
    · subst hj
      simp only [if_true, Dinode.holds_clear_addr hk, Place.slot.injEq, true_and, holdings]
    · simp only [Place.slot.injEq, hj, false_and, if_false, holdings]

/-! ### Adding blocks to an inode -/

/-- What an operation that adds blocks to inode `i` leaves alone. -/
structure Grew (i : ℕ) (s t : State) : Prop where
  size : t.size = s.size
  nmeta : t.nmeta = s.nmeta
  dinode : t.dinode = s.dinode
  ref : t.ref = s.ref
  valid : t.valid = s.valid
  other : ∀ j, j ≠ i → t.inode j = s.inode j
  type : (t.inode i).type = (s.inode i).type
  length : (t.inode i).size = (s.inode i).size
  held : ∀ p b, s.held p = some b → t.held p = some b

namespace Grew

variable {u : State}

theorem refl (i : ℕ) (s : State) : Grew i s s :=
  ⟨rfl, rfl, rfl, rfl, rfl, fun _ _ => rfl, rfl, rfl, fun _ _ h => h⟩

theorem trans (h : Grew i s t) (h' : Grew i t u) : Grew i s u where
  size := h'.size.trans h.size
  nmeta := h'.nmeta.trans h.nmeta
  dinode := h'.dinode.trans h.dinode
  ref := h'.ref.trans h.ref
  valid := h'.valid.trans h.valid
  other j hj := (h'.other j hj).trans (h.other j hj)
  type := h'.type.trans h.type
  length := h'.length.trans h.length
  held p b hp := h'.held p b (h.held p b hp)

theorem locked (h : Grew i s t) : t.Locked j ↔ s.Locked j := by
  unfold State.Locked
  rw [h.ref, h.valid]

theorem maps (h : Grew i s t) (hm : s.Maps j bn b) : t.Maps j bn b := by
  obtain ⟨x, hx, hb⟩ := hm
  exact ⟨x, hx, h.held _ _ hb⟩

theorem full {n : ℕ} (h : Grew i s t) (hf : s.Full j n) : t.Full j n := by
  intro bn hbn
  obtain ⟨b, hb⟩ := hf bn hbn
  exact ⟨b, h.maps hb⟩

/-- Types and sizes are as before. -/
theorem current (h : Grew i s t) (j : ℕ) :
    (t.current j).type = (s.current j).type ∧ (t.current j).size = (s.current j).size := by
  by_cases hl : s.Locked j
  · rw [(h.locked.mpr hl).current_eq, hl.current_eq]
    by_cases hj : j = i
    · subst hj
      exact ⟨h.type, h.length⟩
    · rw [h.other j hj]
      exact ⟨rfl, rfl⟩
  · rw [State.current_of_not_locked fun ht => hl (h.locked.mp ht), State.current_of_not_locked hl,
      h.dinode]
    exact ⟨rfl, rfl⟩

end Grew

theorem Ok.grow (h : Ok (some i) s) (hg : Grew i s t) (ho : Owned t.held t.bitmap (· < t.size)) :
    Ok (some i) t where
  owned := ho
  boot := by
    rw [hg.nmeta]
    exact h.boot
  full j hj := by
    obtain ⟨htype, hsize⟩ := hg.current j
    rw [htype] at hj
    rw [hsize]
    exact hg.full (h.full j hj)
  synced j hb hl := by
    have hj : j ≠ i := fun hj => hb (by rw [hj])
    rw [hg.other j hj, hg.dinode]
    exact h.synced j hb (hg.locked.mp hl)
  used j hl := by
    have hused := h.used j (hg.locked.mp hl)
    by_cases hj : j = i
    · subst hj
      rw [hg.type]
      exact hused
    · rw [hg.other j hj]
      exact hused

/-- A change of the bitmap, the blocks and inode `i`. -/
def State.set (s : State) (bm : ℕ → Bool) (bl : ℕ → Block) (i : ℕ) (d : Dinode) : State :=
  { s with bitmap := bm, block := bl, inode := update s.inode i d }

theorem State.Locked.held_set (hl : s.Locked i) (bm : ℕ → Bool) (bl : ℕ → Block) (d : Dinode) :
    (s.set bm bl i d).held = holdings s.nmeta (update s.current i d) bl := by
  have hcur : (s.set bm bl i d).current = update s.current i d := by
    funext j
    by_cases hj : j = i
    · subst hj
      rw [update_self]
      change (if s.Locked j then update s.inode j d j else s.dinode j) = d
      rw [if_pos hl, update_self]
    · rw [update_of_ne hj]
      change (if s.Locked j then update s.inode i d j else s.dinode j) = s.current j
      rw [update_of_ne hj]
      rfl
  rw [State.held, hcur]
  rfl

/-- An empty place takes a fresh block. -/
theorem Ok.fill (h : Ok (some i) s) {p : Place} {bl : ℕ → Block}
    (hheld : (s.set (update s.bitmap b true) bl i d).held = update s.held p (some b))
    (hp : s.held p = none) (hfree : s.bitmap b = false) (hlt : b < s.size)
    (htype : d.type = (s.inode i).type) (hsize : d.size = (s.inode i).size) :
    Ok (some i) (s.set (update s.bitmap b true) bl i d) ∧
      Grew i s (s.set (update s.bitmap b true) bl i d) := by
  have hself : (s.set (update s.bitmap b true) bl i d).inode i = d := update_self ..
  have hg : Grew i s (s.set (update s.bitmap b true) bl i d) := by
    refine ⟨rfl, rfl, rfl, rfl, rfl, fun j hj => update_of_ne hj .., by rw [hself, htype],
      by rw [hself, hsize], fun q c hq => ?_⟩
    rw [hheld, update_of_ne]
    · exact hq
    · rintro rfl
      rw [hp] at hq
      cases hq
  refine ⟨h.grow hg ?_, hg⟩
  rw [hheld]
  exact h.owned.fill hp hfree hlt

/-! ### `balloc` and `bmap` -/

/-- Every panic but "freeing free block". -/
def NotBfree (e : Panic) : Prop := e ≠ .bfree

/-- `log_write` may panic, but changes nothing. -/
theorem wp_logWrite {Q : Unit → State → Prop} (h : Q () s) : wp logWrite Q NotBfree s := by
  rw [logWrite, wp_bind, wp_get, wp_ite]
  split
  · exact Panic.noConfusion
  · exact h

theorem Ok.wp_balloc (h : Ok busy s) :
    wp balloc (fun b t => b = 0 ∧ t = s ∨ b ≠ 0 ∧ b < s.size ∧ s.bitmap b = false ∧
      t = { s with bitmap := update s.bitmap b true, block := update s.block b fun _ => 0 })
      NotBfree s := by
  unfold balloc
  rw [wp_bind, wp_get]
  cases hf : (List.range s.size).find? fun b => s.bitmap b = false with
  | none => exact .inl ⟨rfl, rfl⟩
  | some b =>
    have hfree : s.bitmap b = false := by
      have hfound := List.find?_some hf
      exact of_decide_eq_true hfound
    have hlt := List.mem_range.mp (List.mem_of_find?_eq_some hf)
    dsimp only
    rw [wp_bind, wp_modify, wp_bind]
    apply wp_logWrite
    rw [wp_bind, modifyBlock, wp_modify, wp_bind]
    apply wp_logWrite
    refine .inr ⟨fun hb => ?_, hlt, hfree, rfl⟩
    -- The boot block is marked as used, so 0 is never a new block.
    subst hb
    have hboot : s.held (.layout 0) = some 0 := if_pos h.boot
    exact h.owned.not_held hfree _ hboot

theorem Ok.wp_addrOf (h : Ok (some i) s) (hl : s.Locked i) (k : Fin (NDIRECT + 1)) :
    wp (addrOf i k) (fun a t => Ok (some i) t ∧ Grew i s t ∧ (a ≠ 0 → (t.inode i).addrs k = a))
      NotBfree s := by
  unfold addrOf
  rw [wp_bind, wp_get, wp_ite]
  split
  · exact ⟨h, .refl i s, fun _ => rfl⟩
  · rename_i hzero
    have hzero := Decidable.not_not.mp hzero
    rw [wp_bind]
    refine h.wp_balloc.post ?_
    rintro b t (⟨rfl, rfl⟩ | ⟨hb, hlt, hfree, rfl⟩)
    · exact ⟨h, .refl i t, fun hne => absurd rfl hne⟩
    · rw [wp_ite, if_neg hb]
      have hcur := hl.current_eq
      have hused : (s.current i).type ≠ .free := by
        rw [hcur]
        exact h.used i hl
      have hempty : s.held (.slot i (.addr k)) = none := by
        rw [State.held_slot, hcur]
        exact if_pos (.inr hzero)
      have hfill := holdings_fill_addr (k := k) hused (by rw [hcur]; exact hzero) hb
        (h.owned.not_held hfree)
      rw [hcur] at hfill
      rw [← hl.held_set (update s.bitmap b true)] at hfill
      obtain ⟨hok, hg⟩ := h.fill hfill hempty hfree hlt rfl rfl
      refine ⟨hok, hg, fun _ => ?_⟩
      change (update s.inode i ((s.inode i).setAddr k b) i).addrs k = b
      rw [update_self, Dinode.setAddr_self]

/-- What the indirect block of an inode holds is the inode's alone. -/
theorem Ok.indirect_unique (h : Ok busy s) (hi : (s.current i).type ≠ .free)
    (hind : (s.current i).addrs (last NDIRECT) ≠ 0) (j : ℕ) (hj : (s.current j).type ≠ .free)
    (heq : (s.current j).addrs (last NDIRECT) = (s.current i).addrs (last NDIRECT)) :
    j = i := by
  have hplace := h.owned.unique (.slot j .indirect) (.slot i .indirect) _
    (Dinode.holds_eq_some.mpr ⟨hj, heq, hind⟩) (Dinode.holds_eq_some.mpr ⟨hi, rfl, hind⟩)
  exact (Place.slot.inj hplace).1

theorem Ok.wp_bmapIndirect (h : Ok (some i) s) (hl : s.Locked i) (e : Fin NINDIRECT) :
    wp (bmapIndirect i e) (fun a t => Ok (some i) t ∧ Grew i s t ∧
      (a ≠ 0 → t.held (.slot i (.entry e)) = some a)) NotBfree s := by
  refine (h.wp_addrOf hl _).bind ?_
  rintro a t ⟨ht, hg, haddr⟩
  split
  · exact ⟨ht, hg, fun hne => absurd rfl hne⟩
  · rename_i ha
    have haddr := haddr ha
    have hlt := hg.locked.mpr hl
    have hcur := hlt.current_eq
    have hused : (t.current i).type ≠ .free := by
      rw [hcur]
      exact ht.used i hlt
    have hind : (t.current i).addrs (last NDIRECT) = a := by rw [hcur, haddr]
    have hat : (t.current i).addrAt t.block (.entry e) = t.block a e := by
      simp only [Dinode.addrAt, hind, if_neg ha]
    rw [wp_bind, wp_get, wp_ite]
    split
    · rename_i hentry
      exact ⟨ht, hg, fun _ => Dinode.holds_eq_some.mpr ⟨hused, hat, hentry⟩⟩
    · rename_i hentry
      have hentry := Decidable.not_not.mp hentry
      rw [wp_bind]
      refine ht.wp_balloc.post ?_
      rintro b u (⟨rfl, rfl⟩ | ⟨hb, hblt, hfree, rfl⟩)
      · exact ⟨ht, hg, fun hne => absurd rfl hne⟩
      · rw [wp_ite, if_neg hb]
        have hfresh := ht.owned.not_held hfree
        have hab : a ≠ b := by
          rw [← hind]
          exact indirect_ne hfresh hb hused
        have hempty : t.held (.slot i (.entry e)) = none := if_pos (.inr (by rw [hat, hentry]))
        have hfill : (t.set (update t.bitmap b true)
            (update (update t.block b fun _ => 0) a (update (t.block a) e b)) i (t.inode i)).held =
              update t.held (.slot i (.entry e)) (some b) := by
          have ha' : (t.current i).addrs (last NDIRECT) ≠ 0 := by rwa [hind]
          have hzeroed : holdings t.nmeta t.current (update t.block b fun _ => 0) = t.held :=
            holdings_write fun j => indirect_ne hfresh hb
          rw [hlt.held_set, ← hcur, update_eq_self, ← hzeroed,
            ← holdings_fill_entry hused ha' hb (ht.indirect_unique hused ha'), hind,
            update_of_ne hab]
        obtain ⟨hok, hgu⟩ := ht.fill hfill hempty hfree hblt rfl rfl
        have hstate : t.set (update t.bitmap b true)
            (update (update t.block b fun _ => 0) a (update (t.block a) e b)) i (t.inode i) =
              { t with
                bitmap := update t.bitmap b true
                block := update (update t.block b fun _ => 0) a
                  (update ((update t.block b fun _ => 0) a) e b) } := by
          rw [State.set, update_eq_self, update_of_ne hab]
        rw [hstate] at hok hgu hfill
        rw [wp_bind, modifyBlock, wp_modify, wp_bind]
        apply wp_logWrite
        refine ⟨hok, hg.trans hgu, fun _ => ?_⟩
        change State.held { t with
            bitmap := update t.bitmap b true
            block := update (update t.block b fun _ => 0) a
              (update ((update t.block b fun _ => 0) a) e b) } (.slot i (.entry e)) = some b
        rw [hfill, update_self]

theorem Ok.wp_bmap (h : Ok (some i) s) (hl : s.Locked i) (bn : ℕ) :
    wp (bmap i bn) (fun a t => Ok (some i) t ∧ Grew i s t ∧ (a ≠ 0 → t.Maps i bn a))
      NotBfree s := by
  unfold bmap
  split
  · rename_i hbn
    refine (h.wp_addrOf hl _).post ?_
    rintro a t ⟨ht, hg, haddr⟩
    refine ⟨ht, hg, fun ha => ⟨_, dif_pos hbn, ?_⟩⟩
    have hlt := hg.locked.mpr hl
    rw [State.held_slot, hlt.current_eq, holds_eq_some]
    exact ⟨ht.used i hlt, haddr ha, ha⟩
  · rename_i hbn
    split
    · rename_i hind
      refine (h.wp_bmapIndirect hl _).post ?_
      rintro a t ⟨ht, hg, haddr⟩
      refine ⟨ht, hg, fun ha => ⟨_, ?_, haddr ha⟩⟩
      rw [slotOf, dif_neg hbn, dif_pos hind]
    · exact Panic.noConfusion

/-- Where `bmap` finds a block that is there: in the inode, or in its indirect block. -/
theorem State.Maps.found (h : s.Maps i bn b) (hl : s.Locked i) : b ≠ 0 ∧
    ((∃ hbn : bn < NDIRECT, (s.inode i).addrs (Fin.castSucc ⟨bn, hbn⟩) = b) ∨
      ¬bn < NDIRECT ∧ ∃ hind : bn - NDIRECT < NINDIRECT, (s.inode i).addrs (last NDIRECT) ≠ 0 ∧
        s.block ((s.inode i).addrs (last NDIRECT)) ⟨bn - NDIRECT, hind⟩ = b) := by
  obtain ⟨x, hx, hheld⟩ := h
  rw [State.held_slot, hl.current_eq, holds_eq_some] at hheld
  obtain ⟨_, haddr, hb⟩ := hheld
  refine ⟨hb, ?_⟩
  unfold slotOf at hx
  split at hx
  · rename_i hbn
    cases hx
    exact .inl ⟨hbn, haddr⟩
  · rename_i hbn
    split at hx
    · rename_i hind
      cases hx
      simp only [Dinode.addrAt] at haddr
      have hne : (s.inode i).addrs (last NDIRECT) ≠ 0 := by
        intro hzero
        rw [if_pos hzero] at haddr
        exact hb haddr.symm
      rw [if_neg hne] at haddr
      exact .inr ⟨hbn, hind, hne, haddr⟩
    · cases hx

variable {E : Panic → Prop}

/-- `bmap` finds a block that is there, and changes nothing. -/
theorem State.Maps.wp_bmap (h : s.Maps i bn b) (hl : s.Locked i) :
    wp (bmap i bn) (fun a t => a = b ∧ t = s) E s := by
  obtain ⟨hb, ⟨hbn, rfl⟩ | ⟨hbn, hind, hne, rfl⟩⟩ := h.found hl
  · rw [bmap, dif_pos hbn, addrOf, wp_bind, wp_get, wp_ite, if_pos hb]
    exact ⟨rfl, rfl⟩
  · rw [bmap, dif_neg hbn, dif_pos hind, bmapIndirect, wp_bind, addrOf, wp_bind, wp_get, wp_ite,
      if_pos hne, wp_pure, wp_ite, if_neg hne, wp_bind, wp_get, wp_ite, if_pos hb]
    exact ⟨rfl, rfl⟩

/-! ### `writei` and `readi` -/

/-- The contents of a file's blocks do not matter. -/
theorem Ok.write (h : Ok (some i) s) (hm : s.Maps i bn b) (w : Block) :
    Ok (some i) { s with block := update s.block b w } ∧
      Grew i s { s with block := update s.block b w } := by
  obtain ⟨x, hx, hheld⟩ := hm
  have hsame : State.held { s with block := update s.block b w } = s.held := by
    refine holdings_write fun j hj heq => ?_
    have hb := (Dinode.holds_eq_some.mp hheld).2.2
    have hother : s.held (.slot j .indirect) = some b := Dinode.holds_eq_some.mpr ⟨hj, heq, hb⟩
    have hplace := h.owned.unique _ _ b hheld hother
    exact slotOf_ne_indirect hx (Place.slot.inj hplace).2
  have hg : Grew i s { s with block := update s.block b w } :=
    ⟨rfl, rfl, rfl, rfl, rfl, fun _ _ => rfl, rfl, rfl, fun p c hp => by rw [hsame]; exact hp⟩
  refine ⟨h.grow hg ?_, hg⟩
  rw [hsame]
  exact h.owned

/-- The block at `off` is there, and with it all up to the next block. -/
theorem State.Full.extend {off m : ℕ} (h : s.Full i off) (hm : s.Maps i (off / BSIZE) b)
    (hle : m ≤ BSIZE - off % BSIZE) : s.Full i (off + m) := by
  intro bn hbn
  have hpos : 0 < BSIZE := by decide
  have hdiv := Nat.div_add_mod off BSIZE
  by_cases hlt : bn < off / BSIZE
  · refine h bn ?_
    calc bn * BSIZE < (bn + 1) * BSIZE := by rw [Nat.add_mul]; omega
      _ ≤ off / BSIZE * BSIZE := Nat.mul_le_mul_right _ hlt
      _ ≤ off := Nat.div_mul_le_self off BSIZE
  · have hmod := Nat.mod_lt off hpos
    have hle' : bn ≤ off / BSIZE := by
      by_contra hgt
      have : (off / BSIZE + 1) * BSIZE ≤ bn * BSIZE := Nat.mul_le_mul_right _ (by omega)
      rw [Nat.add_mul, Nat.mul_comm (off / BSIZE)] at this
      omega
    obtain rfl : bn = off / BSIZE := by omega
    exact ⟨b, hm⟩

/-- However the loop ends, the bytes up to `off` have blocks. -/
theorem Ok.wp_writeLoop (n : ℕ) (src : ℕ → Copyin) (fuel : ℕ) {tot off : ℕ} (h : Ok (some i) s)
    (hl : s.Locked i) (hfull : s.Full i off) :
    wp (writeLoop i n src fuel tot off) (fun r t => Ok (some i) t ∧ Grew i s t ∧ t.Full i r.2)
      NotBfree s := by
  induction fuel generalizing s tot off with
  | zero => exact ⟨h, .refl i s, hfull⟩
  | succ fuel ih =>
    unfold writeLoop
    split
    · refine (h.wp_bmap hl _).bind ?_
      rintro a t ⟨ht, hg, hmaps⟩
      split
      · exact ⟨ht, hg, hg.full hfull⟩
      · rename_i ha
        have hmaps := hmaps ha
        obtain ⟨hu, hgu⟩ := ht.write hmaps ((src tot).change (t.block a))
        have hg := hg.trans hgu
        rw [wp_bind, modifyBlock, wp_modify]
        split
        · exact ⟨hu, hg, hg.full hfull⟩
        · rw [wp_bind]
          apply wp_logWrite
          refine (ih hu (hg.locked.mpr hl) ?_).post ?_
          · exact (hg.full hfull).extend (hgu.maps hmaps) (Nat.min_le_right _ _)
          · rintro r v ⟨hv, hgv, hfv⟩
            exact ⟨hv, hg.trans hgv, hfv⟩
    · exact ⟨h, .refl i s, hfull⟩

theorem Ok.begin (h : Ok none s) : Ok (some i) s :=
  ⟨h.owned, h.boot, h.full, fun j _ => h.synced j (by simp), h.used⟩

theorem State.Full.congr {n : ℕ} (hheld : t.held = s.held) (h : s.Full i n) : t.Full i n := by
  unfold State.Full State.Maps
  rw [hheld]
  exact h

/-- A change that leaves the places alone. -/
theorem Ok.of_held (h : Ok busy s) (hheld : t.held = s.held) (hbitmap : t.bitmap = s.bitmap)
    (hsize : t.size = s.size) (hnmeta : t.nmeta = s.nmeta)
    (hfull : ∀ j, (t.current j).type ≠ .free → s.Full j (t.current j).size)
    (hsynced : ∀ j, t.Locked j → t.inode j = t.dinode j)
    (hused : ∀ j, t.Locked j → (t.inode j).type ≠ .free) : Ok none t where
  owned := by
    rw [hheld, hbitmap, hsize]
    exact h.owned
  boot := by
    rw [hnmeta]
    exact h.boot
  full j hj := (hfull j hj).congr hheld
  synced j _ := hsynced j
  used := hused

/-- An inode may be replaced by one with the same places. -/
theorem holdings_replace (h : ∀ x, d.holds block x = (table i).holds block x) :
    holdings nmeta (update table i d) block = holdings nmeta table block := by
  funext p
  cases p with
  | layout c => rfl
  | slot j x =>
    rw [holdings_update]
    by_cases hj : j = i
    · subst hj
      exact (if_pos rfl).trans (h x)
    · exact if_neg hj

theorem Dinode.holds_of_addrs {d' : Dinode} (htype : d'.type = d.type) (haddrs : d'.addrs = d.addrs) :
    d'.holds block x = d.holds block x := by
  refine holds_congr htype ?_
  cases x <;> simp only [Dinode.addrAt, haddrs]

/-- An inode and its copy on disk are replaced. -/
theorem State.current_replace (s : State) (i : ℕ) (d' d : Dinode) :
    State.current { s with inode := update s.inode i d', dinode := update s.dinode i d } =
      update s.current i (if s.Locked i then d' else d) := by
  funext j
  change (if s.Locked j then update s.inode i d' j else update s.dinode i d j) = _
  by_cases hj : j = i
  · subst hj
    rw [update_self, update_self, update_self]
  · rw [update_of_ne hj, update_of_ne hj, update_of_ne hj]
    rfl

/-- The inode is written back with a new size or link count. -/
theorem Ok.commit (h : Ok (some i) s) (hl : s.Locked i) (htype : d.type = (s.inode i).type)
    (haddrs : d.addrs = (s.inode i).addrs) (hfull : s.Full i d.size) :
    Ok none { s with inode := update s.inode i d, dinode := update s.dinode i d } := by
  have hcur := s.current_replace i d d
  rw [ite_self] at hcur
  refine h.of_held ?_ rfl rfl rfl (fun j hj => ?_) (fun j hj => ?_) fun j hj => ?_
  · rw [State.held, hcur]
    refine holdings_replace fun x => ?_
    rw [hl.current_eq]
    exact Dinode.holds_of_addrs htype haddrs
  · rw [hcur] at hj ⊢
    by_cases hji : j = i
    · subst hji
      rw [update_self]
      exact hfull
    · rw [update_of_ne hji] at hj ⊢
      exact h.full j hj
  · change update s.inode i d j = update s.dinode i d j
    by_cases hji : j = i
    · subst hji
      rw [update_self, update_self]
    · rw [update_of_ne hji, update_of_ne hji]
      exact h.synced j (fun heq => hji (Option.some.inj heq).symm) hj
  · have hused := h.used j hj
    rwa [update_same Dinode.type htype]

theorem Ok.full_size (h : Ok busy s) (hl : s.Locked i) : s.Full i (s.inode i).size := by
  have hfull := h.full i (by rw [hl.current_eq]; exact h.used i hl)
  rwa [hl.current_eq] at hfull

/-- `modifyInode` and then `iupdate`. -/
theorem wp_save {f : Dinode → Dinode} {Q : Unit → State → Prop}
    (h : Q () { s with
      inode := update s.inode i (f (s.inode i)), dinode := update s.dinode i (f (s.inode i)) }) :
    wp (modifyInode i f) (fun _ t => wp (iupdate i) Q NotBfree t) NotBfree s := by
  rw [modifyInode, wp_modify, iupdate, wp_bind, wp_modify]
  apply wp_logWrite
  dsimp only
  rw [update_self]
  exact h

theorem Ok.wp_commit {f : Dinode → Dinode} {α : Type} (h : Ok (some i) s) (hl : s.Locked i)
    (htype : (f (s.inode i)).type = (s.inode i).type)
    (haddrs : (f (s.inode i)).addrs = (s.inode i).addrs) (hfull : s.Full i (f (s.inode i)).size)
    (r : α) :
    wp (do modifyInode i f; iupdate i; return r) (fun _ t => Ok none t) NotBfree s := by
  have hcommit := h.commit hl htype haddrs hfull
  rw [wp_bind]
  simp only [wp_bind]
  exact wp_save hcommit

theorem Ok.wp_writei (h : Ok none s) (hl : s.Locked i) (src : ℕ → Copyin) (off n : ℕ) :
    wp (writei i src off n) (fun _ t => Ok none t) NotBfree s := by
  have hsize := h.full_size hl
  unfold writei
  rw [wp_bind, wp_get, wp_ite]
  split
  · exact h
  · rename_i hoff
    split
    · exact h
    · rw [wp_bind]
      have hstart : s.Full i off := by
        intro bn hbn
        exact hsize bn (by omega)
      refine (h.begin.wp_writeLoop n src n hl hstart).post ?_
      rintro r t ⟨ht, hg, hfull⟩
      have hlt := hg.locked.mpr hl
      have hd : t.Full i (if (t.inode i).size < r.2 then r.2 else (t.inode i).size) := by
        split
        · exact hfull
        · rw [hg.length]
          exact hg.full hsize
      exact ht.wp_commit hlt rfl rfl hd _

/-- The blocks that the loop of `readi` asks for are there. -/
theorem State.Full.wp_readLoop (n : ℕ) (dst : ℕ → Bool) (fuel : ℕ) {tot off : ℕ}
    (h : s.Full i (off + (n - tot))) (hl : s.Locked i) :
    wp (readLoop i n dst fuel tot off) (fun _ t => t = s) E s := by
  induction fuel generalizing tot off with
  | zero => rfl
  | succ fuel ih =>
    unfold readLoop
    split
    · have hdiv := Nat.div_mul_le_self off BSIZE
      obtain ⟨b, hb⟩ := h (off / BSIZE) (by omega)
      refine (hb.wp_bmap hl).bind ?_
      rintro a t ⟨rfl, rfl⟩
      split
      · rfl
      · split
        · rfl
        · refine ih ?_
          have hrest : off + min (n - tot) (BSIZE - off % BSIZE) +
              (n - (tot + min (n - tot) (BSIZE - off % BSIZE))) = off + (n - tot) := by omega
          rw [hrest]
          exact h
    · rfl

/-- `readi` changes nothing. -/
theorem Ok.wp_readi (h : Ok none s) (hl : s.Locked i) (dst : ℕ → Bool) (off n : ℕ) :
    wp (readi i dst off n) (fun _ t => t = s) E s := by
  have hsize := h.full_size hl
  unfold readi
  rw [wp_bind, wp_get, wp_ite]
  split
  · rfl
  · rename_i hoff
    split
    · refine State.Full.wp_readLoop _ dst _ ?_ hl
      have hend : off + ((s.inode i).size - off - 0) = (s.inode i).size := by omega
      rw [hend]
      exact hsize
    · refine State.Full.wp_readLoop _ dst _ (fun bn hbn => hsize bn ?_) hl
      omega

end Xv6.Blocks
