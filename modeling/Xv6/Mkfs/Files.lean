import Xv6.Mkfs.Append

/-!
The run of `mkfs`.

`Good` is the layout between two calls of `iappend`, when all inodes are on disk. `Made`
says which files are in the image so far: `addFile` adds one to them, and the loop over
the arguments all of them (`wp_addFiles`). `Done` is about the finished image, in which
the size of the root directory has been rounded up.
-/

namespace Xv6.Mkfs

open Function (update update_of_ne update_self update_apply update_eq_self update_idem)
open Buffers (Block Inode encodeInode decodeInode)
open Fs.Names (slash)
open Slots (Owned)
open Wp

variable {E : Failure → Prop} {s t : State} {c : ℕ → List UInt8} {ip : Inode} {i : ℕ}
  {p : List UInt8} {files : List File} {f : File}

/-! ### Inodes -/

theorem lt_of_type_ne (h : (inodes s.img i).type ≠ 0) : i < NINODES := by
  by_contra hi
  rw [inodes, if_neg hi] at h
  exact h rfl

/-- The state after `winode`. -/
def State.writeInode (s : State) (i : ℕ) (ip : Inode) : State :=
  s.write (iblock i) (encodeInode ip (Buffers.dip i) (s.img (iblock i)))

theorem State.writeInode_super (hi : i < NINODES) : (s.writeInode i ip).img 1 = s.img 1 := by
  have hne : 1 ≠ iblock i := Nat.ne_of_lt (iblock_lt hi).1
  simp only [State.writeInode, State.write, update_of_ne hne]

theorem State.inodes_writeInode (s : State) (hi : i < NINODES) (hf : ip.Fits) (j : ℕ) :
    (inodes (s.writeInode i ip).img j).Same (update (inodes s.img) i ip j) := inodes_encode hi hf j

theorem iblock_lt_nsect (hi : i < NINODES) (hn : s.nsect = FSSIZE) : iblock i < s.nsect := by
  have hle : bmapstart ≤ FSSIZE := by decide
  have := (iblock_lt hi).2
  omega

theorem wp_winode {Q : Unit → State → Prop} (hi : i < NINODES) (hn : s.nsect = FSSIZE)
    (h : Q () (s.writeInode i ip)) : wp (winode i ip) Q E s := by
  have hlt := iblock_lt_nsect hi hn
  unfold winode
  rw [wp_bind]
  apply wp_rsect (.inl hlt)
  intro _
  exact wp_wsect hlt h

theorem wp_rinode {Q : Inode → State → Prop} (hi : i < NINODES) (hn : s.nsect = FSSIZE)
    (h : Q (inodes s.img i) s) : wp (rinode i) Q E s := by
  unfold rinode
  rw [wp_bind]
  apply wp_rsect (.inl (iblock_lt_nsect hi hn))
  intro _
  rw [inodes, if_pos hi] at h
  exact h

/-- The layout after `winode`, if it was right with the new inode in place of the old one. -/
theorem Layout.writeInode {free : ℕ} (h : Layout (update (inodes s.img) i ip) s.img free c)
    (hi : i < NINODES) (hf : ip.Fits) :
    Layout (inodes (s.writeInode i ip).img) (s.writeInode i ip).img free c := by
  obtain ⟨hpos, hlt⟩ := iblock_lt hi
  apply (h.write_meta (Nat.lt_trans hlt bmapstart_lt_nmeta) (by omega) _).congr_table
  intro j
  have hsame := s.inodes_writeInode hi hf j
  exact ⟨hsame.type, hsame.addrs⟩

/-! ### Between the calls -/

structure Good (c : ℕ → List UInt8) (s : State) : Prop where
  layout : Layout (inodes s.img) s.img s.freeblock c
  super : s.img 1 = superblock
  nsect : s.nsect = FSSIZE
  le : s.freeblock ≤ FSSIZE
  size : ∀ i, (inodes s.img i).type ≠ 0 → (inodes s.img i).size = (c i).length
  tight : ∀ i, (inodes s.img i).type ≠ 0 → Tight (inodes s.img i) (c i).length

namespace Good

/-- A free inode has no contents. -/
theorem contents_nil (h : Good c s) (hi : (inodes s.img i).type = 0) : c i = [] := by
  by_contra hne
  obtain ⟨b, y, _, hslot⟩ := h.layout.mapped i 0 (List.length_pos_of_ne_nil hne)
  exact (Blocks.Dinode.holds_eq_some.mp hslot).1 (fileType_eq_free.mpr hi)

/-- What `iappend` starts with. -/
theorem appending (h : Good c s) (hi : (inodes s.img i).type ≠ 0) :
    Appending (inodes s.img) i s.freeinode (inodes s.img i) c s where
  layout := by
    rw [update_eq_self]
    exact h.layout
  type := rfl
  inUse := hi
  fits := inodes_fits ..
  table := rfl
  super := h.super
  nsect := h.nsect
  freeinode := rfl

end Good

/-- **Appending to a file.** -/
theorem wp_iappend (h : Good c s) (hi : (inodes s.img i).type ≠ 0)
    (hE : (∀ e, E e) ∨ (c i).length + p.length ≤ NDIRECT * BSIZE ∧
      s.freeblock + blocksFor ((c i).length + p.length) ≤ FSSIZE + blocksFor (c i).length) :
    wp (iappend i p) (fun _ t => Good (update c i (c i ++ p)) t ∧ t.freeinode = s.freeinode ∧
      (∀ j, (inodes t.img j).type = (inodes s.img j).type) ∧
      ((c i).length + p.length ≤ NDIRECT * BSIZE → t.freeblock + blocksFor (c i).length ≤
        s.freeblock + blocksFor ((c i).length + p.length))) E s := by
  have hlt := lt_of_type_ne hi
  unfold iappend
  rw [wp_bind]
  apply wp_rinode hlt h.nsect
  rw [wp_bind, h.size i hi]
  apply (wp_appendLoop (Nat.le_refl _) (h.appending hi) rfl (h.tight i hi) h.le hE).post
  rintro ⟨din, off⟩ t ⟨ht, hoff, htight, hle, hdirect⟩
  apply wp_winode hlt ht.nsect
  -- The inode is written back with its new size.
  have hbound : off < 256 ^ 4 := by
    have hmax := ht.layout.length_le i
    have hfits : MAXFILE * BSIZE < 256 ^ 4 := by decide
    rw [update_self, List.length_append] at hmax
    omega
  have hf : ({ din with size := off } : Inode).Fits := { ht.fits with size := hbound }
  have hlayout : Layout (update (inodes t.img) i { din with size := off }) t.img t.freeblock
      (update c i (c i ++ p)) := by
    apply ht.layout.congr_table
    intro j
    rw [ht.table, update_apply, update_apply]
    split
    · exact ⟨rfl, fun _ _ => rfl⟩
    · exact ⟨rfl, fun _ _ => rfl⟩
  have hsame : ∀ j, (inodes (t.writeInode i { din with size := off }).img j).Same
      (update (inodes s.img) i { din with size := off } j) := by
    intro j
    rw [← ht.table]
    exact t.inodes_writeInode hlt hf j
  have htype : ∀ j, (inodes (t.writeInode i { din with size := off }).img j).type =
      (inodes s.img j).type := by
    intro j
    rw [(hsame j).type, update_apply]
    split
    · rename_i hj
      rw [hj]
      exact ht.type
    · rfl
  refine ⟨?_, ht.freeinode, htype, hdirect⟩
  constructor
  case layout => exact hlayout.writeInode hlt hf
  case super =>
    exact ht.super
  case nsect => exact ht.nsect
  case le => exact hle
  case size =>
    intro j hj
    rw [htype] at hj
    rw [(hsame j).size, update_apply, update_apply]
    split
    · rw [List.length_append]
      exact hoff
    · exact h.size j hj
  case tight =>
    intro j hj k hk
    rw [htype] at hj
    rw [(hsame j).addrs k (Nat.le_of_lt hk), update_apply, update_apply]
    split
    · rw [List.length_append, ← hoff]
      exact htight k hk
    · exact h.tight j hj k hk

/-- **Allocating an inode.** -/
theorem wp_ialloc {type : ℕ} (h : Good c s) (hi : s.freeinode < NINODES)
    (hfree : (inodes s.img s.freeinode).type = 0) (htype : type < 256 ^ 2) :
    wp (ialloc type) (fun i t => i = s.freeinode ∧ Good c t ∧ t.freeinode = s.freeinode + 1 ∧
      t.freeblock = s.freeblock ∧
      ∀ j, (inodes t.img j).type = if j = s.freeinode then type else (inodes s.img j).type) E s := by
  unfold ialloc
  rw [wp_bind, wp_get, wp_bind, wp_modify, wp_bind]
  refine wp_winode hi h.nsect ?_
  have hf : (newInode s.freeinode type).Fits := by
    constructor
    case type => exact htype
    all_goals simp [newInode]
  have hsame : ∀ j, (inodes (s.writeInode s.freeinode (newInode s.freeinode type)).img j).Same
      (update (inodes s.img) s.freeinode (newInode s.freeinode type) j) :=
    fun j => s.inodes_writeInode hi hf j
  have htypes : ∀ j, (inodes (s.writeInode s.freeinode (newInode s.freeinode type)).img j).type =
      if j = s.freeinode then type else (inodes s.img j).type := by
    intro j
    rw [(hsame j).type, update_apply]
    split <;> rfl
  have hold : ∀ {j}, j ≠ s.freeinode →
      (inodes (s.writeInode s.freeinode (newInode s.freeinode type)).img j).type ≠ 0 →
      (inodes s.img j).type ≠ 0 := by
    intro j hj hne h0
    exact hne ((htypes j).trans ((if_neg hj).trans h0))
  refine ⟨rfl, ?_, rfl, rfl, htypes⟩
  constructor
  case layout => exact (h.layout.alloc_inode hfree fun _ => rfl).writeInode hi hf
  case super => exact (State.writeInode_super hi).trans h.super
  case nsect => exact h.nsect
  case le => exact h.le
  case size =>
    intro j hj
    refine (hsame j).size.trans ?_
    rw [update_apply]
    split
    · rename_i hj'
      rw [hj', h.contents_nil hfree]
      rfl
    · rename_i hj'
      exact h.size j (hold hj' hj)
  case tight =>
    intro j hj k hk hne
    have haddr := (hsame j).addrs k (Nat.le_of_lt hk)
    rw [update_apply] at haddr
    split at haddr
    · exact absurd haddr hne
    · rename_i hj'
      exact h.tight j (hold hj' hj) k hk fun h0 => hne (haddr.trans h0)

/-! ### The files in the image -/

/-- The entries of the root directory. -/
def rootNames (files : List File) : List (ℕ × List UInt8) :=
  (ROOTINO, [dot]) :: (ROOTINO, [dot, dot]) :: files.mapIdx fun k f => (k + 2, f.name)

/-- The contents of the root directory, entry by entry. -/
def rootEntries (files : List File) : List (List UInt8) :=
  (rootNames files).map fun e => dirent e.1 e.2

/-- The contents of the inodes. -/
def contentsOf (files : List File) (i : ℕ) : List UInt8 :=
  if i = 0 then []
  else if i = ROOTINO then (rootEntries files).flatten
  else (files[i - 2]?.map File.contents).getD []

/-- The types of the inodes, when there are `n` files. -/
def typeOf (n i : ℕ) : ℕ :=
  if i = 0 then 0 else if i = ROOTINO then T_DIR else if i < n + 2 then T_FILE else 0

/-- The image has the given files. -/
structure Made (files : List File) (s : State) : Prop where
  good : Good (contentsOf files) s
  freeinode : s.freeinode = files.length + 2
  type : ∀ i, (inodes s.img i).type = typeOf files.length i

@[simp] theorem length_dirent (inum : ℕ) (name : List UInt8) : (dirent inum name).length = direntSize := by
  have hlen : ∀ (t : Fs.Names.Mem) (n i : ℕ), (Fs.Names.strncpy t n i).length = n := by
    intro t n
    induction n with
    | zero =>
      intro i
      rfl
    | succ n ih =>
      intro i
      rw [Fs.Names.strncpy]
      split
      · exact List.length_replicate
      · rw [List.length_cons, ih]
  simp only [dirent, List.length_cons, hlen]
  rfl

theorem length_of_mem_rootEntries {e : List UInt8} (h : e ∈ rootEntries files) :
    e.length = direntSize := by
  obtain ⟨e, _, rfl⟩ := List.mem_map.mp h
  exact length_dirent ..

theorem length_flatten_of_forall {l : List (List UInt8)} {w : ℕ} (h : ∀ e ∈ l, e.length = w) :
    l.flatten.length = l.length * w := by
  induction l with
  | nil => simp
  | cons e l ih =>
    rw [List.flatten_cons, List.length_append, ih fun e he => h e (List.mem_cons_of_mem _ he),
      h e List.mem_cons_self, List.length_cons, Nat.add_mul, Nat.one_mul, Nat.add_comm]

theorem length_root (files : List File) :
    (contentsOf files ROOTINO).length = (files.length + 2) * direntSize := by
  have hcontents : contentsOf files ROOTINO = (rootEntries files).flatten := rfl
  rw [hcontents, length_flatten_of_forall fun e he => length_of_mem_rootEntries he]
  simp [rootEntries, rootNames]

/-- One more file. -/
theorem contentsOf_concat (files : List File) (f : File) :
    contentsOf (files ++ [f]) =
      update (update (contentsOf files) ROOTINO
        (contentsOf files ROOTINO ++ dirent (files.length + 2) f.name)) (files.length + 2) f.contents := by
  funext i
  have hne : ROOTINO ≠ files.length + 2 := by
    unfold ROOTINO
    omega
  by_cases hroot : i = ROOTINO
  · subst hroot
    simp [contentsOf, rootEntries, rootNames, ROOTINO, List.mapIdx_concat]
  · by_cases hnew : i = files.length + 2
    · subst hnew
      simp [contentsOf, hroot]
    · rw [update_of_ne hnew, update_of_ne hroot]
      unfold contentsOf
      rw [if_neg hroot, if_neg hroot]
      split
      · rfl
      · congr 2
        unfold ROOTINO at hroot
        rcases Nat.lt_or_ge (i - 2) files.length with hlt | hge
        · rw [List.getElem?_append_left hlt]
        · rw [List.getElem?_eq_none hge, List.getElem?_eq_none (by simp; omega)]

theorem typeOf_succ (n i : ℕ) : typeOf (n + 1) i = if i = n + 2 then T_FILE else typeOf n i := by
  unfold typeOf ROOTINO
  grind

/-! ### The run -/

/-- The loop over the calls of `read`. -/
theorem wp_appendAll {reads : List (List UInt8)} (h : Good c s) (hi : (inodes s.img i).type ≠ 0)
    (hE : (∀ e, E e) ∨ (c i).length + reads.flatten.length ≤ NDIRECT * BSIZE ∧
      s.freeblock + blocksFor ((c i).length + reads.flatten.length) ≤
        FSSIZE + blocksFor (c i).length) :
    wp (appendAll i reads) (fun _ t => Good (update c i (c i ++ reads.flatten)) t ∧
      t.freeinode = s.freeinode ∧ (∀ j, (inodes t.img j).type = (inodes s.img j).type) ∧
      ((c i).length + reads.flatten.length ≤ NDIRECT * BSIZE → t.freeblock + blocksFor (c i).length ≤
        s.freeblock + blocksFor ((c i).length + reads.flatten.length))) E s := by
  induction reads generalizing s c with
  | nil =>
    rw [List.flatten_nil, List.append_nil, update_eq_self]
    exact ⟨h, rfl, fun _ => rfl, fun _ => Nat.le_refl _⟩
  | cons buf rest ih =>
    have hsum : (c i).length + (buf :: rest).flatten.length =
        (c i).length + buf.length + rest.flatten.length := by
      rw [List.flatten_cons, List.length_append, Nat.add_assoc]
    have hmono : blocksFor ((c i).length + buf.length) ≤
        blocksFor ((c i).length + buf.length + rest.flatten.length) :=
      Nat.div_le_div_right (by omega)
    rw [hsum] at hE ⊢
    refine (wp_iappend h hi (hE.imp_right fun hroom => ⟨by omega, by omega⟩)).bind ?_
    rintro _ t ⟨ht, hfree, htype, hgrow⟩
    have hlen : (update c i (c i ++ buf) i).length = (c i).length + buf.length := by
      rw [update_self, List.length_append]
    refine (ih ht (by rw [htype]; exact hi) ?_).post ?_
    · rw [hlen]
      refine hE.imp_right fun hroom => ⟨hroom.1, ?_⟩
      have := hgrow (by omega)
      omega
    · rintro _ u ⟨hu, hfree', htype', hgrow'⟩
      rw [update_self, update_idem, List.append_assoc, ← List.flatten_cons] at hu
      rw [hlen] at hgrow'
      refine ⟨hu, hfree'.trans hfree, fun j => (htype' j).trans (htype j), fun hroom => ?_⟩
      have := hgrow (by omega)
      have := hgrow' hroom
      omega

/-- The blocks that are enough for some more files, with one each for their entries. -/
def cost (files : List File) : ℕ := (files.map fun f => blocksFor f.contents.length + 1).sum

theorem cost_cons (f : File) (files : List File) :
    cost (f :: files) = blocksFor f.contents.length + 1 + cost files := List.sum_cons

/-- What is enough for the files not to fail, when `free` is the next block: they and the `n`
entries of the root directory fit into direct blocks, and there are enough blocks. -/
structure Small (n : ℕ) (files : List File) (free : ℕ) : Prop where
  noSlash : ∀ f ∈ files, slash ∉ f.shortname
  contents : ∀ f ∈ files, f.contents.length ≤ NDIRECT * BSIZE
  root : n * direntSize ≤ NDIRECT * BSIZE
  room : free + cost files ≤ FSSIZE

/-- One entry needs at most one more block. -/
theorem blocksFor_entry (n : ℕ) : blocksFor (n + direntSize) ≤ blocksFor n + 1 := by
  have hBSIZE : BSIZE = 1024 := rfl
  have hentry : direntSize = 16 := rfl
  unfold blocksFor
  rw [hBSIZE, hentry]
  omega

/-- **Adding a file.** -/
theorem wp_addFile {n : ℕ} {rest : List File} (h : Made files s) (hnum : files.length + 2 < NINODES)
    (hn : files.length + 3 ≤ n) (hE : (∀ e, E e) ∨ Small n (f :: rest) s.freeblock) :
    wp (addFile ROOTINO f) (fun _ t => Made (files ++ [f]) t ∧ slash ∉ f.shortname ∧
      (Small n (f :: rest) s.freeblock → Small n rest t.freeblock)) E s := by
  have hfreeType : (inodes s.img s.freeinode).type = 0 := by
    rw [h.freeinode, h.type]
    unfold typeOf ROOTINO
    grind
  have hne : files.length + 2 ≠ ROOTINO := by
    unfold ROOTINO
    omega
  -- The entries of the root directory with the new one.
  have hsum : (files.length + 3) * direntSize = (files.length + 2) * direntSize + direntSize :=
    Nat.succ_mul (files.length + 2) direntSize
  have hentry := blocksFor_entry ((files.length + 2) * direntSize)
  have hfits : Small n (f :: rest) s.freeblock →
      (files.length + 2) * direntSize + direntSize ≤ NDIRECT * BSIZE := by
    intro hsmall
    rw [← hsum]
    exact Nat.le_trans (Nat.mul_le_mul_right _ hn) hsmall.root
  have hroom : Small n (f :: rest) s.freeblock →
      s.freeblock + (blocksFor f.contents.length + 1 + cost rest) ≤ FSSIZE := by
    intro hsmall
    rw [← cost_cons]
    exact hsmall.room
  have hcontents : Small n (f :: rest) s.freeblock → f.contents.length ≤ NDIRECT * BSIZE :=
    fun hsmall => hsmall.contents f List.mem_cons_self
  unfold addFile
  rw [wp_bind]
  apply wp_assert
  · rcases hE with hE | hsmall
    · exact .inr (hE _)
    · exact .inl (hsmall.noSlash f List.mem_cons_self)
  intro hslash
  apply (wp_ialloc h.good (by rw [h.freeinode]; exact hnum) hfreeType (by decide)).bind
  rintro i t ⟨rfl, ht, htfree, htblock, httype⟩
  rw [h.freeinode] at httype ⊢
  have htroot : (inodes t.img ROOTINO).type ≠ 0 := by
    rw [httype, if_neg hne.symm, h.type]
    exact Nat.one_ne_zero
  refine (wp_iappend ht htroot ?_).bind ?_
  · rw [length_root, length_dirent, htblock]
    refine hE.imp_right fun hsmall => ⟨hfits hsmall, ?_⟩
    have := hroom hsmall
    omega
  · rintro _ u ⟨hu, hufree, hutype, hublock⟩
    rw [length_root, length_dirent, htblock] at hublock
    have hufile : (inodes u.img (files.length + 2)).type = T_FILE := by
      rw [hutype, httype, if_pos rfl]
    -- The new inode was empty before.
    have hnil : update (contentsOf files) ROOTINO (contentsOf files ROOTINO ++
        dirent (files.length + 2) f.name) (files.length + 2) = [] := by
      rw [update_of_ne hne, ← h.freeinode]
      exact h.good.contents_nil hfreeType
    have hzero : blocksFor 0 = 0 := rfl
    refine (wp_appendAll hu (by rw [hufile]; decide) ?_).post ?_
    · rw [hnil, List.length_nil, Nat.zero_add]
      refine hE.imp_right fun hsmall => ⟨hcontents hsmall, ?_⟩
      have := hublock (hfits hsmall)
      have hroom := hroom hsmall
      unfold File.contents at hroom
      omega
    · rintro _ v ⟨hv, hvfree, hvtype, hvblock⟩
      rw [hnil, List.length_nil, Nat.zero_add] at hvblock
      rw [hnil, List.nil_append] at hv
      refine ⟨⟨?_, ?_, ?_⟩, hslash, ?_⟩
      · rw [contentsOf_concat]
        exact hv
      · rw [hvfree, hufree, htfree, h.freeinode, List.length_append, List.length_singleton]
      · intro j
        rw [hvtype, hutype, httype, h.type, List.length_append, List.length_singleton, typeOf_succ]
      · intro hsmall
        have := hublock (hfits hsmall)
        have := hvblock (hcontents hsmall)
        have hroom := hroom hsmall
        unfold File.contents at hroom
        exact ⟨fun g hg => hsmall.noSlash g (List.mem_cons_of_mem _ hg),
          fun g hg => hsmall.contents g (List.mem_cons_of_mem _ hg), hsmall.root, by omega⟩

/-- **The loop over the files.** -/
theorem wp_addFiles {n : ℕ} {rest : List File} (h : Made files s)
    (hnum : (files ++ rest).length + 2 ≤ NINODES) (hn : n = (files ++ rest).length + 2)
    (hE : (∀ e, E e) ∨ Small n rest s.freeblock) :
    wp (addFiles ROOTINO rest) (fun _ t => Made (files ++ rest) t ∧
      ∀ f ∈ rest, slash ∉ f.shortname) E s := by
  induction rest generalizing files s with
  | nil =>
    rw [List.append_nil]
    exact ⟨h, fun f hf => absurd hf List.not_mem_nil⟩
  | cons f rest ih =>
    have hsplit : files ++ f :: rest = files ++ [f] ++ rest := by simp
    have hlen : (files ++ f :: rest).length = files.length + (rest.length + 1) := by simp
    apply (wp_addFile h (by omega) (by omega) hE).bind
    rintro _ t ⟨ht, hslash, hone⟩
    rw [hsplit] at hnum hn ⊢
    apply (ih ht hnum hn (hE.imp_right hone)).post
    rintro _ u ⟨hu, hslash'⟩
    exact ⟨hu, List.forall_mem_cons.mpr ⟨hslash, hslash'⟩⟩

/-! ### The whole program -/

theorem wp_zeroes {Q : Unit → State → Prop} (n : ℕ) (h : Q () { start with nsect := n }) :
    wp (zeroes n) Q E start := by
  induction n generalizing Q with
  | zero =>
    rw [zeroes_zero]
    exact h
  | succ n ih =>
    rw [zeroes_succ, wp_bind]
    apply ih
    have hmax : max n (n + 1) = n + 1 := Nat.max_eq_right (Nat.le_succ n)
    have hzero : update (fun _ : ℕ => Block.zero) n Block.zero = fun _ => Block.zero :=
      update_eq_self n _
    change Q () { start with img := update (fun _ => Block.zero) n Block.zero, nsect := max n (n + 1) }
    rw [hmax, hzero]
    exact h

/-- The state before the root directory is made. -/
def formatted : State := { start with nsect := FSSIZE }.write 1 superblock

theorem formatted_img : formatted.img = update (fun _ => Block.zero) 1 superblock := rfl

theorem formatted_free (i : ℕ) : (inodes formatted.img i).type = 0 := by
  unfold inodes
  split
  · rename_i hi
    have hne : iblock i ≠ 1 := Nat.ne_of_gt (iblock_lt hi).1
    exact Block.number_zero ..
  · rfl

theorem formatted_good : Good (fun _ => []) formatted where
  layout := by
    have hslot : ∀ i y, held (inodes formatted.img) formatted.img (.slot i y) = none :=
      fun i y => if_pos (.inl (fileType_eq_free.mpr (formatted_free i)))
    have hheld : ∀ p b, held (inodes formatted.img) formatted.img p = some b →
        p = .layout b ∧ b < nmeta := by
      intro p b hp
      cases p with
      | layout c =>
        change (if c < nmeta then some c else none) = some b at hp
        rw [Option.ite_none_right_eq_some] at hp
        obtain ⟨hlt, hc⟩ := hp
        cases hc
        exact ⟨rfl, hlt⟩
      | slot i y => cases (hslot i y).symm.trans hp
    constructor
    case owned =>
      constructor
      case unique =>
        intro p q b hp hq
        rw [(hheld p b hp).1, (hheld q b hq).1]
      case used_iff =>
        intro b _
        rw [decide_eq_true_eq]
        constructor
        · intro hb
          exact ⟨.layout b, held_layout hb⟩
        · rintro ⟨p, hp⟩
          exact (hheld p b hp).2
      case pool => exact fun _ _ _ => trivial
    case zero =>
      intro b hb
      have hmeta : 1 < nmeta := by decide
      have hb' : nmeta ≤ b := hb
      rw [formatted_img, update_of_ne (by omega)]
    case mapped =>
      intro i k hk
      exact absurd hk (Nat.not_lt_zero k)
    case bytes =>
      rintro i bn b ⟨y, _, hslot'⟩
      cases (hslot i y).symm.trans hslot'
  super := by rw [formatted_img, update_self]
  nsect := rfl
  le := by decide
  size i hi := absurd (formatted_free i) hi
  tight i hi := absurd (formatted_free i) hi

/-- The image with all files, in which the size of the root directory has been fixed. -/
structure Rounded (files : List File) (free : ℕ) (img : ℕ → Block) : Prop where
  layout : Layout (inodes img) img free (contentsOf files)
  super : img 1 = superblock
  le : free ≤ FSSIZE
  type : ∀ i, (inodes img i).type = typeOf files.length i
  size : ∀ i, i ≠ ROOTINO → (inodes img i).type ≠ 0 → (inodes img i).size = (contentsOf files i).length
  rootSize : (inodes img ROOTINO).size = ((files.length + 2) * direntSize / BSIZE + 1) * BSIZE
  tight : Tight (inodes img ROOTINO) ((files.length + 2) * direntSize)

/-- The finished image. -/
structure Done (files : List File) (free : ℕ) (img : ℕ → Block) : Prop extends
    Rounded files free img where
  bitmap : img bmapstart = markUsed free
  noSlash : ∀ f ∈ files, slash ∉ f.shortname
  num : files.length + 2 ≤ NINODES

/-- The root directory, before there are files. -/
theorem wp_root (h : Good (fun _ => []) s) (hfree : s.freeinode = 2) (hblock : s.freeblock = nmeta)
    (htype : ∀ i, (inodes s.img i).type = typeOf 0 i) :
    wp (iappend ROOTINO (dirent ROOTINO [dot]) >>= fun _ => iappend ROOTINO (dirent ROOTINO [dot, dot]))
      (fun _ t => Made [] t ∧ t.freeblock ≤ nmeta + 1) E s := by
  have hroot : ∀ {t : State}, (∀ i, (inodes t.img i).type = typeOf 0 i) → (inodes t.img ROOTINO).type ≠ 0 := by
    intro t ht
    rw [ht]
    decide
  have hlen : ∀ name, (dirent ROOTINO name).length = 16 := fun name => length_dirent ROOTINO name
  refine (wp_iappend h (hroot htype) (.inr ?_)).bind ?_
  · rw [hlen, hblock, List.length_nil]
    decide
  · rintro _ t ⟨ht, htfree, httype, htblock⟩
    have httype' : ∀ i, (inodes t.img i).type = typeOf 0 i := fun i => (httype i).trans (htype i)
    rw [hlen, hblock, List.length_nil] at htblock
    have hle : t.freeblock ≤ nmeta + 1 := htblock (by decide)
    have hroom : nmeta + 1 ≤ FSSIZE := by decide
    refine (wp_iappend ht (hroot httype') (.inr ?_)).post ?_
    · refine ⟨by decide, ?_⟩
      change t.freeblock + 1 ≤ FSSIZE + 1
      omega
    · rintro _ u ⟨hu, hufree, hutype, hublock⟩
      have hle' : u.freeblock + 1 ≤ t.freeblock + 1 := hublock (by decide)
      have hcontents : update (update (fun _ => []) ROOTINO ([] ++ dirent ROOTINO [dot])) ROOTINO
          (update (fun _ => []) ROOTINO ([] ++ dirent ROOTINO [dot]) ROOTINO ++
            dirent ROOTINO [dot, dot]) = contentsOf [] := by
        funext i
        unfold contentsOf
        by_cases hi : i = ROOTINO
        · subst hi
          simp [rootEntries, rootNames, ROOTINO]
        · simp [hi]
      rw [hcontents] at hu
      refine ⟨⟨hu, ?_, fun i => (hutype i).trans (httype' i)⟩, ?_⟩
      · rw [hufree, htfree, hfree]
        rfl
      · omega

theorem Made.type_root (h : Made files s) : (inodes s.img ROOTINO).type ≠ 0 := by
  rw [h.type]
  exact Nat.one_ne_zero

/-- The root inode is written back with another size. -/
theorem Made.rounded (h : Made files s) (hf : ip.Fits) (htype : ip.type = (inodes s.img ROOTINO).type)
    (haddrs : ip.addrs = (inodes s.img ROOTINO).addrs)
    (hsize : ip.size = ((files.length + 2) * direntSize / BSIZE + 1) * BSIZE) :
    Rounded files s.freeblock (s.writeInode ROOTINO ip).img := by
  have hlt : ROOTINO < NINODES := by decide
  have hsame := s.inodes_writeInode hlt hf
  have htypes : ∀ i, (inodes (s.writeInode ROOTINO ip).img i).type = (inodes s.img i).type := by
    intro i
    rw [(hsame i).type, update_apply]
    split
    · rename_i hi
      rw [hi, htype]
    · rfl
  constructor
  case layout =>
    refine Layout.writeInode (h.good.layout.congr_table fun j => ?_) hlt hf
    rw [update_apply]
    split
    · rename_i hj
      rw [hj, haddrs]
      exact ⟨htype, fun _ _ => rfl⟩
    · exact ⟨rfl, fun _ _ => rfl⟩
  case super => exact (State.writeInode_super hlt).trans h.good.super
  case le => exact h.good.le
  case type =>
    intro i
    rw [htypes]
    exact h.type i
  case size =>
    intro i hi htype'
    rw [htypes] at htype'
    rw [(hsame i).size, update_of_ne hi]
    exact h.good.size i htype'
  case rootSize =>
    rw [(hsame ROOTINO).size, update_self]
    exact hsize
  case tight =>
    intro k hk
    rw [(hsame ROOTINO).addrs k (Nat.le_of_lt hk), update_self, haddrs, ← length_root]
    exact h.good.tight ROOTINO h.type_root k hk

theorem wp_fixRoot (h : Made files s) :
    wp (fixRoot ROOTINO) (fun _ t => Rounded files t.freeblock t.img ∧ t.nsect = FSSIZE) E s := by
  have hlt : ROOTINO < NINODES := by decide
  have hsize : (inodes s.img ROOTINO).size = (files.length + 2) * direntSize :=
    (h.good.size ROOTINO h.type_root).trans (length_root files)
  unfold fixRoot
  rw [wp_bind]
  apply wp_rinode hlt h.good.nsect
  apply wp_winode hlt h.good.nsect
  refine ⟨h.rounded ?_ rfl rfl (by rw [hsize]), h.good.nsect⟩
  refine { inodes_fits s.img ROOTINO with size := ?_ }
  -- The rounded size still fits.
  have hmax := h.good.layout.length_le ROOTINO
  have hround := Nat.div_mul_le_self ((files.length + 2) * direntSize) BSIZE
  have hfits : MAXFILE * BSIZE + BSIZE < 256 ^ 4 := by decide
  rw [length_root] at hmax
  dsimp only
  rw [hsize, Nat.add_mul, Nat.one_mul]
  omega

/-- The free map is written. -/
theorem Rounded.writeBitmap {free : ℕ} {img : ℕ → Block} (h : Rounded files free img) (d : Block) :
    Rounded files free (update img bmapstart d) := by
  have hinodes : inodes (update img bmapstart d) = inodes img :=
    inodes_congr fun b hb => update_of_ne (Nat.ne_of_lt hb) ..
  have hne : (1 : ℕ) ≠ bmapstart := by decide
  constructor
  case layout =>
    rw [hinodes]
    exact h.layout.write_meta bmapstart_lt_nmeta (by decide) d
  case super =>
    exact h.super
  case le => exact h.le
  case type =>
    rw [hinodes]
    exact h.type
  case size =>
    rw [hinodes]
    exact h.size
  case rootSize =>
    exact h.rootSize
  case tight =>
    rw [hinodes]
    exact h.tight

/-- The end of `mkfs`. -/
theorem wp_finish (h : Made files s) (hslash : ∀ f ∈ files, slash ∉ f.shortname)
    (hnum : files.length + 2 ≤ NINODES) :
    wp (fixRoot ROOTINO >>= fun _ => get >>= fun s => balloc s.freeblock)
      (fun _ t => Done files t.freeblock t.img) E s := by
  apply (wp_fixRoot h).bind
  rintro _ t ⟨ht, hnsect⟩
  rw [wp_bind, wp_get]
  unfold balloc
  rw [wp_bind]
  apply wp_assert
  · have hsize : FSSIZE < BSIZE * 8 := by decide
    exact .inl (Nat.lt_of_le_of_lt ht.le hsize)
  intro _
  have hsize : bmapstart < FSSIZE := by decide
  apply wp_wsect (by omega)
  refine ⟨ht.writeBitmap _, ?_, hslash, hnum⟩
  simp only [State.write, update_self]

/-- **The image that `mkfs` makes.** -/
theorem wp_main (hnum : files.length + 2 ≤ NINODES)
    (hE : (∀ e, E e) ∨ Small (files.length + 2) files (nmeta + 1)) :
    wp (main files) (fun _ t => Done files t.freeblock t.img) E start := by
  unfold main
  rw [wp_bind]
  apply wp_zeroes
  rw [wp_bind]
  refine wp_wsect (by decide) ?_
  have hfree : formatted.freeinode = ROOTINO := rfl
  apply (wp_ialloc formatted_good (by decide) (formatted_free _) (by decide)).bind
  rintro i t ⟨rfl, ht, htfree, htblock, httype⟩
  rw [hfree] at httype ⊢
  rw [wp_bind]
  apply wp_assert (.inl rfl)
  intro _
  have httype' : ∀ i, (inodes t.img i).type = typeOf 0 i := by
    intro i
    rw [httype, formatted_free]
    unfold typeOf ROOTINO
    grind
  have hroot := wp_root (E := E) ht htfree htblock httype'
  rw [wp_bind] at hroot
  rw [wp_bind]
  apply hroot.post
  intro _ u hu
  rw [wp_bind]
  apply hu.post
  rintro _ v ⟨hv, hvblock⟩
  refine (wp_addFiles hv (by simpa using hnum) rfl ?_).bind ?_
  · refine hE.imp_right fun hsmall => ?_
    have hroom := hsmall.room
    rw [List.nil_append]
    exact ⟨hsmall.noSlash, hsmall.contents, hsmall.root, by omega⟩
  · rintro _ w ⟨hw, hslash⟩
    exact wp_finish hw hslash hnum

end Xv6.Mkfs
