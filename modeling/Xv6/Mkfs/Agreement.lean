import Mathlib.Data.List.TakeWhile
import Xv6.Mkfs.Files

/-!
`mkfs` and the kernel.

* `image_agrees_iff`: the kernel finds the files in the image, with their contents, and no inode
  has a hole, no block is referred to twice, and the free map has the blocks in use, exactly
  unless the entries of the root directory fill its blocks or a file has a name that stands for
  the root directory itself (and other contents).
* `sixty_two_files`: with 62 files there are 64 entries, which fill one block, and rounding up
  the size of the root directory makes a hole in it.
-/

namespace Xv6.Mkfs

open Function (update update_self update_of_ne)
open Buffers (Block Inode)
open Blocks (slotOf)
open Fs.Names (Mem cstr strncpy slash skipelem setName namecmp)

variable {table : ℕ → Inode} {img : ℕ → Block} {free i bn b b' : ℕ} {c : ℕ → List UInt8}
  {files : List File} {f : File}

/-! ### Where things are -/

theorem readsb_eq (h : img 1 = superblock) : (readsb img).inodestart = inodestart ∧
    (readsb img).bmapstart = bmapstart ∧ (readsb img).size = FSSIZE ∧ (readsb img).ninodes = NINODES := by
  simp only [readsb, h]
  decide +kernel

theorem dinode_eq (h : img 1 = superblock) (hi : i < NINODES) : dinode img i = inodes img i := by
  rw [dinode, (readsb_eq h).1, inodes, if_pos hi]
  rfl

/-- The bits of the free map. -/
theorem bit_markUsed {n : ℕ} (hn : n ≤ Buffers.BPB) (b : ℕ) : (markUsed n).bit b = decide (b < n) := by
  induction n with
  | zero => simp [markUsed]
  | succ n ih =>
    rw [markUsed, Block.bit_setBit (by omega), ih (by omega), Bool.eq_iff_iff]
    simp only [Bool.or_eq_true, decide_eq_true_eq]
    omega

/-! ### Reading -/

theorem ok_bind {α β : Type} (a : α) (g : α → Except Trouble β) : (Except.ok a >>= g) = g a := rfl

theorem Maps.unique (h : Maps table img i bn b) (h' : Maps table img i bn b') : b = b' := by
  obtain ⟨x, hx, hb⟩ := h
  obtain ⟨y, hy, hb'⟩ := h'
  cases hx.symm.trans hy
  cases hb.symm.trans hb'
  rfl

theorem bmap_eq (h : Maps table img i bn b) : bmap img (table i) bn = .ok b := by
  obtain ⟨x, hx, hslot⟩ := h
  obtain ⟨_, haddr, hb⟩ := Blocks.Dinode.holds_eq_some.mp hslot
  unfold slotOf at hx
  unfold bmap
  split at hx
  · rename_i hlt
    cases hx
    rw [if_pos hlt]
    have haddr' : (table i).addrs bn = b := haddr
    rw [present, haddr', if_neg hb]
  · rename_i hlt
    split at hx
    · rename_i hlt'
      cases hx
      have haddr' : (if (table i).addrs NDIRECT = 0 then 0
          else (img ((table i).addrs NDIRECT)).entry (bn - NDIRECT)) = b := haddr
      have hind : (table i).addrs NDIRECT ≠ 0 := by
        intro h0
        rw [if_pos h0] at haddr'
        exact hb haddr'.symm
      rw [if_neg hind] at haddr'
      rw [if_neg hlt, if_pos hlt', present, if_neg hind, ok_bind, present, haddr', if_neg hb]
    · cases hx

/-- The part of a file that is in one block. -/
theorem bytesOf_eq {off m : ℕ} (h : Layout table img free c) (hb : Maps table img i (off / BSIZE) b)
    (hm : m ≤ BSIZE - off % BSIZE) (hlen : off + m ≤ (c i).length) :
    bytesOf (img b) (off % BSIZE) m = ((c i).drop off).take m := by
  apply List.ext_getElem
  · simp only [bytesOf, List.length_map, List.length_range, List.length_take, List.length_drop]
    omega
  · intro k hk hk'
    simp only [bytesOf, List.length_map, List.length_range] at hk
    have hdiv := Nat.div_add_mod off BSIZE
    have hquot : (off + k) / BSIZE = off / BSIZE := by
      apply Nat.div_eq_of_lt_le
      · rw [Nat.mul_comm]
        omega
      · rw [Nat.add_mul, Nat.mul_comm]
        omega
    have hmod : (off + k) % BSIZE = off % BSIZE + k := by
      have hk'' := Nat.div_add_mod (off + k) BSIZE
      rw [hquot] at hk''
      omega
    obtain ⟨b', hb', hbyte⟩ := h.data i (off + k) (by omega)
    rw [hquot] at hb'
    cases hb.unique hb'
    rw [hmod, List.getD_eq_getElem _ _ (by omega)] at hbyte
    simp only [bytesOf, List.getElem_map, List.getElem_range, List.getElem_take, List.getElem_drop]
    exact hbyte

/-- **The loop of `readi`** reads the contents. -/
theorem readLoop_eq {fuel n off : ℕ} (h : Layout table img free c) (hn : n ≤ fuel)
    (hlen : off + n ≤ (c i).length) :
    readLoop img (table i) fuel n off = .ok (((c i).drop off).take n) := by
  induction fuel generalizing n off with
  | zero =>
    rw [Nat.le_zero.mp hn, List.take_zero]
    rfl
  | succ fuel ih =>
    unfold readLoop
    by_cases hpos : 0 < n
    · have hmod := Nat.mod_lt off (show 0 < BSIZE by decide)
      obtain ⟨m, hm⟩ : ∃ m, m = min n (BSIZE - off % BSIZE) := ⟨_, rfl⟩
      obtain ⟨b, hb⟩ := h.mapped i off (by omega)
      have hrest : readLoop img (table i) fuel (n - m) (off + m) =
          .ok (((c i).drop (off + m)).take (n - m)) := ih (by omega) (by omega)
      have hsplit : ((c i).drop off).take n =
          ((c i).drop off).take m ++ ((c i).drop (off + m)).take (n - m) := by
        rw [← List.drop_drop, ← List.take_add]
        congr 1
        omega
      rw [if_pos hpos, bmap_eq hb, ok_bind, ← hm]
      dsimp only
      rw [hrest, ok_bind, hsplit, bytesOf_eq h hb (by omega) (by omega)]
    · rw [if_neg hpos, Nat.eq_zero_of_not_pos hpos, List.take_zero]

theorem readi_eq {off n : ℕ} (h : Layout table img free c) (hsize : (c i).length ≤ (table i).size)
    (hlen : off + n ≤ (c i).length) :
    readi img (table i) off n = .ok (((c i).drop off).take n) := by
  have hmax := h.length_le i
  have hfits : MAXFILE * BSIZE < 2 ^ 32 := by decide
  unfold readi
  rw [if_neg (by rw [Nat.mod_eq_of_lt (by omega)]; omega)]
  rw [if_neg (by omega)]
  exact readLoop_eq h (Nat.le_refl n) hlen

/-! ### Looking up -/

theorem direntInum_dirent {inum : ℕ} (h : inum < 65536) (name : List UInt8) :
    direntInum (dirent inum name) = inum := by
  have h0 : cstr (dirent inum name) 0 = UInt8.ofNat inum := rfl
  have h1 : cstr (dirent inum name) 1 = UInt8.ofNat (inum / 256) := rfl
  rw [direntInum, h0, h1, UInt8.toNat_ofNat', UInt8.toNat_ofNat']
  omega

/-- An entry of the root directory. -/
theorem slice_flatten {w : ℕ} {l : List (List UInt8)} (h : ∀ e ∈ l, e.length = w) {m : ℕ}
    (hm : m < l.length) : (l.flatten.drop (w * m)).take w = l[m] := by
  induction l generalizing m with
  | nil => exact absurd hm (Nat.not_lt_zero m)
  | cons e l ih =>
    have he := h e List.mem_cons_self
    have hl : ∀ e ∈ l, e.length = w := fun e he => h e (List.mem_cons_of_mem _ he)
    cases m with
    | zero =>
      rw [Nat.mul_zero, List.drop_zero, List.flatten_cons, List.take_append_of_le_length (by omega),
        List.take_of_length_le (by omega)]
      rfl
    | succ m =>
      rw [List.flatten_cons, Nat.mul_succ, Nat.add_comm, ← List.drop_drop,
        List.drop_append_of_le_length (by omega), List.drop_of_length_le (Nat.le_of_eq he),
        List.nil_append, ih hl (by simpa using hm)]
      rfl

/-- The name of an entry, compared with a path element. -/
theorem namecmp_dirent {elem name : List UInt8} (he : 0 ∉ elem) (hn : 0 ∉ name) (buf : Mem) (inum : ℕ) :
    namecmp (setName buf elem) (direntName (dirent inum name)) = 0 ↔
      elem.take DIRSIZ = name.take DIRSIZ := by
  apply Fs.Names.namecmp_eq_zero_iff _ _ he hn
  intro k _
  rw [direntName, Nat.add_comm]
  rfl

/-- What `dirlookup` relies on: the numbers fit into an entry and are not 0, and the names are
strings. -/
structure Proper (e : ℕ × List UInt8) : Prop where
  pos : e.1 ≠ 0
  lt : e.1 < 65536
  name : 0 ∉ e.2

/-- **The loop of `dirlookup`** finds the first entry with the name. -/
theorem dirlookupLoop_eq {names : List (ℕ × List UInt8)} (h : Layout table img free c)
    (hsize : (c i).length ≤ (table i).size)
    (hc : c i = (names.map fun e => dirent e.1 e.2).flatten) (hproper : ∀ e ∈ names, Proper e)
    {elem : List UInt8} (helem : 0 ∉ elem) (buf : Mem) {e : ℕ × List UInt8} {fuel m : ℕ}
    (hfuel : names.length ≤ m + fuel)
    (hfind : (names.drop m).find? (fun e => e.2.take DIRSIZ = elem.take DIRSIZ) = some e) :
    dirlookupLoop img (table i) (setName buf elem) fuel (direntSize * m) = .ok (some e.1) := by
  have hm : ∀ {m}, (names.drop m).find? (fun e => e.2.take DIRSIZ = elem.take DIRSIZ) = some e →
      m < names.length := by
    intro m hfind
    by_contra hge
    rw [List.drop_eq_nil_of_le (by omega)] at hfind
    cases hfind
  have hentries : ∀ e ∈ names.map fun e => dirent e.1 e.2, e.length = direntSize := by
    intro e he
    obtain ⟨e, _, rfl⟩ := List.mem_map.mp he
    exact length_dirent ..
  have hlength : (c i).length = names.length * direntSize := by
    rw [hc, length_flatten_of_forall hentries, List.length_map]
  induction fuel generalizing m with
  | zero =>
    have := hm hfind
    omega
  | succ fuel ih =>
    have hlt := hm hfind
    have hle : direntSize * m + direntSize ≤ (c i).length := by
      rw [hlength, ← Nat.mul_succ, Nat.mul_comm]
      exact Nat.mul_le_mul_right _ hlt
    have hpos : 0 < direntSize := by decide
    have hread : readi img (table i) (direntSize * m) direntSize =
        .ok (dirent names[m].1 names[m].2) := by
      rw [readi_eq h hsize hle, hc, slice_flatten hentries (by simpa using hlt), List.getElem_map]
    have hp := hproper names[m] (List.getElem_mem hlt)
    unfold dirlookupLoop
    rw [if_pos (by omega), hread, ok_bind, if_neg fun h => h (length_dirent ..),
      direntInum_dirent hp.lt]
    rw [List.drop_eq_getElem_cons hlt, List.find?_cons] at hfind
    by_cases hmatch : names[m].2.take DIRSIZ = elem.take DIRSIZ
    · simp only [hmatch, decide_true, Option.some.injEq] at hfind
      rw [if_pos ⟨hp.pos, (namecmp_dirent helem hp.name buf _).mpr hmatch.symm⟩, ← hfind]
    · simp only [hmatch, decide_false] at hfind
      rw [if_neg fun hcmp => hmatch ((namecmp_dirent helem hp.name buf _).mp hcmp.2).symm,
        ← Nat.mul_succ]
      exact ih (by omega) hfind

theorem skipelem_name {name : List UInt8} (hne : name ≠ []) (hslash : slash ∉ name) :
    skipelem (slash :: name) = some (name, []) := by
  have hall : ∀ x ∈ name, x ≠ slash := fun x hx h => hslash (h ▸ hx)
  have hdrop : (slash :: name).dropWhile (· = slash) = name := by
    rw [List.dropWhile_cons_of_pos (by simp)]
    cases name with
    | nil => exact absurd rfl hne
    | cons a l => rw [List.dropWhile_cons_of_neg (by simpa using hall a List.mem_cons_self)]
  have htake : name.takeWhile (· ≠ slash) = name :=
    List.takeWhile_eq_self_iff.mpr fun x hx => decide_eq_true (hall x hx)
  have hrest : name.dropWhile (· ≠ slash) = [] :=
    List.dropWhile_eq_nil_iff.mpr fun x hx => decide_eq_true (hall x hx)
  unfold skipelem
  rw [hdrop, if_neg hne, htake, hrest]
  rfl

/-! ### The files -/

theorem File.shortname_sublist (f : File) : f.shortname.Sublist f.path := by
  unfold File.shortname
  split
  · exact List.drop_sublist ..
  · exact List.Sublist.refl _

theorem File.name_sublist (f : File) : f.name.Sublist f.shortname := by
  unfold File.name
  split
  · exact List.tail_sublist _
  · exact List.Sublist.refl _

/-- A short name is not cut. -/
theorem take_ne {l d : List UInt8} (hd : d.length < DIRSIZ) (h : l ≠ d) : l.take DIRSIZ ≠ d := by
  intro heq
  have hlen := congrArg List.length heq
  rw [List.length_take] at hlen
  rw [List.take_of_length_le (by omega)] at heq
  exact h heq

/-- The kernel looks the name up in the root directory. -/
def File.Ordinary (f : File) : Prop := f.name ≠ [] ∧ f.name ≠ [dot] ∧ f.name ≠ [dot, dot]

instance (f : File) : Decidable f.Ordinary := inferInstanceAs (Decidable (_ ∧ _))

/-- The bytes of the root directory, up to its size after rounding. -/
def rootBytes (files : List File) : List UInt8 :=
  contentsOf files ROOTINO ++ List.replicate
    (((files.length + 2) * direntSize / BSIZE + 1) * BSIZE - (files.length + 2) * direntSize) 0

theorem find_rootNames {k : ℕ} (hk : k < files.length) (hord : files[k].Ordinary)
    (hnodup : (files.map fun f => f.name.take DIRSIZ).Nodup) :
    (rootNames files).find? (fun e => e.2.take DIRSIZ = files[k].name.take DIRSIZ) =
      some (k + 2, files[k].name) := by
  have hdot : ¬ ([dot].take DIRSIZ = files[k].name.take DIRSIZ) :=
    fun h => take_ne (by decide) hord.2.1 h.symm
  have hdots : ¬ ([dot, dot].take DIRSIZ = files[k].name.take DIRSIZ) :=
    fun h => take_ne (by decide) hord.2.2 h.symm
  unfold rootNames
  rw [List.find?_cons_of_neg (by simpa using hdot), List.find?_cons_of_neg (by simpa using hdots),
    List.find?_eq_some_iff_getElem]
  refine ⟨by simp, k, by simpa using hk, by simp, ?_⟩
  intro j hj
  simp only [List.getElem_mapIdx, Bool.not_eq_eq_eq_not, Bool.not_true, decide_eq_false_iff_not]
  intro heq
  have hjlt : j < (files.map fun f => f.name.take DIRSIZ).length := by
    rw [List.length_map]
    omega
  have hklt : k < (files.map fun f => f.name.take DIRSIZ).length := by
    rw [List.length_map]
    exact hk
  have hsame : (files.map fun f => f.name.take DIRSIZ)[j] = (files.map fun f => f.name.take DIRSIZ)[k] := by
    rw [List.getElem_map, List.getElem_map]
    exact heq
  have hjk : j = k := hnodup.getElem_inj_iff.mp hsame
  omega

theorem proper_rootNames (hnum : files.length + 2 ≤ NINODES) (hstr : ∀ f ∈ files, 0 ∉ f.path)
    {e : ℕ × List UInt8} (he : e ∈ rootNames files) : Proper e := by
  simp only [rootNames, List.mem_cons, List.mem_mapIdx] at he
  obtain rfl | rfl | ⟨k, hk, rfl⟩ := he
  · exact ⟨by decide, by decide, by decide⟩
  · exact ⟨by decide, by decide, by decide⟩
  · have hmax : NINODES < 65536 := by decide
    refine ⟨Nat.succ_ne_zero _, by dsimp only; omega, ?_⟩
    intro h0
    exact hstr files[k] (List.getElem_mem hk)
      (files[k].shortname_sublist.subset (files[k].name_sublist.subset h0))

namespace Done

variable (h : Done files free img)
include h

theorem contents_root_le : (contentsOf files ROOTINO).length ≤ (inodes img ROOTINO).size := by
  have hBSIZE : BSIZE = 1024 := rfl
  rw [length_root, h.rootSize, hBSIZE]
  omega

theorem length_rootBytes : (rootBytes files).length = (inodes img ROOTINO).size := by
  have hBSIZE : BSIZE = 1024 := rfl
  rw [rootBytes, List.length_append, List.length_replicate, length_root, h.rootSize, hBSIZE]
  omega

theorem ilock_root : ilock img ROOTINO = .ok (inodes img ROOTINO) := by
  have hdir : (inodes img ROOTINO).type = T_DIR := h.type ROOTINO
  rw [ilock, dinode_eq h.super (by decide), hdir]
  rfl

section Lookup

variable (hstr : ∀ f ∈ files, 0 ∉ f.path)
include hstr

/-- **Looking up a name** in the root directory. -/
theorem namei_of_find {elem : List UInt8} (hne : elem ≠ []) (hslash : slash ∉ elem) (hnonul : 0 ∉ elem)
    {e : ℕ × List UInt8}
    (hfind : (rootNames files).find? (fun e => e.2.take DIRSIZ = elem.take DIRSIZ) = some e)
    (cwd : ℕ) (buf : Mem) : namei img cwd buf (slash :: elem) = .ok (some e.1) := by
  have hdir : (inodes img ROOTINO).type = T_DIR := h.type ROOTINO
  have hlook : dirlookup img (inodes img ROOTINO) (setName buf elem) = .ok (some e.1) := by
    rw [dirlookup, if_neg fun hne => hne hdir]
    refine dirlookupLoop_eq h.layout h.contents_root_le rfl (fun e => proper_rootNames h.num hstr) hnonul
      buf (m := 0) ?_ hfind
    have hle := h.contents_root_le
    have hlen : (rootNames files).length = files.length + 2 := by simp [rootNames]
    have hsize : (files.length + 2) * 1 ≤ (files.length + 2) * direntSize :=
      Nat.mul_le_mul_left _ (by decide)
    rw [length_root] at hle
    omega
  rw [namei, List.length_cons, List.head?_cons, if_pos rfl, namexLoop, skipelem_name hne hslash]
  dsimp only
  rw [h.ilock_root, ok_bind, if_neg fun hne => hne hdir, hlook, ok_bind]
  cases elem.length <;> rfl

/-- A file with an ordinary name is found. -/
theorem namei_eq (hnodup : (files.map fun f => f.name.take DIRSIZ).Nodup) {k : ℕ} (hk : k < files.length)
    (hord : files[k].Ordinary) (cwd : ℕ) (buf : Mem) :
    namei img cwd buf (slash :: files[k].name) = .ok (some (k + 2)) := by
  have hmem := List.getElem_mem hk
  apply h.namei_of_find hstr hord.1 _ _ (find_rootNames hk hord hnodup)
  · exact fun hs => h.noSlash _ hmem (files[k].name_sublist.subset hs)
  · exact fun h0 => hstr _ hmem (files[k].shortname_sublist.subset (files[k].name_sublist.subset h0))

/-- The other names are those of the root directory. -/
theorem namei_root (hord : ¬ f.Ordinary) (cwd : ℕ) (buf : Mem) :
    namei img cwd buf (slash :: f.name) = .ok (some ROOTINO) := by
  have hcases : f.name = [] ∨ f.name = [dot] ∨ f.name = [dot, dot] := by
    unfold File.Ordinary at hord
    tauto
  rcases hcases with hname | hname | hname
  · rw [hname]
    rfl
  · rw [hname]
    exact h.namei_of_find hstr (by decide) (by decide) (by decide)
      (List.find?_cons_of_pos (by decide)) cwd buf
  · rw [hname]
    refine h.namei_of_find hstr (by decide) (by decide) (by decide) (e := (ROOTINO, [dot, dot]))
      ?_ cwd buf
    rw [rootNames, List.find?_cons_of_neg (by decide)]
    exact List.find?_cons_of_pos (by decide)

end Lookup

/-- **Reading a file.** -/
theorem readi_file {k : ℕ} (hk : k < files.length) :
    ilock img (k + 2) = .ok (inodes img (k + 2)) ∧
      (inodes img (k + 2)).size = files[k].contents.length ∧
      ∀ off n, off + n ≤ files[k].contents.length →
        readi img (inodes img (k + 2)) off n = .ok ((files[k].contents.drop off).take n) := by
  have htype : (inodes img (k + 2)).type = T_FILE := by
    rw [h.type]
    unfold typeOf ROOTINO
    grind
  have hne : (inodes img (k + 2)).type ≠ 0 := by
    rw [htype]
    decide
  have hcontents : contentsOf files (k + 2) = files[k].contents := by
    simp [contentsOf, ROOTINO, hk]
  have hsize : (inodes img (k + 2)).size = files[k].contents.length := by
    rw [h.size (k + 2) (by unfold ROOTINO; omega) hne, hcontents]
  refine ⟨?_, hsize, ?_⟩
  · have hnum := h.num
    rw [ilock, dinode_eq h.super (by omega), if_neg hne]
  · intro off n hlen
    rw [← hcontents] at hlen hsize ⊢
    exact readi_eq h.layout (Nat.le_of_eq hsize.symm) hlen

/-- No inode has a hole, if the root directory has none. -/
theorem maps_of_lt (hround : (files.length + 2) * direntSize % BSIZE ≠ 0)
    (hi : (inodes img i).type ≠ 0) (hbn : bn * BSIZE < (inodes img i).size) :
    ∃ b, Maps (inodes img) img i bn b := by
  have hBSIZE : 0 < BSIZE := by decide
  have hlt : bn * BSIZE < (contentsOf files i).length := by
    by_cases hroot : i = ROOTINO
    · subst hroot
      rw [h.rootSize] at hbn
      rw [length_root]
      have hle : bn ≤ (files.length + 2) * direntSize / BSIZE := Nat.lt_succ_iff.mp
        (Nat.lt_of_mul_lt_mul_right hbn)
      have hmul := Nat.mul_le_mul_right BSIZE hle
      have hdiv := Nat.div_add_mod ((files.length + 2) * direntSize) BSIZE
      rw [Nat.mul_comm] at hdiv
      omega
    · rw [h.size i hroot hi] at hbn
      exact hbn
  obtain ⟨b, hb⟩ := h.layout.mapped i (bn * BSIZE) hlt
  rw [Nat.mul_div_cancel _ hBSIZE] at hb
  exact ⟨b, hb⟩

/-- **Reading the root directory**, zeros included. -/
theorem readi_root (hround : (files.length + 2) * direntSize % BSIZE ≠ 0) {off n : ℕ}
    (hlen : off + n ≤ (rootBytes files).length) :
    readi img (inodes img ROOTINO) off n = .ok (((rootBytes files).drop off).take n) := by
  have hsize := h.length_rootBytes
  have hroot : (inodes img ROOTINO).type ≠ 0 := by
    rw [h.type]
    exact Nat.one_ne_zero
  have hpad : Layout (inodes img) img free (update (contentsOf files) ROOTINO (rootBytes files)) := by
    apply h.layout.pad
    intro k hk
    apply h.maps_of_lt hround hroot
    have hle := Nat.div_mul_le_self k BSIZE
    rw [rootBytes, List.length_append, List.length_replicate] at hsize
    omega
  have hself : update (contentsOf files) ROOTINO (rootBytes files) ROOTINO = rootBytes files :=
    update_self ..
  have hread : readi img (inodes img ROOTINO) off n = _ :=
    readi_eq hpad (Nat.le_of_eq (by rw [hself]; exact hsize)) (by rw [hself]; exact hlen)
  rwa [hself] at hread

/-- If the entries fill the blocks, the next block is missing. -/
theorem bmap_root_hole (hround : (files.length + 2) * direntSize % BSIZE = 0) :
    ∃ bn, bn * BSIZE < (inodes img ROOTINO).size ∧ bmap img (inodes img ROOTINO) bn = .error .hole := by
  have hfull := Nat.div_add_mod' ((files.length + 2) * direntSize) BSIZE
  rw [hround, Nat.add_zero] at hfull
  have hsmall : (files.length + 2) * direntSize / BSIZE < NDIRECT := by
    apply (Nat.div_lt_iff_lt_mul (by decide)).mpr
    apply Nat.lt_of_le_of_lt (Nat.mul_le_mul_right direntSize h.num)
    decide
  have hhole : (inodes img ROOTINO).addrs ((files.length + 2) * direntSize / BSIZE) = 0 := by
    by_contra hne
    have := h.tight _ hsmall hne
    omega
  refine ⟨(files.length + 2) * direntSize / BSIZE, ?_, ?_⟩
  · rw [h.rootSize]
    exact Nat.mul_lt_mul_of_pos_right (Nat.lt_succ_self _) (by decide)
  · rw [bmap, if_pos hsmall, hhole]
    rfl

end Done

/-- The block that slot `x` of inode `i` refers to. -/
def refers (img : ℕ → Block) (i : ℕ) (x : Blocks.Slot) : Option ℕ :=
  if i < (readsb img).ninodes then (view (dinode img i)).holds (words img) x else none

namespace Done

variable (h : Done files free img)
include h

theorem refers_iff {x : Blocks.Slot} :
    refers img i x = some b ↔ held (inodes img) img (.slot i x) = some b := by
  rw [refers, (readsb_eq h.super).2.2.2, held_slot]
  split
  · rename_i hi
    rw [dinode_eq h.super hi]
  · rename_i hi
    have hfree : (inodes img i).type = 0 := by rw [inodes, if_neg hi]
    have hnone : (view (inodes img i)).holds (words img) x = none :=
      if_pos (.inl (fileType_eq_free.mpr hfree))
    rw [hnone]

/-- **The free map.** -/
theorem used_iff (hb : b < FSSIZE) :
    used img b = true ↔ b < nmeta ∨ ∃ i x, refers img i x = some b := by
  have hBPB : FSSIZE < Buffers.BPB := by decide
  have hlt : b < Buffers.BPB := Nat.lt_trans hb hBPB
  have hbit : used img b = decide (b < free) := by
    rw [used, (readsb_eq h.super).2.1, Nat.div_eq_of_lt hlt, Nat.mod_eq_of_lt hlt, Nat.zero_add,
      h.bitmap, bit_markUsed (Nat.le_trans h.le (Nat.le_of_lt hBPB))]
  rw [hbit, h.layout.owned.used_iff b trivial]
  constructor
  · rintro ⟨p, hp⟩
    cases p with
    | layout c =>
      change (if c < nmeta then some c else none) = some b at hp
      rw [Option.ite_none_right_eq_some] at hp
      obtain ⟨hlt, hc⟩ := hp
      cases hc
      exact .inl hlt
    | slot i x => exact .inr ⟨i, x, h.refers_iff.mpr hp⟩
  · rintro (hlt | ⟨i, x, hx⟩)
    · exact ⟨.layout b, held_layout hlt⟩
    · exact ⟨.slot i x, h.refers_iff.mp hx⟩

end Done

theorem mkfs_eq_ok : mkfs files = .ok img ↔ ∃ r, main files start = .ok r ∧ r.2.img = img := by
  unfold mkfs
  cases main files start with
  | ok r | error e => simp [Except.map]

/-- What is known of an image that `mkfs` has made. -/
theorem done_of_mkfs (hmk : mkfs files = .ok img) (hnum : files.length + 2 ≤ NINODES) :
    ∃ free, Done files free img := by
  have hmain := wp_main (E := fun _ => True) hnum (.inl fun _ => trivial)
  obtain ⟨r, hrun, rfl⟩ := mkfs_eq_ok.mp hmk
  exact ⟨r.2.freeblock, hmain.of_ok hrun⟩

/-- Small files are accepted. -/
theorem mkfs_of_small (hnum : files.length + 2 ≤ NINODES)
    (hsmall : Small (files.length + 2) files (nmeta + 1)) :
    ∃ img free, mkfs files = .ok img ∧ Done files free img := by
  obtain ⟨_, t, hrun, hdone⟩ := (wp_main hnum (.inr hsmall)).exists_ok
  exact ⟨t.img, t.freeblock, mkfs_eq_ok.mpr ⟨_, hrun, rfl⟩, hdone⟩

/-- Looking up `/name` finds an inode with the contents of the file. -/
def Finds (img : ℕ → Block) (f : File) (cwd : ℕ) (buf : Mem) : Prop :=
  ∃ inum ip, namei img cwd buf (slash :: f.name) = .ok (some inum) ∧ ilock img inum = .ok ip ∧
    ip.size = f.contents.length ∧ ∀ off n, off + n ≤ f.contents.length →
      readi img ip off n = .ok ((f.contents.drop off).take n)

/-- The image is as the kernel needs it. -/
structure Agrees (files : List File) (img : ℕ → Block) : Prop where
  finds : ∀ f ∈ files, ∀ cwd buf, Finds img f cwd buf
  noHole : ∀ i < (readsb img).ninodes, (dinode img i).type ≠ 0 → ∀ bn,
    bn * BSIZE < (dinode img i).size → ∃ b, bmap img (dinode img i) bn = .ok b
  unique : ∀ i x j y b, refers img i x = some b → refers img j y = some b → i = j ∧ x = y
  bitmap : ∀ b < (readsb img).size,
    used img b = true ↔ b < nmeta ∨ ∃ i x, refers img i x = some b

/-- A file is found by its name, or it has one of those of the root directory, and its bytes. -/
theorem Done.finds_iff (h : Done files free img) (hstr : ∀ f ∈ files, 0 ∉ f.path)
    (hnodup : (files.map fun f => f.name.take DIRSIZ).Nodup)
    (hround : (files.length + 2) * direntSize % BSIZE ≠ 0) (hf : f ∈ files) (cwd : ℕ) (buf : Mem) :
    Finds img f cwd buf ↔ f.Ordinary ∨ f.contents = rootBytes files := by
  by_cases hord : f.Ordinary
  · refine ⟨fun _ => .inl hord, fun _ => ?_⟩
    obtain ⟨k, hk, rfl⟩ := List.getElem_of_mem hf
    exact ⟨k + 2, inodes img (k + 2), h.namei_eq hstr hnodup hk hord cwd buf,
      h.readi_file hk⟩
  · have hname := h.namei_root hstr hord cwd buf
    constructor
    · rintro ⟨inum, ip, hinum, hip, hsize, hread⟩
      cases hname.symm.trans hinum
      cases h.ilock_root.symm.trans hip
      rw [← h.length_rootBytes] at hsize
      have hall := hread 0 f.contents.length (by omega)
      rw [h.readi_root hround (by omega)] at hall
      have heq := Except.ok.inj hall
      rw [List.drop_zero, List.drop_zero, List.take_length, ← hsize, List.take_length] at heq
      exact .inr heq.symm
    · intro hcontents
      have hcontents := hcontents.resolve_left hord
      refine ⟨ROOTINO, inodes img ROOTINO, hname, h.ilock_root, ?_, fun off n hlen => ?_⟩
      · rw [hcontents, h.length_rootBytes]
      · rw [hcontents] at hlen ⊢
        exact h.readi_root hround hlen

/-- **Agreement of `mkfs` and the kernel.** -/
theorem image_agrees_iff (files : List File) (img : ℕ → Block) (hmk : mkfs files = .ok img)
    (hstr : ∀ f ∈ files, 0 ∉ f.path) (hnum : files.length < NINODES - 1)
    (hnodup : (files.map fun f => f.name.take DIRSIZ).Nodup) :
    Agrees files img ↔ (files.length + 2) * direntSize % BSIZE ≠ 0 ∧
      ∀ f ∈ files, f.Ordinary ∨ f.contents = rootBytes files := by
  obtain ⟨free, h⟩ := done_of_mkfs hmk (show files.length + 2 ≤ NINODES by omega)
  obtain ⟨_, _, hsize, hninodes⟩ := readsb_eq h.super
  constructor
  · intro hagrees
    have hround : (files.length + 2) * direntSize % BSIZE ≠ 0 := by
      intro hround
      obtain ⟨bn, hbn, hhole⟩ := h.bmap_root_hole hround
      have hroot : dinode img ROOTINO = inodes img ROOTINO := dinode_eq h.super (by decide)
      have htype : (dinode img ROOTINO).type ≠ 0 := by
        rw [hroot, h.type]
        exact Nat.one_ne_zero
      obtain ⟨b, hb⟩ := hagrees.noHole ROOTINO (by rw [hninodes]; decide) htype bn (by rwa [hroot])
      rw [hroot, hhole] at hb
      cases hb
    exact ⟨hround, fun f hf => (h.finds_iff hstr hnodup hround hf 0 fun _ => 0).mp
      (hagrees.finds f hf 0 _)⟩
  · rintro ⟨hround, hfiles⟩
    constructor
    case finds =>
      intro f hf cwd buf
      exact (h.finds_iff hstr hnodup hround hf cwd buf).mpr (hfiles f hf)
    case noHole =>
      intro i hi htype bn hbn
      rw [hninodes] at hi
      rw [dinode_eq h.super hi] at htype hbn ⊢
      obtain ⟨b, hb⟩ := h.maps_of_lt hround htype hbn
      exact ⟨b, bmap_eq hb⟩
    case unique =>
      intro i x j y b hx hy
      cases h.layout.owned.unique _ _ _ (h.refers_iff.mp hx) (h.refers_iff.mp hy)
      exact ⟨rfl, rfl⟩
    case bitmap =>
      intro b hb
      rw [hsize] at hb
      exact h.used_iff hb

/-! ### Examples -/

/-- Two files, one of them in two blocks. -/
def twoFiles : List File :=
  [⟨user ++ [underscore, 0x61], [List.replicate 1024 7, [8, 9]]⟩, ⟨[0x62], [[1, 2, 3]]⟩]

theorem image_agrees_iff_twoFiles : ∃ img, mkfs twoFiles = .ok img ∧ Agrees twoFiles img ∧
    ∃ inum ip, namei img ROOTINO (fun _ => 0) [slash, 0x61] = .ok (some inum) ∧
      ilock img inum = .ok ip ∧ readi img ip 1022 4 = .ok [7, 7, 8, 9] := by
  have hsmall : Small (twoFiles.length + 2) twoFiles (nmeta + 1) :=
    ⟨by decide +kernel, by decide +kernel, by decide, by decide +kernel⟩
  obtain ⟨img, _, hmk, _⟩ := mkfs_of_small (by decide) hsmall
  have hagrees := (image_agrees_iff twoFiles img hmk (by decide +kernel) (by decide)
    (by decide +kernel)).mpr ⟨by decide, fun f hf => .inl (by revert f; decide +kernel)⟩
  refine ⟨img, hmk, hagrees, ?_⟩
  obtain ⟨inum, ip, hname, hlock, _, hread⟩ :=
    hagrees.finds _ List.mem_cons_self ROOTINO fun _ => 0
  refine ⟨inum, ip, hname, hlock, ?_⟩
  rw [hread 1022 4 (by decide +kernel)]
  decide +kernel

/-- An empty file with a name of one letter. -/
def letter (k : ℕ) : File := ⟨user ++ [underscore, UInt8.ofNat (k + 97)], []⟩

def letters (n : ℕ) : List File := (List.range n).map letter

/-- With 62 files, the root directory has a hole. -/
theorem sixty_two_files : ∃ img, mkfs (letters 62) = .ok img ∧ (∀ f ∈ letters 62, 0 ∉ f.path) ∧
    (letters 62).length < NINODES - 1 ∧ ((letters 62).map fun f => f.name.take DIRSIZ).Nodup ∧
    (∀ f ∈ letters 62, f.Ordinary) ∧ ROOTINO < (readsb img).ninodes ∧
    (dinode img ROOTINO).type = T_DIR ∧ 1 * BSIZE < (dinode img ROOTINO).size ∧
    bmap img (dinode img ROOTINO) 1 = .error .hole := by
  have hsmall : Small ((letters 62).length + 2) (letters 62) (nmeta + 1) :=
    ⟨by decide +kernel, by decide +kernel, by decide, by decide +kernel⟩
  obtain ⟨img, free, hmk, h⟩ := mkfs_of_small (by decide) hsmall
  have hroot : dinode img ROOTINO = inodes img ROOTINO := dinode_eq h.super (by decide)
  have hhole : (inodes img ROOTINO).addrs 1 = 0 := by
    by_contra hne
    exact absurd (h.tight 1 (by decide) hne) (by decide)
  refine ⟨img, hmk, by decide +kernel, by decide, by decide +kernel, by decide +kernel, ?_, ?_, ?_, ?_⟩
  · rw [(readsb_eq h.super).2.2.2]
    decide
  · rw [hroot]
    exact h.type ROOTINO
  · rw [hroot, h.rootSize]
    decide
  · rw [hroot, bmap, if_pos (by decide), hhole]
    rfl

end Xv6.Mkfs
