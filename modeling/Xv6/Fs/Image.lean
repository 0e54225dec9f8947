import Xv6.Fs.Files

/-!
Consistent images, and the state the first process starts in.

`linkCount` counts the entries that should make up an inode's nlink, and the lemma
`sum_naming` finds the two sums of the link graph in it. An `Image` is what a clean disk
holds: the directories form a tree, every allocated inode is linked, and every nlink is
the number of the entries that name the inode.
-/

namespace Xv6.Fs

open LinkGraph (Graph Mode NameOk NodeOk Consistent)

/-! ### Counting entries -/

/-- The entries of a directory, other than ".", that name `i`; ".." counts only with
`parents`. -/
def naming (r : Inode) (i : ℕ) (parents : Bool) : List Dirent :=
  if r.type = .dir then
    r.entries.filter fun e => e.inum = i ∧ e.name ≠ dot ∧ (parents ∨ e.name ≠ dotdot)
  else []

/-- The entries of the allocated directories, other than ".", that name `i`. -/
def entryCount (s : State) (i : ℕ) : ℕ :=
  ∑ d ∈ Finset.range s.ninodes, (naming (s.inode d) i true).length

/-- The same without the ".." of removed directories. -/
def linkCount (s : State) (i : ℕ) : ℕ :=
  ∑ d ∈ Finset.range s.ninodes, (naming (s.inode d) i ((s.inode d).nlink ≠ 0)).length

variable {m : Mode} {s : State} {n i d : ℕ} {r : Inode} {table : ℕ → Inode}

theorem naming_children (h : Shaped d r) (hd : r.type = .dir) (hi : i ≠ 0) (parents : Bool) :
    (r.children.filter fun e => e.inum = i ∧ e.name ≠ dot ∧ (parents ∨ e.name ≠ dotdot)).length =
      namesOf r.children i := by
  obtain ⟨_, _, hrest⟩ := h.entries_eq hd
  unfold namesOf
  rw [List.countP_eq_length_filter]
  congr 1
  refine List.filter_congr fun e he => ?_
  have := hrest e he
  grind

/-- The names of `i` in a directory, and its "..". -/
theorem naming_length (h : Shaped d r) (hi : i ≠ 0) (parents : Bool) :
    (naming r i parents).length = namesOf r.children i +
      if r.type = .dir ∧ parents = true ∧ r.dotdot = i then 1 else 0 := by
  unfold naming
  by_cases hd : r.type = .dir
  · obtain ⟨hes, _, _⟩ := h.entries_eq hd
    have hne : Fs.dotdot ≠ dot := by decide
    have hchildren := naming_children h hd hi parents
    rw [if_pos hd, hes, List.filter_cons_of_neg (by simp), List.filter_cons]
    by_cases hp : parents = true ∧ r.dotdot = i
    · obtain ⟨rfl, rfl⟩ := hp
      rw [if_pos (by simp [hne]), List.length_cons, hchildren, if_pos ⟨hd, rfl, rfl⟩]
    · rw [if_neg (by grind), hchildren, if_neg (by tauto), Nat.add_zero]
  · simp [hd, Inode.children, h.nondir hd, namesOf]

/-- Entries are names or parent pointers. -/
theorem sum_naming (h : ∀ d, Shaped d (table d)) (hi : i ≠ 0) (parents : ℕ → Bool) :
    ∑ d ∈ Finset.range n, (naming (table d) i (parents d)).length =
      (graph table).named (Finset.range n) i + ((Finset.range n).filter fun d =>
        (table d).type = .dir ∧ parents d = true ∧ (table d).dotdot = i).card := by
  rw [Finset.card_filter, Graph.named, ← Finset.sum_add_distrib]
  exact Finset.sum_congr rfl fun d _ => naming_length (h d) hi (parents d)

/-- In a tree without removed directories' "..", entries are names or pointers of linked
directories. -/
theorem linkCount_eq (h : Tree m s.ninodes s.inode) (hi : (s.inode i).type ≠ .free) :
    linkCount s i = (graph s.inode).named (Finset.range s.ninodes) i +
      ((graph s.inode).pointing (Finset.range s.ninodes) i).card := by
  unfold linkCount
  rw [sum_naming h.shaped (h.allocated_ne_zero hi)]
  congr 2
  refine Finset.filter_congr fun d _ => ?_
  simp only [Graph.Linked, graph_kind, graph_count, graph_parent, kind_eq_dir, decide_eq_true_eq]
  constructor
  · rintro ⟨hd, hne, hp⟩
    have := h.nlink_nonneg (i := d) (Inode.ne_free_of_dir hd)
    exact ⟨⟨hd, by omega⟩, hp⟩
  · rintro ⟨⟨hd, hpos⟩, hp⟩
    exact ⟨hd, by omega, hp⟩

/-! ### Clean images -/

/-- A consistent file system: the directories below the root form a tree, every
allocated inode is linked, and its nlink is the number of entries that name it. -/
structure Image (s : State) : Prop where
  small : s.ninodes ≤ 65536
  allocated : ∀ i, (s.inode i).type ≠ .free → 0 < i ∧ i < s.ninodes
  shaped : ∀ i, Shaped i (s.inode i)
  root : (s.inode ROOTINO).type = .dir ∧ (s.inode ROOTINO).dotdot = ROOTINO
  /-- Entries name allocated inodes, and a directory is named by its parent. -/
  entry : ∀ d, (s.inode d).type = .dir → ∀ e ∈ (s.inode d).children, e.inum ≠ 0 →
    (s.inode e.inum).type ≠ .free ∧
      ((s.inode e.inum).type = .dir → e.inum ≠ ROOTINO ∧ (s.inode e.inum).dotdot = d)
  /-- A directory's parent names it once. -/
  named : ∀ i, (s.inode i).type = .dir → i ≠ ROOTINO →
    (s.inode (s.inode i).dotdot).type = .dir ∧ namesOf (s.inode (s.inode i).dotdot).children i = 1
  linked : ∀ i, (s.inode i).type ≠ .free → 0 < (s.inode i).nlink
  count : ∀ i, (s.inode i).type ≠ .free → (s.inode i).nlink = entryCount s i

/-- The state in which the first process starts: it is in the root directory, and no
file is open. -/
structure Booted (s : State) : Prop where
  image : Image s
  first : ∃ p, (s.proc p).cwd = some ROOTINO ∧ ∀ q, q ≠ p → (s.proc q).cwd = none
  file : ∀ f, s.file f = ⟨0, none⟩
  ref : ∀ i, s.ref i = if i = ROOTINO then 1 else 0

namespace Image

section

variable (h : Image s)
include h

theorem dir_nlink (hd : (s.inode d).type = .dir) : 0 < (s.inode d).nlink :=
  h.linked d (Inode.ne_free_of_dir hd)

/-- Parent pointers lead to directories. -/
theorem parent_dir (hd : (s.inode d).type = .dir) : (s.inode (s.inode d).dotdot).type = .dir := by
  by_cases hroot : d = ROOTINO
  · rw [hroot, h.root.2]
    exact h.root.1
  · exact (h.named d hd hroot).1

/-- What a name in a directory says about the inode. -/
theorem of_names (hn : 0 < namesOf (s.inode d).children i) :
    (s.inode i).type ≠ .free ∧
      ((s.inode i).type = .dir → i ≠ ROOTINO ∧ (s.inode i).dotdot = d) := by
  obtain ⟨e, he, hei⟩ := List.countP_pos_iff.mp hn
  obtain ⟨hne, rfl⟩ := of_decide_eq_true hei
  refine h.entry d (Decidable.byContradiction fun hnd => ?_) e he hne
  simp [Inode.children, (h.shaped d).nondir hnd] at he

theorem nlink_eq (hi : (s.inode i).type ≠ .free) :
    (s.inode i).nlink = (graph s.inode).named (Finset.range s.ninodes) i +
      ((graph s.inode).pointing (Finset.range s.ninodes) i).card := by
  rw [h.count i hi, entryCount, sum_naming h.shaped (h.allocated i hi).1.ne' fun _ => true,
    Nat.cast_add]
  congr 3
  refine Finset.filter_congr fun d _ => ?_
  simp only [Graph.Linked, graph_kind, graph_count, graph_parent, kind_eq_dir]
  have := h.dir_nlink (d := d)
  grind

/-- Nothing points to an inode that is no directory. -/
theorem pointing_leaf (hi : (s.inode i).type ≠ .dir) :
    (graph s.inode).pointing (Finset.range s.ninodes) i = ∅ := by
  refine Finset.filter_eq_empty_iff.mpr fun d _ => ?_
  rintro ⟨⟨hd, _⟩, rfl⟩
  exact hi (h.parent_dir (kind_eq_dir.mp hd))

theorem linked_of_dir (hd : (s.inode d).type = .dir) : (graph s.inode).Linked d :=
  ⟨kind_eq_dir.mpr hd, h.dir_nlink hd⟩

theorem nameOk (m : Mode) (d i : ℕ) : NameOk m ROOTINO (graph s.inode) d i where
  names_dir hd := by
    have hnone := (h.shaped d).nondir fun hdir => hd (kind_eq_dir.mpr hdir)
    simp [Inode.children, hnone, namesOf]
  named_node hn hfree := (h.of_names hn).1 (kind_eq_free.mp hfree)
  named_dir hn hdir := by
    have hdir := kind_eq_dir.mp hdir
    obtain ⟨hroot, hp⟩ := (h.of_names hn).2 hdir
    exact ⟨hroot, hp, h.dir_nlink hdir⟩
  tidy _ hd hzero := by
    have := h.dir_nlink (kind_eq_dir.mp hd)
    rw [graph_count] at hzero
    omega

theorem nodeOk (m : Mode) (i : ℕ) :
    NodeOk m (Finset.range s.ninodes) ROOTINO (graph s.inode) i where
  mem hi := Finset.mem_range.mpr (h.allocated i fun hf => hi (kind_eq_free.mpr hf)).2
  nonneg hi := (h.linked i fun hf => hi (kind_eq_free.mpr hf)).le
  child hi hroot := by
    obtain ⟨hp, hone⟩ := h.named i (kind_eq_dir.mp hi.1) hroot
    exact ⟨h.linked_of_dir hp, hone⟩
  count_dir hi := h.nlink_eq fun hf => by
    have hdir := kind_eq_dir.mp hi.1
    rw [hf] at hdir
    cases hdir
  count_leaf hi := by
    rw [graph_count, h.nlink_eq (kind_eq_leaf.mp hi).1]
    omega
  exact_leaf _ hi := by
    obtain ⟨hf, hd⟩ := kind_eq_leaf.mp hi
    rw [graph_count, h.nlink_eq hf, h.pointing_leaf hd]
    simp
  anchored _ hd := h.linked_of_dir (h.parent_dir (kind_eq_dir.mp hd))

/-- The link graph of an image is consistent in every mode. -/
theorem consistent (m : Mode) : Consistent m (Finset.range s.ninodes) ROOTINO (graph s.inode) :=
  ⟨h.linked_of_dir h.root.1, h.root.2, h.nameOk m, h.nodeOk m⟩

theorem tree (m : Mode) : Tree m s.ninodes s.inode where
  shaped := h.shaped
  consistent := h.consistent m
  zero := Decidable.byContradiction fun hf => absurd (h.allocated 0 hf).1 (Nat.lt_irrefl 0)
  small := h.small

end

end Image

theorem Booted.pointers_eq (h : Booted s) (i : ℕ) :
    pointers s i = if i = ROOTINO then 1 else 0 := by
  obtain ⟨p, hp, hother⟩ := h.first
  have hfiles : countOf (fun f => (s.file f).ip) i = 0 := by
    refine Finset.card_eq_zero.mpr (Finset.filter_eq_empty_iff.mpr fun f _ => ?_)
    simp [h.file f]
  have hfun : (fun q => (s.proc q).cwd) = Function.update (fun _ => none) p (some ROOTINO) := by
    funext q
    by_cases hq : q = p
    · rw [hq, hp, Function.update_self]
    · rw [hother q hq, Function.update_of_ne hq]
  have hnone : countOf (fun _ : Fin NPROC => none) i = 0 :=
    Finset.card_eq_zero.mpr (Finset.filter_eq_empty_iff.mpr fun _ _ => by simp)
  have hcwd := countOf_update (fun _ : Fin NPROC => none) p (some ROOTINO) i
  rw [pointers, hfiles, hfun]
  grind

/-- The first process starts with the invariant of every mode. -/
theorem Booted.inv (h : Booted s) (m : Mode) : Inv m s where
  refs := by
    have hroot : (s.inode ROOTINO).type ≠ .free := Inode.ne_free_of_dir h.image.root.1
    refine ⟨fun i => ?_, fun i hi => ?_, fun i hi _ => ?_, fun i _ hi hl => ?_⟩
    · rw [h.ref, h.pointers_eq]
      rfl
    · rw [h.pointers_eq] at hi
      grind
    · rw [h.ref] at hi
      grind
    · have := h.image.linked i hi
      omega
  tree := h.image.tree m
  files := .refl s
  idle f _ := by rw [h.file f]

/-! ### An empty disk -/

instance : NeZero NPROC := ⟨by decide⟩

instance : NeZero NOFILE := ⟨by decide⟩

/-- The state after `mkfs` with `n` inodes and no files. -/
def mkfs (n : ℕ) : State where
  ninodes := n
  inode i := if i = ROOTINO then ⟨.dir, 0, 0, 1, [⟨ROOTINO, dot⟩, ⟨ROOTINO, dotdot⟩]⟩
    else ⟨.free, 0, 0, 0, []⟩
  ref i := if i = ROOTINO then 1 else 0
  valid _ := false
  file _ := ⟨0, none⟩
  proc p := ⟨if p = 0 then some ROOTINO else none, fun _ => none⟩

theorem mkfs_image (h : 2 ≤ n) (h' : n ≤ 65536) : Image (mkfs n) where
  small := h'
  allocated i hi := by
    simp only [mkfs, ROOTINO] at hi ⊢
    grind
  shaped i := by
    by_cases hi : i = ROOTINO
    · subst hi
      exact ⟨fun hd => absurd rfl hd, fun _ => ⟨ROOTINO, [], rfl, by decide, by simp⟩,
        (by decide : (1 : ℤ) ≤ 32767)⟩
    · simp only [mkfs, if_neg hi]
      exact ⟨fun _ => rfl, by simp, by decide⟩
  root := ⟨rfl, rfl⟩
  entry d hd e he := by
    by_cases hroot : d = ROOTINO
    · subst hroot
      cases he
    · simp [mkfs, hroot] at hd
  named i hi hroot := by simp [mkfs, hroot] at hi
  linked i hi := by
    simp only [mkfs] at hi ⊢
    grind
  count i hi := by
    have hroot : i = ROOTINO := by
      simp only [mkfs] at hi
      grind
    subst hroot
    rw [entryCount, Finset.sum_eq_single ROOTINO]
    · rfl
    · intro d _ hd
      simp [mkfs, naming, hd]
    · intro hn
      exact absurd (Finset.mem_range.mpr (show ROOTINO < n from h)) hn

/-- An empty disk is a consistent image. -/
theorem mkfs_booted (n : ℕ) (h : 2 ≤ n) (h' : n ≤ 65536) : Booted (mkfs n) where
  image := mkfs_image h h'
  first := ⟨0, rfl, fun q hq => by simp [mkfs, hq]⟩
  file _ := rfl
  ref _ := rfl

end Xv6.Fs
