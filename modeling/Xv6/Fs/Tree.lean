import Xv6.Lib.LinkGraph
import Xv6.Fs.Refs

/-!
The directory tree as a link graph.

`graph` reads the link graph off an inode table: a directory's children are its entries
after the first two, and its parent is the second one. `Tree` says that the table has
this shape and that its graph is consistent. The lemmas below follow the calls: each
change a call makes to the table is one of the graph's operations.
-/

namespace Xv6.Fs

open Function (update update_of_ne update_self update_apply update_idem)
open LinkGraph (Kind Graph Mode Consistent)

/-! ### The graph of an inode table -/

def FileType.kind : FileType → Kind
  | .free => .free
  | .dir => .dir
  | .file => .leaf
  | .device => .leaf

/-- The entries after "." and "..". -/
def Inode.children (r : Inode) : List Dirent := r.entries.drop 2

/-- Where ".." leads. -/
def Inode.dotdot (r : Inode) : ℕ := (r.entries[1]?.map Dirent.inum).getD 0

def namesOf (entries : List Dirent) (i : ℕ) : ℕ :=
  entries.countP fun e => e.inum ≠ 0 ∧ e.inum = i

def graph (table : ℕ → Inode) : Graph ℕ where
  kind i := (table i).type.kind
  count i := (table i).nlink
  parent i := (table i).dotdot
  names d i := namesOf (table d).children i

def dot : Name := ['.']

def dotdot : Name := ['.', '.']

/-- The contents of an inode: only directories have entries here, and a directory's
first two are "." and "..". -/
structure Shaped (i : ℕ) (r : Inode) : Prop where
  nondir : r.type ≠ .dir → r.entries = []
  dir : r.type = .dir → ∃ p rest, r.entries = ⟨i, dot⟩ :: ⟨p, dotdot⟩ :: rest ∧ p ≠ 0 ∧
    ∀ e ∈ rest, e.inum ≠ 0 → e.name ≠ dot ∧ e.name ≠ dotdot
  small : r.nlink ≤ 32767

structure Tree (m : Mode) (n : ℕ) (table : ℕ → Inode) : Prop where
  shaped : ∀ i, Shaped i (table i)
  consistent : Consistent m (Finset.range n) ROOTINO (graph table)
  /-- Inode 0 is not used. -/
  zero : (table 0).type = .free
  /-- Every inode number fits into an entry. -/
  small : n ≤ 65536

variable {m : Mode} {n : ℕ} {table : ℕ → Inode} {dp ip i d : ℕ} {name : Name}

theorem int16_eq {k : ℤ} (h : -32768 ≤ k) (h' : k ≤ 32767) : int16 k = k := by
  unfold int16 Int.bmod
  dsimp only
  omega

theorem kind_eq_free {t : FileType} : t.kind = .free ↔ t = .free := by cases t <;> simp [FileType.kind]

theorem kind_eq_dir {t : FileType} : t.kind = .dir ↔ t = .dir := by cases t <;> simp [FileType.kind]

theorem kind_eq_leaf {t : FileType} : t.kind = .leaf ↔ t ≠ .free ∧ t ≠ .dir := by
  cases t <;> simp [FileType.kind]

section

variable (table : ℕ → Inode)

@[simp, grind =] theorem graph_kind (i : ℕ) :
    (graph table).kind i = (table i).type.kind := rfl

@[simp, grind =] theorem graph_count (i : ℕ) :
    (graph table).count i = (table i).nlink := rfl

@[simp, grind =] theorem graph_parent (i : ℕ) :
    (graph table).parent i = (table i).dotdot := rfl

@[simp, grind =] theorem graph_names (d i : ℕ) :
    (graph table).names d i = namesOf (table d).children i := rfl

end

/-! ### Adding and clearing an entry -/

/-- `dirlink`'s new entry goes into the first empty slot, or to the end. -/
def addEntry (entries : List Dirent) (e : Dirent) : List Dirent :=
  putEntry entries (entries.findIdx fun e => e.inum = 0) e

/-- A directory's record with one more entry. -/
def Inode.entered (r : Inode) (ip : ℕ) (name : Name) : Inode :=
  { r with entries := addEntry r.entries ⟨ip, name.take DIRSIZ⟩ }

/-- A directory's record with the entry at `off` cleared. -/
def Inode.cleared (r : Inode) (off : ℕ) : Inode := { r with entries := putEntry r.entries off ⟨0, []⟩ }

theorem addEntry_cons (x : Dirent) (rest : List Dirent) (e : Dirent) :
    addEntry (x :: rest) e = if x.inum = 0 then e :: rest else x :: addEntry rest e := by
  unfold addEntry putEntry
  rw [List.findIdx_cons]
  by_cases hx : x.inum = 0 <;> simp [hx]

theorem namesOf_addEntry (entries : List Dirent) (e : Dirent) (he : e.inum ≠ 0) (j : ℕ) :
    namesOf (addEntry entries e) j = namesOf entries j + if j = e.inum then 1 else 0 := by
  induction entries with
  | nil =>
    simp only [addEntry, putEntry, namesOf, List.findIdx_nil, List.take_nil, List.drop_nil,
      List.nil_append, List.countP_cons, List.countP_nil]
    grind
  | cons x rest ih =>
    rw [addEntry_cons]
    unfold namesOf at ih ⊢
    split
    · grind
    · grind

theorem mem_addEntry {entries : List Dirent} {e x : Dirent} (h : x ∈ addEntry entries e) :
    x ∈ entries ∨ x = e := by
  induction entries with
  | nil => exact .inr (by simpa [addEntry, putEntry] using h)
  | cons y rest ih =>
    rw [addEntry_cons] at h
    split at h
    · rcases List.mem_cons.mp h with rfl | h
      · exact .inr rfl
      · exact .inl (List.mem_cons_of_mem _ h)
    · rcases List.mem_cons.mp h with rfl | h
      · exact .inl List.mem_cons_self
      · exact (ih h).imp_left (List.mem_cons_of_mem _)

theorem namesOf_append (a b : List Dirent) (j : ℕ) :
    namesOf (a ++ b) j = namesOf a j + namesOf b j := List.countP_append

theorem namesOf_cons (e : Dirent) (rest : List Dirent) (j : ℕ) :
    namesOf (e :: rest) j = namesOf rest j + if e.inum ≠ 0 ∧ e.inum = j then 1 else 0 := by
  unfold namesOf
  rw [List.countP_cons]
  simp only [decide_eq_true_eq]

theorem putEntry_append (pre post : List Dirent) (old e : Dirent) :
    putEntry (pre ++ old :: post) pre.length e = pre ++ e :: post := by
  unfold putEntry
  simp

/-! ### Directories keep their shape -/

namespace Shaped

variable {r : Inode}

section

variable (h : Shaped i r) (hd : r.type = .dir)
include h hd

theorem entries_eq :
    r.entries = ⟨i, dot⟩ :: ⟨r.dotdot, Fs.dotdot⟩ :: r.children ∧ r.dotdot ≠ 0 ∧
      ∀ e ∈ r.children, e.inum ≠ 0 → e.name ≠ dot ∧ e.name ≠ Fs.dotdot := by
  obtain ⟨p, rest, hes, hp, hrest⟩ := h.dir hd
  have hdd : r.dotdot = p := by simp only [Inode.dotdot, hes]; rfl
  have hch : r.children = rest := by simp only [Inode.children, hes]; rfl
  rw [hdd, hch]
  exact ⟨hes, hp, hrest⟩

/-- A directory with new children. -/
theorem of_children (r' : Inode) {rest : List Dirent} (htype : r'.type = .dir)
    (hes : r'.entries = ⟨i, dot⟩ :: ⟨r.dotdot, Fs.dotdot⟩ :: rest)
    (hrest : ∀ e ∈ rest, e.inum ≠ 0 → e.name ≠ dot ∧ e.name ≠ Fs.dotdot) (hsmall : r'.nlink ≤ 32767) :
    Shaped i r' ∧ r'.dotdot = r.dotdot ∧ r'.children = rest := by
  refine ⟨⟨fun hn => absurd htype hn, fun _ => ⟨_, _, hes, (h.entries_eq hd).2.1, hrest⟩, hsmall⟩,
    ?_, ?_⟩
  · simp only [Inode.dotdot, hes]
    rfl
  · simp only [Inode.children, hes]
    rfl

/-- A name that `dirlookup` does not find in a directory is not "." or "..". -/
theorem name_ne (hi : i ≠ 0) (hname : findEntry name r.entries 0 = none) :
    name.take DIRSIZ ≠ dot ∧ name.take DIRSIZ ≠ Fs.dotdot := by
  obtain ⟨hes, hp, _⟩ := h.entries_eq hd
  rw [hes] at hname
  unfold findEntry at hname
  split at hname
  · cases hname
  · rename_i hdot
    unfold findEntry at hname
    split at hname
    · cases hname
    · rename_i hdotdot
      refine ⟨fun heq => hdot ⟨hi, ?_⟩, fun heq => hdotdot ⟨hp, ?_⟩⟩
      · exact decide_eq_true heq
      · exact decide_eq_true heq

theorem addEntry_entries (hi : i ≠ 0) (e : Dirent) :
    addEntry r.entries e = ⟨i, dot⟩ :: ⟨r.dotdot, Fs.dotdot⟩ :: addEntry r.children e := by
  obtain ⟨hes, hp, _⟩ := h.entries_eq hd
  rw [hes, addEntry_cons, if_neg hi, addEntry_cons, if_neg hp]

/-- The entry that `dirlookup` finds under a name other than "." and "..". -/
theorem child_of_findEntry {off : ℕ} (hdot : namecmp name dot = false)
    (hdotdot : namecmp name Fs.dotdot = false) (hf : findEntry name r.entries 0 = some (ip, off)) :
    ip ≠ 0 ∧ ∃ pre e post, r.children = pre ++ e :: post ∧ e.inum = ip ∧
      ∀ z, putEntry r.entries off z =
        ⟨i, dot⟩ :: ⟨r.dotdot, Fs.dotdot⟩ :: (pre ++ z :: post) := by
  obtain ⟨hes, hp, _⟩ := h.entries_eq hd
  rw [hes] at hf
  simp only [findEntry, hdot, hdotdot, Bool.false_eq_true, and_false, ↓reduceIte] at hf
  obtain ⟨hip, pre, e, post, hch, rfl, he, _⟩ := findEntry_some hf
  refine ⟨hip, pre, e, post, hch, he, fun z => ?_⟩
  rw [hes, hch]
  have hput := putEntry_append (⟨i, dot⟩ :: ⟨r.dotdot, Fs.dotdot⟩ :: pre) post e z
  have hoff : (⟨i, dot⟩ :: ⟨r.dotdot, Fs.dotdot⟩ :: pre : List Dirent).length =
      0 + 1 + 1 + pre.length := by
    simp only [List.length_cons]
    omega
  rw [hoff] at hput
  exact hput

end

end Shaped

/-! ### The changes the calls make -/

namespace Tree

section

variable (h : Tree m n table) (hi : (table i).type ≠ .free)
include h hi

theorem allocated_ne_zero : i ≠ 0 :=
  fun h0 => hi (h0 ▸ h.zero)

theorem allocated_lt : i < n :=
  Finset.mem_range.mp ((h.consistent.node i).mem fun hk => hi (kind_eq_free.mp hk))

theorem nlink_nonneg : 0 ≤ (table i).nlink :=
  (h.consistent.node i).nonneg fun hk => hi (kind_eq_free.mp hk)

end

/-- In an anchored tree every entry names an allocated inode. -/
theorem closed (h : Tree m n table) (ha : m.anchored) :
    Closed table ∧ (table ROOTINO).type ≠ .free := by
  have hroot := kind_eq_dir.mp h.consistent.root_linked.1
  refine ⟨fun d hd e he hne => ?_, Inode.ne_free_of_dir hroot⟩
  rw [((h.shaped d).entries_eq hd).1] at he
  rcases List.mem_cons.mp he with rfl | he
  · exact Inode.ne_free_of_dir hd
  rcases List.mem_cons.mp he with rfl | he
  · exact Inode.ne_free_of_dir
      (kind_eq_dir.mp ((h.consistent.node d).anchored ha (kind_eq_dir.mpr hd)).1)
  · have hpos : 0 < namesOf (table d).children e.inum :=
      List.countP_pos_iff.mpr ⟨e, he, decide_eq_true ⟨hne, rfl⟩⟩
    exact fun hfree => (h.consistent.name d e.inum).named_node hpos (kind_eq_free.mpr hfree)

theorem shaped_update (h : ∀ j, Shaped j (table j)) {r : Inode} (hr : Shaped i r) (j : ℕ) :
    Shaped j (update table i r j) :=
  (Function.forall_update_iff table Shaped).mpr ⟨hr, fun j _ => h j⟩ j

theorem zero_update (h : (table 0).type = .free) (hi : i ≠ 0) (r : Inode) :
    (update table i r 0).type = .free := by
  rw [update_of_ne hi.symm]
  exact h

section

variable (h : Tree m n table)
include h

section

variable (hdp : (table dp).type = .dir)
include hdp

/-- `dp` gets another number of entries for `ip`, and `ip` another link count. -/
theorem relinked
    (hip : (table ip).type ≠ .free) (hne : dp ≠ ip) {r : Inode} {k : ℤ} {c : ℕ}
    (htype : r.type = .dir) (hshaped : Shaped dp r) (hdd : r.dotdot = (table dp).dotdot)
    (hnames : ∀ j, namesOf r.children j = if j = ip then c else namesOf (table dp).children j)
    (hk : k ≤ 32767)
    (hgraph : ∀ G : Graph ℕ, (∀ j, G.kind j = (graph table).kind j) →
      (∀ j, G.parent j = (graph table).parent j) →
      (∀ j, G.count j = if j = ip then k else if j = dp then r.nlink else (table j).nlink) →
      (∀ d j, G.names d j = if d = dp ∧ j = ip then c else (graph table).names d j) →
      Consistent m (Finset.range n) ROOTINO G) :
    Tree m n (update (update table ip { table ip with nlink := k }) dp r) := by
  have hdp0 : dp ≠ 0 := h.allocated_ne_zero (Inode.ne_free_of_dir hdp)
  have hip0 : ip ≠ 0 := h.allocated_ne_zero hip
  refine ⟨shaped_update (shaped_update h.shaped ?_) hshaped, hgraph _ (fun j => ?_) (fun j => ?_)
    (fun j => ?_) (fun d j => ?_), zero_update (zero_update h.zero hip0 _) hdp0 _, h.small⟩
  · exact ⟨(h.shaped ip).nondir, (h.shaped ip).dir, hk⟩
  · grind
  · grind [Inode.dotdot]
  · grind
  · grind [Inode.children]

theorem entered_spec (hip : ip ≠ 0)
    (hname : findEntry name (table dp).entries 0 = none) {k : ℤ} (hk : k ≤ 32767) :
    Shaped dp { (table dp).entered ip name with nlink := k } ∧
      ((table dp).entered ip name).dotdot = (table dp).dotdot ∧
      ∀ j, namesOf ((table dp).entered ip name).children j =
        namesOf (table dp).children j + if j = ip then 1 else 0 := by
  have hdp0 : dp ≠ 0 := h.allocated_ne_zero (Inode.ne_free_of_dir hdp)
  have hsh := h.shaped dp
  obtain ⟨hshaped, hdd, hch⟩ := hsh.of_children hdp { (table dp).entered ip name with nlink := k }
    hdp (hsh.addEntry_entries hdp hdp0 _) (fun e he hne => by
      rcases mem_addEntry he with he | rfl
      · exact (hsh.entries_eq hdp).2.2 e he hne
      · exact hsh.name_ne hdp hdp0 hname) hk
  refine ⟨hshaped, hdd, fun j => ?_⟩
  have hch' : ((table dp).entered ip name).children = _ := hch
  rw [hch', namesOf_addEntry _ _ hip]

/-- A file gets another name. -/
theorem link
    (hip : (table ip).type ≠ .free ∧ (table ip).type ≠ .dir) (hnlink : (table ip).nlink < 32767)
    (ht : m.tidy → 0 < (table dp).nlink) (hname : findEntry name (table dp).entries 0 = none) :
    Tree m n (update (update table ip { table ip with nlink := (table ip).nlink + 1 }) dp
      ((table dp).entered ip name)) := by
  have hne : dp ≠ ip := fun heq => hip.2 (heq ▸ hdp)
  obtain ⟨hshaped, hdd, hnames⟩ := h.entered_spec hdp (h.allocated_ne_zero hip.1) hname
    (h.shaped dp).small
  refine h.relinked (c := namesOf (table dp).children ip + 1) hdp hip.1 hne hdp hshaped hdd
    (fun j => ?_) (by omega) fun G hkind hparent hcount hnamed => h.consistent.relink
      (n := (table ip).nlink + 1) (kind_eq_dir.mpr hdp) (kind_eq_leaf.mpr hip) hkind hparent
      (fun j => ?_) hnamed ?_ fun hm => .inr (ht hm)
  · grind
  · grind [Inode.entered]
  · simp only [graph_names, graph_count]
    omega

end

/-- `ialloc`: a fresh inode without links, with the entries of an empty directory if it
is one. -/
theorem alloc (hip : ip < n) (hip0 : ip ≠ 0)
    (hfree : (table ip).type = .free) {r : Inode} (hr : r.nlink = 0) (hshaped : Shaped ip r)
    (hchildren : r.children = []) (hp : r.type = .dir → m.anchored → (graph table).Linked r.dotdot) :
    Tree m n (update table ip r) := by
  refine ⟨shaped_update h.shaped hshaped, ?_, zero_update h.zero hip0 _, h.small⟩
  have hno : ∀ j, namesOf (table ip).children j = 0 := fun j =>
    (h.consistent.name ip j).names_dir (by simp only [graph_kind, hfree]; decide)
  refine h.consistent.alloc (i := ip) (k := r.type.kind) (p := r.dotdot) (Finset.mem_range.mpr hip)
    (kind_eq_free.mpr hfree) (fun hk => hp (kind_eq_dir.mp hk)) (fun j => ?_) (fun j => ?_)
    (fun j => ?_) (fun c j => ?_)
  · grind
  · grind
  · grind
  · grind [namesOf]

/-- A new directory gets its name. -/
theorem attach (hdp : (table dp).type = .dir) (hpos : 0 < (table dp).nlink)
    (hsmall : (table dp).nlink < 32767) (hip : (table ip).type = .dir)
    (hzero : (table ip).nlink = 0) (hp : (table ip).dotdot = dp)
    (hname : findEntry name (table dp).entries 0 = none) :
    Tree m n (update (update table ip { table ip with nlink := 1 }) dp
      { (table dp).entered ip name with nlink := (table dp).nlink + 1 }) := by
  have halloc := Inode.ne_free_of_dir hip
  have hne : dp ≠ ip := by
    rintro rfl
    omega
  obtain ⟨hshaped, hdd, hnames⟩ := h.entered_spec hdp (h.allocated_ne_zero halloc) hname
    (k := (table dp).nlink + 1) (by omega)
  have hnoname := h.consistent.names_removed (kind_eq_dir.mpr hip) hzero dp
  refine h.relinked hdp halloc hne hdp hshaped hdd (fun j => ?_) (by omega)
    fun G hkind hparent hcount hnamed => h.consistent.attach ⟨kind_eq_dir.mpr hdp, hpos⟩
      (kind_eq_dir.mpr hip) hzero hp hkind hparent (fun j => ?_) hnamed
  · exact (hnames j).trans (by grind)
  · grind

theorem cleared_spec (hdp : (table dp).type = .dir)
    (hdot : namecmp name dot = false) (hdotdot : namecmp name Fs.dotdot = false) {off : ℕ}
    (hf : findEntry name (table dp).entries 0 = some (ip, off)) {k : ℤ} (hk : k ≤ 32767) :
    Shaped dp { (table dp).cleared off with nlink := k } ∧
      ((table dp).cleared off).dotdot = (table dp).dotdot ∧
      ∀ j, namesOf ((table dp).cleared off).children j + (if j = ip then 1 else 0) =
        namesOf (table dp).children j := by
  have hsh := h.shaped dp
  obtain ⟨hip, pre, e, post, hch, rfl, hput⟩ := hsh.child_of_findEntry hdp hdot hdotdot hf
  obtain ⟨hshaped, hdd, hch'⟩ := hsh.of_children hdp { (table dp).cleared off with nlink := k }
    hdp (hput ⟨0, []⟩) (fun x hx hne => by
      refine (hsh.entries_eq hdp).2.2 x ?_ hne
      rw [hch]
      rcases List.mem_append.mp hx with hx | hx
      · exact List.mem_append_left _ hx
      · rcases List.mem_cons.mp hx with rfl | hx
        · exact absurd rfl hne
        · exact List.mem_append_right _ (List.mem_cons_of_mem _ hx)) hk
  refine ⟨hshaped, hdd, fun j => ?_⟩
  have hch'' : ((table dp).cleared off).children = pre ++ ⟨0, []⟩ :: post := hch'
  rw [hch'', hch, namesOf_append, namesOf_append, namesOf_cons, namesOf_cons]
  grind

end

section Unlink

variable (h : Tree m n table) (hdp : (table dp).type = .dir) (hdot : namecmp name dot = false)
  (hdotdot : namecmp name Fs.dotdot = false) {off : ℕ}
  (hf : findEntry name (table dp).entries 0 = some (ip, off))

include h hdp hdot hdotdot hf

/-- What `sys_unlink` finds has a name. -/
theorem named_of_findEntry : 0 < namesOf (table dp).children ip := by
  have := (h.cleared_spec hdp hdot hdotdot hf (h.shaped dp).small).2.2 ip
  grind

theorem allocated_of_findEntry : (table ip).type ≠ .free := fun hfree =>
  (h.consistent.name dp ip).named_node (h.named_of_findEntry hdp hdot hdotdot hf) (kind_eq_free.mpr hfree)

/-- A file loses a name. -/
theorem unlink (hip : (table ip).type ≠ .dir) :
    Tree m n (update (update table dp ((table dp).cleared off)) ip
      { table ip with nlink := (table ip).nlink - 1 }) := by
  have hne : dp ≠ ip := fun heq => hip (heq ▸ hdp)
  have halloc := h.allocated_of_findEntry hdp hdot hdotdot hf
  obtain ⟨hshaped, hdd, hnames⟩ := h.cleared_spec hdp hdot hdotdot hf (h.shaped dp).small
  have hpos := hnames ip
  rw [if_pos rfl] at hpos
  have hsmall := (h.shaped ip).small
  rw [Function.update_comm hne]
  refine h.relinked (c := namesOf ((table dp).cleared off).children ip) hdp halloc hne hdp hshaped
    hdd (fun j => ?_) (by omega) fun G hkind hparent hcount hnamed => h.consistent.relink
      (n := (table ip).nlink - 1) (kind_eq_dir.mpr hdp) (kind_eq_leaf.mpr ⟨halloc, hip⟩) hkind
      hparent (fun j => ?_) hnamed ?_ fun hm => ?_
  · grind
  · grind [Inode.cleared]
  · simp only [graph_names, graph_count]
    omega
  · -- A removed directory of a tidy graph has no names to begin with.
    right
    by_contra hzero
    have hcount := (h.consistent.node dp).nonneg (by simp only [graph_kind, hdp]; decide)
    have := (h.consistent.name dp ip).tidy hm (kind_eq_dir.mpr hdp) (by omega)
    rw [graph_names] at this
    omega

/-- An empty directory loses its name. -/
theorem detach (hip : (table ip).type = .dir) (hempty : isdirempty (table ip) = true)
    (ha : m.anchored → ∀ c, (table c).type = .dir → c ≠ ip → (table c).dotdot ≠ ip) :
    Tree m n (update (update table dp
        { (table dp).cleared off with nlink := (table dp).nlink - 1 }) ip
      { table ip with nlink := (table ip).nlink - 1 }) ∧
      (table ip).nlink = 1 ∧ 2 ≤ (table dp).nlink ∧ dp ≠ ip := by
  have halloc := h.allocated_of_findEntry hdp hdot hdotdot hf
  have hnamed := h.named_of_findEntry hdp hdot hdotdot hf
  obtain ⟨hroot, hp, hpos⟩ := (h.consistent.name dp ip).named_dir hnamed (kind_eq_dir.mpr hip)
  have hlinked : (graph table).Linked ip := ⟨kind_eq_dir.mpr hip, hpos⟩
  have hnonames : ∀ j, namesOf (table ip).children j = 0 := fun j =>
    List.countP_eq_zero.mpr fun e he => by
      have := List.all_eq_true.mp hempty e he
      grind
  have hone := h.consistent.count_eq_one hlinked hroot hnonames
  have htwo := h.consistent.two_le_count hlinked hroot hp
  rw [graph_count] at hone htwo
  have hne : dp ≠ ip := by
    rintro rfl
    omega
  obtain ⟨hshaped, hdd, hnames⟩ := h.cleared_spec hdp hdot hdotdot hf
    (k := (table dp).nlink - 1) (by have := (h.shaped dp).small; omega)
  have hchild := ((h.consistent.node ip).child hlinked hroot).2
  refine ⟨?_, hone, htwo, hne⟩
  rw [Function.update_comm hne]
  refine h.relinked hdp halloc hne hdp hshaped hdd (fun j => ?_) (by omega)
    fun G hkind hparent hcount hnames' => h.consistent.detach (kind_eq_dir.mpr hip) hnamed hnonames
      (fun hm c hc => ha hm c (kind_eq_dir.mp hc)) hkind hparent (fun j => ?_) hnames'
  · have := hnames j
    change namesOf ((table dp).cleared off).children j = _
    grind
  · grind

/-- What `sys_unlink` removes, with the counts as it computes them. -/
theorem remove (hempty : (table ip).type = .dir → isdirempty (table ip) = true)
    (ha : m.anchored → (table ip).type = .dir →
      ∀ c, (table c).type = .dir → c ≠ ip → (table c).dotdot ≠ ip) {k : ℤ}
    (hk : k = if (table ip).type = .dir then int16 ((table dp).nlink - 1) else (table dp).nlink) :
    Tree m n (update (update table dp { (table dp).cleared off with nlink := k }) ip
      { table ip with nlink := int16 ((table ip).nlink - 1) }) ∧
      dp ≠ ip ∧ (k = 0 → (table dp).nlink = 0) := by
  have halloc := h.allocated_of_findEntry hdp hdot hdotdot hf
  have hnonneg := h.nlink_nonneg halloc
  have hsmall := (h.shaped ip).small
  have hsmall_dp := (h.shaped dp).small
  rw [int16_eq (k := (table ip).nlink - 1) (by omega) (by omega)]
  by_cases hip : (table ip).type = .dir
  · obtain ⟨htree, _, htwo, hne⟩ := h.detach hdp hdot hdotdot hf hip (hempty hip)
      fun hm => ha hm hip
    rw [if_pos hip, int16_eq (by omega) (by omega)] at hk
    subst hk
    exact ⟨htree, hne, by omega⟩
  · rw [if_neg hip] at hk
    subst hk
    exact ⟨h.unlink hdp hdot hdotdot hf hip, fun heq => hip (heq ▸ hdp), id⟩

end Unlink

/-- `iput` frees an inode without links. -/
theorem free (h : Tree m n table) (hi : (table i).type ≠ .free) (hzero : (table i).nlink = 0) :
    Tree m n (update table i (freed (table i))) := by
  have hi0 : i ≠ 0 := h.allocated_ne_zero hi
  refine ⟨shaped_update h.shaped ?_, ?_, zero_update h.zero hi0 _, h.small⟩
  · exact ⟨fun _ => rfl, by simp [freed], (h.shaped i).small⟩
  · refine h.consistent.release (i := i) (fun hk => hi (kind_eq_free.mp hk)) hzero (fun j => ?_)
      (fun j hj => ?_) (fun j => ?_) (fun c j => ?_)
    · grind [freed, FileType.kind]
    · rw [graph_parent, update_of_ne hj, graph_parent]
    · grind [freed]
    · grind [freed, Inode.children, namesOf]

/-- A free inode's record may change as long as it stays empty. -/
theorem reset (h : Tree m n table) (hip : ip < n) (hip0 : ip ≠ 0)
    (hfree : (table ip).type = .free) (major minor : ℤ) :
    Tree m n (update table ip ⟨.free, major, minor, 0, []⟩) := by
  have halloc := h.alloc (r := ⟨.file, major, minor, 0, []⟩) hip hip0 hfree rfl
    ⟨fun _ => rfl, by simp, by norm_num⟩ rfl (by simp)
  have hfreed := halloc.free (i := ip) (by rw [update_self]; simp) (by rw [update_self])
  rw [update_idem, update_self] at hfreed
  exact hfreed

end Tree

end Xv6.Fs
