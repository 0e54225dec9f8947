import Mathlib.Algebra.Order.BigOperators.Group.Finset
import Mathlib.Tactic.Ring

/-!
Trees of directories with counted links.

A graph has leaves and directories; a directory holds names of nodes and a pointer to
its parent, and every node carries a link count. A directory is linked while its count
is positive; once it is at zero it is removed, and stays until it is freed. The
invariant `Consistent` ties the counts to the names: a leaf counts its names, and a
linked directory counts the one name it has and the parent pointers of its linked
subdirectories.

Two properties are optional, since they depend on how the operations are used. In a
`tidy` graph removed directories hold no names, so that the leaves' counts are exact; in
an `anchored` one the parent pointers of removed directories, too, lead to linked
directories. Every operation is shown to keep the invariant, each with what it needs
for the optional parts.
-/

namespace Xv6.LinkGraph

inductive Kind where
  | free
  | leaf
  | dir
deriving DecidableEq

structure Graph (ι : Type) where
  kind : ι → Kind
  count : ι → ℤ
  parent : ι → ι
  /-- How often a directory names a node. -/
  names : ι → ι → ℕ

/-- Which of the optional properties hold. -/
structure Mode where
  tidy : Prop
  anchored : Prop

variable {ι : Type}

namespace Graph

def Linked (G : Graph ι) (d : ι) : Prop := G.kind d = .dir ∧ 0 < G.count d

instance (G : Graph ι) (d : ι) : Decidable (G.Linked d) := by unfold Linked; infer_instance

/-- The linked directories whose parent pointer names `i`. -/
def pointing [DecidableEq ι] (G : Graph ι) (nodes : Finset ι) (i : ι) : Finset ι :=
  nodes.filter fun c => G.Linked c ∧ G.parent c = i

/-- All names of `i`. -/
def named (G : Graph ι) (nodes : Finset ι) (i : ι) : ℕ := ∑ d ∈ nodes, G.names d i

end Graph

/-- What the invariant says of the name that directory `d` may have for node `i`. -/
structure NameOk (m : Mode) (root : ι) (G : Graph ι) (d i : ι) : Prop where
  names_dir : G.kind d ≠ .dir → G.names d i = 0
  named_node : 0 < G.names d i → G.kind i ≠ .free
  named_dir : 0 < G.names d i → G.kind i = .dir → i ≠ root ∧ G.parent i = d ∧ 0 < G.count i
  tidy : m.tidy → G.kind d = .dir → G.count d = 0 → G.names d i = 0

/-- What the invariant says of node `i`. -/
structure NodeOk [DecidableEq ι] (m : Mode) (nodes : Finset ι) (root : ι) (G : Graph ι) (i : ι) :
    Prop where
  mem : G.kind i ≠ .free → i ∈ nodes
  nonneg : G.kind i ≠ .free → 0 ≤ G.count i
  child : G.Linked i → i ≠ root → G.Linked (G.parent i) ∧ G.names (G.parent i) i = 1
  count_dir : G.Linked i → G.count i = G.named nodes i + (G.pointing nodes i).card
  count_leaf : G.kind i = .leaf → (G.named nodes i : ℤ) ≤ G.count i
  exact_leaf : m.tidy → G.kind i = .leaf → G.count i ≤ G.named nodes i
  anchored : m.anchored → G.kind i = .dir → G.Linked (G.parent i)

/-- The counts agree with the names. The root has no name; its count includes its own
parent pointer instead. -/
structure Consistent [DecidableEq ι] (m : Mode) (nodes : Finset ι) (root : ι) (G : Graph ι) : Prop where
  root_linked : G.Linked root
  root_parent : G.parent root = root
  name : ∀ d i, NameOk m root G d i
  node : ∀ i, NodeOk m nodes root G i

variable {m : Mode} {nodes : Finset ι} {root : ι} {G H : Graph ι} {d i j : ι}

/-! ### What an operation does to the sums -/

namespace Graph

/-- One entry of the name table changes. -/
theorem named_add [DecidableEq ι] (hd : d ∈ nodes) (hother : ∀ c, c ≠ d → H.names c i = G.names c i) :
    H.named nodes i + G.names d i = G.named nodes i + H.names d i := by
  unfold named
  rw [← Finset.add_sum_erase nodes _ hd, ← Finset.add_sum_erase nodes _ hd,
    Finset.sum_congr rfl fun c hc => hother c (Finset.ne_of_mem_erase hc)]
  ring

theorem named_congr (h : ∀ d, H.names d i = G.names d i) : H.named nodes i = G.named nodes i :=
  Finset.sum_congr rfl fun d _ => h d

theorem named_le (h : ∀ d, H.names d i ≤ G.names d i) : H.named nodes i ≤ G.named nodes i :=
  Finset.sum_le_sum fun d _ => h d

theorem named_eq_zero (h : ∀ d, G.names d i = 0) : G.named nodes i = 0 :=
  Finset.sum_eq_zero fun d _ => h d

theorem names_le_named (hd : d ∈ nodes) : G.names d i ≤ G.named nodes i :=
  Finset.single_le_sum (f := fun c => G.names c i) (fun _ _ => Nat.zero_le _) hd

theorem names_eq_zero_of_named (h : G.named nodes i = 0) (hd : d ∈ nodes) : G.names d i = 0 :=
  Finset.sum_eq_zero_iff.mp h d hd

variable [DecidableEq ι]

theorem pointing_congr (h : ∀ c, H.Linked c ∧ H.parent c = i ↔ G.Linked c ∧ G.parent c = i) :
    H.pointing nodes i = G.pointing nodes i :=
  Finset.filter_congr fun c _ => h c

theorem mem_pointing {c : ι} :
    c ∈ G.pointing nodes i ↔ c ∈ nodes ∧ G.Linked c ∧ G.parent c = i := Finset.mem_filter

/-- One more directory points to `i`. -/
theorem card_pointing_add {c : ι} (hc : c ∈ nodes) (hold : ¬ G.Linked c)
    (hnew : H.Linked c ∧ H.parent c = i)
    (hother : ∀ b, b ≠ c → (H.Linked b ∧ H.parent b = i ↔ G.Linked b ∧ G.parent b = i)) :
    (H.pointing nodes i).card = (G.pointing nodes i).card + 1 := by
  have hnot : c ∉ G.pointing nodes i := fun h => hold (mem_pointing.mp h).2.1
  rw [← Finset.card_insert_of_notMem hnot]
  congr 1
  ext b
  rw [mem_pointing, Finset.mem_insert, mem_pointing]
  by_cases hb : b = c
  · subst hb
    simp only [hc, hnew, and_self, true_or]
  · simp only [hother b hb, hb, false_or]

end Graph

open LinkGraph.Graph (named_congr pointing_congr)

namespace Consistent

variable [DecidableEq ι]

/-! ### Consequences -/

section

variable (h : Consistent m nodes root G)
include h

theorem linked_mem (hd : G.Linked d) : d ∈ nodes :=
  (h.node d).mem (by rw [hd.1]; nofun)

/-- A node with a name in `d` makes `d` a directory. -/
theorem dir_of_names (hn : 0 < G.names d i) : G.kind d = .dir :=
  Decidable.byContradiction fun hd => absurd ((h.name d i).names_dir hd) (by omega)

theorem dir_mem (hd : G.kind d = .dir) : d ∈ nodes :=
  (h.node d).mem (by rw [hd]; nofun)

/-- A node with a name has links. -/
theorem count_pos (hn : 0 < G.names d i) : 0 < G.count i := by
  cases hk : G.kind i with
  | free => exact absurd hk ((h.name d i).named_node hn)
  | dir => exact ((h.name d i).named_dir hn hk).2.2
  | leaf =>
    have hle := (h.node i).count_leaf hk
    have : G.names d i ≤ G.named nodes i := Graph.names_le_named (h.dir_mem (h.dir_of_names hn))
    omega

/-- A removed directory has no name. -/
theorem names_removed (hk : G.kind i = .dir) (hc : G.count i = 0) (d : ι) : G.names d i = 0 := by
  by_contra hn
  have := ((h.name d i).named_dir (by omega) hk).2.2
  omega

/-- No linked directory points to a node that is not a linked directory. -/
theorem pointing_empty (hi : ¬ G.Linked i) : G.pointing nodes i = ∅ := by
  refine Finset.filter_eq_empty_iff.mpr fun c _ => ?_
  rintro ⟨hc, rfl⟩
  by_cases hroot : c = root
  · exact hi (by rw [hroot, h.root_parent]; exact h.root_linked)
  · exact hi ((h.node c).child hc hroot).1

/-- A linked directory other than the root has one name. -/
theorem named_eq_one (hi : G.Linked i) (hroot : i ≠ root) : G.named nodes i = 1 := by
  obtain ⟨hp, hone⟩ := (h.node i).child hi hroot
  unfold Graph.named
  rw [Finset.sum_eq_single (G.parent i), hone]
  · intro c _ hc
    by_contra hn
    exact hc ((h.name c i).named_dir (by omega) hi.1).2.1.symm
  · exact fun hnot => absurd (h.linked_mem hp) hnot

/-- A directory that holds a directory counts at least two. -/
theorem two_le_count (hi : G.Linked i) (hroot : i ≠ root) (hp : G.parent i = d) :
    2 ≤ G.count d := by
  have hd : G.Linked d := hp ▸ ((h.node i).child hi hroot).1
  have hcount := (h.node d).count_dir hd
  have hi' : i ∈ G.pointing nodes d := Graph.mem_pointing.mpr ⟨h.linked_mem hi, hi, hp⟩
  by_cases hdr : d = root
  · subst hdr
    have hd' : d ∈ G.pointing nodes d :=
      Graph.mem_pointing.mpr ⟨h.linked_mem hd, hd, h.root_parent⟩
    have : 1 < (G.pointing nodes d).card := Finset.one_lt_card.mpr ⟨i, hi', d, hd', hroot⟩
    omega
  · have hone := h.named_eq_one hd hdr
    have : 0 < (G.pointing nodes d).card := Finset.card_pos.mpr ⟨i, hi'⟩
    omega

/-- No linked directory points to a directory without names. -/
theorem pointing_empty_of_no_names (hroot : i ≠ root) (hempty : ∀ j, G.names i j = 0) :
    G.pointing nodes i = ∅ := by
  refine Finset.filter_eq_empty_iff.mpr fun c _ => ?_
  rintro ⟨hc, rfl⟩
  by_cases hcr : c = root
  · exact hroot (hcr ▸ h.root_parent)
  · have := ((h.node c).child hc hcr).2
    rw [hempty c] at this
    cases this

/-- A named directory without names counts one. -/
theorem count_eq_one (hi : G.Linked i) (hroot : i ≠ root) (hempty : ∀ j, G.names i j = 0) :
    G.count i = 1 := by
  rw [(h.node i).count_dir hi, h.named_eq_one hi hroot, h.pointing_empty_of_no_names hroot hempty]
  rfl

/-- **Counts are exact** in a tidy graph: a node's count is the number of its names and
of the linked directories that point to it. -/
theorem count_eq (ht : m.tidy) (hi : G.kind i ≠ .free) :
    G.count i = G.named nodes i + (G.pointing nodes i).card := by
  cases hk : G.kind i with
  | free => exact absurd hk hi
  | leaf =>
    have hle := (h.node i).count_leaf hk
    have hge := (h.node i).exact_leaf ht hk
    rw [h.pointing_empty fun hl => by rw [hl.1] at hk; cases hk]
    simp only [Finset.card_empty, Nat.cast_zero]
    omega
  | dir =>
    by_cases hpos : 0 < G.count i
    · exact (h.node i).count_dir ⟨hk, hpos⟩
    · have hzero : G.count i = 0 := by
        have := (h.node i).nonneg hi
        omega
      rw [h.pointing_empty fun hl => hpos hl.2, Graph.named_eq_zero (h.names_removed hk hzero),
        hzero]
      rfl

/-! ### The operations

Each lemma takes the new graph `H` by its equations, so that it applies to any
representation of a graph. -/

/-- A fresh node without links. -/
theorem alloc {k : Kind} {p : ι} (hi : i ∈ nodes) (hfree : G.kind i = .free)
    (hp : k = .dir → m.anchored → G.Linked p)
    (hkind : ∀ j, H.kind j = if j = i then k else G.kind j)
    (hparent : ∀ j, H.parent j = if j = i then p else G.parent j)
    (hcount : ∀ j, H.count j = if j = i then 0 else G.count j)
    (hnames : ∀ c j, H.names c j = G.names c j) : Consistent m nodes root H := by
  have hlinked : ∀ c, H.Linked c ↔ G.Linked c := by
    simp only [Graph.Linked, hkind, hcount]
    grind
  have hroot : root ≠ i := fun hr => absurd (hr ▸ h.root_linked.1) (by rw [hfree]; nofun)
  have hnoname : ∀ c, G.names c i = 0 := fun c => by
    have := (h.name c i).named_node
    grind
  have hpointing : ∀ j, H.pointing nodes j = G.pointing nodes j := fun j =>
    pointing_congr fun c => by
      grind [Graph.Linked]
  have hnamed : ∀ j, H.named nodes j = G.named nodes j := fun j =>
    named_congr fun c => hnames c j
  have hzero : G.named nodes i = 0 := Graph.named_eq_zero hnoname
  refine ⟨(hlinked root).mpr h.root_linked, by rw [hparent, if_neg hroot, h.root_parent],
    fun c j => ?_, fun j => ?_⟩
  · cases h.name c j
    constructor <;> grind [Graph.Linked]
  · cases h.node j
    constructor <;> grind [Graph.Linked]

/-- A leaf gains or loses names in one directory, and its count follows. -/
theorem relink (hd : G.kind d = .dir) (hi : G.kind i = .leaf) (hkind : ∀ j, H.kind j = G.kind j)
    (hparent : ∀ j, H.parent j = G.parent j) {n : ℤ} {k : ℕ}
    (hcount : ∀ j, H.count j = if j = i then n else G.count j)
    (hnames : ∀ c j, H.names c j = if c = d ∧ j = i then k else G.names c j)
    (hsum : n + G.names d i = G.count i + k) (ht : m.tidy → k = 0 ∨ 0 < G.count d) :
    Consistent m nodes root H := by
  have hlinked : ∀ c, H.Linked c ↔ G.Linked c := by
    simp only [Graph.Linked, hkind, hcount]
    grind
  have hpointing : ∀ j, H.pointing nodes j = G.pointing nodes j := fun j =>
    pointing_congr fun c => by rw [hlinked, hparent]
  have hnamed : H.named nodes i + G.names d i = G.named nodes i + H.names d i :=
    Graph.named_add (h.dir_mem hd) fun c hc => by grind
  have hsame : ∀ j, j ≠ i → H.named nodes j = G.named nodes j := fun j hj =>
    named_congr fun c => by grind
  have hle := (h.node i).count_leaf hi
  have hnonneg := (h.node i).nonneg (by rw [hi]; nofun)
  refine ⟨(hlinked root).mpr h.root_linked, (hparent root).trans h.root_parent,
    fun c j => ?_, fun j => ?_⟩
  · cases h.name c j
    constructor <;> grind [Graph.Linked]
  · cases h.node j
    constructor <;> grind [Graph.Linked]

/-- A removed directory `i` gets a name in its parent `d`. -/
theorem attach (hd : G.Linked d) (hi : G.kind i = .dir) (hzero : G.count i = 0)
    (hp : G.parent i = d) (hkind : ∀ j, H.kind j = G.kind j)
    (hparent : ∀ j, H.parent j = G.parent j)
    (hcount : ∀ j, H.count j = if j = i then 1 else if j = d then G.count d + 1 else G.count j)
    (hnames : ∀ c j, H.names c j = if c = d ∧ j = i then 1 else G.names c j) :
    Consistent m nodes root H := by
  have hdi : d ≠ i := fun h' => by
    have := hd.2
    grind
  have hroot : root ≠ i := fun h' => by
    have := h.root_linked.2
    grind
  have hnoname := h.names_removed hi hzero
  have hlinked : ∀ c, H.Linked c ↔ c = i ∨ G.Linked c := by
    grind [Graph.Linked]
  have hnamed : H.named nodes i = 1 := by
    have := Graph.named_add (i := i) (H := H) (G := G) (h.linked_mem hd) fun c hc => by grind
    have hzero : G.named nodes i = 0 := Graph.named_eq_zero hnoname
    grind
  have hsame : ∀ j, j ≠ i → H.named nodes j = G.named nodes j := fun j hj =>
    named_congr fun c => by grind
  have hpointing : ∀ j, j ≠ d → H.pointing nodes j = G.pointing nodes j := fun j hj =>
    pointing_congr fun c => by grind
  have hpointing_d : (H.pointing nodes d).card = (G.pointing nodes d).card + 1 :=
    Graph.card_pointing_add (c := i) (h.dir_mem hi) (fun hl => by grind [Graph.Linked])
      (by grind) fun b hb => by grind
  have hempty := h.pointing_empty (i := i) fun hl => by grind [Graph.Linked]
  refine ⟨(hlinked root).mpr (.inr h.root_linked), (hparent root).trans h.root_parent,
    fun c j => ?_, fun j => ?_⟩
  · cases h.name c j
    constructor <;> grind [Graph.Linked]
  · cases h.node j
    constructor <;> grind [Graph.Linked]

/-- A directory `i` without names loses its name in its parent `d`, and is removed. -/
theorem detach (hi : G.kind i = .dir) (hn : 0 < G.names d i) (hempty : ∀ j, G.names i j = 0)
    (ha : m.anchored → ∀ c, G.kind c = .dir → c ≠ i → G.parent c ≠ i)
    (hkind : ∀ j, H.kind j = G.kind j) (hparent : ∀ j, H.parent j = G.parent j)
    (hcount : ∀ j, H.count j = if j = i then 0 else if j = d then G.count d - 1 else G.count j)
    (hnames : ∀ c j, H.names c j = if c = d ∧ j = i then 0 else G.names c j) :
    Consistent m nodes root H := by
  obtain ⟨hroot, hp, hpos⟩ := (h.name d i).named_dir hn hi
  have hil : G.Linked i := ⟨hi, hpos⟩
  have hone := h.named_eq_one hil hroot
  have htwo := h.two_le_count hil hroot hp
  have hcounti := h.count_eq_one hil hroot hempty
  have hnopoint := h.pointing_empty_of_no_names hroot hempty
  obtain ⟨hd, hname⟩ := (h.node i).child hil hroot
  have hdi : d ≠ i := fun h' => by grind
  have hlinked : ∀ c, H.Linked c ↔ c ≠ i ∧ G.Linked c := by
    simp only [Graph.Linked, hkind, hcount]
    grind
  have hsame : ∀ j, j ≠ i → H.named nodes j = G.named nodes j := fun j hj =>
    named_congr fun c => by grind
  have hpointing : ∀ j, j ≠ d → H.pointing nodes j = G.pointing nodes j := fun j hj =>
    pointing_congr fun c => by grind
  have hpointing_d : (G.pointing nodes d).card = (H.pointing nodes d).card + 1 :=
    Graph.card_pointing_add (c := i) (h.dir_mem hi) (fun hl => by grind) (by grind)
      fun b hb => by grind
  have hnotchild : ∀ c, G.Linked c → c ≠ root → G.parent c ≠ i := fun c hc hcr hci => by
    have := ((h.node c).child hc hcr).2
    grind
  refine ⟨(hlinked root).mpr ⟨hroot.symm, h.root_linked⟩, (hparent root).trans h.root_parent,
    fun c j => ?_, fun j => ?_⟩
  · cases h.name c j
    constructor <;> grind [Graph.Linked]
  · cases h.node j
    constructor <;> grind [Graph.Linked]

/-- A node without links is freed, with the names it holds. -/
theorem release (hi : G.kind i ≠ .free) (hzero : G.count i = 0)
    (hkind : ∀ j, H.kind j = if j = i then .free else G.kind j)
    (hparent : ∀ j, j ≠ i → H.parent j = G.parent j) (hcount : ∀ j, H.count j = G.count j)
    (hnames : ∀ c j, H.names c j = if c = i then 0 else G.names c j) :
    Consistent m nodes root H := by
  have hroot : root ≠ i := fun h' => by
    have := h.root_linked.2
    grind
  have hlinked : ∀ c, H.Linked c ↔ G.Linked c := by
    simp only [Graph.Linked, hkind, hcount]
    grind
  have hnoname : ∀ c, G.names c i = 0 := fun c => by
    cases hk : G.kind i with
    | free => exact absurd hk hi
    | dir => exact h.names_removed hk hzero c
    | leaf =>
      by_cases hc : G.kind c = .dir
      · have := (h.node i).count_leaf hk
        exact Graph.names_eq_zero_of_named (by omega) (h.dir_mem hc)
      · exact (h.name c i).names_dir hc
  have hle : ∀ j, H.named nodes j ≤ G.named nodes j := fun j =>
    Graph.named_le fun c => by grind
  have heq : ∀ j, G.names i j = 0 → H.named nodes j = G.named nodes j := fun j hj =>
    named_congr fun c => by grind
  have hpointing : ∀ j, H.pointing nodes j = G.pointing nodes j := fun j =>
    pointing_congr fun c => by
      rw [hlinked]
      by_cases hc : c = i
      · subst hc
        grind [Graph.Linked]
      · rw [hparent c hc]
  refine ⟨(hlinked root).mpr h.root_linked, (hparent root hroot).trans h.root_parent,
    fun c j => ?_, fun j => ?_⟩
  · cases h.name c j
    constructor <;> grind [Graph.Linked]
  · cases h.node j
    cases h.name i j
    constructor <;> grind [Graph.Linked]

end

end Consistent

end Xv6.LinkGraph
