import Xv6.Lib.Wp
import Xv6.Fs.Syscall

/-!
Reference counts of the inode table, and what path lookup does.

While a call runs, the references to an inode are the pointers that outlive the call
(`keep`) and the ones held in the call's local variables (`pins`). `Refs` says that the
counts are exact, and that an inode without links is kept by a pointer. As long as it
holds, `iput` never frees an inode, so that lookups leave all inodes alone: a lookup
returns what the pure function `resolve` computes from the directories, with one pin on
the result (`wp_namex`). One inode can be exempt: one that is just being created, or
that has just lost a link or a pointer. The `iput` that follows frees it if nothing
refers to it any more (`wp_iput_last`).
-/

namespace Xv6.Fs

open Function (update update_of_ne update_self update_apply update_idem)
open Wp

/-! ### Lookup without references -/

/-- The inode a directory's entries have under a name. -/
def lookup (r : Inode) (name : Name) : Option ℕ := (findEntry name r.entries 0).map Prod.fst

/-- The inode that `walk` reaches, and the last element if it stops early. -/
def resolve (table : ℕ → Inode) (parent : Bool) : ℕ → List Name → Option (ℕ × Name)
  | i, [] => if parent then none else some (i, [])
  | i, name :: rest =>
    if (table i).type ≠ .dir then none
    else if parent ∧ rest = [] then some (i, name)
    else (lookup (table i) name).bind fun j => resolve table parent j rest

/-- Where `namex` starts. -/
def State.start (s : State) (p : Fin NPROC) (path : List Char) : Option ℕ :=
  if path.head? = some '/' then some ROOTINO else (s.proc p).cwd

/-- What `namex` finds. -/
def State.find (s : State) (p : Fin NPROC) (path : List Char) (parent : Bool) :
    Option (ℕ × Name) :=
  (s.start p path).bind fun i => resolve s.inode parent i (elements path)

/-- Every entry of a directory names an allocated inode. -/
def Closed (table : ℕ → Inode) : Prop :=
  ∀ d, (table d).type = .dir → ∀ e ∈ (table d).entries, e.inum ≠ 0 → (table e.inum).type ≠ .free

variable {table table' : ℕ → Inode} {parent : Bool} {i j : ℕ} {names : List Name} {name : Name}

/-- What `findEntry` finds is an entry of that name. -/
theorem findEntry_some {entries : List Dirent} {n k : ℕ}
    (h : findEntry name entries n = some (i, k)) :
    i ≠ 0 ∧ ∃ pre e post, entries = pre ++ e :: post ∧ k = n + pre.length ∧ e.inum = i ∧
      namecmp name e.name = true := by
  induction entries generalizing n with
  | nil => cases h
  | cons e rest ih =>
    unfold findEntry at h
    split at h
    · rename_i he
      cases h
      exact ⟨he.1, [], e, rest, rfl, rfl, rfl, he.2⟩
    · obtain ⟨hi, pre, e', post, rfl, rfl, rest'⟩ := ih h
      exact ⟨hi, e :: pre, e', post, rfl, by rw [List.length_cons]; omega, rest'⟩

/-- A name in a directory of a closed table names an allocated inode. -/
theorem Closed.allocated_of_findEntry {d k : ℕ} (h : Closed table) (hd : (table d).type = .dir)
    (hf : findEntry name (table d).entries 0 = some (i, k)) : (table i).type ≠ .free := by
  obtain ⟨hi, pre, e, post, hes, _, rfl, _⟩ := findEntry_some hf
  exact h d hd e (by rw [hes]; exact List.mem_append_right _ List.mem_cons_self) hi

/-- Lookup in a closed table finds allocated inodes. -/
theorem Closed.resolve (h : Closed table) (hi : (table i).type ≠ .free)
    (hr : resolve table parent i names = some (j, name)) : (table j).type ≠ .free := by
  induction names generalizing i with
  | nil =>
    unfold Fs.resolve at hr
    split at hr
    · cases hr
    · cases hr
      exact hi
  | cons n rest ih =>
    unfold Fs.resolve at hr
    split at hr
    · cases hr
    · rename_i hd
      split at hr
      · cases hr
        exact hi
      · obtain ⟨k, hk, hr⟩ := Option.bind_eq_some_iff.mp hr
        obtain ⟨⟨k', off⟩, hf, rfl⟩ := Option.map_eq_some_iff.mp hk
        exact ih (h.allocated_of_findEntry (Decidable.not_not.mp hd) hf) hr

/-- The inode found for `nameiparent` is a directory. -/
theorem resolve_parent_dir (hr : resolve table true i names = some (j, name)) :
    (table j).type = .dir := by
  induction names generalizing i with
  | nil => cases hr
  | cons n rest ih =>
    unfold Fs.resolve at hr
    split at hr
    · cases hr
    · rename_i hd
      split at hr
      · cases hr
        exact Decidable.not_not.mp hd
      · obtain ⟨k, _, hr⟩ := Option.bind_eq_some_iff.mp hr
        exact ih hr

/-- Looking up the whole path is looking up its last element in the parent. -/
theorem resolve_eq_lookup (hr : resolve table true i names = some (j, name)) :
    resolve table false i names = (lookup (table j) name).map fun k => (k, []) := by
  induction names generalizing i with
  | nil => cases hr
  | cons n rest ih =>
    unfold Fs.resolve at hr ⊢
    split at hr
    · cases hr
    · rename_i hd
      rw [if_neg hd]
      split at hr
      · rename_i hrest
        cases hr
        rw [hrest.2, if_neg (by simp)]
        cases lookup (table j) name <;> rfl
      · obtain ⟨k, hk, hr⟩ := Option.bind_eq_some_iff.mp hr
        rw [if_neg (by simp), hk]
        exact ih hr

/-- Lookup reads types and entries only. -/
theorem resolve_congr (htype : ∀ i, (table' i).type = (table i).type)
    (hentries : ∀ i, (table' i).entries = (table i).entries) :
    resolve table' parent i names = resolve table parent i names := by
  induction names generalizing i with
  | nil => rfl
  | cons n rest ih => simp only [resolve, lookup, htype, hentries, ih]

/-! ### Reference counts -/

/-- The panics the specifications allow: never `unlink: nlink < 1`, and where `closed`
is assumed, never `ilock: no type`. -/
def Allowed (closed : Prop) (e : Panic) : Prop := e ≠ .nlink ∧ (closed → e ≠ .noType)

/-- What a lookup leaves alone. -/
structure Same (s t : State) : Prop where
  ninodes : t.ninodes = s.ninodes
  inode : t.inode = s.inode
  file : t.file = s.file
  proc : t.proc = s.proc

theorem Same.refl (s : State) : Same s s := ⟨rfl, rfl, rfl, rfl⟩

theorem Same.trans {s t u : State} (h : Same s t) (h' : Same t u) : Same s u :=
  ⟨h'.ninodes.trans h.ninodes, h'.inode.trans h.inode, h'.file.trans h.file,
    h'.proc.trans h.proc⟩

theorem Same.find {s t : State} (h : Same s t) (p : Fin NPROC) (path : List Char)
    (parent : Bool) : t.find p path parent = s.find p path parent := by
  unfold State.find State.start
  rw [h.inode, h.proc]

/-- The counts are exact, what is pointed to is allocated, and what is allocated without
links is pointed to, unless it is the exempt inode. -/
structure Refs (exempt : Option ℕ) (keep : ℕ → ℕ) (pins : List ℕ) (s : State) : Prop where
  ref_eq : ∀ i, s.ref i = keep i + pins.count i
  used : ∀ i, 0 < keep i → (s.inode i).type ≠ .free
  loaded : ∀ i, 0 < s.ref i → s.valid i = true → (s.inode i).type ≠ .free
  held : ∀ i, exempt ≠ some i → (s.inode i).type ≠ .free → (s.inode i).nlink = 0 →
    0 < keep i ∧ s.valid i = true

/-- Inodes in use that have been read stay so. -/
def StaysValid (s t : State) : Prop := ∀ j, 0 < s.ref j → s.valid j = true → t.valid j = true

variable {exempt : Option ℕ} {keep : ℕ → ℕ} {pins : List ℕ} {s t : State} {closed : Prop}

/-- No pointer refers to a free inode. -/
theorem Refs.unpointed_of_free {i : ℕ} (h : Refs exempt keep pins s) (hfree : (s.inode i).type = .free) :
    keep i = 0 := by
  by_contra hk
  exact h.used i (Nat.pos_of_ne_zero hk) hfree

/-- A step that changes counts and `valid` only. -/
theorem Refs.of_same {pins' : List ℕ} (h : Refs exempt keep pins s) (hst : Same s t)
    (href : ∀ j, t.ref j = keep j + pins'.count j)
    (hloaded : ∀ j, 0 < t.ref j → t.valid j = true →
      0 < s.ref j ∧ s.valid j = true ∨ (s.inode j).type ≠ .free)
    (hvalid : ∀ j, 0 < keep j → s.valid j = true → t.valid j = true) : Refs exempt keep pins' t where
  ref_eq := href
  used j hj := by
    rw [hst.inode]
    exact h.used j hj
  loaded j hj hv := by
    rw [hst.inode]
    rcases hloaded j hj hv with ⟨hj, hv⟩ | htype
    · exact h.loaded j hj hv
    · exact htype
  held j hx hj hl := by
    rw [hst.inode] at hj hl
    obtain ⟨hkeep, hv⟩ := h.held j hx hj hl
    exact ⟨hkeep, hvalid j hkeep hv⟩

theorem count_cons_eq (pins : List ℕ) (i j : ℕ) :
    (i :: pins).count j = pins.count j + if j = i then 1 else 0 := by
  grind

theorem Refs.perm {pins' : List ℕ} (h : Refs exempt keep pins s) (hp : pins.Perm pins') :
    Refs exempt keep pins' s :=
  { h with ref_eq := fun i => by rw [h.ref_eq i, hp.count_eq] }

section

variable (h : Refs exempt keep pins s)
include h

/-- `iget` pins an inode. -/
theorem wp_iget (i : ℕ) :
    wp (iget i) (fun _ t => Refs exempt keep (i :: pins) t ∧ Same s t ∧ StaysValid s t)
      (Allowed closed) s := by
  have href := h.ref_eq
  unfold iget
  rw [wp_bind, wp_get, wp_ite, wp_ite]
  split
  · have hst : Same s { s with ref := update s.ref i (s.ref i + 1) } := ⟨rfl, rfl, rfl, rfl⟩
    refine ⟨h.of_same hst (fun j => ?_) (fun j hj hv => ?_) (fun j _ hv => hv), hst,
      fun _ _ hv => hv⟩
    · grind
    · grind
  · split
    · exact ⟨by decide, fun _ => by decide⟩
    · -- The entry is recycled; no pointer leads to it.
      rename_i hzero _
      have hst : Same s { s with ref := update s.ref i 1, valid := update s.valid i false } :=
        ⟨rfl, rfl, rfl, rfl⟩
      have hvalid : StaysValid s
          { s with ref := update s.ref i 1, valid := update s.valid i false } := by
        intro j hj hv
        grind
      refine ⟨h.of_same hst (fun j => ?_) (fun j hj hv => ?_) (fun j hj hv => ?_), hst, hvalid⟩
      · grind
      · grind
      · exact hvalid j (by have := href j; omega) hv

/-- `idup` pins an inode that is in use. -/
theorem wp_idup {i : ℕ} (hi : 0 < s.ref i) :
    wp (idup i) (fun _ t => Refs exempt keep (i :: pins) t ∧ Same s t) (Allowed closed) s := by
  have href := h.ref_eq
  have hst : Same s { s with ref := update s.ref i (s.ref i + 1) } := ⟨rfl, rfl, rfl, rfl⟩
  refine ⟨h.of_same hst (fun j => ?_) (fun j hj hv => ?_) (fun j _ hv => hv), hst⟩
  · grind
  · grind

/-- `ilock` reads a pinned inode; it panics if the inode is free. -/
theorem wp_ilock {i : ℕ} (hi : i ∈ pins)
    (hclosed : closed → (s.inode i).type ≠ .free) :
    wp (ilock i) (fun _ t => Refs exempt keep pins t ∧ Same s t ∧ (s.inode i).type ≠ .free ∧
      t.valid i = true) (Allowed closed) s := by
  have href := h.ref_eq
  have hpos : 0 < s.ref i := by
    have := List.count_pos_iff.mpr hi
    grind
  unfold ilock
  rw [wp_bind, wp_get, wp_ite, if_neg (by omega), wp_ite]
  split
  · rename_i hv
    exact ⟨h, .refl s, h.loaded i hpos hv, hv⟩
  · have hst : Same s { s with valid := update s.valid i true } := ⟨rfl, rfl, rfl, rfl⟩
    change wp (if (s.inode i).type = .free then throw Panic.noType else pure () : M Unit) _ _
      { s with valid := update s.valid i true }
    split
    · rename_i hfree
      exact ⟨by decide, fun hc => absurd hfree (hclosed hc)⟩
    · rename_i htype
      refine ⟨h.of_same hst href (fun j hj hv => ?_) (fun j _ hv => ?_), hst, htype,
        update_self ..⟩
      · grind
      · grind

end

/-- `iput` gives a pin back; it frees nothing, since an inode without links is kept by
a pointer. -/
theorem wp_iput {i : ℕ} (h : Refs exempt keep (i :: pins) s) (hx : exempt ≠ some i) :
    wp (iput i) (fun _ t => Refs exempt keep pins t ∧ Same s t ∧ t.valid = s.valid)
      (Allowed closed) s := by
  have href := h.ref_eq
  have hself := href i
  rw [count_cons_eq, if_pos rfl] at hself
  have hkept : ¬ (s.ref i = 1 ∧ s.valid i = true ∧ (s.inode i).nlink = 0) := by
    rintro ⟨hone, hv, hl⟩
    have := (h.held i hx (h.loaded i (by omega) hv) hl).1
    omega
  unfold iput
  rw [wp_bind, wp_get, wp_ite, if_neg hkept]
  have hst : Same s { s with ref := update s.ref i (s.ref i - 1) } := ⟨rfl, rfl, rfl, rfl⟩
  refine ⟨h.of_same hst (fun j => ?_) (fun j hj hv => ?_) (fun j _ hv => hv), hst, rfl⟩
  · have := href j
    grind
  · grind

/-! ### Changing a record -/

def State.setInode (s : State) (i : ℕ) (r : Inode) : State :=
  { s with inode := update s.inode i r }

@[simp] theorem wp_modifyInode {Q : Unit → State → Prop} {E : Panic → Prop} (f : Inode → Inode) :
    wp (modifyInode i f) Q E s ↔ Q () (s.setInode i (f (s.inode i))) := Iff.rfl

section SetInode

variable {r : Inode}

theorem Refs.set_of_held {exempt' : Option ℕ} (h : Refs exempt keep pins s) (htype : r.type ≠ .free)
    (hheld : ∀ j, exempt' ≠ some j → exempt ≠ some j ∨ j = i)
    (hnlink : exempt' ≠ some i → r.nlink = 0 → 0 < keep i ∧ s.valid i = true) :
    Refs exempt' keep pins (s.setInode i r) where
  ref_eq := h.ref_eq
  used j hj := by
    have := h.used j hj
    simp only [State.setInode, update_apply]
    grind
  loaded j hj hv := by
    have := h.loaded j hj hv
    simp only [State.setInode, update_apply]
    grind
  held j hx hj hl := by
    have hheld := hheld j hx
    have := h.held j
    simp only [State.setInode, update_apply] at hj hl ⊢
    grind

/-- A change that does not take the last link. -/
theorem Refs.set (h : Refs exempt keep pins s) (htype : r.type = (s.inode i).type)
    (halloc : (s.inode i).type ≠ .free) (hnlink : r.nlink = 0 → (s.inode i).nlink = 0) :
    Refs exempt keep pins (s.setInode i r) :=
  h.set_of_held (htype ▸ halloc) (fun _ hx => .inl hx) fun hx hl => h.held i hx halloc (hnlink hl)

/-- A change of the inode that becomes exempt. -/
theorem Refs.set_exempt (h : Refs none keep pins s) (htype : r.type ≠ .free) :
    Refs (some i) keep pins (s.setInode i r) :=
  h.set_of_held htype (fun _ _ => .inl (by simp)) fun hx => absurd rfl hx

/-- The exempt inode gets a link. -/
theorem Refs.set_linked (h : Refs (some i) keep pins s) (htype : r.type ≠ .free)
    (hnlink : r.nlink ≠ 0) : Refs none keep pins (s.setInode i r) :=
  h.set_of_held htype
    (fun j _ => (em (j = i)).symm.imp_left fun hj hx => hj (Option.some.inj hx).symm)
    fun _ hl => absurd hl hnlink

/-- A record with the same type and entries leaves all lookups as they are. -/
theorem find_setInode (htype : r.type = (s.inode i).type) (hentries : r.entries = (s.inode i).entries)
    (p : Fin NPROC) (path : List Char) (parent : Bool) :
    (s.setInode i r).find p path parent = s.find p path parent := by
  unfold State.find State.start
  congr 1
  funext k
  refine resolve_congr (fun j => ?_) fun j => ?_
  · simp only [State.setInode, update_apply]
    grind
  · simp only [State.setInode, update_apply]
    grind

theorem closed_setInode (htype : r.type = (s.inode i).type)
    (hentries : r.entries = (s.inode i).entries) (h : Closed s.inode) :
    Closed (s.setInode i r).inode := by
  have hfield : ∀ j, ((s.setInode i r).inode j).type = (s.inode j).type ∧
      ((s.setInode i r).inode j).entries = (s.inode j).entries := by
    intro j
    simp only [State.setInode, update_apply]
    grind
  intro d hd e he hne
  rw [(hfield _).1] at hd ⊢
  rw [(hfield _).2] at he
  exact h d hd e he hne

end SetInode

/-! ### Lookup -/

/-- `dirlookup` finds what `findEntry` finds, and pins it. -/
theorem wp_dirlookup (h : Refs exempt keep pins s) (dp : ℕ) (name : Name) :
    wp (dirlookup dp name) (fun r t => Same s t ∧
      r = findEntry name (s.inode dp).entries 0 ∧
      Refs exempt keep ((r.map Prod.fst).toList ++ pins) t ∧ StaysValid s t) (Allowed closed) s := by
  unfold dirlookup
  rw [wp_bind, wp_get, wp_ite]
  split
  · exact ⟨by decide, fun _ => by decide⟩
  · cases hf : findEntry name (s.inode dp).entries 0 with
    | none => exact ⟨.refl s, rfl, h, fun _ _ hv => hv⟩
    | some r =>
      obtain ⟨i, off⟩ := r
      refine (wp_iget h i).bind ?_
      rintro _ t ⟨ht, hst, hvalid⟩
      exact ⟨hst, rfl, ht, hvalid⟩

/-- `walk` from a pinned inode finds what `resolve` finds, moves the pin there, and
leaves everything else alone. -/
theorem wp_walk (parent : Bool) (names : List Name) {ip : ℕ} (h : Refs none keep (ip :: pins) s)
    (hclosed : closed → Closed s.inode ∧ (s.inode ip).type ≠ .free) :
    wp (walk parent ip names) (fun r t => Same s t ∧ r = resolve s.inode parent ip names ∧
      Refs none keep ((r.map Prod.fst).toList ++ pins) t) (Allowed closed) s := by
  -- The induction is on the path; the state changes in `ref` and `valid` only.
  induction names generalizing ip s with
  | nil =>
    unfold walk
    split
    · rename_i hparent
      refine (wp_iput h (by simp)).bind ?_
      rintro _ t ⟨ht, hst, _⟩
      refine ⟨hst, ?_, ht⟩
      simp only [resolve, hparent, ↓reduceIte]
    · rename_i hparent
      refine ⟨.refl s, ?_, h⟩
      simp only [resolve, hparent]
      rfl
  | cons name rest ih =>
    refine (wp_ilock h List.mem_cons_self fun hc => (hclosed hc).2).bind ?_
    rintro _ s₁ ⟨h₁, hst₁, _, _⟩
    rw [wp_bind, wp_get, wp_ite, hst₁.inode]
    simp only [resolve]
    split
    · refine (wp_iput h₁ (by simp)).bind ?_
      rintro _ t ⟨ht, hst, _⟩
      exact ⟨hst₁.trans hst, rfl, ht⟩
    · rename_i hdir
      split
      · exact ⟨hst₁, rfl, h₁⟩
      · refine (wp_dirlookup h₁ ip name).bind ?_
        rintro r s₂ ⟨hst₂, hr, h₂, _⟩
        rw [hst₁.inode] at hr
        subst hr
        unfold lookup
        cases hf : findEntry name (s.inode ip).entries 0 with
        | none =>
          rw [hf] at h₂
          refine (wp_iput h₂ (by simp)).bind ?_
          rintro _ t ⟨ht, hst, _⟩
          exact ⟨(hst₁.trans hst₂).trans hst, rfl, ht⟩
        | some r =>
          obtain ⟨next, off⟩ := r
          rw [hf] at h₂
          have h₂' : Refs none keep (ip :: next :: pins) s₂ :=
            h₂.perm (.swap ..)
          refine (wp_iput h₂' (by simp)).bind ?_
          rintro _ s₃ ⟨h₃, hst₃, _⟩
          have hst : Same s s₃ := (hst₁.trans hst₂).trans hst₃
          have hclosed₃ : closed → Closed s₃.inode ∧ (s₃.inode next).type ≠ .free := by
            intro hc
            obtain ⟨hcl, _⟩ := hclosed hc
            rw [hst.inode]
            exact ⟨hcl, hcl.allocated_of_findEntry (Decidable.not_not.mp hdir) hf⟩
          refine (ih h₃ hclosed₃).post ?_
          rintro r t ⟨hst', hr, ht⟩
          refine ⟨hst.trans hst', ?_, ht⟩
          rw [hr, hst.inode]
          rfl

section Namex

variable {p : Fin NPROC} (h : Refs none keep pins s)
  (hcwd : ∀ c, (s.proc p).cwd = some c → 0 < keep c)
  (hclosed : closed → Closed s.inode ∧ (s.inode ROOTINO).type ≠ .free)

include h hcwd hclosed

/-- **Path lookup.** `namex` finds what the directories say, pins it, and leaves every
inode, file and process alone. -/
theorem wp_namex (path : List Char) (parent : Bool) :
    wp (namex p path parent) (fun r t => Same s t ∧ r = s.find p path parent ∧
      Refs none keep ((r.map Prod.fst).toList ++ pins) t) (Allowed closed) s := by
  unfold namex State.find State.start
  rw [wp_bind, wp_get, wp_ite]
  split
  · refine (wp_iget h ROOTINO).bind ?_
    rintro _ s₁ ⟨h₁, hst₁, _⟩
    refine (wp_walk parent (elements path) h₁ (by rwa [hst₁.inode])).post ?_
    rintro r t ⟨hst, hr, ht⟩
    refine ⟨hst₁.trans hst, ?_, ht⟩
    rw [hr, hst₁.inode]
    rfl
  · cases hc : (s.proc p).cwd with
    | none => exact ⟨.refl s, rfl, h⟩
    | some c =>
      have hkeep := hcwd c hc
      have hpos : 0 < s.ref c := by
        have := h.ref_eq c
        omega
      refine (wp_idup h hpos).bind ?_
      rintro _ s₁ ⟨h₁, hst₁⟩
      have hclosed₁ : closed → Closed s₁.inode ∧ (s₁.inode c).type ≠ .free := by
        rw [hst₁.inode]
        exact fun hcl => ⟨(hclosed hcl).1, h.used c hkeep⟩
      refine (wp_walk parent (elements path) h₁ hclosed₁).post ?_
      rintro r t ⟨hst, hr, ht⟩
      refine ⟨hst₁.trans hst, ?_, ht⟩
      rw [hr, hst₁.inode]
      rfl

theorem wp_namei (path : List Char) :
    wp (namei p path) (fun r t => Same s t ∧ r = (s.find p path false).map Prod.fst ∧
      Refs none keep (r.toList ++ pins) t) (Allowed closed) s := by
  refine (wp_namex h hcwd hclosed path false).bind ?_
  rintro r t ⟨hst, hr, ht⟩
  exact ⟨hst, by rw [hr], ht⟩

/-- In a closed table the inode found is allocated. -/
theorem find_allocated (hc : closed) {path : List Char} {r : ℕ × Name}
    (hr : s.find p path parent = some r) : (s.inode r.1).type ≠ .free := by
  obtain ⟨i, hi, hr⟩ := Option.bind_eq_some_iff.mp hr
  refine (hclosed hc).1.resolve ?_ hr
  unfold State.start at hi
  split at hi
  · cases hi
    exact (hclosed hc).2
  · exact h.used i (hcwd i hi)

end Namex

/-! ### Freeing an inode -/

def freed (r : Inode) : Inode := { r with type := .free, entries := [] }

section Last

variable {i : ℕ}

/-- Dropping a pin. -/
theorem Refs.ref_unpin (h : Refs exempt keep (i :: pins) s) (j : ℕ) :
    update s.ref i (s.ref i - 1) j = keep j + pins.count j := by
  have := h.ref_eq j
  grind

variable (h : Refs (some i) keep (i :: pins) s)
include h

/-- The exempt inode is freed with its only reference. -/
theorem Refs.free_last (hkeep : keep i = 0) :
    Refs none keep pins { s with
      inode := update s.inode i (freed (s.inode i))
      valid := update s.valid i false
      ref := update s.ref i (s.ref i - 1) } where
  ref_eq := h.ref_unpin
  used j hj := by
    have := h.used j hj
    grind
  loaded j hj hval := by
    have := h.loaded j
    grind
  held j _ hj hl := by
    have := h.held j
    grind [freed]

/-- The exempt inode keeps a pointer, or has links. -/
theorem Refs.keep_last
    (hheld : (s.inode i).nlink = 0 → 0 < keep i ∧ s.valid i = true) :
    Refs none keep pins { s with ref := update s.ref i (s.ref i - 1) } where
  ref_eq := h.ref_unpin
  used := h.used
  loaded j hj hval := by
    have := h.loaded j
    grind
  held j _ hj hl := by
    by_cases hji : j = i
    · subst hji
      exact hheld hl
    · exact h.held j (fun hx => hji (Option.some.inj hx).symm) hj hl

/-- The exempt inode, pinned once, is put: it is freed if it has no links and nothing
points to it. -/
theorem wp_iput_last (honly : i ∉ pins)
    (hvalid : (s.inode i).nlink = 0 → s.valid i = true) :
    wp (iput i) (fun _ t => Refs none keep pins t ∧
      t.inode = (if (s.inode i).nlink = 0 ∧ keep i = 0 then update s.inode i (freed (s.inode i))
        else s.inode) ∧
      t.ninodes = s.ninodes ∧ t.file = s.file ∧ t.proc = s.proc) (Allowed closed) s := by
  have href : s.ref i = keep i + 1 := by
    rw [h.ref_eq i, List.count_cons_self, List.count_eq_zero_of_not_mem honly]
  unfold iput
  rw [wp_bind, wp_get, wp_ite]
  split
  · rename_i hlast
    obtain ⟨hone, hv, hl⟩ := hlast
    have hkeep : keep i = 0 := by omega
    have hinode : update (update s.inode i { s.inode i with entries := [] }) i
        { update s.inode i { s.inode i with entries := [] } i with type := .free } =
        update s.inode i (freed (s.inode i)) := by
      rw [update_idem, update_self]
      rfl
    rw [if_pos ⟨hl, hkeep⟩]
    refine ⟨?_, hinode, rfl, rfl, rfl⟩
    have hfree := h.free_last hkeep
    rw [← hinode] at hfree
    exact hfree
  · rename_i hkept
    rw [if_neg]
    · refine ⟨h.keep_last fun hl => ?_, rfl, rfl, rfl, rfl⟩
      refine ⟨?_, hvalid hl⟩
      by_contra hk
      exact hkept ⟨by omega, hvalid hl, hl⟩
    · rintro ⟨hl, hk⟩
      exact hkept ⟨by omega, hvalid hl, hl⟩

end Last

end Xv6.Fs
