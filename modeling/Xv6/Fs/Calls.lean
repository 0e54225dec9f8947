import Xv6.Lib.Count
import Xv6.Fs.Tree

/-!
What the system calls preserve.

Between calls the reference counts are exactly the current directories and open files,
and the inodes form a consistent tree (`Inv`). The specifications below follow the
calls' code: a lookup leaves the inodes alone, and every change of the inode table is
one of the tree's operations, followed by `iput`s that may free what has lost its last
link or pointer. Each call is given with what it needs for the optional parts of the
tree's invariant (`Mode`).
-/

namespace Xv6.Fs

open Function (update update_of_ne update_self update_apply update_eq_self update_idem)
open Inode (ne_free_of_dir)
open State (setInode)
open LinkGraph (Mode)
open Wp

/-! ### Pointers -/

section CountOf

variable {k : ℕ}

def countOf (f : Fin k → Option ℕ) (i : ℕ) : ℕ := (Finset.univ.filter fun a => f a = some i).card

theorem countOf_update (f : Fin k → Option ℕ) (a : Fin k) (v : Option ℕ) (i : ℕ) :
    countOf (update f a v) i + (if f a = some i then 1 else 0) =
      countOf f i + if v = some i then 1 else 0 :=
  Count.countOf_update f a v i

theorem countOf_pos {f : Fin k → Option ℕ} {a : Fin k} {i : ℕ} (h : f a = some i) :
    0 < countOf f i :=
  Count.countOf_pos h

end CountOf

/-- How many current directories and open files refer to an inode. -/
def pointers (s : State) (i : ℕ) : ℕ :=
  countOf (fun p => (s.proc p).cwd) i + countOf (fun f => (s.file f).ip) i

/-- What a change of inodes leaves alone. -/
structure SameFiles (s t : State) : Prop where
  ninodes : t.ninodes = s.ninodes
  file : t.file = s.file
  proc : t.proc = s.proc

theorem SameFiles.refl (s : State) : SameFiles s s := ⟨rfl, rfl, rfl⟩

theorem SameFiles.trans {s t u : State} (h : SameFiles s t) (h' : SameFiles t u) : SameFiles s u :=
  ⟨h'.ninodes.trans h.ninodes, h'.file.trans h.file, h'.proc.trans h.proc⟩

theorem Same.files {s t : State} (h : Same s t) : SameFiles s t := ⟨h.ninodes, h.file, h.proc⟩

theorem SameFiles.pointers_eq {s t : State} (h : SameFiles s t) : pointers t = pointers s := by
  unfold pointers
  rw [h.file, h.proc]

/-- Files that are not open refer to nothing. -/
def Idle (s : State) : Prop := ∀ f, (s.file f).ref = 0 → (s.file f).ip = none

/-- The invariant inside a call, with `pins` held, while files and processes are as in
state `s`. -/
structure Mid (m : Mode) (s : State) (pins : List ℕ) (t : State) : Prop where
  refs : Refs none (pointers s) pins t
  tree : Tree m t.ninodes t.inode
  files : SameFiles s t
  idle : Idle s

/-- The invariant between calls. -/
def Inv (m : Mode) (s : State) : Prop := Mid m s [] s

variable {m : Mode} {s t u : State} {pins pins' : List ℕ} {p : Fin NPROC} {dp ip : ℕ} {name : Name}

/-- Files and processes may be taken as they are now. -/
theorem Mid.rebase (h : Mid m s pins t) : Mid m t pins t :=
  ⟨h.files.pointers_eq ▸ h.refs, h.tree, .refl t, by
    have := h.idle
    unfold Idle at this ⊢
    rwa [h.files.file]⟩

theorem Mid.inv (h : Mid m s [] t) : Inv m t := h.rebase

theorem Mid.same (h : Mid m s pins t) (hst : Same t u) (hrefs : Refs none (pointers s) pins' u) :
    Mid m s pins' u := by
  refine ⟨hrefs, ?_, h.files.trans hst.files, h.idle⟩
  rw [hst.ninodes, hst.inode]
  exact h.tree

theorem cwd_pointer {c : ℕ} (h : (s.proc p).cwd = some c) : 0 < pointers s c :=
  Nat.lt_of_lt_of_le (countOf_pos (f := fun p => (s.proc p).cwd) h) (Nat.le_add_right _ _)

theorem Mid.cwd_pointer (h : Mid m s pins t) (c : ℕ) (hc : (t.proc p).cwd = some c) :
    0 < pointers s c := by
  rw [← h.files.pointers_eq]
  exact Fs.cwd_pointer hc

/-! ### Lookups and single inodes inside a call -/

theorem Mid.wp_iput (h : Mid m s (ip :: pins) t) :
    wp (iput ip) (fun _ u => Mid m s pins u ∧ Same t u ∧ u.valid = t.valid) (Allowed m.anchored) t := by
  refine (Fs.wp_iput h.refs (by simp)).post ?_
  rintro _ u ⟨hrefs, hst, hv⟩
  exact ⟨h.same hst hrefs, hst, hv⟩

/-- A pin is dropped, and what follows does not change. -/
theorem Mid.wp_iput_then {α : Type} {Q : α → State → Prop} {x : M α} (h : Mid m s (ip :: pins) t)
    (hx : ∀ u, Mid m s pins u → wp x Q (Allowed m.anchored) u) :
    wp (do iput ip; x) Q (Allowed m.anchored) t := by
  rw [wp_bind]
  refine h.wp_iput.post ?_
  rintro _ u ⟨hu, _⟩
  exact hx u hu

/-- A call that drops its only pin and returns. -/
theorem Mid.wp_iput_return {α : Type} (h : Mid m s [ip] t) (b : α) :
    wp (do iput ip; return b) (fun _ u => Inv m u) (Allowed m.anchored) t :=
  h.wp_iput_then fun _ hu => hu.inv

theorem Mid.wp_ilock (h : Mid m s pins t) (hi : ip ∈ pins)
    (hclosed : m.anchored → (t.inode ip).type ≠ .free) :
    wp (ilock ip) (fun _ u => Mid m s pins u ∧ Same t u ∧ (t.inode ip).type ≠ .free ∧
      u.valid ip = true) (Allowed m.anchored) t := by
  refine (Fs.wp_ilock h.refs hi hclosed).post ?_
  rintro _ u ⟨hrefs, hst, htype, hv⟩
  exact ⟨h.same hst hrefs, hst, htype, hv⟩

theorem Mid.wp_namei (h : Mid m s pins t) (path : List Char) :
    wp (namei p path) (fun r u => Mid m s (r.toList ++ pins) u ∧ Same t u ∧
      r = (t.find p path false).map Prod.fst ∧
      ∀ i ∈ r, m.anchored → (t.inode i).type ≠ .free) (Allowed m.anchored) t := by
  refine (Fs.wp_namei h.refs h.cwd_pointer h.tree.closed path).post ?_
  rintro r u ⟨hst, hr, hrefs⟩
  refine ⟨h.same hst hrefs, hst, hr, fun i hi ha => ?_⟩
  obtain ⟨x, hx, rfl⟩ := Option.map_eq_some_iff.mp (hr.symm.trans hi)
  exact find_allocated h.refs h.cwd_pointer h.tree.closed ha hx

/-- A call that looks its path up and locks what it finds. -/
theorem Mid.wp_namei_ilock {α : Type} {Q : α → State → Prop} {x : M α} {k : ℕ → M α}
    (h : Mid m s [] t) (path : List Char)
    (hnone : ∀ u, Mid m s [] u → wp x Q (Allowed m.anchored) u)
    (hsome : ∀ ip name u, t.find p path false = some (ip, name) → Mid m s [ip] u → Same t u →
      (u.inode ip).type ≠ .free → wp (k ip) Q (Allowed m.anchored) u) :
    wp (do
      match ← namei p path with
      | none => x
      | some ip => do
          ilock ip
          k ip) Q (Allowed m.anchored) t := by
  refine (h.wp_namei path).bind ?_
  rintro r t₁ ⟨h₁, hst₁, hr, hclosed⟩
  cases r with
  | none => exact hnone t₁ h₁
  | some ip =>
    obtain ⟨⟨ip, name⟩, hx, rfl⟩ := Option.map_eq_some_iff.mp hr.symm
    have h₁ : Mid m s [ip] t₁ := h₁
    refine (h₁.wp_ilock List.mem_cons_self fun ha => hst₁.inode ▸ hclosed ip rfl ha).bind ?_
    rintro _ t₂ ⟨h₂, hst₂, halloc, _⟩
    exact hsome ip name t₂ hx h₂ (hst₁.trans hst₂) (hst₂.inode ▸ halloc)

theorem Mid.wp_nameiparent (h : Mid m s pins t) (path : List Char) :
    wp (nameiparent p path) (fun r u => Mid m s ((r.map Prod.fst).toList ++ pins) u ∧ Same t u ∧
      r = t.find p path true) (Allowed m.anchored) t := by
  refine (Fs.wp_namex h.refs h.cwd_pointer h.tree.closed path true).post ?_
  rintro r u ⟨hst, hr, hrefs⟩
  exact ⟨h.same hst hrefs, hst, hr⟩

theorem Mid.wp_dirlookup (h : Mid m s pins t) (dp : ℕ) (name : Name) :
    wp (dirlookup dp name) (fun r u => Mid m s ((r.map Prod.fst).toList ++ pins) u ∧ Same t u ∧
      r = findEntry name (t.inode dp).entries 0) (Allowed m.anchored) t := by
  refine (Fs.wp_dirlookup h.refs dp name).post ?_
  rintro r u ⟨hst, hr, hrefs, _⟩
  exact ⟨h.same hst hrefs, hst, hr⟩

variable {path : List Char}

/-- What `find` finds for `nameiparent` is a directory. -/
theorem find_parent_dir (h : s.find p path true = some (dp, name)) :
    (s.inode dp).type = .dir := by
  obtain ⟨i, _, hr⟩ := Option.bind_eq_some_iff.mp h
  exact resolve_parent_dir hr

/-! ### `dirlink` -/

/-- `dirlink` fails and changes nothing, or enters a name that was not there. -/
theorem wp_dirlink {keep : ℕ → ℕ} {closed : Prop} (h : Refs none keep pins t)
    (halloc : (t.inode dp).type ≠ .free) (name : Name) (inum : ℕ) (room : Bool) :
    wp (dirlink dp name inum room) (fun b u => Refs none keep pins u ∧ SameFiles t u ∧
      StaysValid t u ∧
      (b = false ∧ u.inode = t.inode ∨
        b = true ∧ findEntry name (t.inode dp).entries 0 = none ∧
          u.inode = update t.inode dp ((t.inode dp).entered (inum % 65536) name)))
      (Allowed closed) t := by
  refine (wp_dirlookup h dp name).bind ?_
  rintro r t₁ ⟨hst₁, hr, h₁, hv₁⟩
  cases hf : findEntry name (t.inode dp).entries 0 with
  | some x =>
    rw [hf] at hr
    subst hr
    refine (wp_iput h₁ (by simp)).bind ?_
    rintro _ u ⟨hu, hst, hv⟩
    refine ⟨hu, (hst₁.trans hst).files, fun j hj hvj => ?_, .inl ⟨rfl, (hst₁.trans hst).inode⟩⟩
    rw [hv]
    exact hv₁ j hj hvj
  | none =>
    rw [hf] at hr
    subst hr
    rw [wp_bind, wp_get, wp_ite]
    split
    · have hset := h₁.set (i := dp) (r := (t₁.inode dp).entered (inum % 65536) name) rfl
        (hst₁.inode ▸ halloc) id
      refine ⟨hset, ⟨hst₁.ninodes, hst₁.file, hst₁.proc⟩, hv₁, .inr ⟨rfl, rfl, ?_⟩⟩
      change update t₁.inode dp _ = _
      rw [hst₁.inode]
      rfl
    · exact ⟨h₁, hst₁.files, hv₁, .inl ⟨rfl, hst₁.inode⟩⟩

/-! ### `create` -/

/-- `ialloc` finds a free inode and makes it the exempt one. -/
theorem Mid.wp_ialloc (h : Mid m s pins t) {type : FileType} (htype : type ≠ .free) :
    wp (ialloc type) (fun r u =>
      match r with
      | none => u = t
      | some ip => ip < t.ninodes ∧ ip ≠ 0 ∧ (t.inode ip).type = .free ∧
          Refs (some ip) (pointers s) (ip :: pins) u ∧ SameFiles t u ∧
          u.inode = update t.inode ip ⟨type, 0, 0, 0, []⟩) (Allowed m.anchored) t := by
  unfold ialloc
  rw [wp_bind, wp_get]
  cases hf : t.freeInode with
  | none => exact rfl
  | some ip =>
    have hmem := List.mem_of_find?_eq_some hf
    have hfree : 1 ≤ ip ∧ (t.inode ip).type = .free := by
      have hfound := List.find?_some hf
      exact of_decide_eq_true hfound
    rw [wp_bind, wp_modifyInode, wp_bind]
    have hset : Refs (some ip) (pointers s) pins (t.setInode ip ⟨type, 0, 0, 0, []⟩) :=
      h.refs.set_exempt htype
    refine (wp_iget hset ip).post ?_
    rintro _ u ⟨hu, hst, _⟩
    exact ⟨List.mem_range.mp hmem, Nat.pos_iff_ne_zero.mp hfree.1, hfree.2, hu,
      ⟨hst.ninodes, hst.file, hst.proc⟩, hst.inode⟩

/-- The record of an inode that `create` has made. -/
def created (dp ip : ℕ) (type : FileType) (major minor nlink : ℤ) : Inode :=
  ⟨type, int16 major, int16 minor, nlink, if type = .dir then [⟨ip, dot⟩, ⟨dp, dotdot⟩] else []⟩

section CreateAt

variable {table : ℕ → Inode} {n : ℕ} {r : Inode} {type : FileType} {major minor : ℤ} {room : Room}

/-- The failure path of `create` leaves a free inode behind. -/
theorem wp_createFail (htree : Tree m n table) (hip : ip < n) (hip0 : ip ≠ 0)
    (hfree : (table ip).type = .free) (hne : ip ≠ dp) (hkeep : pointers s ip = 0)
    (hrefs : Refs none (pointers s) [ip, dp] t) (hv : t.valid ip = true)
    (hinode : t.inode = update table ip r) (hr : r.type ≠ .free) (hn : t.ninodes = n)
    (hfiles : SameFiles s t) (hidle : Idle s) :
    wp (createFail dp ip) (fun r u => Mid m s r.toList u ∧ ∀ i ∈ r, (u.inode i).type ≠ .free)
      (Allowed m.anchored) t := by
  unfold createFail
  rw [wp_bind, wp_modifyInode, wp_bind, hinode, update_self]
  have hset : Refs (some ip) (pointers s) [ip, dp] (t.setInode ip { r with nlink := 0 }) :=
    hrefs.set_exempt hr
  refine (wp_iput_last hset (by simpa using hne) fun _ => hv).post ?_
  rintro _ t₁ ⟨h₁, hinode₁, hn₁, hfile₁, hproc₁⟩
  have htable : t₁.inode = update table ip ⟨.free, r.major, r.minor, 0, []⟩ := by
    rw [hinode₁]
    simp only [setInode, hinode, update_self, update_idem, hkeep, and_self, ↓reduceIte]
    rfl
  have hmid : Mid m s [dp] t₁ := by
    refine ⟨h₁, ?_, hfiles.trans ⟨hn₁, hfile₁, hproc₁⟩, hidle⟩
    rw [htable, hn₁]
    exact hn ▸ htree.reset hip hip0 hfree _ _
  exact hmid.wp_iput_then fun u hu => ⟨hu, by simp⟩

/-- A new directory gets its two entries, or `dirlink` fails. -/
theorem wp_createDots (hrefs : Refs none (pointers s) [ip, dp] t) (hv : t.valid ip = true)
    (hinode : t.inode = update table ip ⟨type, int16 major, int16 minor, 1, []⟩)
    (htype : type ≠ .free) (hip0 : ip ≠ 0) (hip : ip < 65536) (hdp : dp < 65536) :
    wp (createDots dp ip type room) (fun b u => Refs none (pointers s) [ip, dp] u ∧
      u.valid ip = true ∧ SameFiles t u ∧
      ∃ r, r.type ≠ .free ∧ u.inode = update table ip r ∧
        (b = true → r = created dp ip type major minor 1)) (Allowed m.anchored) t := by
  unfold createDots
  have hpos : ∀ u, Refs none (pointers s) [ip, dp] u → 0 < u.ref ip := fun u hu => by
    rw [hu.ref_eq ip, List.count_cons_self]
    omega
  split
  · rename_i hnd
    refine ⟨hrefs, hv, .refl t, _, htype, hinode, fun _ => ?_⟩
    rw [created, if_neg hnd]
  · rename_i hd
    have hd : type = .dir := Decidable.not_not.mp hd
    subst hd
    have hself : t.inode ip = ⟨.dir, int16 major, int16 minor, 1, []⟩ := by
      rw [hinode, update_self]
    refine (wp_dirlink hrefs (ne_free_of_dir (by rw [hself])) ['.'] ip room.first).bind ?_
    rintro b t₁ ⟨h₁, hf₁, hv₁, hcase⟩
    have hvalid₁ := hv₁ ip (hpos t hrefs) hv
    rcases hcase with ⟨rfl, hsame⟩ | ⟨rfl, _, hsame⟩
    · exact ⟨h₁, hvalid₁, hf₁, _, htype, hsame.trans hinode, by simp⟩
    · rw [hinode, update_self, update_idem, Nat.mod_eq_of_lt hip] at hsame
      have hself₁ : t₁.inode ip = ⟨.dir, int16 major, int16 minor, 1, [⟨ip, dot⟩]⟩ := by
        rw [hsame, update_self]
        rfl
      refine (wp_dirlink h₁ (ne_free_of_dir (by rw [hself₁])) ['.', '.'] dp room.first).post ?_
      rintro b u ⟨hu, hfu, hvu, hcase⟩
      refine ⟨hu, hvu ip (hpos t₁ h₁) hvalid₁, hf₁.trans hfu, ?_⟩
      rcases hcase with ⟨rfl, hsameu⟩ | ⟨rfl, _, hsameu⟩
      · exact ⟨_, htype, hsameu.trans hsame, by simp⟩
      · rw [hself₁, hsame, update_idem, Nat.mod_eq_of_lt hdp] at hsameu
        refine ⟨_, ?_, hsameu, fun _ => ?_⟩
        · exact htype
        · simp only [Inode.entered, addEntry_cons, hip0, ↓reduceIte, created]
          rfl

/-- The count of a parent stays away from zero when a directory is made in it. -/
theorem parent_nlink_eq_zero {k : ℤ} (hdir : type = .dir → 0 < k ∧ k < 32767)
    (hzero : (if type = .dir then int16 (k + 1) else k) = 0) : k = 0 := by
  split at hzero
  · rename_i hd
    obtain ⟨hpos, hlt⟩ := hdir hd
    rw [int16_eq (by omega) (by omega)] at hzero
    omega
  · exact hzero

section

variable (htree : Tree m n table) (hdp : (table dp).type = .dir) (hip : ip < n) (hip0 : ip ≠ 0)
  (hfree : (table ip).type = .free) (htype : type ≠ .free)
  (hname : findEntry name (table dp).entries 0 = none) (ht : m.tidy → 0 < (table dp).nlink)
  (hdir : type = .dir → 0 < (table dp).nlink ∧ (table dp).nlink < 32767)
include htree hdp hip hip0 hfree htype hname ht hdir

/-- The tree after a successful `create`. -/
theorem Tree.create (major minor : ℤ) :
    Tree m n (update (update table ip (created dp ip type major minor 1)) dp
      { (table dp).entered ip name with
        nlink := if type = .dir then int16 ((table dp).nlink + 1) else (table dp).nlink }) := by
  have hne : dp ≠ ip := fun heq => by rw [heq, hfree] at hdp; cases hdp
  have hdp0 : dp ≠ 0 := htree.allocated_ne_zero (ne_free_of_dir hdp)
  have hshaped : Shaped ip (created dp ip type major minor 0) :=
    ⟨fun hd => if_neg hd, fun hd => ⟨dp, [], if_pos hd, hdp0, by simp⟩, by norm_num [created]⟩
  have hchildren : (created dp ip type major minor 0).children = [] := by
    unfold Inode.children created
    split <;> rfl
  have hdotdot : type = .dir → (created dp ip type major minor 0).dotdot = dp := by
    rintro rfl
    rfl
  -- The new inode is first allocated without a link, then attached to its parent.
  have halloc := htree.alloc hip hip0 hfree rfl hshaped hchildren fun hd _ => by
    rw [hdotdot hd]
    exact ⟨kind_eq_dir.mpr hdp, (hdir hd).1⟩
  generalize ht' : update table ip (created dp ip type major minor 0) = table' at halloc
  have hdp' : table' dp = table dp := by rw [← ht', update_of_ne hne]
  have hip' : table' ip = created dp ip type major minor 0 := by rw [← ht', update_self]
  rw [← hdp'] at hdp hname
  by_cases hd : type = .dir
  · obtain ⟨hpos, hlt⟩ := hdir hd
    have hattach := halloc.attach hdp (hdp' ▸ hpos) (hdp' ▸ hlt) (by rw [hip']; exact hd)
      (by rw [hip']; rfl) (by rw [hip']; exact hdotdot hd) hname
    rw [hdp', hip', ← ht', update_idem] at hattach
    rw [if_pos hd, int16_eq (by omega) (by omega)]
    exact hattach
  · have hlink := halloc.link hdp (by rw [hip']; exact ⟨htype, hd⟩)
      (by rw [hip']; change (0 : ℤ) < 32767; omega) (hdp' ▸ ht) hname
    rw [hdp', hip', ← ht', update_idem] at hlink
    rw [if_neg hd]
    exact hlink

/-- The state in which `create` has entered the new inode and counted its `..`. -/
theorem mid_of_created (hrefs : Refs none (pointers s) [ip, dp] t)
    (hinode : t.inode = update (update table ip (created dp ip type major minor 1)) dp
      ((table dp).entered ip name)) (hn : t.ninodes = n) (hfiles : SameFiles s t) (hidle : Idle s) :
    Mid m s [dp, ip] (t.setInode dp { t.inode dp with
      nlink := if type = .dir then int16 ((t.inode dp).nlink + 1) else (t.inode dp).nlink }) := by
  have hself : t.inode dp = (table dp).entered ip name := by rw [hinode, update_self]
  have hset := hrefs.set (i := dp) (r := { t.inode dp with
      nlink := if type = .dir then int16 ((t.inode dp).nlink + 1) else (t.inode dp).nlink }) rfl
    (by rw [hself]; exact ne_free_of_dir hdp)
    (parent_nlink_eq_zero (by rw [hself]; exact hdir))
  refine ⟨hset.perm (.swap ..), ?_, ⟨hfiles.ninodes, hfiles.file, hfiles.proc⟩, hidle⟩
  simp only [setInode, hself, hn]
  rw [hinode, update_idem]
  exact htree.create hdp hip hip0 hfree htype hname ht hdir major minor

theorem wp_createAt (hkeep : pointers s ip = 0) (hrefs : Refs (some ip) (pointers s) [ip, dp] t)
    (hinode : t.inode = update table ip ⟨type, 0, 0, 0, []⟩) (hn : t.ninodes = n)
    (hfiles : SameFiles s t) (hidle : Idle s) :
    wp (createAt dp ip name type major minor room) (fun r u => Mid m s r.toList u ∧
      ∀ i ∈ r, (u.inode i).type ≠ .free) (Allowed m.anchored) t := by
  have hne : dp ≠ ip := fun heq => by rw [heq, hfree] at hdp; cases hdp
  have hdplt : dp < n := htree.allocated_lt (ne_free_of_dir hdp)
  have hsmall := htree.small
  have hself : t.inode ip = ⟨type, 0, 0, 0, []⟩ := by rw [hinode, update_self]
  refine (wp_ilock hrefs List.mem_cons_self fun _ => by rw [hself]; exact htype).bind ?_
  rintro _ t₁ ⟨h₁, hst₁, _, hv₁⟩
  rw [wp_bind, wp_modifyInode, wp_bind, hst₁.inode, hself]
  have hset := h₁.set_linked (r := ⟨type, int16 major, int16 minor, 1, []⟩) htype (by norm_num)
  have hinode₂ : (t₁.setInode ip ⟨type, int16 major, int16 minor, 1, []⟩).inode =
      update table ip ⟨type, int16 major, int16 minor, 1, []⟩ := by
    simp only [setInode, hst₁.inode, hinode, update_idem]
  refine (wp_createDots hset hv₁ hinode₂ htype hip0 (by omega) (by omega)).post ?_
  rintro dots t₃ ⟨h₃, hv₃, hf₃, r, hr, hinode₃, hdots⟩
  have hfiles₃ : SameFiles t t₃ := (⟨hst₁.ninodes, hst₁.file, hst₁.proc⟩ :
    SameFiles t (t₁.setInode ip _)).trans hf₃
  have hn₃ : t₃.ninodes = n := hfiles₃.ninodes.trans hn
  split
  · exact wp_createFail htree hip hip0 hfree hne.symm hkeep h₃ hv₃ hinode₃ hr hn₃
      (hfiles.trans hfiles₃) hidle
  · rename_i hd
    obtain rfl := hdots (Bool.eq_true_of_not_eq_false hd)
    have hdp₃ : t₃.inode dp = table dp := by rw [hinode₃, update_of_ne hne]
    refine (wp_dirlink h₃ (ne_free_of_dir (by rw [hdp₃, hdp])) name ip room.entry).bind ?_
    rintro b t₄ ⟨h₄, hf₄, hv₄, hcase⟩
    have hv₄' : t₄.valid ip = true :=
      hv₄ ip (by rw [h₃.ref_eq ip, List.count_cons_self]; omega) hv₃
    have hn₄ : t₄.ninodes = n := hf₄.ninodes.trans hn₃
    have hfiles₄ : SameFiles s t₄ := (hfiles.trans hfiles₃).trans hf₄
    rcases hcase with ⟨rfl, hinode₄⟩ | ⟨rfl, _, hinode₄⟩
    · rw [if_pos rfl]
      exact wp_createFail htree hip hip0 hfree hne.symm hkeep h₄ hv₄' (hinode₄.trans hinode₃) hr
        hn₄ hfiles₄ hidle
    · rw [if_neg (by decide), wp_bind, wp_modifyInode, wp_bind]
      rw [hdp₃, hinode₃, Nat.mod_eq_of_lt (by omega)] at hinode₄
      have hmid := mid_of_created htree hdp hip hip0 hfree htype hname ht hdir h₄ hinode₄ hn₄
        hfiles₄ hidle
      refine hmid.wp_iput.post ?_
      rintro _ u ⟨hu, hst, _⟩
      refine ⟨hu, fun i hi => ?_⟩
      cases hi
      rw [hst.inode]
      simp only [setInode, hinode₄, update_idem, update_of_ne hne.symm, update_self]
      exact htype

end

end CreateAt

/-- `create` in a tidy tree needs a linked parent; for a directory it always does, with
a count that can grow. -/
theorem Mid.wp_create (h : Mid m s [] t) {type : FileType} {major minor : ℤ}
    {room : Room} (htype : type ≠ .free)
    (ht : m.tidy → ∀ dp name, t.find p path true = some (dp, name) → 0 < (t.inode dp).nlink)
    (hdir : type = .dir → ∀ dp name, t.find p path true = some (dp, name) →
      0 < (t.inode dp).nlink ∧ (t.inode dp).nlink < 32767) :
    wp (create p path type major minor room) (fun r u => Mid m s r.toList u ∧
      ∀ i ∈ r, (u.inode i).type ≠ .free) (Allowed m.anchored) t := by
  refine (h.wp_nameiparent path).bind ?_
  rintro r t₁ ⟨h₁, hst₁, hr⟩
  cases hfind : t.find p path true with
  | none =>
    rw [hfind] at hr
    subst hr
    exact ⟨h₁, by simp⟩
  | some x =>
    obtain ⟨dp, name⟩ := x
    rw [hfind] at hr
    subst hr
    have hdp := find_parent_dir hfind
    have h₁ : Mid m s [dp] t₁ := h₁
    refine (h₁.wp_ilock List.mem_cons_self fun _ =>
      ne_free_of_dir (by rw [hst₁.inode, hdp])).bind ?_
    rintro _ t₂ ⟨h₂, hst₂, _, _⟩
    have hst : Same t t₂ := hst₁.trans hst₂
    refine (h₂.wp_dirlookup dp name).bind ?_
    rintro r t₃ ⟨h₃, hst₃, hr⟩
    have hst : Same t t₃ := hst.trans hst₃
    cases hf : findEntry name (t₂.inode dp).entries 0 with
    | some x =>
      obtain ⟨ip, off⟩ := x
      rw [hf] at hr
      subst hr
      have h₃ : Mid m s [dp, ip] t₃ := ⟨h₃.refs.perm (.swap ..), h₃.tree, h₃.files, h₃.idle⟩
      rw [wp_bind]
      refine h₃.wp_iput.post ?_
      rintro _ t₄ ⟨h₄, hst₄, _⟩
      rw [wp_bind]
      have hclosed : m.anchored → (t₄.inode ip).type ≠ .free := by
        intro ha
        rw [hst₄.inode, hst₃.inode]
        refine (h₂.tree.closed ha).1.allocated_of_findEntry ?_ hf
        rw [hst₂.inode, hst₁.inode]
        exact hdp
      refine (h₄.wp_ilock List.mem_cons_self hclosed).post ?_
      rintro _ t₅ ⟨h₅, hst₅, htype₅, _⟩
      rw [wp_bind, wp_get, wp_ite]
      split
      · refine ⟨h₅, fun i hi => ?_⟩
        cases hi
        rw [hst₅.inode]
        exact htype₅
      · exact h₅.wp_iput_then fun u hu => ⟨hu, by simp⟩
    | none =>
      rw [hf] at hr
      subst hr
      have h₃ : Mid m s [dp] t₃ := h₃
      refine (h₃.wp_ialloc htype).bind fun r t₄ hr => ?_
      cases r with
      | none =>
        obtain rfl : t₄ = t₃ := hr
        exact h₃.wp_iput_then fun u hu => ⟨hu, by simp⟩
      | some ip =>
        obtain ⟨hip, hip0, hfree, hrefs, hfiles, hinode⟩ := hr
        have hkeep := h₃.refs.unpointed_of_free hfree
        have hname : findEntry name (t₃.inode dp).entries 0 = none := by rw [hst₃.inode]; exact hf
        rw [← hst.inode] at hdp ht hdir
        exact wp_createAt h₃.tree hdp hip hip0 hfree htype hname
          (fun hm => ht hm dp name hfind) (fun hd => hdir hd dp name hfind) hkeep hrefs hinode
          hfiles.ninodes (h₃.files.trans hfiles) h.idle

/-! ### `link` and `unlink` -/

/-- The last `iput` of an inode frees it or leaves it, and the tree is consistent either
way. -/
theorem wp_iput_tree {keep : ℕ → ℕ} (h : Refs (some ip) keep (ip :: pins) t) (honly : ip ∉ pins)
    (htree : Tree m t.ninodes t.inode) (halloc : (t.inode ip).type ≠ .free)
    (hvalid : (t.inode ip).nlink = 0 → t.valid ip = true) :
    wp (iput ip) (fun _ u => Refs none keep pins u ∧ Tree m u.ninodes u.inode ∧ SameFiles t u)
      (Allowed m.anchored) t := by
  refine (wp_iput_last h honly hvalid).post ?_
  rintro _ u ⟨hu, hinode, hn, hf, hp⟩
  refine ⟨hu, ?_, ⟨hn, hf, hp⟩⟩
  rw [hinode, hn]
  split
  · rename_i hlast
    exact htree.free halloc hlast.1
  · exact htree

/-- The failure path of `sys_link` takes the link back. -/
theorem wp_linkBad {table : ℕ → Inode} {n : ℕ} (htree : Tree m n table)
    (halloc : (table ip).type ≠ .free) (hnlink : (table ip).nlink < 32767)
    (hrefs : Refs none (pointers s) [ip] t)
    (hinode : t.inode = update table ip { table ip with nlink := (table ip).nlink + 1 })
    (hn : t.ninodes = n) (hfiles : SameFiles s t) (hidle : Idle s) :
    wp (linkBad ip) (fun _ u => Mid m s [] u) (Allowed m.anchored) t := by
  have hself : t.inode ip = { table ip with nlink := (table ip).nlink + 1 } := by
    rw [hinode, update_self]
  have hnonneg := htree.nlink_nonneg halloc
  refine (wp_ilock hrefs List.mem_cons_self fun _ => by rw [hself]; exact halloc).bind ?_
  rintro _ t₁ ⟨h₁, hst₁, _, hv₁⟩
  rw [wp_bind, wp_modifyInode, wp_bind, hst₁.inode, hself]
  have hback : t₁.setInode ip { table ip with nlink := int16 ((table ip).nlink + 1 - 1) } =
      { t₁ with inode := table } := by
    have hnl : int16 ((table ip).nlink + 1 - 1) = (table ip).nlink := by
      rw [int16_eq] <;> omega
    rw [setInode, hst₁.inode, hinode, update_idem, hnl, update_eq_self]
  have hset : Refs (some ip) (pointers s) [ip] { t₁ with inode := table } := by
    rw [← hback]
    exact h₁.set_exempt halloc
  rw [hback]
  have htree₁ : Tree m t₁.ninodes table := by
    rw [hst₁.ninodes, hn]
    exact htree
  refine (wp_iput_tree hset (by simp) htree₁ halloc fun _ => hv₁).post ?_
  rintro _ u ⟨hu, htreeu, hf⟩
  refine ⟨hu, htreeu, ?_, hidle⟩
  exact (hfiles.trans hst₁.files).trans ⟨hf.ninodes, hf.file, hf.proc⟩

/-- `sys_link` of a file whose count can grow; in a tidy tree the new name's directory must
be linked. -/
theorem Mid.wp_linkAt (h : Mid m s [ip] t) (halloc : (t.inode ip).type ≠ .free)
    (hnd : (t.inode ip).type ≠ .dir) (hnlink : (t.inode ip).nlink < 32767) {new : List Char}
    {room : Bool}
    (ht : m.tidy → ∀ dp name, t.find p new true = some (dp, name) → 0 < (t.inode dp).nlink) :
    wp (linkAt p ip new room) (fun _ u => Mid m s [] u) (Allowed m.anchored) t := by
  have hnonneg := h.tree.nlink_nonneg halloc
  unfold linkAt
  rw [wp_bind, wp_modifyInode, int16_eq (by omega) (by omega)]
  generalize hr : ({ t.inode ip with nlink := (t.inode ip).nlink + 1 } : Inode) = r
  have htype : r.type = (t.inode ip).type := by rw [← hr]
  have hentries : r.entries = (t.inode ip).entries := by rw [← hr]
  have h₁ : Refs none (pointers s) [ip] (t.setInode ip r) :=
    h.refs.set htype halloc (by rw [← hr]; intro hzero; change _ + 1 = (0 : ℤ) at hzero; omega)
  have hfiles₁ : SameFiles s (t.setInode ip r) := ⟨h.files.ninodes, h.files.file, h.files.proc⟩
  have hclosed₁ : m.anchored → Closed (t.setInode ip r).inode ∧
      ((t.setInode ip r).inode ROOTINO).type ≠ .free := fun ha => by
    obtain ⟨hcl, hroot⟩ := h.tree.closed ha
    refine ⟨closed_setInode htype hentries hcl, ?_⟩
    simp only [setInode, update_apply]
    grind
  rw [wp_bind]
  -- The second lookup sees the same names, since only a count has changed.
  refine (wp_namex h₁ h.cwd_pointer hclosed₁ new true).post ?_
  rintro x t₂ ⟨hst₂, hx, h₂⟩
  rw [find_setInode htype hentries] at hx
  have hinode₂ : t₂.inode = update t.inode ip r := hst₂.inode
  have hfiles₂ := hfiles₁.trans hst₂.files
  cases x with
  | none => exact wp_linkBad h.tree halloc hnlink h₂ (hr ▸ hinode₂) hst₂.ninodes hfiles₂ h.idle
  | some x =>
    obtain ⟨dp, name⟩ := x
    have hdp := find_parent_dir hx.symm
    have hne : dp ≠ ip := fun heq => hnd (heq ▸ hdp)
    have hdp₂ : t₂.inode dp = t.inode dp := by rw [hinode₂, update_of_ne hne]
    have h₂ : Refs none (pointers s) [dp, ip] t₂ := h₂
    refine (Fs.wp_ilock h₂ List.mem_cons_self fun _ =>
      ne_free_of_dir (by rw [hdp₂, hdp])).bind ?_
    rintro _ t₃ ⟨h₃, hst₃, _, _⟩
    have hdp₃ : t₃.inode dp = t.inode dp := by rw [hst₃.inode, hdp₂]
    have hinode₃ := hst₃.inode.trans hinode₂
    refine (wp_dirlink h₃ (ne_free_of_dir (by rw [hdp₃, hdp])) name ip room).bind ?_
    rintro b t₄ ⟨h₄, hf₄, _, hcase⟩
    have hfiles₄ := (hfiles₂.trans hst₃.files).trans hf₄
    have hn₄ : t₄.ninodes = t.ninodes := hf₄.ninodes.trans (hst₃.ninodes.trans hst₂.ninodes)
    rcases hcase with ⟨rfl, hinode₄⟩ | ⟨rfl, hname, hinode₄⟩
    · rw [if_neg (by decide)]
      refine (Fs.wp_iput h₄ (by simp)).bind ?_
      rintro _ t₅ ⟨h₅, hst₅, _⟩
      exact wp_linkBad h.tree halloc hnlink h₅
        (hr ▸ hst₅.inode.trans (hinode₄.trans hinode₃)) (hst₅.ninodes.trans hn₄)
        (hfiles₄.trans hst₅.files) h.idle
    · rw [if_pos rfl]
      have hlt := h.tree.allocated_lt halloc
      have hsmall := h.tree.small
      rw [hdp₃] at hname hinode₄
      rw [hinode₃, Nat.mod_eq_of_lt (by omega), ← hr] at hinode₄
      have hmid : Mid m s [dp, ip] t₄ := by
        refine ⟨h₄, ?_, hfiles₄, h.idle⟩
        rw [hinode₄, hn₄]
        exact h.tree.link hdp ⟨halloc, hnd⟩ hnlink (fun hm => ht hm dp name hx.symm) hname
      exact hmid.wp_iput_then fun _ h₅ => h₅.wp_iput_then fun _ hu => hu

theorem Inv.wp_sysLink (h : Inv m s) {old new : List Char} {room : Bool}
    (hold : ∀ i, s.find p old false = some i → (s.inode i.1).nlink < 32767)
    (ht : m.tidy → ∀ dp name, s.find p new true = some (dp, name) → 0 < (s.inode dp).nlink) :
    wp (sysLink p old new room) (fun _ t => Inv m t) (Allowed m.anchored) s := by
  refine Mid.wp_namei_ilock h old (fun u hu => hu.inv) ?_
  intro ip name t₁ hx h₁ hst halloc
  rw [wp_bind, wp_get, wp_ite]
  split
  · exact h₁.wp_iput_return _
  · rename_i hnd
    refine (h₁.wp_linkAt halloc hnd (hst.inode ▸ hold (ip, name) hx) ?_).post fun _ u hu => hu.inv
    rw [hst.inode]
    intro hm dp name hf
    exact ht hm dp name (hst.find p new true ▸ hf)

/-- `sys_unlink` of an entry that names `ip`. An inode with a name has links, and a
directory that is removed must not be another one's parent if the tree is to stay
anchored. -/
theorem Mid.wp_unlinkAt (h : Mid m s [ip, dp] t) (hdp : (t.inode dp).type = .dir)
    (hdot : namecmp name dot = false) (hdotdot : namecmp name dotdot = false) {off : ℕ}
    (hf : findEntry name (t.inode dp).entries 0 = some (ip, off))
    (ha : m.anchored → (t.inode ip).type = .dir →
      ∀ c, (t.inode c).type = .dir → c ≠ ip → (t.inode c).dotdot ≠ ip) :
    wp (unlinkAt dp ip off) (fun _ u => Mid m s [] u) (Allowed m.anchored) t := by
  have halloc := h.tree.allocated_of_findEntry hdp hdot hdotdot hf
  have hpos := h.tree.consistent.count_pos (h.tree.named_of_findEntry hdp hdot hdotdot hf)
  rw [graph_count] at hpos
  refine (h.wp_ilock List.mem_cons_self fun _ => halloc).bind ?_
  rintro _ t₁ ⟨h₁, hst₁, _, hv₁⟩
  rw [wp_bind, wp_get, wp_ite, hst₁.inode, if_neg (by omega), wp_ite]
  split
  · exact h₁.wp_iput_then fun _ h₂ => h₂.wp_iput_then fun _ hu => hu
  · rename_i hempty
    rw [wp_bind, wp_modifyInode, wp_bind, wp_modifyInode, wp_bind]
    generalize hk : (if (t.inode ip).type = .dir then
      int16 (((t₁.setInode dp _).inode dp).nlink - 1) else _) = k
    have hdp₁ : t₁.inode dp = t.inode dp := by rw [hst₁.inode]
    simp only [setInode, update_self, hst₁.inode, update_idem] at hk ⊢
    obtain ⟨htree, hne, hkept⟩ := h.tree.remove hdp hdot hdotdot hf
      (fun hip => Bool.eq_true_of_not_eq_false fun hfalse => hempty ⟨hip, hfalse⟩) ha hk.symm
    have h₂ := h₁.refs.set (r := { (t.inode dp).cleared off with nlink := k }) (by rw [hdp₁]; rfl)
      (ne_free_of_dir (by rw [hdp₁, hdp])) (by rw [hdp₁]; exact hkept)
    rw [setInode, hst₁.inode] at h₂
    refine (Fs.wp_iput (h₂.perm (.swap ..)) (by simp)).post ?_
    rintro _ t₃ ⟨h₃, hst₃, hv₃⟩
    have hip₃ : t₃.inode ip = t.inode ip := by rw [hst₃.inode]; exact update_of_ne hne.symm ..
    rw [wp_bind, wp_modifyInode, wp_bind, hip₃]
    have h₄ : Refs (some ip) (pointers s) [ip]
        (t₃.setInode ip { t.inode ip with nlink := int16 ((t.inode ip).nlink - 1) }) :=
      h₃.set_exempt halloc
    have htree₄ : Tree m t₃.ninodes
        (t₃.setInode ip { t.inode ip with nlink := int16 ((t.inode ip).nlink - 1) }).inode := by
      rw [setInode, hst₃.inode, hst₃.ninodes]
      exact hst₁.ninodes ▸ htree
    have halloc₄ : ((t₃.setInode ip { t.inode ip with
        nlink := int16 ((t.inode ip).nlink - 1) }).inode ip).type ≠ .free := by
      simp only [setInode, update_self]
      exact halloc
    have hvalid₄ : t₃.valid ip = true := by
      rw [hv₃]
      exact hv₁
    refine (wp_iput_tree h₄ (by simp) htree₄ halloc₄ fun _ => hvalid₄).post ?_
    rintro _ u ⟨hu, htreeu, hf⟩
    refine ⟨hu, htreeu, ?_, h.idle⟩
    exact h₁.files.trans ⟨hf.ninodes.trans hst₃.ninodes, hf.file.trans hst₃.file,
      hf.proc.trans hst₃.proc⟩

/-- `unlink` keeps a tree anchored if it removes no directory that is another one's
parent. -/
theorem Inv.wp_sysUnlink (h : Inv m s)
    (ha : m.anchored → ∀ r, s.find p path false = some r → (s.inode r.1).type = .dir →
      ∀ c, (s.inode c).type = .dir → c ≠ r.1 → (s.inode c).dotdot ≠ r.1) :
    wp (sysUnlink p path) (fun _ t => Inv m t) (Allowed m.anchored) s := by
  refine (Mid.wp_nameiparent h path).bind ?_
  rintro r t₁ ⟨h₁, hst₁, hr⟩
  cases r with
  | none => exact h₁.inv
  | some x =>
    obtain ⟨dp, name⟩ := x
    have hdp := find_parent_dir hr.symm
    have h₁ : Mid m s [dp] t₁ := h₁
    refine (h₁.wp_ilock List.mem_cons_self fun _ =>
      ne_free_of_dir (by rw [hst₁.inode, hdp])).bind ?_
    rintro _ t₂ ⟨h₂, hst₂, _, _⟩
    split
    · exact h₂.wp_iput_return _
    · rename_i hdots
      refine (h₂.wp_dirlookup dp name).bind ?_
      rintro r t₃ ⟨h₃, hst₃, hf⟩
      have hst : Same s t₃ := (hst₁.trans hst₂).trans hst₃
      rw [← hst₃.inode] at hf
      cases r with
      | none =>
        have h₃ : Mid m s [dp] t₃ := h₃
        exact h₃.wp_iput_return _
      | some x =>
        obtain ⟨ip, off⟩ := x
        have hfind : s.find p path false = some (ip, []) := by
          obtain ⟨i, hi, hr⟩ := Option.bind_eq_some_iff.mp hr.symm
          rw [State.find, hi, Option.bind_some, resolve_eq_lookup hr, lookup, ← hst.inode, ← hf]
          rfl
        refine (h₃.wp_unlinkAt (by rw [hst.inode]; exact hdp)
          (by simpa [dot] using fun h' => hdots (.inl h'))
          (by simpa [dotdot] using fun h' => hdots (.inr h')) hf.symm ?_).post
          fun _ u hu => hu.inv
        rw [hst.inode]
        exact fun hm => ha hm _ hfind

end Xv6.Fs
