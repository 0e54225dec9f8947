import Xv6.Fs.Calls

/-!
Open files and current directories: what the remaining calls preserve, and the step
lemma for all of them.

A call that opens a file or changes a current directory turns a pin into a pointer, and
one that closes a file or leaves a directory turns a pointer into a pin, which the
following `iput` drops.
-/

namespace Xv6.Fs

open Function (update update_of_ne update_self update_apply update_eq_self)
open LinkGraph (Mode)
open Wp

variable {m : Mode} {s t u : State} {pins : List ℕ} {p q : Fin NPROC} {ip : ℕ} {f : Fin NFILE}
  {keep keep' : ℕ → ℕ}

/-! ### Pins and pointers -/

/-- The counts do not depend on files and processes. -/
theorem Refs.of_files {exempt : Option ℕ} (h : Refs exempt keep pins t) (hinode : u.inode = t.inode)
    (href : u.ref = t.ref) (hvalid : u.valid = t.valid) : Refs exempt keep pins u where
  ref_eq := by
    rw [href]
    exact h.ref_eq
  used := by
    rw [hinode]
    exact h.used
  loaded := by
    rw [hinode, href, hvalid]
    exact h.loaded
  held := by
    rw [hinode, hvalid]
    exact h.held

theorem Refs.pin_to_pointer (h : Refs none keep (ip :: pins) t) (halloc : (t.inode ip).type ≠ .free)
    (hk : ∀ j, keep' j = keep j + if j = ip then 1 else 0) : Refs none keep' pins t where
  ref_eq j := by
    rw [h.ref_eq j, count_cons_eq, hk]
    omega
  used j hj := by
    have := h.used j
    grind
  loaded := h.loaded
  held j hx hj hl := by
    obtain ⟨hpos, hv⟩ := h.held j hx hj hl
    exact ⟨by rw [hk]; omega, hv⟩

theorem Refs.pointer_to_pin (h : Refs none keep pins t)
    (hk : ∀ j, keep' j + (if j = ip then 1 else 0) = keep j) :
    Refs (some ip) keep' (ip :: pins) t where
  ref_eq j := by
    rw [h.ref_eq j, count_cons_eq, ← hk]
    omega
  used j hj := h.used j (by rw [← hk]; omega)
  loaded := h.loaded
  held j hx hj hl := by
    obtain ⟨hpos, hv⟩ := h.held j (by simp) hj hl
    have hk := hk j
    rw [if_neg fun hj => hx (by rw [hj])] at hk
    exact ⟨by omega, hv⟩

/-- The pointers after one file has changed. -/
theorem pointers_setFile (t : State) (f : Fin NFILE) (r : File) (j : ℕ) :
    pointers { t with file := update t.file f r } j + (if (t.file f).ip = some j then 1 else 0) =
      pointers t j + if r.ip = some j then 1 else 0 := by
  have hfun : (fun g => (update t.file f r g).ip) = update (fun g => (t.file g).ip) f r.ip := by
    funext g
    simp only [update_apply]
    split <;> rfl
  have := countOf_update (fun g => (t.file g).ip) f r.ip j
  simp only [pointers, hfun]
  omega

/-- The pointers after one process has changed. -/
theorem pointers_setProc (t : State) (p : Fin NPROC) (r : Process) (j : ℕ) :
    pointers { t with proc := update t.proc p r } j + (if (t.proc p).cwd = some j then 1 else 0) =
      pointers t j + if r.cwd = some j then 1 else 0 := by
  have hfun : (fun q => (update t.proc p r q).cwd) = update (fun q => (t.proc q).cwd) p r.cwd := by
    funext q
    simp only [update_apply]
    split <;> rfl
  have := countOf_update (fun q => (t.proc q).cwd) p r.cwd j
  simp only [pointers, hfun]
  omega

section

variable (h : Mid m t pins t)
include h

/-- Files and processes change, but no pointer does. -/
theorem Mid.change (hinode : u.inode = t.inode) (href : u.ref = t.ref) (hvalid : u.valid = t.valid)
    (hn : u.ninodes = t.ninodes) (hp : pointers u = pointers t) (hidle : Idle u) :
    Mid m u pins u := by
  refine ⟨?_, by rw [hinode, hn]; exact h.tree, .refl u, hidle⟩
  rw [hp]
  exact h.refs.of_files hinode href hvalid

/-- A change of a file's count. -/
theorem Mid.setFile_ref {n : ℕ} (hn : n = 0 → (t.file f).ip = none) :
    Mid m { t with file := update t.file f { t.file f with ref := n } } pins
      { t with file := update t.file f { t.file f with ref := n } } := by
  refine h.change rfl rfl rfl rfl (funext fun j => ?_) fun g hg => ?_
  · exact Nat.add_right_cancel (pointers_setFile t f { t.file f with ref := n } j)
  · have := h.idle g
    grind

/-- A change of a process's open files. -/
theorem Mid.setOfile (ofile : Fin NOFILE → Option (Fin NFILE)) :
    Mid m { t with proc := update t.proc p { t.proc p with ofile := ofile } } pins
      { t with proc := update t.proc p { t.proc p with ofile := ofile } } := by
  refine h.change rfl rfl rfl rfl (funext fun j => ?_) h.idle
  exact Nat.add_right_cancel (pointers_setProc t p { t.proc p with ofile := ofile } j)

/-! ### Opening and closing files -/

theorem Mid.wp_filealloc :
    wp filealloc (fun r u => Mid m u pins u ∧ u.inode = t.inode ∧
      ∀ f ∈ r, (u.file f).ref = 1 ∧ (u.file f).ip = none) (Allowed m.anchored) t := by
  unfold filealloc
  rw [wp_bind, wp_get]
  cases hf : (List.finRange NFILE).find? fun f => (t.file f).ref = 0 with
  | none => exact ⟨h, rfl, by simp⟩
  | some f =>
    have hzero : (t.file f).ref = 0 := by
      have hfound := List.find?_some hf
      exact of_decide_eq_true hfound
    refine ⟨h.setFile_ref (by simp), rfl, fun g hg => ?_⟩
    cases hg
    change (update t.file f { t.file f with ref := 1 } f).ref = 1 ∧
      (update t.file f { t.file f with ref := 1 } f).ip = none
    rw [update_self]
    exact ⟨rfl, h.idle f hzero⟩

theorem Mid.wp_fdalloc (f : Fin NFILE) :
    wp (fdalloc p f) (fun _ u => Mid m u pins u ∧ u.inode = t.inode ∧ u.file = t.file ∧
      ∀ q, (u.proc q).cwd = (t.proc q).cwd) (Allowed m.anchored) t := by
  unfold fdalloc
  rw [wp_bind, wp_get]
  split
  · exact ⟨h, rfl, rfl, fun _ => rfl⟩
  · refine ⟨h.setOfile _, rfl, rfl, fun q => ?_⟩
    grind

theorem Mid.wp_filedup (f : Fin NFILE) :
    wp (filedup f) (fun _ u => Mid m u pins u ∧ u.proc = t.proc) (Allowed m.anchored) t := by
  unfold filedup
  rw [wp_bind, wp_get, wp_ite]
  split
  · exact ⟨by decide, fun _ => by decide⟩
  · exact ⟨h.setFile_ref (by simp), rfl⟩

/-- `fileclose` drops the file's inode with the last reference to the file. -/
theorem Mid.wp_fileclose (honly : ∀ i, (t.file f).ip = some i → i ∉ pins) :
    wp (fileclose f) (fun _ u => Mid m u pins u ∧ u.proc = t.proc) (Allowed m.anchored) t := by
  unfold fileclose
  rw [wp_bind, wp_get, wp_ite]
  split
  · exact ⟨by decide, fun _ => by decide⟩
  split
  · refine ⟨h.setFile_ref fun hzero => ?_, rfl⟩
    omega
  · generalize ht₁ : { t with file := update t.file f ⟨0, none⟩ } = t₁
    have hidle₁ : Idle t₁ := by
      intro g hg
      have := h.idle g
      subst ht₁
      grind
    have hpointers := pointers_setFile t f ⟨0, none⟩
    rw [wp_bind, setFile, wp_modify, ht₁]
    cases hip : (t.file f).ip with
    | none =>
      rw [hip] at hpointers
      subst ht₁
      exact ⟨h.change rfl rfl rfl rfl (funext fun j => by simpa using hpointers j) hidle₁, rfl⟩
    | some ip =>
      rw [hip] at hpointers
      have hpin : Refs (some ip) (pointers t₁) (ip :: pins) t := by
        refine h.refs.pointer_to_pin fun j => ?_
        have := hpointers j
        grind
      have hkeep : 0 < pointers t ip := by
        have := hpointers ip
        simp only [if_true, reduceCtorEq, if_false] at this
        omega
      have hpin₁ : Refs (some ip) (pointers t₁) (ip :: pins) t₁ := by
        subst ht₁
        exact hpin.of_files rfl rfl rfl
      have hinode₁ : t₁.inode = t.inode := by rw [← ht₁]
      have hn₁ : t₁.ninodes = t.ninodes := by rw [← ht₁]
      have halloc := h.refs.used ip hkeep
      have hvalid₁ : (t₁.inode ip).nlink = 0 → t₁.valid ip = true := by
        subst ht₁
        exact fun hl => (h.refs.held ip (by simp) halloc hl).2
      refine (wp_iput_tree hpin₁ (honly ip hip) (by rw [hinode₁, hn₁]; exact h.tree)
        (by rw [hinode₁]; exact halloc) hvalid₁).post ?_
      rintro _ u ⟨hu, htree, hf⟩
      refine ⟨Mid.rebase ⟨hu, htree, hf, hidle₁⟩, ?_⟩
      rw [hf.proc, ← ht₁]

end

/-- A file that refers to no inode takes over the pin. -/
theorem Mid.setFile_ip (h : Mid m t [ip] t) (halloc : (t.inode ip).type ≠ .free)
    (href : (t.file f).ref = 1) (hip : (t.file f).ip = none) :
    Inv m { t with file := update t.file f { t.file f with ip := some ip } } := by
  have hpointers := pointers_setFile t f { t.file f with ip := some ip }
  refine ⟨?_, h.tree, .refl _, fun g hg => ?_⟩
  · refine Refs.of_files (h.refs.pin_to_pointer halloc fun j => ?_) rfl rfl rfl
    have := hpointers j
    grind
  · have := h.idle g
    grind

variable {omode : ℕ}

/-- Truncation leaves the inode as it is: a regular file has no entries to lose. -/
theorem wp_openTrunc {n : ℕ} {E : Panic → Prop} (h : Tree m n t.inode) :
    wp (openTrunc ip omode) (fun _ u => u = t) E t := by
  unfold openTrunc
  rw [wp_bind, wp_get, wp_ite]
  split
  · rename_i htrunc
    have hempty := (h.shaped ip).nondir (by rw [htrunc.2]; decide)
    have hself : ({ t.inode ip with entries := [] } : Inode) = t.inode ip := by rw [← hempty]
    change t.setInode ip { t.inode ip with entries := [] } = t
    rw [State.setInode, hself, update_eq_self]
  · exact rfl

/-- The rest of `sys_open` turns the pin into the file's pointer, or drops it. -/
theorem Mid.wp_openFile (h : Mid m s [ip] t) (halloc : (t.inode ip).type ≠ .free) (omode : ℕ) :
    wp (openFile p ip omode) (fun _ u => Inv m u) (Allowed m.anchored) t := by
  unfold openFile
  rw [wp_bind, wp_get, wp_ite]
  split
  · exact h.wp_iput_return _
  rw [wp_bind]
  refine h.rebase.wp_filealloc.post ?_
  rintro r t₁ ⟨h₁, hinode₁, hr⟩
  cases r with
  | none =>
    exact h₁.wp_iput_return _
  | some f =>
    obtain ⟨href, hip⟩ := hr f rfl
    refine (h₁.wp_fdalloc f).bind ?_
    rintro b t₂ ⟨h₂, hinode₂, hfile₂, _⟩
    rw [← hfile₂] at href hip
    split
    · refine (h₂.wp_fileclose (by simp [hip])).bind ?_
      rintro _ t₃ ⟨h₃, _⟩
      exact h₃.wp_iput_return _
    · rw [wp_bind, wp_get, wp_bind]
      have halloc₂ : (t₂.inode ip).type ≠ .free := by rw [hinode₂, hinode₁]; exact halloc
      have h₃ := h₂.setFile_ip halloc₂ href hip
      change wp (openTrunc ip omode >>= _) _ _
        { t₂ with file := update t₂.file f { t₂.file f with ip := some ip } }
      refine (wp_openTrunc h₃.tree).bind ?_
      rintro _ u rfl
      exact h₃

variable {path : List Char} {room : Room}

theorem Mid.wp_openInode (h : Mid m s [] t) (ht : m.tidy → omode &&& O_CREATE ≠ 0 →
      ∀ dp name, t.find p path true = some (dp, name) → 0 < (t.inode dp).nlink) :
    wp (openInode p path omode room) (fun r u => Mid m s r.toList u ∧
      ∀ i ∈ r, (u.inode i).type ≠ .free) (Allowed m.anchored) t := by
  unfold openInode
  split
  · rename_i hcreate
    exact h.wp_create (by decide) (fun hm => ht hm hcreate) (by simp)
  · refine h.wp_namei_ilock path (fun u hu => ⟨hu, by simp⟩) ?_
    intro ip name t₁ _ h₁ _ halloc
    rw [wp_bind, wp_get, wp_ite]
    split
    · rw [wp_bind]
      refine h₁.wp_iput.post ?_
      rintro _ u ⟨hu, _⟩
      exact ⟨hu, by simp⟩
    · refine ⟨h₁, fun i hi => ?_⟩
      cases hi
      exact halloc

theorem Inv.wp_sysOpen (h : Inv m s) (ht : m.tidy → omode &&& O_CREATE ≠ 0 →
      ∀ dp name, s.find p path true = some (dp, name) → 0 < (s.inode dp).nlink) :
    wp (sysOpen p path omode room) (fun _ t => Inv m t) (Allowed m.anchored) s := by
  refine (Mid.wp_openInode h ht).bind ?_
  rintro r t₁ ⟨h₁, halloc⟩
  cases r with
  | none => exact h₁.inv
  | some ip => exact Mid.wp_openFile h₁ (halloc ip rfl) omode

/-- `mkdir` and `mknod` drop what `create` returns. -/
theorem Inv.wp_createPut (h : Inv m s) {type : FileType} {major minor : ℤ} (htype : type ≠ .free)
    (ht : m.tidy → ∀ dp name, s.find p path true = some (dp, name) → 0 < (s.inode dp).nlink)
    (hdir : type = .dir → ∀ dp name, s.find p path true = some (dp, name) →
      0 < (s.inode dp).nlink ∧ (s.inode dp).nlink < 32767) :
    wp (createPut p path type major minor room) (fun _ t => Inv m t) (Allowed m.anchored) s := by
  refine (Mid.wp_create h htype ht hdir).bind ?_
  rintro r t₁ ⟨h₁, _⟩
  cases r with
  | none => exact h₁.inv
  | some ip =>
    have h₁ : Mid m s [ip] t₁ := h₁
    exact h₁.wp_iput_return _

theorem Inv.wp_sysDup (h : Inv m s) (fd : Fin NOFILE) :
    wp (sysDup p fd) (fun _ t => Inv m t) (Allowed m.anchored) s := by
  unfold sysDup
  rw [wp_bind, wp_get]
  cases hf : (s.proc p).ofile fd with
  | none => exact h
  | some f =>
    refine (Mid.wp_fdalloc h f).bind ?_
    rintro b t₁ ⟨h₁, _⟩
    split
    · refine (h₁.wp_filedup f).bind ?_
      rintro _ u ⟨hu, _⟩
      exact hu
    · exact h₁

theorem Inv.wp_sysClose (h : Inv m s) (fd : Fin NOFILE) :
    wp (sysClose p fd) (fun _ t => Inv m t) (Allowed m.anchored) s := by
  unfold sysClose
  rw [wp_bind, wp_get]
  cases hf : (s.proc p).ofile fd with
  | none => exact h
  | some f =>
    rw [wp_bind]
    have h₁ := Mid.setOfile (p := p) h (update (s.proc p).ofile fd none)
    change wp (fileclose f >>= _) _ _
      { s with proc := update s.proc p { s.proc p with ofile := update (s.proc p).ofile fd none } }
    refine (h₁.wp_fileclose (by simp)).bind ?_
    rintro _ u ⟨hu, _⟩
    exact hu

theorem Inv.wp_sysExec (h : Inv m s) (path : List Char) :
    wp (sysExec p path) (fun _ t => Inv m t) (Allowed m.anchored) s := by
  refine Mid.wp_namei_ilock h path (fun u hu => hu.inv) ?_
  intro ip name t₁ _ h₁ _ _
  exact h₁.wp_iput_return _

/-! ### Current directories -/

/-- The pin on the new current directory becomes a pointer, the pointer to the old one a
pin. -/
theorem Refs.move_cwd {v : Option ℕ} {c : ℕ} (h : Refs none (pointers t) v.toList t)
    (hcwd : (t.proc p).cwd = some c) (halloc : ∀ i ∈ v, (t.inode i).type ≠ .free) :
    Refs (some c) (pointers { t with proc := update t.proc p { t.proc p with cwd := v } }) [c] t := by
  have hpointers := pointers_setProc t p { t.proc p with cwd := v }
  cases v with
  | none =>
    refine h.pointer_to_pin fun j => ?_
    have := hpointers j
    grind
  | some ip =>
    have hmoved : Refs none (fun j => pointers t j + if j = ip then 1 else 0) [] t :=
      Refs.pin_to_pointer h (halloc ip rfl) fun _ => rfl
    refine hmoved.pointer_to_pin fun j => ?_
    have := hpointers j
    grind

/-- A process leaves its current directory `c` for `v`. -/
theorem Mid.wp_leave {v : Option ℕ} {c : ℕ} (h : Mid m t v.toList t)
    (hcwd : (t.proc p).cwd = some c) (halloc : ∀ i ∈ v, (t.inode i).type ≠ .free) :
    wp (do iput c; setCwd p v; return true) (fun _ u => Inv m u) (Allowed m.anchored) t := by
  have hc := h.refs.used c (Fs.cwd_pointer hcwd)
  refine (wp_iput_tree (h.refs.move_cwd hcwd halloc) (by simp) h.tree hc
    fun hl => (h.refs.held c (by simp) hc hl).2).bind ?_
  rintro _ u ⟨hu, htree, hf⟩
  have hpointers : pointers { u with proc := update u.proc p { u.proc p with cwd := v } } =
      pointers { t with proc := update t.proc p { t.proc p with cwd := v } } := by
    unfold pointers
    rw [hf.proc, hf.file]
  refine ⟨?_, htree, .refl _, fun f => ?_⟩
  · rw [hpointers]
    exact hu.of_files rfl rfl rfl
  · rw [hf.file]
    exact h.idle f

theorem Inv.wp_sysChdir (h : Inv m s) (hcwd : (s.proc p).cwd ≠ none) (path : List Char) :
    wp (sysChdir p path) (fun _ t => Inv m t) (Allowed m.anchored) s := by
  refine Mid.wp_namei_ilock h path (fun u hu => hu.inv) ?_
  intro ip name t₁ _ h₁ hst halloc
  rw [wp_bind, wp_get, wp_ite]
  split
  · exact h₁.wp_iput_return _
  · obtain ⟨c, hc⟩ := Option.ne_none_iff_exists'.mp hcwd
    have hc₁ : (t₁.proc p).cwd = some c := by rw [hst.proc, hc]
    rw [hc₁]
    refine Mid.wp_leave (v := some ip) h₁.rebase hc₁ fun i hi => ?_
    cases hi
    exact halloc

/-! ### Processes -/

/-- The loop of `fork` leaves the current directories alone. -/
theorem Mid.wp_forkFiles (h : Mid m t [] t) (fds : List (Fin NOFILE)) :
    wp (forkFiles p q fds) (fun _ u => Mid m u [] u ∧ ∀ r, (u.proc r).cwd = (t.proc r).cwd)
      (Allowed m.anchored) t := by
  induction fds generalizing t with
  | nil => exact ⟨h, fun _ => rfl⟩
  | cons fd rest ih =>
    unfold forkFiles
    rw [wp_bind, wp_get]
    cases hf : (t.proc p).ofile fd with
    | none => exact ih h
    | some f =>
      refine (h.wp_filedup f).bind ?_
      rintro _ t₁ ⟨h₁, hproc⟩
      have h₂ := Mid.setOfile (p := q) h₁ (update (t₁.proc q).ofile fd (some f))
      refine (ih h₂).post ?_
      rintro _ u ⟨hu, hcwd⟩
      refine ⟨hu, fun r => ?_⟩
      rw [hcwd r, ← hproc]
      simp only [update_apply]
      split
      · rename_i hr
        rw [hr]
      · rfl

theorem Inv.wp_sysFork (h : Inv m s) (hq : (s.proc q).cwd = none) :
    wp (sysFork p q) (fun _ t => Inv m t) (Allowed m.anchored) s := by
  refine (Mid.wp_forkFiles h _).bind ?_
  rintro _ t₁ ⟨h₁, hcwd₁⟩
  rw [wp_bind, wp_get]
  cases hc : (t₁.proc p).cwd with
  | none => exact h₁
  | some c =>
    have hkeep : 0 < pointers t₁ c := Fs.cwd_pointer hc
    have hpos : 0 < t₁.ref c := by
      rw [h₁.refs.ref_eq]
      omega
    refine (wp_idup h₁.refs hpos).bind ?_
    rintro _ t₂ ⟨h₂, hst⟩
    have hpointers := pointers_setProc t₂ q { t₂.proc q with cwd := some c }
    rw [hst.proc, hcwd₁ q, hq, ← hst.proc, hst.files.pointers_eq] at hpointers
    have halloc : (t₂.inode c).type ≠ .free := by
      rw [hst.inode]
      exact h₁.refs.used c hkeep
    have hmoved : Refs none
        (pointers { t₂ with proc := update t₂.proc q { t₂.proc q with cwd := some c } }) [] t₂ := by
      refine h₂.pin_to_pointer halloc fun j => ?_
      have := hpointers j
      grind
    refine ⟨⟨hmoved.ref_eq, hmoved.used, hmoved.loaded, hmoved.held⟩, ?_, .refl _, fun f => ?_⟩
    · have := (h₁.same hst h₂).tree
      exact this
    · rw [hst.file]
      exact h₁.idle f

/-- The loop of `exit` leaves the current directories alone. -/
theorem Mid.wp_exitFiles (h : Mid m t [] t) (fds : List (Fin NOFILE)) :
    wp (exitFiles p fds) (fun _ u => Mid m u [] u) (Allowed m.anchored) t := by
  induction fds generalizing t with
  | nil => exact h
  | cons fd rest ih =>
    unfold exitFiles
    rw [wp_bind, wp_get]
    cases hf : (t.proc p).ofile fd with
    | none => exact ih h
    | some f =>
      refine (h.wp_fileclose (by simp)).bind ?_
      rintro _ t₁ ⟨h₁, _⟩
      exact ih (Mid.setOfile (p := p) h₁ (update (t₁.proc p).ofile fd none))

theorem Inv.wp_sysExit (h : Inv m s) :
    wp (sysExit p) (fun _ t => Inv m t) (Allowed m.anchored) s := by
  refine (Mid.wp_exitFiles h _).bind fun _ t₁ h₁ => ?_
  rw [wp_bind, wp_get]
  cases hc : (t₁.proc p).cwd with
  | none => exact h₁
  | some c => exact Mid.wp_leave (v := none) h₁ hc (by simp)

/-! ### All calls -/

/-- The directory that a call enters a name into has nlink other than 0. -/
def IntoLinked (s : State) (p : Fin NPROC) (path : List Char) : Prop :=
  ∀ r ∈ s.find p path true, (s.inode r.1).nlink ≠ 0

/-- What a call must find for the invariant of mode `m` to survive it. -/
def Sound (m : Mode) (s : State) (a : Action) : Prop :=
  match a.call with
  | .open path omode _ => m.tidy → omode &&& O_CREATE ≠ 0 → IntoLinked s a.p path
  | .mkdir path _ => IntoLinked s a.p path ∧
      ∀ r ∈ s.find a.p path true, (s.inode r.1).nlink ≠ 32767
  | .mknod path _ _ _ => m.tidy → IntoLinked s a.p path
  | .link old new _ => (∀ r ∈ s.find a.p old false, (s.inode r.1).nlink ≠ 32767) ∧
      (m.tidy → IntoLinked s a.p new)
  | .unlink path => m.anchored → ∀ r ∈ s.find a.p path false, (s.inode r.1).type = .dir →
      ∀ c, (s.inode c).type = .dir → c ≠ r.1 → (s.inode c).dotdot ≠ r.1
  | _ => True

theorem IntoLinked.pos (h : Inv m s) (hl : IntoLinked s p path) (dp : ℕ)
    (name : Name) (hf : s.find p path true = some (dp, name)) : 0 < (s.inode dp).nlink := by
  have hdir := find_parent_dir hf
  have hnonneg := h.tree.nlink_nonneg (i := dp) (Inode.ne_free_of_dir hdir)
  have hne : (s.inode dp).nlink ≠ 0 := hl (dp, name) hf
  omega

variable {a : Action}

/-- Step lemma: every call keeps the invariant and panics only with what is allowed. -/
theorem Inv.wp_syscall (h : Inv m s) (hen : Enabled s a) (hs : Sound m s a) :
    wp (syscall a.p a.call) (fun _ t => Inv m t) (Allowed m.anchored) s := by
  obtain ⟨p, call⟩ := a
  cases call with
  | «open» path omode room => exact h.wp_sysOpen fun hm hc => IntoLinked.pos h (hs hm hc)
  | mkdir path room =>
    obtain ⟨hlinked, hroom⟩ := hs
    refine h.wp_createPut (by decide) (fun _ => hlinked.pos h) fun _ dp name hf => ?_
    have hpos := hlinked.pos h dp name hf
    have hsmall := (h.tree.shaped dp).small
    have hne : (s.inode dp).nlink ≠ 32767 := hroom (dp, name) hf
    omega
  | mknod path major minor room => exact h.wp_createPut (by decide) (fun hm => (hs hm).pos h) (by simp)
  | link old new room =>
    obtain ⟨hold, hlinked⟩ := hs
    refine h.wp_sysLink (fun r hf => ?_) fun hm => (hlinked hm).pos h
    have hsmall := (h.tree.shaped r.1).small
    have hne : (s.inode r.1).nlink ≠ 32767 := hold r hf
    omega
  | unlink path => exact h.wp_sysUnlink hs
  | chdir path => exact h.wp_sysChdir hen.1 path
  | dup fd => exact h.wp_sysDup fd
  | close fd => exact h.wp_sysClose fd
  | exec path => exact h.wp_sysExec path
  | fork q => exact h.wp_sysFork hen.2
  | exit => exact h.wp_sysExit

theorem Inv.step (h : Inv m s) (hs : Sound m s a) (hstep : step s a = some t) :
    Inv m t := by
  unfold Fs.step at hstep
  split at hstep
  · rename_i hen
    have hwp := h.wp_syscall hen hs
    split at hstep
    · rename_i b u hcall
      cases hstep
      exact hwp.of_ok hcall
    · cases hstep
  · cases hstep

/-- No call that meets its condition panics on an unlinked name, or on a free inode while
`m` keeps directories anchored. -/
theorem Inv.panics (h : Inv m s) {e : Panic} (hs : Sound m s a)
    (hp : Panics s a e) : Allowed m.anchored e :=
  (h.wp_syscall hp.1 hs).of_error hp.2

end Xv6.Fs
