import Xv6.Fs.Links

/-!
Dangling entries over whole runs.

A removed directory stays allocated while some process is in it, and keeps its "..".
Nothing holds the parent: once it is empty it can be removed and freed in turn, and ".."
then names a free inode, which the next lookup through it takes to `ilock`. Entries do
not dangle in runs that remove no directory while another one's ".." names it. In these runs
the references to inodes are exact, and lookups keep them so.
-/

namespace Xv6.Fs

open LinkGraph (Mode)
open Wp

variable {s : State}

/-- No ".." but its own names `i`. -/
def NoParentOf (s : State) (i : ℕ) : Prop :=
  ∀ c < s.ninodes, (s.inode c).type = .dir → c ≠ i → (s.inode c).dotdot ≠ i

instance (s : State) (i : ℕ) : Decidable (NoParentOf s i) := by
  unfold NoParentOf
  infer_instance

/-- Removed directories have no subdirectories, no directory is removed that is still the
".." of another one, and no nlink overflows. -/
def KeepsParents (s : State) (a : Action) : Prop :=
  match a.call with
  | .mkdir path _ => IntoLinked s a.p path ∧ RoomForLink s a.p path true
  | .link old _ _ => RoomForLink s a.p old false
  | .unlink path => ∀ r ∈ s.find a.p path false, (s.inode r.1).type = .dir → NoParentOf s r.1
  | _ => True

instance (s : State) : (a : Action) → Decidable (KeepsParents s a)
  | ⟨p, .mkdir path _⟩ =>
    inferInstanceAs (Decidable (IntoLinked s p path ∧ RoomForLink s p path true))
  | ⟨p, .link old _ _⟩ => inferInstanceAs (Decidable (RoomForLink s p old false))
  | ⟨p, .unlink path⟩ => inferInstanceAs
      (Decidable (∀ r ∈ s.find p path false, (s.inode r.1).type = .dir → NoParentOf s r.1))
  | ⟨_, .open _ _ _⟩ | ⟨_, .mknod _ _ _ _⟩ | ⟨_, .chdir _⟩ | ⟨_, .dup _⟩ | ⟨_, .close _⟩
  | ⟨_, .exec _⟩ | ⟨_, .fork _⟩ | ⟨_, .exit⟩ => instDecidableTrue

/-- Directories stay anchored; names in removed directories are allowed. -/
def parented : Mode := ⟨False, True⟩

theorem KeepsParents.sound {a : Action} (hinv : Inv parented s) (h : KeepsParents s a) :
    Sound parented s a := by
  obtain ⟨p, call⟩ := a
  cases call with
  | «open» path omode room | mknod path major minor room => exact False.elim
  | mkdir path room => exact h
  | link old new room => exact ⟨h, False.elim⟩
  | unlink path =>
    intro _ r hr hdir c hc
    exact h r hr hdir c (hinv.tree.allocated_lt (Inode.ne_free_of_dir hc)) hc
  | _ => trivial

/-- Run lemma: the invariant with anchored directories holds in every state of a run that
keeps parents. -/
theorem inv_of_keepsParents (h : Run.ReachableUnder Booted (Run.relOf step) KeepsParents s) :
    Inv parented s :=
  h.invariant (Inv parented) (fun _ hb => hb.inv parented) fun _ _ _ hinv hk hstep =>
    hinv.step (hk.sound hinv) hstep

/-- With the invariant no lookup reaches a free inode. -/
theorem Inv.namex_ne_noType (h : Inv parented s) (p : Fin NPROC) (path : List Char)
    (parent : Bool) : namex p path parent s ≠ .error .noType := fun herr =>
  ((wp_namex h.refs h.cwd_pointer h.tree.closed path parent).of_error herr).2 trivial rfl

/-- **No dangling entries** in every run that keeps parents: what a directory names is
allocated, what is referenced is allocated, and neither a lookup nor a call that keeps
parents makes `ilock` panic. -/
theorem entries_not_dangling (h : Run.ReachableUnder Booted (Run.relOf step) KeepsParents s) :
    Closed s.inode ∧ (∀ i, 0 < s.ref i → (s.inode i).type ≠ .free) ∧
      (∀ p path parent, namex p path parent s ≠ .error .noType) ∧
      ∀ a, KeepsParents s a → ¬ Panics s a .noType := by
  have hinv := inv_of_keepsParents h
  refine ⟨(hinv.tree.closed trivial).1, fun i hi => ?_, hinv.namex_ne_noType, fun a hk hp => ?_⟩
  · rw [hinv.refs.ref_eq] at hi
    exact hinv.refs.used i hi
  · exact (hinv.panics (hk.sound hinv) hp).2 trivial rfl

/-- A process removes its current directory and then looks up the parent. -/
theorem entries_not_dangling_removeCwd :
    ∃ s, (s.inode 3).nlink = 0 ∧ (s.inode 3).dotdot = 2 ∧ Closed s.inode ∧
      namex 0 ['.', '.'] false s ≠ .error .noType := by
  obtain ⟨s, hreach, hnlink, hparent⟩ : ∃ s, Run.ReachableUnder Booted (Run.relOf step) KeepsParents s ∧
      (s.inode 3).nlink = 0 ∧ (s.inode 3).dotdot = 2 :=
    Run.exists_reachableUnder removeCwd (mkfs_booted 200 (by decide) (by decide)) (by decide +kernel)
  obtain ⟨hclosed, _, hlookup, _⟩ := entries_not_dangling hreach
  exact ⟨s, hnlink, hparent, hclosed, hlookup 0 ['.', '.'] false⟩

/-- After a process has removed its current directory /a/b and then /a, the ".." of its
directory names a free inode, and `chdir("..")` panics. -/
theorem removed_parent_dangles :
    Booted (mkfs 200) ∧
      (Run.execAll step (mkfs 200) (removeCwd ++ [⟨0, .unlink ['/', 'a']⟩])).map (fun s =>
        ((s.proc 0).cwd, (s.inode 3).type, (s.inode 3).entries, (s.inode 2).type,
          match syscall 0 (.chdir ['.', '.']) s with
          | .ok _ => none
          | .error e => some e)) =
        some (some 3, .dir, [⟨3, dot⟩, ⟨2, dotdot⟩], .free, some .noType) :=
  ⟨mkfs_booted 200 (by decide) (by decide), by decide +kernel⟩

end Xv6.Fs
