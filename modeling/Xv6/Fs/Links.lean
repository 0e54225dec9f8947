import Xv6.Fs.Image

/-!
Link counts over whole runs.

An inode's nlink is the number of entries that name it, except that the ".." of a
removed directory is not counted: `unlink` takes it off the parent's nlink at once, while
the directory stays allocated as long as somebody is in it. Two things break the counts:
the calls enter names into removed directories, which are never taken off again when the
directory is freed, and nlink is a 16-bit integer without a limit check.
-/

namespace Xv6.Fs

open LinkGraph (Mode)

variable {s : State}

/-- The inode found has room for one more link. -/
def RoomForLink (s : State) (p : Fin NPROC) (path : List Char) (parent : Bool) : Prop :=
  ∀ r ∈ s.find p path parent, (s.inode r.1).nlink ≠ 32767

instance (s : State) (p : Fin NPROC) (path : List Char) : Decidable (IntoLinked s p path) := by
  unfold IntoLinked
  infer_instance

instance (s : State) (p : Fin NPROC) (path : List Char) (parent : Bool) :
    Decidable (RoomForLink s p path parent) := by
  unfold RoomForLink
  infer_instance

/-- No name is entered into a removed directory, and no nlink overflows. -/
def KeepsCounts (s : State) (a : Action) : Prop :=
  match a.call with
  | .open path omode _ => omode &&& O_CREATE ≠ 0 → IntoLinked s a.p path
  | .mkdir path _ => IntoLinked s a.p path ∧ RoomForLink s a.p path true
  | .mknod path _ _ _ => IntoLinked s a.p path
  | .link old new _ => RoomForLink s a.p old false ∧ IntoLinked s a.p new
  | _ => True

instance (s : State) : (a : Action) → Decidable (KeepsCounts s a)
  | ⟨p, .open path omode _⟩ =>
    inferInstanceAs (Decidable (omode &&& O_CREATE ≠ 0 → IntoLinked s p path))
  | ⟨p, .mkdir path _⟩ =>
    inferInstanceAs (Decidable (IntoLinked s p path ∧ RoomForLink s p path true))
  | ⟨p, .mknod path _ _ _⟩ => inferInstanceAs (Decidable (IntoLinked s p path))
  | ⟨p, .link old new _⟩ =>
    inferInstanceAs (Decidable (RoomForLink s p old false ∧ IntoLinked s p new))
  | ⟨_, .unlink _⟩ | ⟨_, .chdir _⟩ | ⟨_, .dup _⟩ | ⟨_, .close _⟩ | ⟨_, .exec _⟩ | ⟨_, .fork _⟩
  | ⟨_, .exit⟩ => instDecidableTrue

/-- Exact counts are kept; the ".." of removed directories is not followed. -/
def counted : Mode := ⟨True, False⟩

theorem KeepsCounts.sound {a : Action} (h : KeepsCounts s a) : Sound counted s a := by
  obtain ⟨p, call⟩ := a
  cases call with
  | «open» path omode room | mknod path major minor room => exact fun _ => h
  | mkdir path room => exact h
  | link old new room => exact ⟨h.1, fun _ => h.2⟩
  | unlink path => exact False.elim
  | _ => trivial

/-- Run lemma: the invariant with exact counts holds in every state of a run that keeps the
counts. -/
theorem inv_of_keepsCounts (h : Run.ReachableUnder Booted (Run.relOf step) KeepsCounts s) :
    Inv counted s :=
  h.invariant (Inv counted) (fun _ hb => hb.inv counted) fun _ _ _ hinv hk hstep =>
    hinv.step hk.sound hstep

theorem exists_entry_of_linkCount {i : ℕ} (h : 0 < linkCount s i) :
    ∃ d, (s.inode d).type = .dir ∧ ∃ e ∈ (s.inode d).entries, e.inum = i ∧ e.name ≠ dot := by
  obtain ⟨d, _, hd⟩ := Finset.exists_ne_zero_of_sum_ne_zero h.ne'
  obtain ⟨e, he⟩ := List.exists_mem_of_length_pos (Nat.pos_of_ne_zero hd)
  unfold naming at he
  split at he
  · rename_i hdir
    obtain ⟨hmem, hcond⟩ := List.mem_filter.mp he
    have hcond := of_decide_eq_true hcond
    exact ⟨d, hdir, e, hmem, hcond.1, hcond.2.1⟩
  · cases he

/-- **Link counts are exact**, up to the ".." of removed directories, in every run that
enters no names into removed directories and overflows no nlink. Hence every linked inode
has an entry, and `unlink` finds no name of an inode without links. -/
theorem link_counts_exact (h : Run.ReachableUnder Booted (Run.relOf step) KeepsCounts s) :
    (∀ i, (s.inode i).type ≠ .free → (s.inode i).nlink = linkCount s i) ∧
      (∀ i, (s.inode i).type ≠ .free → 0 < (s.inode i).nlink →
        ∃ d, (s.inode d).type = .dir ∧ ∃ e ∈ (s.inode d).entries, e.inum = i ∧ e.name ≠ dot) ∧
      ∀ p path, ¬ Panics s ⟨p, .unlink path⟩ .nlink := by
  have hinv := inv_of_keepsCounts h
  have hcount : ∀ i, (s.inode i).type ≠ .free → (s.inode i).nlink = linkCount s i := by
    intro i hi
    have heq := hinv.tree.consistent.count_eq (i := i) trivial fun hf => hi (kind_eq_free.mp hf)
    rw [linkCount_eq hinv.tree hi, Nat.cast_add]
    exact heq
  refine ⟨hcount, fun i hi hpos => ?_, fun p path hp => ?_⟩
  · rw [hcount i hi] at hpos
    exact exists_entry_of_linkCount (Int.natCast_pos.mp hpos)
  · exact (hinv.panics (a := ⟨p, .unlink path⟩) False.elim hp).1 rfl

/-- A process makes /a and /a/b, and removes /a/b while it is in it. -/
def removeCwd : List Action :=
  [⟨0, .mkdir ['/', 'a'] ⟨true, true⟩⟩, ⟨0, .mkdir ['/', 'a', '/', 'b'] ⟨true, true⟩⟩,
    ⟨0, .chdir ['/', 'a', '/', 'b']⟩, ⟨0, .unlink ['/', 'a', '/', 'b']⟩]

theorem link_counts_exact_removeCwd :
    ∃ s, (s.inode 3).nlink = 0 ∧ (s.inode 3).dotdot = 2 ∧ (s.inode 2).nlink = linkCount s 2 ∧
      linkCount s 2 = 1 := by
  obtain ⟨s, hreach, hnlink, hparent, hdir, hcount⟩ :
      ∃ s, Run.ReachableUnder Booted (Run.relOf step) KeepsCounts s ∧ (s.inode 3).nlink = 0 ∧
        (s.inode 3).dotdot = 2 ∧ (s.inode 2).type = .dir ∧ linkCount s 2 = 1 :=
    Run.exists_reachableUnder removeCwd (mkfs_booted 200 (by decide) (by decide)) (by decide +kernel)
  exact ⟨s, hnlink, hparent, (link_counts_exact hreach).1 2 (Inode.ne_free_of_dir hdir), hcount⟩

/-! ### A file with many links -/

/-- Names for many links. -/
def linkName (k : ℕ) : Name := (List.range DIRSIZ).map fun j => if k.testBit j then '1' else '0'

def linksTo (i n : ℕ) : List Dirent := (List.range n).map fun k => ⟨i, linkName k⟩

/-- A disk with one file that has `m` links in /a and `n` in /b. -/
def crowded (m n : ℕ) : State :=
  { mkfs 5 with
    inode := fun i =>
      match i with
      | 1 => ⟨.dir, 0, 0, 3, [⟨1, dot⟩, ⟨1, dotdot⟩, ⟨2, ['a']⟩, ⟨3, ['b']⟩]⟩
      | 2 => ⟨.dir, 0, 0, 1, ⟨2, dot⟩ :: ⟨1, dotdot⟩ :: linksTo 4 m⟩
      | 3 => ⟨.dir, 0, 0, 1, ⟨3, dot⟩ :: ⟨1, dotdot⟩ :: linksTo 4 n⟩
      | 4 => ⟨.file, 0, 0, m + n, []⟩
      | _ => ⟨.free, 0, 0, 0, []⟩ }

theorem linkName_ne (k : ℕ) : linkName k ≠ dot ∧ linkName k ≠ dotdot := by
  have hlength : (linkName k).length = DIRSIZ := by simp [linkName]
  constructor <;> intro h <;> rw [h] at hlength <;> cases hlength

theorem mem_linksTo {i n : ℕ} {e : Dirent} (h : e ∈ linksTo i n) :
    e.inum = i ∧ e.name ≠ dot ∧ e.name ≠ dotdot := by
  obtain ⟨k, _, rfl⟩ := List.mem_map.mp h
  exact ⟨rfl, linkName_ne k⟩

theorem namesOf_linksTo (n i : ℕ) : namesOf (linksTo 4 n) i = if i = 4 then n else 0 := by
  unfold namesOf
  split
  · rename_i hi
    subst hi
    rw [List.countP_eq_length.mpr]
    · simp [linksTo]
    · intro e he
      simp [(mem_linksTo he).1]
  · rename_i hi
    rw [List.countP_eq_zero]
    intro e he
    simp [(mem_linksTo he).1, Ne.symm hi]

theorem crowded_inode (m n i : ℕ) (h : ((crowded m n).inode i).type ≠ .free) :
    i = 1 ∨ i = 2 ∨ i = 3 ∨ i = 4 := by
  match i with
  | 0 => exact absurd rfl h
  | 1 | 2 | 3 | 4 => decide
  | k + 5 => exact absurd rfl h

theorem crowded_dir (m n i : ℕ) (h : ((crowded m n).inode i).type = .dir) :
    i = 1 ∨ i = 2 ∨ i = 3 := by
  rcases crowded_inode m n i (Inode.ne_free_of_dir h) with rfl | rfl | rfl | rfl
  · exact .inl rfl
  · exact .inr (.inl rfl)
  · exact .inr (.inr rfl)
  · cases h

theorem crowded_shaped {m n : ℕ} (h : m + n ≤ 32767) (i : ℕ) : Shaped i ((crowded m n).inode i) := by
  match i with
  | 1 =>
    refine ⟨fun hd => absurd rfl hd, fun _ => ⟨1, _, rfl, by decide, ?_⟩,
      (by decide : (3 : ℤ) ≤ 32767)⟩
    decide
  | 2 =>
    refine ⟨fun hd => absurd rfl hd, fun _ => ⟨1, _, rfl, by decide, fun e he _ => ?_⟩,
      (by decide : (1 : ℤ) ≤ 32767)⟩
    exact (mem_linksTo he).2
  | 3 =>
    refine ⟨fun hd => absurd rfl hd, fun _ => ⟨1, _, rfl, by decide, fun e he _ => ?_⟩,
      (by decide : (1 : ℤ) ≤ 32767)⟩
    exact (mem_linksTo he).2
  | 4 =>
    refine ⟨fun _ => rfl, by simp [crowded], ?_⟩
    change (m + n : ℤ) ≤ 32767
    omega
  | 0 | k + 5 => exact ⟨fun _ => rfl, by simp [crowded], (by decide : (0 : ℤ) ≤ 32767)⟩

/-- The entries of each inode of the disk that name `i`. -/
theorem crowded_naming {m n : ℕ} (h : m + n ≤ 32767) {i : ℕ} (hi : i ≠ 0) (d : ℕ) :
    (naming ((crowded m n).inode d) i true).length =
      match d with
      | 1 => (if i = 1 then 1 else 0) + (if i = 2 then 1 else 0) + if i = 3 then 1 else 0
      | 2 => (if i = 1 then 1 else 0) + if i = 4 then m else 0
      | 3 => (if i = 1 then 1 else 0) + if i = 4 then n else 0
      | _ => 0 := by
  rw [naming_length (crowded_shaped h d) hi]
  match d with
  | 1 =>
    change namesOf [⟨2, ['a']⟩, ⟨3, ['b']⟩] i + (if _ ∧ true = true ∧ 1 = i then 1 else 0) = _
    simp only [namesOf, List.countP_cons, List.countP_nil]
    grind [crowded]
  | 2 =>
    change namesOf (linksTo 4 m) i + (if _ ∧ true = true ∧ 1 = i then 1 else 0) = _
    rw [namesOf_linksTo]
    grind [crowded]
  | 3 =>
    change namesOf (linksTo 4 n) i + (if _ ∧ true = true ∧ 1 = i then 1 else 0) = _
    rw [namesOf_linksTo]
    grind [crowded]
  | 4 | 0 | k + 5 =>
    rw [if_neg (by simp [crowded])]
    rfl

theorem crowded_entryCount {m n : ℕ} (h : m + n ≤ 32767) {i : ℕ} (hi : i ≠ 0) :
    entryCount (crowded m n) i = (if i = 1 then 3 else 0) + (if i = 2 then 1 else 0) +
      (if i = 3 then 1 else 0) + if i = 4 then m + n else 0 := by
  change ∑ d ∈ Finset.range 5, _ = _
  simp only [Finset.sum_range_succ, Finset.sum_range_zero, crowded_naming h hi]
  grind

theorem crowded_booted {m n : ℕ} (hpos : 0 < m + n) (h : m + n ≤ 32767) : Booted (crowded m n) where
  image :=
    { small := (by decide : 5 ≤ 65536)
      allocated := fun i hi => by
        rcases crowded_inode m n i hi with rfl | rfl | rfl | rfl <;>
          exact ⟨by decide, (by decide : _ < 5)⟩
      shaped := crowded_shaped h
      root := ⟨rfl, rfl⟩
      entry := fun d hd e he hne => by
        rcases crowded_dir m n d hd with rfl | rfl | rfl
        · rcases List.mem_cons.mp he with rfl | he
          · exact ⟨Inode.ne_free_of_dir rfl, fun _ => ⟨by decide, rfl⟩⟩
          · rcases List.mem_cons.mp he with rfl | he
            · exact ⟨Inode.ne_free_of_dir rfl, fun _ => ⟨by decide, rfl⟩⟩
            · cases he
        · rw [(mem_linksTo he).1]
          exact ⟨by simp [crowded], by simp [crowded]⟩
        · rw [(mem_linksTo he).1]
          exact ⟨by simp [crowded], by simp [crowded]⟩
      named := fun i hi hroot => by
        rcases crowded_dir m n i hi with rfl | rfl | rfl
        · exact absurd rfl hroot
        · exact ⟨rfl, rfl⟩
        · exact ⟨rfl, rfl⟩
      linked := fun i hi => by
        rcases crowded_inode m n i hi with rfl | rfl | rfl | rfl
        · exact (by decide : (0 : ℤ) < 3)
        · exact (by decide : (0 : ℤ) < 1)
        · exact (by decide : (0 : ℤ) < 1)
        · change (0 : ℤ) < m + n
          omega
      count := fun i hi => by
        rcases crowded_inode m n i hi with rfl | rfl | rfl | rfl <;>
          rw [crowded_entryCount h (by decide)] <;> simp [crowded] }
  first := ⟨0, rfl, fun q hq => by simp [crowded, mkfs, hq]⟩
  file _ := rfl
  ref _ := rfl

/-- The ".." of a removed directory names its parent without being counted. A file made
in a removed directory keeps its link after the directory is gone. One link more than a
`short` can count makes nlink negative. -/
theorem link_counts_inexact :
    Booted (mkfs 200) ∧ Booted (crowded 16384 16383) ∧
      (Run.execAll step (mkfs 200) removeCwd).map (fun s =>
        ((s.inode 2).type, (s.inode 2).nlink, entryCount s 2)) = some (.dir, 1, 2) ∧
      (Run.execAll step (mkfs 200)
        [⟨0, .mkdir ['/', 'a'] ⟨true, true⟩⟩, ⟨0, .chdir ['/', 'a']⟩, ⟨0, .unlink ['/', 'a']⟩,
          ⟨0, .open ['f'] O_CREATE ⟨true, true⟩⟩, ⟨0, .close 0⟩, ⟨0, .chdir ['/']⟩]).map (fun s =>
        ((s.inode 3).type, (s.inode 3).nlink, entryCount s 3)) = some (.file, 1, 0) ∧
      (Run.execAll step (crowded 16384 16383)
        [⟨0, .link (['/', 'a', '/'] ++ linkName 0) ['/', 'x'] true⟩]).map (fun s =>
        ((s.inode 4).type, (s.inode 4).nlink)) = some (.file, -32768) := by
  refine ⟨mkfs_booted 200 (by decide) (by decide), crowded_booted (by decide) (by decide), ?_, ?_, ?_⟩
  all_goals decide +kernel

end Xv6.Fs
