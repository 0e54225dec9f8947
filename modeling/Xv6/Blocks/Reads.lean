import Xv6.Blocks.Runs

/-!
Reads outside of a transaction.

`fileread` calls `readi` without `begin_op`, and `readi` shares `bmap` with `writei`, which
allocates the blocks it does not find and then calls `log_write`; outside of a transaction
that is a panic.

* `reads_never_allocate`: from a consistent image, no run makes a hole, `readi` changes
  nothing, and `fileread` never gets to `log_write`.
* `cross_linked_image_panics`: on an image in which two files share their indirect block, a
  truncation of one makes a hole in the other, and reading that one panics.
-/

namespace Xv6.Blocks.Reads

open Function (update)
open Run (Reachable relOf execAll)
open Wp

/-- What a `struct file` stands for. -/
inductive Object where
  | pipe
  | device
  | inode (ip : ℕ) (off : ℕ)

structure File where
  readable : Bool
  object : Object

/-- `fileread(f, addr, n)`: what it returns, and the file. `other` is what `piperead` or the
`read` of a device returns, which use no inode. -/
def fileread (f : File) (other : ℤ) (dst : ℕ → Bool) (n : ℕ) : M (ℤ × File) :=
  if f.readable = false then return (-1, f)
  else match f.object with
    | .pipe => return (other, f)
    | .device => return (other, f)
    | .inode ip off => do
        ilock ip
        let r ← readi ip dst off n
        return (r, { f with object := .inode ip (if 0 < r then off + r.toNat else off) })

variable {s : State} {i b : ℕ}

theorem ok_ilock (h : Ok none s) (hpos : 0 < s.ref i) :
    wp (ilock i) (fun _ t => Ok none t ∧ t.Locked i) (· ≠ .outsideOfTrans) s := by
  have hok := h.wp_ilock i
  unfold ilock at hok ⊢
  rw [wp_bind, wp_get, wp_ite] at hok ⊢
  split
  case isTrue hvalid =>
    rw [if_pos hvalid, wp_ite] at hok
    split
    case isTrue htype => exact nofun
    case isFalse htype =>
      rw [if_neg htype] at hok
      exact ⟨hok, hpos, Function.update_self _ _ _⟩
  case isFalse hvalid => exact ⟨h, hpos, Bool.eq_true_of_not_eq_false hvalid⟩

/-- `fileread` does not get to `log_write`. -/
theorem wp_fileread (h : Ok none s) {f : File} (href : ∀ ip off, f.object = .inode ip off → 0 < s.ref ip)
    (other : ℤ) (dst : ℕ → Bool) (n : ℕ) :
    wp (fileread f other dst n) (fun _ _ => True) (· ≠ .outsideOfTrans) s := by
  unfold fileread
  split
  · trivial
  cases hobj : f.object with
  | pipe => trivial
  | device => trivial
  | inode ip off =>
    apply (ok_ilock h (href ip off hobj)).bind
    rintro _ t ⟨ht, hl⟩
    apply (ht.wp_readi hl dst off n).bind
    intro r t' _
    trivial

/-- Every block of a file below its size has an address. -/
def NoHoles (s : State) : Prop :=
  ∀ i, (s.dinode i).type ≠ .free → ∀ bn, bn * BSIZE < (s.dinode i).size →
    ∃ x b, slotOf bn = some x ∧ s.Refers (i, x) b

theorem noHoles_of_ok (h : Ok none s) : NoHoles s := by
  intro i hi bn hbn
  rw [← h.current_eq] at hi hbn
  obtain ⟨b, x, hx, hheld⟩ := h.full i hi bn hbn
  exact ⟨x, b, hx, h.held_iff.mp hheld⟩

/-- **Reads never allocate.** In every run from a consistent image without holes, whichever
operations fail half way: there are no holes after any operation, `readi` returns without
having changed anything, and `fileread` does not reach the panic of `log_write`, also when no
transaction is open. -/
theorem reads_never_allocate (h : Reachable Consistent (relOf step) s) :
    NoHoles s ∧
    (∀ i dst off n, s.Locked i → ∃ r, readi i dst off n s = .ok (r, s)) ∧
    ∀ f other dst n, (∀ ip off, f.object = .inode ip off → 0 < s.ref ip) →
      fileread f other dst n s ≠ .error .outsideOfTrans := by
  have hok := ok_of_reachable h
  refine ⟨?_, ?_, ?_⟩
  · exact noHoles_of_ok hok
  · intro i dst off n hl
    have hwp : wp (readi i dst off n) (fun _ t => t = s) (fun _ => False) s :=
      hok.wp_readi hl dst off n
    obtain ⟨r, t, hrun, rfl⟩ := hwp.exists_ok
    exact ⟨r, hrun⟩
  · intro f other dst n href herror
    exact (wp_fileread hok href other dst n).of_error herror rfl

/-- A file of thirteen blocks is written on an empty disk in a transaction, and its last block is
read after it. -/
theorem reads_never_allocate_oneFile : ∃ s : State, s.outstanding = 0 ∧
    (s.dinode 1).size = 13 * 1024 ∧ (∃ x b, slotOf 12 = some x ∧ s.Refers (1, x) b) ∧
    fileread ⟨true, .inode 1 (12 * 1024)⟩ 0 (fun _ => true) 1024 s ≠ .error .outsideOfTrans := by
  obtain ⟨s, hreach, hout, hsize, htype, href⟩ : ∃ s, Reachable Consistent (relOf step) s ∧
      s.outstanding = 0 ∧ (s.dinode 1).size = 13 * 1024 ∧ (s.dinode 1).type = .file ∧
      0 < s.ref 1 :=
    Run.exists_reachable
      [.beginOp, .ialloc .file, .ilock 1, .writei 1 (fun _ => ⟨id, true⟩) 0 (13 * 1024), .endOp]
      (blank_consistent 4 40 3 (by decide) (by decide)) (by decide +kernel)
  obtain ⟨hholes, -, hread⟩ := reads_never_allocate hreach
  refine ⟨s, hout, hsize, hholes 1 (by rw [htype]; decide) 12 (by rw [hsize]; decide), ?_⟩
  apply hread
  rintro ip off hobj
  cases hobj
  exact href

/-! ### Images that are not consistent -/

/-- The blocks of two files of thirteen blocks that share their indirect block, 16. -/
def crossAddrs (i : ℕ) (k : Fin (NDIRECT + 1)) : ℕ :=
  if k = Fin.last NDIRECT then 16 else (if i = 1 then 4 else 18) + k

def crossLinked : State where
  size := 40
  ninodes := 3
  nmeta := 4
  bitmap b := b < 30
  block b j := if b = 16 ∧ j.val = 0 then 17 else 0
  dinode i :=
    if i = 1 ∨ i = 2 then ⟨.file, 1, 13 * 1024, crossAddrs i⟩ else ⟨.free, 0, 0, fun _ => 0⟩
  inode _ := ⟨.free, 0, 0, fun _ => 0⟩
  ref _ := 0
  valid _ := false
  outstanding := 0

theorem crossLinked_dinode (hi : (crossLinked.dinode i).type ≠ .free) :
    crossLinked.dinode i = ⟨.file, 1, 13 * 1024, crossAddrs i⟩ := by
  unfold crossLinked at hi ⊢
  dsimp only at hi ⊢
  split at hi
  · rw [if_pos ‹_›]
  · exact absurd rfl hi

theorem crossLinked_noHoles : NoHoles crossLinked := by
  intro i hi bn hbn
  have hd := crossLinked_dinode hi
  rw [hd] at hbn
  have hlt : bn < 13 := Nat.lt_of_mul_lt_mul_right hbn
  by_cases hdirect : bn < NDIRECT
  · refine ⟨.addr (Fin.castSucc ⟨bn, hdirect⟩), (if i = 1 then 4 else 18) + bn, dif_pos hdirect, hi, ?_, ?_⟩
    · rw [hd]
      have hne : Fin.castSucc (⟨bn, hdirect⟩ : Fin NDIRECT) ≠ Fin.last NDIRECT := Fin.castSucc_ne_last _
      exact if_neg hne
    · split <;> omega
  · have hbn' : bn = 12 := by
      unfold NDIRECT at hdirect
      omega
    subst hbn'
    refine ⟨.entry ⟨0, by decide⟩, 17, rfl, hi, ?_, by decide⟩
    rw [hd]
    rfl

theorem crossLinked_marked (x : ℕ × Slot) (h : crossLinked.Refers x b) :
    crossLinked.bitmap b = true := by
  obtain ⟨i, x⟩ := x
  obtain ⟨hi, haddr, hb⟩ := h
  apply decide_eq_true
  rw [crossLinked_dinode hi] at haddr
  cases x with
  | addr k =>
    have hk : k.val < 13 := k.isLt
    have haddr' : crossAddrs i k = b := haddr
    unfold crossAddrs at haddr'
    by_cases hlast : k = Fin.last NDIRECT
    · rw [if_pos hlast] at haddr'
      omega
    · rw [if_neg hlast] at haddr'
      have hne : k.val ≠ 12 := fun he => hlast (Fin.ext he)
      split at haddr' <;> omega
  | entry j =>
    have haddr' : (if (16 = 16 ∧ j.val = 0) then 17 else 0) = b := haddr
    split at haddr' <;> omega

/-- The panic of a function. -/
def panicOf {α : Type} : Except Panic α → Option Panic
  | .ok _ => none
  | .error e => some e

/-- The second file is truncated and gets a new block, which is the shared one: the first
file has a hole, and reading it outside of a transaction panics. -/
theorem cross_linked_image_panics : NoHoles crossLinked ∧
    (∀ x b, crossLinked.Refers x b → crossLinked.bitmap b = true) ∧
    ∃ t, Reachable (· = crossLinked) (relOf step) t ∧ ¬ NoHoles t ∧ 0 < t.ref 1 ∧
      fileread ⟨true, .inode 1 (12 * 1024)⟩ 0 (fun _ => true) 1024 t = .error .outsideOfTrans := by
  refine ⟨crossLinked_noHoles, fun x b => crossLinked_marked x, ?_⟩
  obtain ⟨t, hreach, htype, hsize, haddr, href, hpanic⟩ : ∃ t, Reachable (· = crossLinked) (relOf step) t ∧
      (t.dinode 1).type = .file ∧ (t.dinode 1).size = 13 * 1024 ∧
      (t.dinode 1).addrAt t.block (.entry ⟨0, by decide⟩) = 0 ∧ 0 < t.ref 1 ∧
      panicOf (fileread ⟨true, .inode 1 (12 * 1024)⟩ 0 (fun _ => true) 1024 t) = some .outsideOfTrans :=
    Run.exists_reachable [.beginOp, .iget 2, .ilock 2, .itrunc 2,
      .writei 2 (fun _ => ⟨id, true⟩) 0 1024, .endOp, .iget 1] rfl
      (by decide +kernel)
  refine ⟨t, hreach, ?_, href, ?_⟩
  · intro hholes
    obtain ⟨x, b, hx, -, hb, hne⟩ := hholes 1 (by rw [htype]; decide) 12 (by rw [hsize]; decide)
    cases hx
    exact hne (hb.symm.trans haddr)
  · cases hrun : fileread ⟨true, .inode 1 (12 * 1024)⟩ 0 (fun _ => true) 1024 t with
    | ok r =>
      rw [hrun] at hpanic
      cases hpanic
    | error e =>
      rw [hrun] at hpanic
      cases hpanic
      rfl

end Xv6.Blocks.Reads
