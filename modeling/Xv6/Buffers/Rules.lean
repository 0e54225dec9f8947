import Xv6.Buffers.Model

/-!
What the code of `log.c` and `fs.c` does with buffers, as seen by one process.

A process knows which buffers it holds and whether it owes them a `log_write` or `bwrite`
(`Loc.held`), whether it is in a transaction, and, while it commits, how far it has got.
`rules` says what each operation needs of that and how it changes it: a buffer that is
owed a write may not be released, and `log.lh` may be cleared only when each of its blocks
has been written home and unpinned. The lemmas after it show that the kernel's functions
keep to these rules.
-/

namespace Xv6.Buffers

open Cache (Buf Slot)
open Prog (wp wp_bind Restores)
open Function (update update_self update_of_ne update_idem)

/-- How far a commit has got. -/
structure Commit where
  /-- `log.lh`, which does not change during the commit. -/
  lh : List ℕ
  /-- Blocks that have been written to disk. -/
  clean : List ℕ
  /-- Blocks that have been unpinned. -/
  unpinned : List ℕ

/-- What a process knows. -/
structure Loc where
  /-- The buffers it holds, the block in each, and whether it owes it a write. -/
  held : Buf → Option (ℕ × Bool)
  tx : Bool
  commit : Option Commit

namespace Loc

def hold (l : Loc) (b : Buf) (n : ℕ) (owes : Bool) : Loc :=
  { l with held := update l.held b (some (n, owes)) }

def drop (l : Loc) (b : Buf) : Loc := { l with held := update l.held b none }

/-- Block `n` is on disk now. -/
def wrote (l : Loc) (n : ℕ) : Loc :=
  { l with commit := l.commit.map fun c => { c with clean := n :: c.clean } }

/-- Block `n` is no longer pinned. -/
def unpin (l : Loc) (n : ℕ) : Loc :=
  { l with commit := l.commit.map fun c => { c with unpinned := n :: c.unpinned } }

/-- Nothing is held, and nothing is left to do. -/
def Idle (l : Loc) : Prop := (∀ b, l.held b = none) ∧ l.commit = none

variable {l : Loc} {b b' : Buf} {n : ℕ} {owes : Bool}

@[simp] theorem hold_held : (l.hold b n owes).held b = some (n, owes) := update_self ..

theorem hold_held_of_ne (h : b' ≠ b) : (l.hold b n owes).held b' = l.held b' := update_of_ne h ..

@[simp] theorem hold_hold {n' : ℕ} {owes' : Bool} :
    (l.hold b n owes).hold b n' owes' = l.hold b n' owes' := by
  simp only [hold, update_idem]

theorem drop_hold (h : l.held b = none) : (l.hold b n owes).drop b = l := by
  simp only [hold, drop, update_idem]
  rw [← h, Function.update_eq_self]

theorem hold_comm (h : b' ≠ b) {n' : ℕ} {owes' : Bool} :
    (l.hold b n owes).hold b' n' owes' = (l.hold b' n' owes').hold b n owes := by
  simp only [hold, Function.update_comm h]

@[simp] theorem hold_wrote {m : ℕ} : (l.hold b n owes).wrote m = (l.wrote m).hold b n owes := rfl

theorem ne_of_not_held (h : (l.hold b n owes).held b' = none) : b' ≠ b := by
  rintro rfl
  rw [hold_held] at h
  cases h

end Loc

/-! ### The rules -/

/-- What an operation needs, and what it leaves. -/
def pre : (o : Op) → (Resp o → Loc → Prop) → Loc → Prop
  | .bread n, Q, l => ∀ b, l.held b = none → Q b (l.hold b n false)
  | .decref, Q, l => Q () l
  | .brelse b, Q, l => ∃ n, l.held b = some (n, false) ∧ Q () (l.drop b)
  | .bwrite b, Q, l => ∃ x, l.held b = some x ∧ Q () ((l.hold b x.1 false).wrote x.1)
  | .bunpin b, Q, l => ∃ x c, l.held b = some x ∧ l.commit = some c ∧ x.1 ∈ c.lh ∧
      x.1 ∈ c.clean ∧ x.1 ∉ c.unpinned ∧
      Q () { l with commit := some { c with unpinned := x.1 :: c.unpinned } }
  | .data _, Q, l => ∀ d, Q d l
  | .store b _, Q, l => ∃ x, l.held b = some x ∧ Q () (l.hold b x.1 true)
  | .copyin b _ _ ok, Q, l => l.tx = true ∧
      ∃ x, l.held b = some x ∧ Q () (if ok then l.hold b x.1 true else l)
  | .logWrite b, Q, l => ∃ x, l.held b = some x ∧ Q () (l.hold b x.1 false)
  | .beginOp, Q, l => l.tx = false ∧ Q () { l with tx := true }
  | .endOp, Q, l => l.tx = true ∧ l.commit = none ∧ Q false { l with tx := false } ∧
      ∀ blocks : List ℕ, blocks.Nodup → blocks.length ≤ LOGSIZE →
        Q true { l with tx := false, commit := some ⟨blocks, [], []⟩ }
  | .commitDone, Q, l => (∃ c, l.commit = some c ∧ c.lh = []) ∧ Q () { l with commit := none }
  | .lh, Q, l => ∃ c, l.commit = some c ∧ Q c.lh l
  | .clearLh, Q, l => (∃ c, l.commit = some c ∧ ∀ n ∈ c.lh, n ∈ c.clean ∧ n ∈ c.unpinned) ∧
      Q () { l with commit := some ⟨[], [], []⟩ }
  | .panic _, _, _ => True
  | .outOfFuel, _, _ => False

def rules : Prog.Rules Resp Loc where
  pre := pre
  mono := by
    intro o Q Q' l hQ h
    cases o with
    | bread n => exact fun b hb => hQ _ _ (h b hb)
    | decref => exact hQ _ _ h
    | brelse b => exact h.imp fun n hn => ⟨hn.1, hQ _ _ hn.2⟩
    | bwrite b | store b f | logWrite b => exact h.imp fun x hx => ⟨hx.1, hQ _ _ hx.2⟩
    | bunpin b =>
      obtain ⟨x, c, hx, hc, hlh, hclean, hun, h⟩ := h
      exact ⟨x, c, hx, hc, hlh, hclean, hun, hQ _ _ h⟩
    | data b => exact fun d => hQ _ _ (h d)
    | copyin b off bytes ok => exact ⟨h.1, h.2.imp fun x hx => ⟨hx.1, hQ _ _ hx.2⟩⟩
    | beginOp | commitDone | clearLh => exact ⟨h.1, hQ _ _ h.2⟩
    | endOp => exact ⟨h.1, h.2.1, hQ _ _ h.2.2.1, fun bs hnd hlen => hQ _ _ (h.2.2.2 bs hnd hlen)⟩
    | lh => exact h.imp fun c hc => ⟨hc.1, hQ _ _ hc.2⟩
    | panic msg => trivial
    | outOfFuel => exact h

section

variable {α : Type} {Q : α → Loc → Prop} {l : Loc} {b : Buf} {n : ℕ}

theorem wp_bread {Q : Buf → Loc → Prop} :
    wp rules (bread n) Q l ↔ ∀ b, l.held b = none → Q b (l.hold b n false) := Iff.rfl

@[simp] theorem wp_data {Q : Block → Loc → Prop} : wp rules (data b) Q l ↔ ∀ d, Q d l := Iff.rfl

variable {owes : Bool}

@[simp] theorem wp_store {Q : Unit → Loc → Prop} {f : Block → Block} :
    wp rules (store b f) Q (l.hold b n owes) ↔ Q () (l.hold b n true) := by
  constructor
  · rintro ⟨x, hx, h⟩
    rw [Loc.hold_held, Option.some.injEq] at hx
    subst hx
    rwa [Loc.hold_hold] at h
  · intro h
    exact ⟨(n, owes), Loc.hold_held, by rwa [Loc.hold_hold]⟩

@[simp] theorem wp_logWrite {Q : Unit → Loc → Prop} :
    wp rules (logWrite b) Q (l.hold b n owes) ↔ Q () (l.hold b n false) := by
  constructor
  · rintro ⟨x, hx, h⟩
    rw [Loc.hold_held, Option.some.injEq] at hx
    subst hx
    rwa [Loc.hold_hold] at h
  · intro h
    exact ⟨(n, owes), Loc.hold_held, by rwa [Loc.hold_hold]⟩

theorem wp_copyin (htx : l.tx = true) {Q : Unit → Loc → Prop} {off : ℕ} {bytes : List UInt8}
    {ok owes : Bool} :
    wp rules (copyin b off bytes ok) Q (l.hold b n owes) ↔ Q () (l.hold b n (owes || ok)) := by
  have hnew : (if ok = true then (l.hold b n owes).hold b n true else l.hold b n owes) =
      l.hold b n (owes || ok) := by
    cases ok <;> simp
  constructor
  · rintro ⟨-, x, hx, h⟩
    rw [Loc.hold_held, Option.some.injEq] at hx
    subst hx
    rwa [hnew] at h
  · intro h
    exact ⟨htx, (n, owes), Loc.hold_held, by rwa [hnew]⟩

@[simp] theorem wp_bwrite {Q : Unit → Loc → Prop} :
    wp rules (bwrite b) Q (l.hold b n owes) ↔ Q () ((l.wrote n).hold b n false) := by
  constructor
  · rintro ⟨x, hx, h⟩
    rw [Loc.hold_held, Option.some.injEq] at hx
    subst hx
    rwa [Loc.hold_hold, Loc.hold_wrote] at h
  · intro h
    exact ⟨(n, owes), Loc.hold_held, by rwa [Loc.hold_hold, Loc.hold_wrote]⟩

theorem wp_bunpin {Q : Unit → Loc → Prop} {c : Commit} (hc : l.commit = some c)
    (hlh : n ∈ c.lh) (hclean : n ∈ c.clean) (hun : n ∉ c.unpinned)
    (h : Q () ((l.unpin n).hold b n owes)) : wp rules (bunpin b) Q (l.hold b n owes) := by
  refine ⟨(n, owes), c, Loc.hold_held, hc, hlh, hclean, hun, ?_⟩
  have hnew : (l.unpin n).hold b n owes =
      { l.hold b n owes with commit := some { c with unpinned := n :: c.unpinned } } := by
    simp only [Loc.unpin, Loc.hold, hc, Option.map_some]
  rwa [← hnew]

theorem wp_lh {Q : List ℕ → Loc → Prop} {c : Commit} (hc : l.commit = some c) (h : Q c.lh l) :
    wp rules lh Q l := ⟨c, hc, h⟩

theorem wp_leaveOp {Q : Bool → Loc → Prop} (htx : l.tx = true) (hc : l.commit = none)
    (hstay : Q false { l with tx := false })
    (hcommit : ∀ blocks : List ℕ, blocks.Nodup → blocks.length ≤ LOGSIZE →
      Q true { l with tx := false, commit := some ⟨blocks, [], []⟩ }) : wp rules leaveOp Q l :=
  ⟨htx, hc, hstay, hcommit⟩

theorem wp_brelse {Q : Unit → Loc → Prop} (hb : l.held b = none) :
    wp rules (brelse b) Q (l.hold b n false) ↔ Q () l := by
  constructor
  · rintro ⟨m, -, h⟩
    rwa [Loc.drop_hold hb] at h
  · intro h
    exact ⟨n, Loc.hold_held, by rwa [Loc.drop_hold hb]⟩

@[simp] theorem wp_panic {msg : String} : wp rules (panic msg) Q l := trivial

/-- Read a buffer and go on with it. -/
theorem restores_read {k : Buf → Code α}
    (h : ∀ b, l.held b = none → wp rules (k b) (fun _ l' => l' = l) (l.hold b n false)) :
    Restores rules (bread n >>= k) l := wp_bind.mpr h

/-- Change a buffer, log it and release it. -/
theorem wp_logged {Q : Unit → Loc → Prop} {f : Block → Block} (hb : l.held b = none) (h : Q () l) :
    wp rules (do store b f; logWrite b; brelse b) Q (l.hold b n false) := by
  simp only [wp_bind]
  rw [wp_store, wp_logWrite, wp_brelse hb]
  exact h

end

/-! ### `kernel/fs.c` -/

section Fs

variable {l : Loc} (sb : Superblock)

theorem restores_bzero (bno : ℕ) : Restores rules (bzero bno) l := by
  refine restores_read fun bp hb => ?_
  apply wp_logged hb
  rfl

theorem restores_ballocLoop (bs : List ℕ) : Restores rules (ballocLoop sb bs) l := by
  induction bs with
  | nil => exact Restores.pure _
  | cons b rest ih =>
    refine restores_read fun bp hb => ?_
    rw [wp_bind, wp_data]
    intro d
    generalize freeBit sb b d = found
    cases found with
    | some bi =>
      simp only [wp_bind, wp_store, wp_logWrite, wp_brelse hb]
      exact (restores_bzero _).mono fun _ _ h => h
    | none =>
      simp only [wp_bind, wp_brelse hb]
      exact ih

theorem restores_balloc : Restores rules (balloc sb) l := restores_ballocLoop sb _

theorem restores_bfree (b : ℕ) : Restores rules (bfree sb b) l := by
  refine restores_read fun bp hb => ?_
  rw [wp_bind, wp_data]
  intro d
  split
  · exact wp_panic
  · exact wp_logged hb rfl

theorem restores_iallocLoop (type : ℕ) (inums : List ℕ) :
    Restores rules (iallocLoop sb type inums) l := by
  induction inums with
  | nil => exact Restores.pure _
  | cons inum rest ih =>
    refine restores_read fun bp hb => ?_
    rw [wp_bind, wp_data]
    intro d
    split
    · simp only [wp_bind, wp_store, wp_logWrite, wp_brelse hb]
      rfl
    · simp only [wp_bind, wp_brelse hb]
      exact ih

theorem restores_ialloc (type : ℕ) : Restores rules (ialloc sb type) l :=
  restores_iallocLoop sb type _

theorem restores_iupdate (ip : Inode) : Restores rules (iupdate sb ip) l :=
  restores_read fun _ hb => wp_logged hb rfl

theorem restores_ilock (inum : ℕ) : Restores rules (ilock sb inum) l := by
  refine restores_read fun bp hb => ?_
  rw [wp_bind, wp_data]
  intro d
  rw [wp_bind, wp_brelse hb]
  split
  · exact wp_panic
  · rfl

theorem restores_addrOf (ip : Inode) (k : ℕ) : Restores rules (addrOf sb ip k) l := by
  unfold addrOf
  split
  · apply (restores_balloc sb).bind
    intro addr
    split <;> exact Restores.pure _
  · exact Restores.pure _

theorem restores_bmapEntry (ip : Inode) (block bn : ℕ) :
    Restores rules (bmapEntry sb ip block bn) l := by
  refine restores_read fun bp hb => ?_
  rw [wp_bind, wp_data]
  intro d
  split
  · apply (restores_balloc sb).wp_bind
    intro addr
    split
    · simp only [wp_bind, wp_brelse hb]
      rfl
    · simp only [wp_bind, wp_store, wp_logWrite, wp_brelse hb]
      rfl
  · simp only [wp_bind, wp_brelse hb]
    rfl

theorem restores_bmap (ip : Inode) (bn : ℕ) : Restores rules (bmap sb ip bn) l := by
  unfold bmap
  split
  · exact restores_addrOf sb ip bn
  split
  · apply (restores_addrOf sb ip NDIRECT).bind
    intro r
    split
    · exact Restores.pure _
    · exact restores_bmapEntry sb r.1 r.2 _
  · exact wp_panic

theorem restores_bfreeAll (addrs : List ℕ) : Restores rules (bfreeAll sb addrs) l := by
  induction addrs with
  | nil => exact Restores.pure _
  | cons addr rest ih =>
    unfold bfreeAll
    split
    · exact (Restores.pure ()).bind fun _ => ih
    · exact (restores_bfree sb addr).bind fun _ => ih

theorem restores_truncIndirect (ip : Inode) : Restores rules (truncIndirect sb ip) l := by
  unfold truncIndirect
  split
  · exact Restores.pure _
  · refine restores_read fun bp hb => ?_
    intro d
    apply (restores_bfreeAll sb _).wp_bind
    intro _
    rw [wp_bind, wp_brelse hb]
    exact restores_bfree sb _

theorem restores_itrunc (ip : Inode) : Restores rules (itrunc sb ip) l := by
  apply (restores_bfreeAll sb _).bind
  intro _
  apply (restores_truncIndirect sb ip).bind
  intro _
  exact restores_iupdate sb _

/-- A turn of the loops of `readi` and `writei` copies at least one byte. -/
theorem turn_copies {n tot off fuel : ℕ} (h : tot < n) (hfuel : n - tot < fuel + 1) :
    n - (tot + min (n - tot) (BSIZE - off % BSIZE)) < fuel := by
  have hlt : off % BSIZE < BSIZE := Nat.mod_lt _ (by decide)
  omega

theorem restores_readLoop {n fuel : ℕ} (ip : Inode) (dst : Memory) (tot off : ℕ)
    (hfuel : n - tot < fuel) : Restores rules (readLoop sb n fuel ip dst tot off) l := by
  induction fuel generalizing ip dst tot off with
  | zero => cases hfuel
  | succ fuel ih =>
    unfold readLoop
    split
    · rename_i htot
      apply (restores_bmap sb ip _).bind
      intro r
      split
      · exact Restores.pure _
      refine restores_read fun bp hb => ?_
      dsimp only
      split
      · simp only [wp_bind, wp_brelse hb]
        rfl
      · simp only [wp_bind, wp_brelse hb]
        exact ih _ _ _ _ (turn_copies htot hfuel)
    · exact Restores.pure _

theorem restores_readi (ip : Inode) (dst : Memory) (off n : ℕ) :
    Restores rules (readi sb ip dst off n) l := by
  unfold readi
  split
  · exact Restores.pure _
  · exact restores_readLoop sb ip dst 0 off (by omega)

theorem restores_writeLoop (htx : l.tx = true) {n fuel : ℕ} (ip : Inode) (src : Memory)
    (tot off : ℕ) (hfuel : n - tot < fuel) :
    Restores rules (writeLoop sb n fuel ip src tot off) l := by
  induction fuel generalizing ip src tot off with
  | zero => cases hfuel
  | succ fuel ih =>
    unfold writeLoop
    split
    · rename_i htot
      apply (restores_bmap sb ip _).bind
      intro r
      split
      · exact Restores.pure _
      refine restores_read fun bp hb => ?_
      rw [wp_bind, wp_copyin htx]
      split
      · -- the copy failed: the buffer is released without `log_write`
        rename_i hok
        rw [hok, wp_bind, Bool.or_false, wp_brelse hb]
        rfl
      · rw [wp_bind, wp_logWrite, wp_bind, wp_brelse hb]
        exact ih _ _ _ _ (turn_copies htot hfuel)
    · exact Restores.pure _

theorem restores_writei (htx : l.tx = true) (ip : Inode) (src : Memory) (off n : ℕ) :
    Restores rules (writei sb ip src off n) l := by
  unfold writei
  split
  · exact Restores.pure _
  split
  · exact Restores.pure _
  · apply (restores_writeLoop sb htx ip src 0 off (by omega)).bind
    intro r
    exact (restores_iupdate sb _).bind fun _ => Restores.pure _

end Fs

/-! ### `kernel/log.c` -/

section Log

variable {l : Loc} {c : Commit} (sb : Superblock)

section

variable (hc : l.commit = some c)
include hc

theorem Loc.wrote_eq (n : ℕ) :
    l.wrote n = { l with commit := some { c with clean := n :: c.clean } } := by
  simp only [Loc.wrote, hc, Option.map_some]

/-- `write_log` only writes blocks. -/
theorem wp_writeLog {fuel tail : ℕ} (htail : tail ≤ c.lh.length) (hfuel : c.lh.length < tail + fuel) :
    wp rules (writeLog sb fuel tail) (fun _ l' => ∃ clean,
      l' = { l with commit := some { c with clean := clean } }) l := by
  induction fuel generalizing tail l c with
  | zero => exact absurd hfuel (Nat.not_lt.mpr htail)
  | succ fuel ih =>
    rw [writeLog, wp_bind]
    apply wp_lh hc
    split
    · rename_i hlt
      rw [wp_bind, wp_bread]
      intro toBuf hto
      rw [wp_bind, wp_bread]
      intro fromBuf hfrom
      have hne := Loc.ne_of_not_held hfrom
      have hto' : (l.wrote (sb.logstart + tail + 1)).held toBuf = none := hto
      have hfrom' : ((l.wrote (sb.logstart + tail + 1)).hold toBuf (sb.logstart + tail + 1)
        false).held fromBuf = none := hfrom
      rw [wp_bind, wp_data]
      intro d
      rw [Loc.hold_comm hne, wp_bind, wp_store, wp_bind, wp_bwrite, Loc.hold_wrote,
        Loc.hold_comm hne.symm, wp_bind, wp_brelse hfrom', wp_bind, wp_brelse hto']
      have hnew := Loc.wrote_eq hc (sb.logstart + tail + 1)
      apply (ih (congrArg Loc.commit hnew) hlt (by dsimp only; omega)).mono
      rintro _ l' ⟨clean, rfl⟩
      exact ⟨clean, by rw [hnew]⟩
    · exact ⟨c.clean, by rw [← hc]⟩

theorem wp_writeHead : wp rules (writeHead sb) (fun _ l' => l' = l.wrote sb.logstart) l := by
  rw [writeHead, wp_bind, wp_bread]
  intro buf hb
  have hb' : (l.wrote sb.logstart).held buf = none := hb
  rw [wp_bind]
  have hheld : (l.hold buf sb.logstart false).commit = some c := hc
  apply wp_lh hheld
  rw [wp_bind, wp_store, wp_bind, wp_bwrite, wp_brelse hb']

/-- After `install_trans`, all blocks of `log.lh` are on disk and unpinned. Before turn `tail`
this is true of the first `tail` blocks. -/
theorem wp_installTrans {fuel tail : ℕ} (hnd : c.lh.Nodup)
    (hdone : ∀ n ∈ c.lh.take tail, n ∈ c.clean ∧ n ∈ c.unpinned)
    (hun : ∀ n ∈ c.unpinned, n ∈ c.lh.take tail) (htail : tail ≤ c.lh.length)
    (hfuel : c.lh.length < tail + fuel) :
    wp rules (installTrans sb fuel tail) (fun _ l' => ∃ c', c'.lh = c.lh ∧
      (∀ n ∈ c'.lh, n ∈ c'.clean ∧ n ∈ c'.unpinned) ∧ l' = { l with commit := some c' }) l := by
  induction fuel generalizing tail l c with
  | zero => exact absurd hfuel (Nat.not_lt.mpr htail)
  | succ fuel ih =>
    rw [installTrans, wp_bind]
    apply wp_lh hc
    split
    · rename_i hlt
      have htake : c.lh.take (tail + 1) = c.lh.take tail ++ [c.lh[tail]] :=
        List.take_succ_eq_append_getElem hlt
      have hnew : c.lh[tail] ∉ c.unpinned := by
        intro hmem
        have hsub := hnd.sublist (List.take_sublist (tail + 1) c.lh)
        rw [htake] at hsub
        exact (List.nodup_append.mp hsub).2.2 _ (hun _ hmem) _ (List.mem_singleton_self _) rfl
      rw [wp_bind, wp_bread]
      intro lbuf hl
      rw [wp_bind, wp_bread]
      intro dbuf hd
      have hne := Loc.ne_of_not_held hd
      rw [wp_bind, wp_data]
      intro d
      rw [wp_bind, wp_store, wp_bind, wp_bwrite, wp_bind]
      have hwrote := Loc.wrote_eq hc c.lh[tail]
      have hcommit : ((l.hold lbuf (sb.logstart + tail + 1) false).wrote c.lh[tail]).commit =
          some { c with clean := c.lh[tail] :: c.clean } := congrArg Loc.commit hwrote
      apply wp_bunpin hcommit (List.getElem_mem hlt) List.mem_cons_self hnew
      -- what is left is what the next turn starts from, with both buffers held
      have hstart : ((l.wrote c.lh[tail]).unpin c.lh[tail]).commit =
          some ⟨c.lh, c.lh[tail] :: c.clean, c.lh[tail] :: c.unpinned⟩ := by
        rw [hwrote]
        rfl
      have hl' : (((l.wrote c.lh[tail]).unpin c.lh[tail]).hold dbuf c.lh[tail] false).held lbuf =
          none := (Loc.hold_held_of_ne hne.symm).trans hl
      have hd' : ((l.wrote c.lh[tail]).unpin c.lh[tail]).held dbuf = none :=
        (Loc.hold_held_of_ne hne).symm.trans hd
      change wp rules _ _ ((((l.wrote c.lh[tail]).unpin c.lh[tail]).hold lbuf _ false).hold dbuf _ _)
      rw [Loc.hold_comm hne, wp_bind, wp_brelse hl', wp_bind, wp_brelse hd']
      refine (ih hstart hnd ?_ ?_ hlt (by dsimp only; omega)).mono ?_
      · intro n hn
        rw [htake] at hn
        rcases List.mem_append.mp hn with hn | hn
        · exact ⟨List.mem_cons_of_mem _ (hdone n hn).1, List.mem_cons_of_mem _ (hdone n hn).2⟩
        · rw [List.mem_singleton.mp hn]
          exact ⟨List.mem_cons_self, List.mem_cons_self⟩
      · intro n hn
        rw [htake]
        rcases List.mem_cons.mp hn with rfl | hn
        · exact List.mem_append_right _ (List.mem_singleton_self _)
        · exact List.mem_append_left _ (hun n hn)
      · rintro _ l' ⟨c', hlh, hall, rfl⟩
        exact ⟨c', hlh, hall, rfl⟩
    · rename_i hge
      have hall : c.lh.take tail = c.lh := List.take_of_length_le (Nat.not_lt.mp hge)
      rw [hall] at hdone
      exact ⟨c, rfl, hdone, by rw [← hc]⟩

theorem wp_commit (hun : c.unpinned = []) (hnd : c.lh.Nodup) (hlen : c.lh.length ≤ LOGSIZE) :
    wp rules (commit sb) (fun _ l' => ∃ c', c'.lh = [] ∧ l' = { l with commit := some c' }) l := by
  rw [commit, wp_bind]
  apply wp_lh hc
  split
  · apply (wp_writeLog sb hc (Nat.zero_le _) (by omega)).bind
    rintro _ l₁ ⟨clean, rfl⟩
    apply (wp_writeHead sb rfl).bind
    rintro _ l₂ rfl
    rw [wp_bind]
    have hstart : ({ l with commit := some { c with clean := clean } : Loc }.wrote
        sb.logstart).commit = some { c with clean := sb.logstart :: clean } := rfl
    refine (wp_installTrans sb hstart hnd ?_ ?_ (Nat.zero_le _) (by dsimp only; omega)).mono ?_
    · intro n hn
      cases hn
    · intro n hn
      rw [hun] at hn
      cases hn
    rintro _ l₃ ⟨c', -, hall, rfl⟩
    refine ⟨⟨c', rfl, hall⟩, ?_⟩
    apply (wp_writeHead sb rfl).mono
    rintro _ l₄ rfl
    exact ⟨_, rfl, rfl⟩
  · rename_i hzero
    exact ⟨c, List.length_eq_zero_iff.mp (Nat.eq_zero_of_not_pos hzero), by rw [← hc]⟩

end

theorem wp_endOp (htx : l.tx = true) (hc : l.commit = none) :
    wp rules (endOp sb) (fun _ l' => l' = { l with tx := false }) l := by
  rw [endOp, wp_bind]
  apply wp_leaveOp htx hc
  · rfl
  intro blocks hnd hlen
  rw [if_pos rfl]
  refine (wp_commit sb rfl rfl hnd hlen).bind ?_
  rintro _ l' ⟨c', hlh, rfl⟩
  have hend : ({ l with tx := false, commit := none } : Loc) = { l with tx := false } := by
    rw [hc]
  exact ⟨⟨c', rfl, hlh⟩, hend⟩

end Log

/-- Every call keeps to the rules, from the point where it may be made. -/
theorem wp_call (sb : Superblock) (c : Call) {l : Loc} (hl : l.Idle) (htx : c.allowed l.tx = true) :
    wp rules (c.code sb) (fun _ l' => l'.Idle) l := by
  have hidle : ∀ {α : Type} {x : Code α}, Restores rules x l →
      wp rules (x >>= fun _ => pure ()) (fun _ l' => l'.Idle) l := fun hx => hx.wp_bind fun _ => hl
  cases c with
  | beginOp => exact ⟨by simpa [Call.allowed] using htx, hl⟩
  | endOp =>
    apply (wp_endOp sb htx hl.2).mono
    rintro _ l' rfl
    exact hl
  | ilock inum => exact hidle (restores_ilock sb inum)
  | readi ip dst off n => exact hidle (restores_readi sb ip dst off n)
  | ialloc type => exact hidle (restores_ialloc sb type)
  | iupdate ip =>
    apply (restores_iupdate sb ip).mono
    rintro _ l' rfl
    exact hl
  | itrunc ip =>
    apply (restores_itrunc sb ip).mono
    rintro _ l' rfl
    exact hl
  | writei ip src off n => exact hidle (restores_writei sb htx ip src off n)

end Xv6.Buffers
