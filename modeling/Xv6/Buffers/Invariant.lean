import Xv6.Buffers.Rules
import Xv6.Cache.Coherence
import Xv6.Lib.Update

/-!
The invariant of the buffers, the log and the processes.

`Core s loc` relates the state to what the processes know (`loc`). A valid buffer holds what the
disk holds, or a process owes it a write, or its block is in `log.lh` and not written home yet
(`Core.coherent`). The blocks of `log.lh` stay pinned until the commit has written them home, and
the commit runs while no transaction is open, so that nobody changes `log.lh` under it. Each
operation keeps `Core`, with the process's knowledge changed as `rules` says. -/

namespace Xv6.Buffers

open Cache (Buf Slot)
open Xv6.Count (countOf countOf_update countOf_pos)
open Function (update update_self update_of_ne)

/-- The buffer holds what the disk holds, or a process owes it a write. -/
def Settled (c : Cache.State Block) (loc : Slot → Loc) (b : Buf) : Prop :=
  c.data b = c.disk (c.dev b) (c.blockno b) ∨ ∃ p n, (loc p).held b = some (n, true)

/-- The block is in `log.lh`, and the commit has not written it home yet. -/
def Logged (lh : List ℕ) (loc : Slot → Loc) (n : ℕ) : Prop :=
  n ∈ lh ∧ ∀ p c, (loc p).commit = some c → n ∉ c.clean

/-- The block is in `log.lh`, and the commit has not unpinned it yet. -/
def Pinned (lh : List ℕ) (loc : Slot → Loc) (n : ℕ) : Prop :=
  n ∈ lh ∧ ∀ p c, (loc p).commit = some c → n ∉ c.unpinned

/-- Counts the processes in a transaction. -/
def inTxOf (inTx : Bool) : Option Unit := if inTx then some () else none

/-- What holds of the buffers and the log, the pins apart. -/
structure Base (c : Cache.State Block) (log : Log) (loc : Slot → Loc) : Prop where
  cache : c.Inv
  held_ok : ∀ {p b x}, (loc p).held b = some x →
    c.owner b = some p ∧ c.blockno b = x.1 ∧ c.valid b = true
  locked_ok : ∀ {p b dev n}, c.pc p = .locked b dev n → ∀ q, (loc q).held b = none
  dev_ok : ∀ {b}, c.dev b ≠ 0 → c.dev b = ROOTDEV
  coherent : ∀ {b}, c.valid b = true → Settled c loc b ∨ Logged log.lh loc (c.blockno b)
  commit_ok : ∀ {p cm}, (loc p).commit = some cm →
    log.committing = true ∧ log.lh = cm.lh ∧ ∀ n ∈ cm.unpinned, n ∈ cm.clean
  commit_unique : ∀ {p q cm cm'}, (loc p).commit = some cm → (loc q).commit = some cm' → p = q
  lh_nodup : log.lh.Nodup
  lh_le : log.lh.length ≤ LOGSIZE
  tx_ok : ∀ p, (loc p).tx = log.inTx p
  outstanding_ok : log.outstanding = countOf (inTxOf ∘ log.inTx) ()
  committing_ok : log.committing = true → log.outstanding = 0

structure Core (c : Cache.State Block) (log : Log) (loc : Slot → Loc) : Prop
    extends Base c log loc where
  pins_one : ∀ {b}, c.dev b = ROOTDEV → Pinned log.lh loc (c.blockno b) → c.pins b = 1
  pins_zero : ∀ {b}, ¬ (c.dev b = ROOTDEV ∧ Pinned log.lh loc (c.blockno b)) → c.pins b = 0
  pinned_cached : ∀ {n}, Pinned log.lh loc n → ∃ b, c.dev b = ROOTDEV ∧ c.blockno b = n

section Facts

variable {c t : Cache.State Block} {log : Log} {loc loc' : Slot → Loc} {p : Slot} {b b' : Buf} {n : ℕ}

theorem Settled.congr (h : Settled c loc b) (hdata : t.data b = c.data b)
    (hdisk : t.disk (t.dev b) (t.blockno b) = c.disk (c.dev b) (c.blockno b))
    (hheld : ∀ q, (loc' q).held b = (loc q).held b) : Settled t loc' b := by
  rcases h with h | ⟨q, m, h⟩
  · exact .inl (hdata.trans (h.trans hdisk.symm))
  · exact .inr ⟨q, m, (hheld q).trans h⟩

theorem Logged.of_none {lh : List ℕ} (hn : n ∈ lh) (hnone : ∀ q, (loc q).commit = none) :
    Logged lh loc n :=
  ⟨hn, fun q _ hq => nomatch (hnone q).symm.trans hq⟩

theorem held_update_of_ne {l : Loc} (hne : b' ≠ b) (hl : ∀ {b'}, b' ≠ b → l.held b' = (loc p).held b')
    (q : Slot) : (update loc p l q).held b' = (loc q).held b' :=
  update_same (fun l : Loc => l.held b') (hl hne) q

/-- A block that the commit has written home. -/
theorem Base.clean_ok (h : Base c log loc) {cm : Commit} (hp : (loc p).commit = some cm)
    (hv : c.valid b = true) (hclean : c.blockno b ∈ cm.clean) : Settled c loc b :=
  (h.coherent hv).resolve_right fun hl => hl.2 p cm hp hclean

namespace Core

section

variable (h : Core c log loc)
include h

theorem pins_le (b : Buf) : c.pins b ≤ 1 := by
  by_cases hb : c.dev b = ROOTDEV ∧ Pinned log.lh loc (c.blockno b)
  · exact (h.pins_one hb.1 hb.2).le
  · rw [h.pins_zero hb]
    exact Nat.zero_le 1

/-- A step of the cache keeps its invariant: there are not enough references to overflow
`refcnt`. -/
theorem cache_step {a : Cache.Action Block} (ht : Cache.exec c a = some t)
    (hpins : ∀ b, t.pins b ≤ c.pins b + 1) : t.Inv := by
  apply h.cache.step ht
  intro b
  have hrefs := t.refs_le b
  have hp := hpins b
  have hone := h.pins_le b
  have hnproc : NPROC = 64 := rfl
  omega

theorem dev_of_valid (hv : c.valid b = true) : c.dev b = ROOTDEV :=
  h.dev_ok (h.cache.valid_dev hv)

theorem dev_of_held {x : ℕ × Bool} (hb : (loc p).held b = some x) :
    c.dev b = ROOTDEV := h.dev_of_valid (h.held_ok hb).2.2

/-- One buffer for each block. -/
theorem block_unique (hb : c.dev b = ROOTDEV) (hb' : c.dev b' = ROOTDEV)
    (heq : c.blockno b' = c.blockno b) : b' = b := by
  apply h.cache.unique _ (hb'.trans hb.symm) heq
  rw [hb]
  exact Nat.one_ne_zero

/-- Only the owner of a buffer holds it. -/
theorem held_unique {q : Slot} {x y : ℕ × Bool} (hp : (loc p).held b = some x)
    (hq : (loc q).held b = some y) : q = p :=
  Option.some.inj ((h.held_ok hq).1.symm.trans (h.held_ok hp).1)

theorem not_held_of_free (hb : c.owner b = none) (q : Slot) : (loc q).held b = none := by
  cases hq : (loc q).held b with
  | none => rfl
  | some x =>
    have howner := (h.held_ok hq).1
    rw [hb] at howner
    cases howner

/-- A buffer that its owner owes nothing holds what the disk holds. -/
theorem eq_disk_of_settled (hset : Settled c loc b) (hp : (loc p).held b = some (n, false)) :
    c.data b = c.disk (c.dev b) (c.blockno b) := by
  rcases hset with hset | ⟨q, m, hq⟩
  · exact hset
  · have hqp := h.held_unique hp hq
    rw [hqp, hp] at hq
    cases hq

/-- A process in a transaction keeps others from committing. -/
theorem not_committing (htx : (loc p).tx = true) : log.committing = false := by
  by_contra hc
  have hzero := h.committing_ok ((Bool.not_eq_false _).mp hc)
  have hpos : 0 < countOf (inTxOf ∘ log.inTx) () := by
    apply countOf_pos (a := p)
    rw [Function.comp_apply, ← h.tx_ok p, htx]
    rfl
  rw [h.outstanding_ok] at hzero
  omega

theorem no_commit (hc : log.committing = false) (q : Slot) : (loc q).commit = none := by
  cases hq : (loc q).commit with
  | none => rfl
  | some cm =>
    have hcommitting := (h.commit_ok hq).1
    rw [hc] at hcommitting
    cases hcommitting

end

end Core

end Facts

end Xv6.Buffers
