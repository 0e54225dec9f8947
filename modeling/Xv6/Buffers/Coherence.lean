import Xv6.Buffers.Steps

/-!
No buffer is left dirty without being in the log.

In every run in which each copy that fails in `writei` has changed nothing, or a block that
is in the log (`CopiesWhole`), an unlocked valid buffer holds what the disk holds unless
its block is in `log.lh`, and a buffer that is given to another block has nothing to lose
(`no_dirty_buffers`). `copyin` copies page by page: when the second page of the source is
not mapped, the bytes of the first are in the buffer, which is then released without
`log_write` (`partial_write_unlogged`).
-/

namespace Xv6.Buffers

open Cache (Buf Slot lru first reading_of_exec)
open Prog (wp)
open Function (update update_of_ne update_self update_eq_self update_idem)

/-- The state is as the processes know it, and their code keeps to the rules. -/
structure Sys.Agrees (s : Sys) (loc : Slot → Loc) : Prop where
  core : Core s.cache s.log loc
  code_ok : ∀ p, wp rules (s.code p) (fun _ l => l.Idle) (loc p)
  pc_ok : ∀ {p x}, (s.cache.pc p).reading = some x → ∃ k, s.code p = .op (.bread x.2) k

/-- If the step is a copy of `writei` that fails, it has changed nothing in the buffer, or
the block is in the log. -/
def CopiesWhole (s : Sys) (a : Action) : Prop :=
  ∀ p b off bytes k, a = .step p → s.code p = .op (.copyin b off bytes false) k →
    (s.cache.data b).splice off bytes = s.cache.data b ∨ s.cache.blockno b ∈ s.log.lh

variable {a : Action}

namespace Sys.Agrees

variable {s t : Sys} {loc : Slot → Loc} {p : Slot} {sb : Superblock} {l : Loc} {x : Code Unit}
  {b : Buf}

section

variable (h : s.Agrees loc)
include h

/-- Process `p` goes on with `x`, knowing `l`. -/
theorem advance {c : Cache.State Block} {log : Log} (hcore : Core c log (update loc p l))
    (hwp : wp rules x (fun _ l => l.Idle) l)
    (hother : ∀ {q y}, q ≠ p → (c.pc q).reading = some y → (s.cache.pc q).reading = some y)
    (hself : ∀ {y}, (c.pc p).reading = some y → ∃ k, x = .op (.bread y.2) k) :
    Sys.Agrees { s with cache := c, log := log, code := update s.code p x } (update loc p l) where
  core := hcore
  code_ok q := by
    by_cases hq : q = p
    · subst hq
      simp only [update_self]
      exact hwp
    · simp only [update_of_ne hq]
      exact h.code_ok q
  pc_ok {q} y hy := by
    by_cases hq : q = p
    · subst hq
      simp only [update_self]
      exact hself hy
    · simp only [update_of_ne hq]
      exact h.pc_ok (hother hq hy)

/-- A step that does not touch the cache, at code other than `bread`. -/
theorem advance_log {log : Log} {o : Op} {k : Resp o → Code Unit} (hcode : s.code p = .op o k)
    (ho : ∀ n, o ≠ .bread n) (hcore : Core s.cache log (update loc p l))
    (hwp : wp rules x (fun _ l => l.Idle) l) :
    Sys.Agrees { s with log := log, code := update s.code p x } (update loc p l) := by
  refine h.advance hcore hwp (fun _ hy => hy) ?_
  intro y hy
  obtain ⟨k', hk'⟩ := h.pc_ok hy
  rw [hcode] at hk'
  cases hk'
  exact absurd rfl (ho _)

/-- A step of the cache, at code other than `bread`. -/
theorem advance_cache {a : Cache.Action Block} {o : Op} {k : Resp o → Code Unit}
    (hcode : s.code p = .op o k) (ho : ∀ n, o ≠ .bread n) (ha : ∀ q dev n, a ≠ .bread q dev n)
    (ht : s.cacheStep a p x = some t)
    (hcore : ∀ {c}, Cache.exec s.cache a = some c → Core c s.log (update loc p l))
    (hwp : wp rules x (fun _ l => l.Idle) l) : t.Agrees (update loc p l) := by
  obtain ⟨c, hc, rfl⟩ := Option.map_eq_some_iff.mp ht
  have hreading : ∀ {q y}, (c.pc q).reading = some y → (s.cache.pc q).reading = some y := fun hy =>
    (reading_of_exec hc hy).resolve_right (ha _ _ _)
  refine h.advance (hcore hc) hwp (fun _ => hreading) ?_
  intro y hy
  obtain ⟨k', hk'⟩ := h.pc_ok (hreading hy)
  rw [hcode] at hk'
  cases hk'
  exact absurd rfl (ho _)

/-- The steps of `bread`. -/
theorem bread {n : ℕ} {k : Buf → Code Unit} (hcode : s.code p = .op (.bread n) k)
    (ht : s.step sb p = some t) : ∃ loc', t.Agrees loc' := by
  have hwp := h.code_ok p
  rw [hcode] at hwp
  -- waiting leaves the code and the knowledge of the process as they are
  have hwait : ∀ {a : Cache.Action Block}, s.cacheStep a p (s.code p) = some t →
      (∀ {c}, Cache.exec s.cache a = some c → Core c s.log loc) →
      (∀ q dev m, a = .bread q dev m → q = p ∧ m = n) → ∃ loc', t.Agrees loc' := by
    intro a ht hcore ha
    obtain ⟨c, hc, rfl⟩ := Option.map_eq_some_iff.mp ht
    refine ⟨update loc p (loc p), h.advance ?_ (h.code_ok p) ?_ ?_⟩
    · rw [update_eq_self]
      exact hcore hc
    · intro q y hq hy
      exact (reading_of_exec hc hy).resolve_right fun heq => hq (ha _ _ _ heq).1
    · intro y hy
      rcases reading_of_exec hc hy with hy | heq
      · exact h.pc_ok hy
      · rw [(ha _ _ _ heq).2]
        exact ⟨k, hcode⟩
  simp only [Sys.step, hcode] at ht
  cases hpc : s.cache.pc p with
  | idle =>
    simp only [hpc] at ht
    rw [← hcode] at ht
    refine hwait ht h.core.bget ?_
    rintro q dev m ⟨⟩
    exact ⟨rfl, rfl⟩
  | wait b dev m =>
    simp only [hpc] at ht
    rw [← hcode] at ht
    refine hwait ht h.core.acquire ?_
    rintro q dev m ⟨⟩
  | locked b dev m =>
    simp only [hpc] at ht
    obtain ⟨c, hc, rfl⟩ := Option.map_eq_some_iff.mp ht
    obtain ⟨k', hk'⟩ := h.pc_ok (x := (dev, m)) (by rw [hpc]; rfl)
    rw [hcode] at hk'
    cases hk'
    have hread : ∀ {q y}, (c.pc q).reading = some y → (s.cache.pc q).reading = some y := by
      intro q y hy
      rcases reading_of_exec hc hy with hy | heq
      · exact hy
      · cases heq
    refine ⟨_, h.advance (h.core.fill hpc hc) (hwp b (h.core.locked_ok hpc p)) (fun _ => hread) ?_⟩
    intro y hy
    simp only [Cache.exec, hpc] at hc
    cases hc
    rw [show ((s.cache.fill b).setPc p .idle).pc p = .idle from update_self ..] at hy
    cases hy
  | release b =>
    simp only [hpc] at ht
    cases ht

/-- The section of `log_write`. -/
theorem logWrite {k : Unit → Code Unit} (hcode : s.code p = .op (.logWrite b) k)
    (ht : s.logWrite sb p b (k ()) = some t) : ∃ loc', t.Agrees loc' := by
  have hwp := h.code_ok p
  rw [hcode] at hwp
  obtain ⟨y, hb, hwp⟩ := hwp
  have hpanic : ∀ msg, Sys.Agrees (s.setCode p (panic msg)) (update loc p (loc p)) := by
    intro msg
    refine h.advance_log hcode (by simp) ?_ trivial
    rw [update_eq_self]
    exact h.core
  unfold Sys.logWrite at ht
  split at ht
  · cases ht
    exact ⟨_, hpanic _⟩
  rename_i hspace
  split at ht
  · cases ht
    exact ⟨_, hpanic _⟩
  rename_i hout
  -- a transaction is open, so nobody commits
  have hnot : s.log.committing = false := by
    by_contra hc
    exact hout (by rw [h.core.committing_ok ((Bool.not_eq_false _).mp hc)]; exact Int.one_pos)
  have hnone := h.core.no_commit hnot
  split at ht
  · rename_i hlh
    cases ht
    exact ⟨_, h.advance_log hcode (by simp) (h.core.logAgain hb hlh hnone) hwp⟩
  · rename_i hlh
    obtain ⟨c, hc, rfl⟩ := Option.map_eq_some_iff.mp ht
    cases hc
    have hnew := h.core.logNew hb hlh (Nat.lt_of_not_le fun hle => hspace (.inl hle)) hnone
    have hcore := hnew.logAgain hb (List.mem_append_right _ (List.mem_singleton_self _)) hnone
    refine ⟨_, h.advance hcore hwp (fun _ hy => hy) ?_⟩
    intro z hz
    obtain ⟨k', hk'⟩ := h.pc_ok (p := p) hz
    rw [hcode] at hk'
    cases hk'

theorem endOp {k : Bool → Code Unit} (hcode : s.code p = .op .endOp k) :
    ∃ loc', (s.endOp p k).Agrees loc' := by
  have hwp := h.code_ok p
  rw [hcode] at hwp
  obtain ⟨htx, -, hstay, hcommit⟩ := hwp
  have hnot := h.core.not_committing htx
  have hleft := h.core.endOp htx
  unfold Sys.endOp
  rw [if_neg (by rw [show (s.log.endOp p).committing = false from hnot]; exact Bool.false_ne_true)]
  split
  · rename_i hzero
    have hstart := hleft.startCommit (p := p) hnot hzero
    rw [update_self, update_idem] at hstart
    exact ⟨_, h.advance_log hcode (by simp) hstart
      (hcommit s.log.lh h.core.lh_nodup h.core.lh_le)⟩
  · exact ⟨_, h.advance_log hcode (by simp) hleft hstay⟩

/-- Every step of a process keeps the agreement. -/
theorem step (hcond : CopiesWhole s (.step p)) (ht : s.step sb p = some t) :
    ∃ loc', t.Agrees loc' := by
  cases hcode : s.code p with
  | ret a =>
    simp only [Sys.step, hcode] at ht
    cases ht
  | op o k =>
    have hwp := h.code_ok p
    rw [hcode] at hwp
    have hstay : Core s.cache s.log (update loc p (loc p)) := by
      rw [update_eq_self]
      exact h.core
    have hstep := ht
    cases o <;> simp only [Sys.step, hcode, reduceCtorEq] at ht
    case bread n => exact h.bread hcode hstep
    case logWrite b =>
      exact h.logWrite hcode ht
    case endOp =>
      cases ht
      exact h.endOp hcode
    case brelse b =>
      obtain ⟨n, hb, hwp⟩ := hwp
      exact ⟨_, h.advance_cache hcode (by simp) (by simp) ht (h.core.brelse hb) hwp⟩
    case decref =>
      refine ⟨_, h.advance_cache (l := loc p) hcode (by simp) (by simp) ht ?_ hwp⟩
      intro c hc
      rw [update_eq_self]
      exact h.core.decref hc
    case bwrite b =>
      obtain ⟨y, hb, hwp⟩ := hwp
      exact ⟨_, h.advance_cache hcode (by simp) (by simp) ht (h.core.bwrite hb) hwp⟩
    case bunpin b =>
      obtain ⟨y, cm, hb, hcm, hlh, hclean, hun, hwp⟩ := hwp
      exact ⟨_, h.advance_cache hcode (by simp) (by simp) ht
        (h.core.bunpin hb hcm hlh hclean hun) hwp⟩
    case data b =>
      cases ht
      exact ⟨_, h.advance_log hcode (by simp) hstay (hwp _)⟩
    case store b f =>
      obtain ⟨y, hb, hwp⟩ := hwp
      exact ⟨_, h.advance_cache hcode (by simp) (by simp) ht (h.core.store hb) hwp⟩
    case copyin b off bytes ok =>
      obtain ⟨htx, y, hb, hwp⟩ := hwp
      cases ok with
      | true => exact ⟨_, h.advance_cache hcode (by simp) (by simp) ht (h.core.store hb) hwp⟩
      | false =>
        have hnone := h.core.no_commit (h.core.not_committing htx)
        refine ⟨_, h.advance_cache (l := loc p) hcode (by simp) (by simp) ht ?_ hwp⟩
        intro c hc
        rw [update_eq_self]
        exact h.core.copyFail ((hcond p b off bytes k rfl hcode).imp_right (.of_none · hnone)) hc
    case beginOp =>
      obtain ⟨⟨hnot, -⟩, rfl⟩ := Run.of_guard ht
      exact ⟨_, h.advance_log hcode (by simp) (h.core.beginOp hwp.1 hnot) hwp.2⟩
    case commitDone =>
      cases ht
      obtain ⟨⟨cm, hcm, hlh⟩, hwp⟩ := hwp
      exact ⟨_, h.advance_log hcode (by simp) (h.core.commitDone hcm hlh) hwp⟩
    case lh =>
      cases ht
      obtain ⟨cm, hcm, hwp⟩ := hwp
      rw [← (h.core.commit_ok hcm).2.1] at hwp
      exact ⟨_, h.advance_log hcode (by simp) hstay hwp⟩
    case clearLh =>
      cases ht
      obtain ⟨⟨cm, hcm, hall⟩, hwp⟩ := hwp
      exact ⟨_, h.advance_log hcode (by simp) (h.core.clearLh hcm hall) hwp⟩

/-- A call starts with the rules kept. -/
theorem call {c : Call} (hidle : s.idle p = true) (hallowed : c.allowed (s.log.inTx p) = true) :
    Sys.Agrees (s.setCode p (c.code sb)) (update loc p (loc p)) := by
  have hwp := h.code_ok p
  have hcode : ∃ a, s.code p = .ret a := by
    unfold Sys.idle at hidle
    split at hidle
    · exact ⟨_, by assumption⟩
    · cases hidle
  obtain ⟨a, ha⟩ := hcode
  rw [ha] at hwp
  refine h.advance ?_ (wp_call sb c hwp ?_) (fun _ hy => hy) ?_
  · rw [update_eq_self]
    exact h.core
  · rw [h.core.tx_ok]
    exact hallowed
  · intro y hy
    obtain ⟨k, hk⟩ := h.pc_ok hy
    rw [ha] at hk
    cases hk

theorem exec (hcond : CopiesWhole s a) (ht : Buffers.exec sb s a = some t) :
    ∃ loc', t.Agrees loc' := by
  cases a with
  | call p c =>
    obtain ⟨⟨hidle, hallowed⟩, rfl⟩ := Run.of_guard ht
    exact ⟨_, h.call hidle hallowed⟩
  | step p => exact h.step hcond ht

end

/-- Nobody holds anything. -/
def nothing : Loc := ⟨fun _ => none, false, none⟩

theorem init (h : Init s) : s.Agrees fun _ => nothing := by
  obtain ⟨hcache, hlog, hcode⟩ := h
  have hinv := Cache.State.Inv.init hcache
  obtain ⟨-, hblock, hvalid, -, -, hpc, hpins, -⟩ := hcache
  refine { core := ?_, code_ok := ?_, pc_ok := ?_ }
  · refine {
      cache := hinv
      held_ok := fun hq => by cases hq
      locked_ok := fun hq => by cases (hpc _).symm.trans hq
      dev_ok := fun hd => absurd (hblock _).1 hd
      coherent := fun hv => by cases (hvalid _).symm.trans hv
      commit_ok := fun hq => by cases hq
      commit_unique := fun hq => by cases hq
      lh_nodup := by rw [hlog]; exact List.nodup_nil
      lh_le := by rw [hlog]; exact Nat.zero_le _
      tx_ok := fun p => by rw [hlog]; rfl
      outstanding_ok := ?_
      committing_ok := fun hc => by rw [hlog] at hc; cases hc
      pins_one := fun hd => by rw [(hblock _).1] at hd; cases hd
      pins_zero := fun _ => hpins _
      pinned_cached := fun hpin => by rw [hlog] at hpin; cases hpin.1 }
    have hzero : Count.countOf (inTxOf ∘ s.log.inTx) () = 0 := by
      apply Count.countOf_eq_zero
      intro p
      rw [hlog]
      exact Option.some_ne_none () ∘ Eq.symm
    rw [hzero, hlog]
    rfl
  · intro p
    rw [hcode p]
    exact ⟨fun _ => rfl, rfl⟩
  · intro p x hx
    rw [hpc p] at hx
    cases hx

/-- An unlocked valid buffer holds what the disk holds, unless its block is in the log. -/
theorem unlocked (h : s.Agrees loc) (hfree : s.cache.owner b = none) (hv : s.cache.valid b = true) :
    s.cache.data b = s.cache.disk (s.cache.dev b) (s.cache.blockno b) ∨
      s.cache.blockno b ∈ s.log.lh := by
  refine (h.core.coherent hv).imp ?_ And.left
  rintro (hs | ⟨q, n, hq⟩)
  · exact hs
  · cases (h.core.not_held_of_free hfree q).symm.trans hq

/-- A buffer without references holds what the disk holds, even if its block is in the log. -/
theorem unreferenced (h : s.Agrees loc) (hzero : s.cache.refcnt b = 0)
    (hv : s.cache.valid b = true) :
    s.cache.data b = s.cache.disk (s.cache.dev b) (s.cache.blockno b) := by
  have hfree := h.core.cache.owner_of_unused hzero
  rcases h.unlocked hfree hv with hs | hlh
  · exact hs
  -- the block is in the log but not pinned: the commit has written it home already
  have hpins : s.cache.pins b = 0 := by
    have hrefs := h.core.cache.refs_eq b
    rw [hzero] at hrefs
    simp only [Cache.State.refs, UInt32.toNat_zero] at hrefs
    omega
  by_contra hne
  have hpin : Pinned s.log.lh loc (s.cache.blockno b) := by
    refine ⟨hlh, ?_⟩
    intro q cm hq hmem
    have hclean := (h.core.commit_ok hq).2.2 _ hmem
    rcases h.core.clean_ok hq hv hclean with hs | ⟨r, n, hr⟩
    · exact hne hs
    · cases (h.core.not_held_of_free hfree r).symm.trans hr
  have hone := h.core.pins_one (h.core.dev_of_valid hv) hpin
  omega

end Sys.Agrees

/-- A step of the system is a step of the cache, or leaves it alone. -/
theorem exec_cache {sb : Superblock} {s t : Sys} (ht : exec sb s a = some t) :
    t.cache = s.cache ∨ ∃ ca, Cache.exec s.cache ca = some t.cache := by
  have hstep : ∀ {ca p x} {s' : Sys}, s'.cache = s.cache → s'.cacheStep ca p x = some t →
      t.cache = s.cache ∨ ∃ ca, Cache.exec s.cache ca = some t.cache := by
    intro ca p x s' hs' h
    obtain ⟨c, hc, rfl⟩ := Option.map_eq_some_iff.mp h
    rw [hs'] at hc
    exact .inr ⟨ca, hc⟩
  cases a with
  | call p c =>
    obtain ⟨-, rfl⟩ := Run.of_guard ht
    exact .inl rfl
  | step p =>
    simp only [exec, Sys.step] at ht
    split at ht
    · cases ht
    · split at ht
      · exact hstep rfl ht
      · exact hstep rfl ht
      · exact hstep rfl ht
      · cases ht
    · exact hstep rfl ht
    · exact hstep rfl ht
    · exact hstep rfl ht
    · exact hstep rfl ht
    · cases ht
      exact .inl rfl
    · exact hstep rfl ht
    · exact hstep rfl ht
    · unfold Sys.logWrite at ht
      split at ht
      · cases ht
        exact .inl rfl
      split at ht
      · cases ht
        exact .inl rfl
      split at ht
      · cases ht
        exact .inl rfl
      · refine hstep ?_ ht
        rfl
    · obtain ⟨-, rfl⟩ := Run.of_guard ht
      exact .inl rfl
    · cases ht
      unfold Sys.endOp
      dsimp only
      split
      · exact .inl rfl
      · split <;> exact .inl rfl
    · cases ht
      exact .inl rfl
    · cases ht
      exact .inl rfl
    · cases ht
      exact .inl rfl
    · cases ht
    · cases ht

theorem agrees_of_reachable {sb : Superblock} {s : Sys}
    (hs : Run.ReachableUnder Init (Run.relOf (exec sb)) CopiesWhole s) : ∃ loc, s.Agrees loc := by
  refine hs.invariant (fun s => ∃ loc, s.Agrees loc) (fun _ h => ⟨_, Sys.Agrees.init h⟩) ?_
  rintro s a t ⟨loc, h⟩ hcond hstep
  exact h.exec hcond hstep

/-- **No dirty unlogged buffers.** In every run of system calls in which no copy of `writei`
fails after it has changed a block that is not in the log: an unlocked valid buffer holds
what the disk holds unless its block is in `log.lh`, and a valid buffer that a step gives to
another block holds what the disk holds. -/
theorem no_dirty_buffers (sb : Superblock) (s : Sys)
    (hs : Run.ReachableUnder Init (Run.relOf (exec sb)) CopiesWhole s) :
    (∀ b, s.cache.owner b = none → s.cache.valid b = true →
      s.cache.data b = s.cache.disk (s.cache.dev b) (s.cache.blockno b) ∨
        s.cache.blockno b ∈ s.log.lh) ∧
    ∀ a t b, exec sb s a = some t → s.cache.valid b = true →
      (t.cache.dev b ≠ s.cache.dev b ∨ t.cache.blockno b ≠ s.cache.blockno b) →
      s.cache.data b = s.cache.disk (s.cache.dev b) (s.cache.blockno b) := by
  obtain ⟨loc, h⟩ := agrees_of_reachable hs
  refine ⟨fun b => h.unlocked, ?_⟩
  intro a t b ht hv hmoved
  apply h.unreferenced _ hv
  by_contra hne
  rcases exec_cache ht with heq | ⟨ca, hc⟩
  · rw [heq] at hmoved
    simp at hmoved
  · obtain ⟨hdev, hn⟩ := h.core.cache.block_kept hc hne
    exact hmoved.elim (absurd hdev) (absurd hn)

/-! ### Two writes -/

/-- A small file system. -/
def small : Superblock where
  size := 100
  ninodes := 10
  nlog := 30
  logstart := 2
  inodestart := 32
  bmapstart := 33

/-- A disk of zeroes, and nothing cached. -/
def booted : Sys where
  cache :=
    { links := .binit
      dev _ := 0
      blockno _ := 0
      valid _ := false
      refcnt _ := 0
      data _ := Block.zero
      owner _ := none
      pc _ := .idle
      disk _ _ := Block.zero
      pins _ := 0
      stored _ := none }
  log := ⟨[], 0, false, fun _ => false⟩
  code _ := pure ()

theorem booted_init : Init booted :=
  ⟨⟨rfl, fun _ => ⟨rfl, rfl⟩, fun _ => rfl, fun _ => rfl, fun _ => rfl, fun _ => rfl, fun _ => rfl,
    fun _ => rfl⟩, rfl, fun _ => rfl⟩

/-- A file of one block, block 40. -/
def file : Inode where
  inum := 1
  type := 2
  major := 0
  minor := 0
  nlink := 1
  size := 1024
  addrs i := if i = 0 then 40 else 0

/-- The first page is mapped and holds ones; the pages after it are mapped if `more`. -/
def ones (more : Bool) : UserMem := fun page =>
  if page = 0 ∨ more then some fun _ => 1 else none

/-- `write` of 20 bytes from the last 10 bytes of the first page on, up to the end of the
first `brelse`. -/
def write (more : Bool) : List Action :=
  [.call first .beginOp, .step first,
    .call first (.writei file (.user (ones more) 4086) 0 20)] ++
    List.replicate (if more then 7 else 6) (.step first)

/-- `CopiesWhole` as a test. -/
def copiesWhole (s : Sys) : Action → Bool
  | .call .. => true
  | .step p => match s.code p with
      | .op (.copyin b off bytes false) _ =>
        (s.cache.data b).splice off bytes = s.cache.data b ∨ s.cache.blockno b ∈ s.log.lh
      | _ => true

theorem copiesWhole_iff {s : Sys} (h : copiesWhole s a = true) : CopiesWhole s a := by
  rintro p b off bytes k rfl hcode
  simp only [copiesWhole, hcode] at h
  exact of_decide_eq_true h

/-- Both pages are mapped: the block is in the log. -/
theorem no_dirty_buffers_write : ∃ s : Sys, s.cache.owner lru = none ∧
    s.cache.valid lru = true ∧
    (s.cache.data lru = s.cache.disk (s.cache.dev lru) (s.cache.blockno lru) ∨
      s.cache.blockno lru ∈ s.log.lh) := by
  obtain ⟨s, hs, hfree, hv⟩ : ∃ s, Run.ReachableUnder Init (Run.relOf (exec small))
      (fun s a => copiesWhole s a = true) s ∧ s.cache.owner lru = none ∧ s.cache.valid lru = true :=
    Run.exists_reachableUnder (write true) booted_init (by decide +kernel)
  have hreach := hs.mono fun _ _ => copiesWhole_iff
  exact ⟨s, hfree, hv, (no_dirty_buffers small s hreach).1 _ hfree hv⟩

/-- The second page is not mapped: the block is released with 10 bytes changed, and not in
the log. -/
theorem partial_write_unlogged : ∃ s : Sys, Run.Reachable Init (Run.relOf (exec small)) s ∧
    s.cache.owner lru = none ∧ s.cache.valid lru = true ∧
    s.cache.data lru ≠ s.cache.disk (s.cache.dev lru) (s.cache.blockno lru) ∧
    s.cache.blockno lru ∉ s.log.lh := by
  obtain ⟨s, hreach, hfree, hv, hne, hlh⟩ : ∃ s, Run.Reachable Init (Run.relOf (exec small)) s ∧
      s.cache.owner lru = none ∧ s.cache.valid lru = true ∧ (s.cache.data lru).byte 0 ≠
        (s.cache.disk (s.cache.dev lru) (s.cache.blockno lru)).byte 0 ∧ s.cache.blockno lru ∉ s.log.lh :=
    Run.exists_reachable (write false) booted_init (by decide +kernel)
  exact ⟨s, hreach, hfree, hv, fun heq => hne (congrArg (·.byte 0) heq), hlh⟩

end Xv6.Buffers
