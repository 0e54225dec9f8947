import Xv6.Exec.Stack

/-!
`exec` as a whole: it fails and leaves everything as it was, or the process has a new image.

The program runs with any file, any `argv`, and any failures of `kalloc` and `readi`. All its
`goto bad` come together in `Failed`: the image that there is at that point is given back, and
if the inode is still open it is closed. `Done` is the other end.

* `wp_exec`: one of the two holds, and nothing panics.
* `exec_fails_cleanly`: a failed `exec` leaves the caller as it was.
-/

namespace Xv6.Exec

open Function (update update_of_ne update_self update_eq_self update_idem)
open Prog (wp wp_bind)
open Vm

/-! ### The caller -/

/-- A process that calls `exec`: its address space is as it should be, and its trapframe is a
page of its own that the user cannot reach. -/
structure Caller (g : Geometry) (p : Proc) (tf root : ℕ) (F : Set ℕ) (t : Tree) (l : Loc) : Prop where
  space : p.space.Ok g root F t l
  trampoline : IsLeaf (t.leaf (TRAMPOLINE / PGSIZE))
  frame : IsLeaf (t.leaf (TRAPFRAME / PGSIZE))
  trapframe : p.trapframe = PGSIZE * tf
  own : tf ∈ F
  notUser : tf ∉ pagesOf t.leaf 0 (pages p.space.sz)

/-- The inode of the program is in use: there is a transaction, a reference and the lock. -/
def Fs.opened (f : Fs) (ip : ℕ) : Fs := (f.begin.get ip).lock ip

theorem Fs.opened_closed {f : Fs} {ip : ℕ} (h : f.locked ip = false) :
    ((f.opened ip).unlockPut ip).finish = f := by
  obtain ⟨names, data, ref, locked, ops⟩ := f
  have hlocked : locked ip = false := h
  simp only [opened, begin, get, lock, unlockPut, finish, update_idem,
    update_self, Nat.add_sub_cancel, update_eq_self]
  rw [← hlocked, update_eq_self]

/-- The trapframe after `exec`. -/
def enter (page : Page) (entry sp : ℕ) : Page :=
  update (update (update page TF_A1 sp) TF_EPC entry) TF_SP sp

/-- The stack that is added to the image: a page that the user may not access, and above it
the page of the stack. -/
def Mem.addStack (u : Mem) : Mem :=
  Mem.guard (Mem.grow { u with sz := PGSIZE * pages u.sz } (PGSIZE * (pages u.sz + 2))
    (userPerm PTE_W)) (pages u.sz)

/-- The image of the new program, with its arguments. -/
def Mem.final (u : Mem) (argv : List (List UInt8)) : Mem :=
  let top := PGSIZE * (pages u.sz + 2)
  (u.addStack.strings argv top).store (top - room argv) ((argv.length + 1) * 8)
    (pointers (places argv top))

/-- Everything is as it was. -/
structure Failed (p : Proc) (base : Loc) (f : Fs) (x : ℤ × Proc) (y : Loc × Fs) : Prop where
  result : x = (-1, p)
  fs : y.2 = f
  own : y.1.own = base.own
  mem : ∀ ppn ∈ base.own, y.1.mem ppn = base.mem ppn

/-- The process has the image `u`. -/
structure Done (g : Geometry) (p : Proc) (base : Loc) (f : Fs) (path : List UInt8)
    (tf entry sp : ℕ) (u : Mem) (p' : Proc) (root : ℕ) (t : Tree) (y : Loc × Fs) : Prop where
  fs : y.2 = f
  caller : Caller g p' tf root (y.1.own \ t.tables) t y.1
  sz : p'.space.sz = u.sz
  name : p'.name = safestrcpy p.name (lastFrom path path)
  perm : ∀ {k}, k < pages u.sz → PTE_FLAGS (t.leaf k) = u.perm k
  byte : ∀ {va}, va / PGSIZE < pages u.sz →
    (y.1.mem (t.leaf (va / PGSIZE) / 1024)).byte (va % PGSIZE) = u.byte va
  frame : y.1.mem tf = enter (base.mem tf) entry sp

/-- What the file says the image is, if it is the one that `exec` has loaded. -/
structure Program (data : List UInt8) (entry : ℕ) (u : Mem) : Prop where
  size : ELFHDR ≤ data.length
  magic : (ElfHdr.decode fun i => data.getD i 0).magic = ELF_MAGIC
  entry : (ElfHdr.decode fun i => data.getD i 0).entry = entry
  loads : Loads data Mem.empty (headers data (ElfHdr.decode fun i => data.getD i 0).phnum
    (uint (ElfHdr.decode fun i => data.getD i 0).phoff)) u
  table : uint (ElfHdr.decode fun i => data.getD i 0).phoff +
    PROGHDR * (ElfHdr.decode fun i => data.getD i 0).phnum < 4294967296

section Exec

variable {g : Geometry} {panics : Prop} {trampoline : ℕ} {base l : Loc} {root ip : ℕ}
  {u : Mem} {t : Tree} {f : Fs} {p : Proc} {path : List UInt8} {argv : List (List UInt8)}

section

variable {Q : Unit → Loc × Fs → Prop}

theorem wp_release (h : Q () (l, (f.opened ip).unlockPut ip)) :
    wp (execRules g panics) (iunlockput ip) Q (l, f.opened ip) := by
  refine wp_iunlockput (update_self ..) ?_ h
  show 0 < update f.ref ip (f.ref ip + 1) ip
  rw [update_self]
  exact Nat.succ_pos _

theorem wp_finish (hlocked : f.locked ip = false) (h : Q () (l, f)) :
    wp (execRules g panics) end_op Q (l, (f.opened ip).unlockPut ip) := by
  apply wp_end_op (Nat.succ_pos f.ops)
  rw [Fs.opened_closed hlocked]
  exact h

/-- The inode is given back and the transaction ends. -/
theorem wp_close (hlocked : f.locked ip = false) (h : Q () (l, f)) :
    wp (execRules g panics) (do iunlockput ip; end_op) Q (l, f.opened ip) :=
  wp_bind.mpr (wp_release (wp_finish hlocked h))

end

/-- `bad`, when there is no page table. -/
theorem wp_bad_open (hlocked : f.locked ip = false) (hown : l.own = base.own)
    (hmem : ∀ ppn ∈ base.own, l.mem ppn = base.mem ppn) :
    wp (execRules g panics) (bad p 0 0 (some ip)) (Failed p base f) (l, f.opened ip) := by
  unfold bad
  rw [if_neg (not_not.mpr rfl)]
  apply wp_bind.mpr
  apply wp_close hlocked
  exact ⟨rfl, rfl, hown, hmem⟩

theorem Image.root_ne_zero {trapframe : ℕ} (h : Image g trampoline trapframe base root u t l) :
    PGSIZE * root ≠ 0 := (h.ram root (h.has.own ▸ Or.inr ⟨2, 0, h.root⟩)).ne_zero

/-- `bad`, with an image to give back. -/
theorem wp_bad (h : Image g trampoline p.trapframe base root u t l) :
    wp (execRules g panics) (bad p (PGSIZE * root) u.sz none) (Failed p base f) (l, f) := by
  unfold bad
  rw [if_pos h.root_ne_zero]
  apply wp_bind.mpr
  apply wp_lift
  apply (wp_image_free h).mono
  rintro - l' ⟨hown, hmem⟩
  exact ⟨rfl, rfl, hown, hmem⟩

/-- `bad`, when the inode is still in use. -/
theorem wp_bad_both (h : Image g trampoline p.trapframe base root u t l)
    (hlocked : f.locked ip = false) :
    wp (execRules g panics) (bad p (PGSIZE * root) u.sz (some ip)) (Failed p base f)
      (l, f.opened ip) := by
  unfold bad
  rw [if_pos h.root_ne_zero]
  apply wp_bind.mpr
  apply wp_lift
  apply (wp_image_free h).mono
  rintro - l' ⟨hown, hmem⟩
  apply wp_bind.mpr
  apply wp_close hlocked
  exact ⟨rfl, rfl, hown, hmem⟩

/-! ### The new image takes over -/

theorem put_put (l : Loc) (ppn : ℕ) (page page' : Page) :
    (l.put ppn page).put ppn page' = l.put ppn page' := by
  simp only [Loc.put, update_idem]

theorem put_mem (l : Loc) (ppn : ℕ) (page : Page) : (l.put ppn page).mem ppn = page :=
  update_self ..

/-- A page that the process had before may change. -/
theorem Image.put_base {trapframe ppn : ℕ} (h : Image g trampoline trapframe base root u t l)
    (hp : ppn ∈ base.own) (page : Page) :
    Image g trampoline trapframe (base.put ppn page) root u t (l.put ppn page) := by
  refine ⟨h.root, h.has.put (.inl hp) page, h.clean, h.backed, h.fresh, ?_, h.outside, h.ram, h.perm, ?_⟩
  · intro c hc
    by_cases hcp : c = ppn
    · rw [hcp, put_mem, put_mem]
    · rw [show (l.put ppn page).mem c = l.mem c from update_of_ne hcp ..,
        show (base.put ppn page).mem c = base.mem c from update_of_ne hcp ..]
      exact h.mem c hc
  · intro va hva
    have hne : t.leaf (va / PGSIZE) / 1024 ≠ ppn := fun he => h.fresh hva (he ▸ hp)
    rw [show (l.put ppn page).mem _ = l.mem _ from update_of_ne hne ..]
    exact h.byte hva

variable {tf root₀ : ℕ} {F₀ : Set ℕ} {t₀ : Tree}

/-- The old address space, next to the new image and with another trapframe. -/
theorem Caller.old (hc : Caller g p tf root₀ F₀ t₀ base) {page : Page}
    (h : Image g trampoline p.trapframe (base.put tf page) root u t l) :
    p.space.Ok g root₀ (l.own \ t₀.tables) t₀ l := by
  have hin : base.own ⊆ l.own := fun c hb => h.has.own ▸ Or.inl (Or.inl hb)
  have htables : t₀.tables ⊆ base.own := fun c ht => hc.space.has.own ▸ Or.inr ht
  refine hc.space.transfer (htables.trans hin) (fun hk => hin ?_) fun c ht => ?_
  · exact hc.space.has.own ▸ Or.inl (hc.space.backed.page hk).2.1
  · have hne : c ≠ tf := fun he => hc.space.has.disj hc.own (he ▸ ht)
    rw [h.mem c (htables ht)]
    exact update_of_ne hne ..

/-- What stays when the old address space goes: everything new, and the trapframe. -/
theorem Caller.kept (hc : Caller g p tf root₀ F₀ t₀ base) {c : ℕ} (hc' : c ∈ l.own)
    (hnew : c ∉ base.own ∨ c = tf) :
    c ∈ (l.own \ t₀.tables) \ pagesOf t₀.leaf 0 (pages p.space.sz) := by
  rcases hnew with hout | rfl
  · refine ⟨⟨hc', fun ht => hout (hc.space.has.own ▸ Or.inr ht)⟩, ?_⟩
    rintro ⟨k, -, hk, rfl⟩
    exact hout (hc.space.has.own ▸ Or.inl (hc.space.backed.page hk).2.1)
  · exact ⟨⟨hc', hc.space.has.disj hc.own⟩, hc.notUser⟩

theorem wp_commit {entry sp argc : ℕ} (hc : Caller g p tf root₀ F₀ t₀ base)
    (h : Image g trampoline p.trapframe base root u t l) :
    wp (execRules g panics) (commit p path (PGSIZE * root) u.sz entry sp argc)
      (fun x y => x.1 = argc ∧ Done g p base f path tf entry sp u x.2 root t y) (l, f) := by
  have htf : tf ∈ base.own := hc.space.has.own ▸ Or.inl hc.own
  have hat : ∀ l' : Loc, l'.own = l.own → l'.At p.trapframe tf := fun l' hl' =>
    ⟨hc.trapframe, by rw [hl', h.has.own]; exact .inl (.inl htf)⟩
  apply wp_bind.mpr
  apply wp_lift
  apply wp_set (hat _ rfl)
  apply wp_bind.mpr
  apply wp_lift
  apply wp_set (hat _ rfl)
  apply wp_bind.mpr
  apply wp_lift
  apply wp_set (hat _ rfl)
  rw [put_put, put_mem, put_put, put_mem]
  have hnew := h.put_base htf (enter (l.mem tf) entry sp)
  show wp _ _ _ (l.put tf (enter (l.mem tf) entry sp), f)
  generalize hl₁ : l.put tf (enter (l.mem tf) entry sp) = l₁ at hnew ⊢
  apply wp_bind.mpr
  apply wp_lift
  apply (wp_proc_freepagetable (hc.old hnew) hnew.ram hc.trampoline hc.frame).mono
  rintro - l₂ ⟨hown, hmem⟩
  -- pages of the new image and the trapframe are still there
  have hkept : ∀ {c}, c ∈ l₁.own → c ∉ base.own ∨ c = tf → c ∈ l₂.own ∧ l₂.mem c = l₁.mem c :=
    fun hin hout => ⟨hown ▸ hc.kept hin hout, hmem _ (hc.kept hin hout)⟩
  have htable : ∀ c ∈ t.tables, c ∉ base.own := fun c ht hb => h.has.disj (.inl hb) ht
  have htables : ∀ c ∈ t.tables, c ∈ l₂.own ∧ l₂.mem c = l₁.mem c := fun c ht =>
    hkept (hnew.has.own ▸ Or.inr ht) (.inl (htable c ht))
  have huser : ∀ {k}, k < pages u.sz →
      t.leaf k / 1024 ∈ l₂.own ∧ l₂.mem (t.leaf k / 1024) = l₁.mem (t.leaf k / 1024) := fun hk =>
    hkept (hnew.has.own ▸ Or.inl (hnew.backed.page hk).2.1) (.inl (h.fresh hk))
  have hframe : tf ∈ l₂.own ∧ l₂.mem tf = l₁.mem tf := hkept (hnew.has.own ▸ .inl (.inl htf)) (.inr rfl)
  obtain ⟨htop, htop'⟩ := h.top
  refine ⟨rfl, rfl, ⟨?_, ?_, ?_, hc.trapframe, ⟨hframe.1, ?_⟩, ?_⟩, rfl, rfl, h.perm, ?_, ?_⟩
  · exact hnew.space.transfer (fun c ht => (htables c ht).1) (fun hk => (huser hk).1)
      fun c ht => (htables c ht).2
  · rw [htop]
    exact isLeaf_entryOf _ (by decide) (by decide)
  · rw [htop']
    exact isLeaf_entryOf _ (by decide) (by decide)
  · exact fun ht => htable tf ht htf
  · rintro ⟨k, -, hk, he⟩
    exact h.fresh hk (he ▸ htf)
  · intro va hva
    rw [(huser hva).2]
    exact hnew.byte hva
  · rw [hframe.2, ← hl₁, put_mem, h.mem tf htf]

/-! ### Stack and program -/

theorem pages_round (u : Mem) : pages (PGSIZE * pages u.sz) = pages u.sz := pages_page _

/-- The size may be rounded up. -/
theorem Image.round {trapframe : ℕ} (h : Image g trampoline trapframe base root u t l) :
    Image g trampoline trapframe base root { u with sz := PGSIZE * pages u.sz } t l := by
  have hpages := pages_round u
  constructor
  · exact h.root
  · rw [hpages]
    exact h.has
  · exact h.clean
  · rw [hpages]
    exact h.backed
  · rw [hpages]
    exact h.fresh
  · exact h.mem
  · rw [hpages]
    exact h.outside
  · exact h.ram
  · rw [hpages]
    exact h.perm
  · rw [hpages]
    exact h.byte

theorem userPerm_read (xperm : ℕ) : userPerm xperm &&& PTE_R ≠ 0 := by
  unfold userPerm
  rw [Nat.or_assoc, Nat.or_assoc, Nat.and_or_distrib_right]
  exact fun h => absurd (Nat.or_eq_zero_iff.mp h).1 (by decide)

theorem grow_perm_of_le {newsz perm k : ℕ} (hk : pages u.sz ≤ k) :
    (u.grow newsz perm).perm k = perm := if_pos hk

/-- The two pages of the stack. -/
theorem addStack_perm (u : Mem) :
    u.addStack.perm (pages u.sz) = withoutU (userPerm PTE_W) ∧
      u.addStack.perm (pages u.sz + 1) = userPerm PTE_W := by
  constructor
  · refine (update_self ..).trans (congrArg withoutU ?_)
    exact grow_perm_of_le (pages_round u).le
  · refine (update_of_ne (Nat.succ_ne_self _) ..).trans ?_
    exact grow_perm_of_le ((pages_round u).le.trans (Nat.le_succ _))

theorem addStack_user (u : Mem) : u.addStack.User (pages u.sz + 1) := by
  refine ⟨?_, ?_⟩
  · show pages u.sz + 1 < pages (PGSIZE * (pages u.sz + 2))
    rw [pages_page]
    exact Nat.lt_succ_self _
  · rw [(addStack_perm u).2]
    exact Mem.userPerm_user _

theorem wp_stack {entry : ℕ} (hc : Caller g p tf root₀ F₀ t₀ base)
    (h : Image g trampoline p.trapframe base root u t l)
    (hargv : Admitted argv) :
    wp (execRules g panics) (stack p path argv (PGSIZE * root) (roundUp u.sz) entry)
      (fun x y => Failed p base f x y ∨ (room argv ≤ PGSIZE ∧ x.1 = argv.length ∧
        ∃ t', Done g p base f path tf entry (PGSIZE * (pages u.sz + 2) - room argv) (u.final argv)
          x.2 root t' y)) (l, f) := by
  have hP : PGSIZE = 4096 := rfl
  have hsz : u.sz ≤ 2281701376 := h.sz_le
  have hpages : PGSIZE * pages u.sz ≤ 2281705472 := by
    rw [pages_eq, hP]
    omega
  have htop : PGSIZE * pages u.sz + 2 * PGSIZE = PGSIZE * (pages u.sz + 2) := by
    rw [Nat.mul_add, Nat.mul_comm 2]
  unfold stack
  rw [roundUp_eq ((h.sz_le).trans (by decide)), wrap64_of_lt (by omega), htop]
  apply wp_bind.mpr
  apply wp_lift
  apply (wp_image_uvmalloc h.round (by decide) (by omega)).mono
  rintro r l' (⟨rfl, t', h'⟩ | ⟨hlt, -, -⟩ | ⟨-, hr, t', h'⟩)
  · rw [if_pos rfl]
    exact (wp_bad h').mono fun _ _ hfail => .inl hfail
  · exact absurd hlt (not_lt.mpr (Nat.mul_le_mul_left _ (Nat.le_add_right _ _)))
  · have hguard : PGSIZE * (pages u.sz + 2) - 2 * PGSIZE = PGSIZE * pages u.sz := by omega
    have hbase : PGSIZE * (pages u.sz + 2) - PGSIZE = PGSIZE * (pages u.sz + 1) := by
      rw [Nat.mul_succ, Nat.add_sub_cancel]
    have hin : pages u.sz < pages (PGSIZE * (pages u.sz + 2)) := by
      rw [pages_page]
      omega
    have hmod : PGSIZE * (pages u.sz + 2) % 16 = 0 := by
      rw [hP]
      omega
    rw [hr, if_neg (Nat.mul_ne_zero (by decide) (by omega)), hguard, hbase]
    apply wp_bind.mpr
    apply wp_lift
    refine (wp_image_uvmclear h' hin ?_).mono ?_
    · have hperm : (Mem.grow { u with sz := PGSIZE * pages u.sz } (PGSIZE * (pages u.sz + 2))
          (userPerm PTE_W)).perm (pages u.sz) = userPerm PTE_W := grow_perm_of_le (pages_round u).le
      rw [hperm]
      exact userPerm_read _
    · rintro - l₁ ⟨t₁, h₁⟩
      have h₁ : Image g trampoline p.trapframe base root u.addStack t₁ l₁ := h₁
      apply (wp_pushLoop h₁ (addStack_user u) le_rfl (Nat.mul_le_mul_left _ (Nat.le_succ _))
        hargv.short).bind
      rintro r ⟨l₂, f₂⟩ ⟨rfl, u₂, hu₂, h₂, hdone⟩
      have hu₂ : u₂.sz = PGSIZE * (pages u.sz + 2) := hu₂
      cases r with
      | none => exact (hu₂ ▸ wp_bad h₂).mono fun _ _ hfail => .inl hfail
      | some y =>
        obtain ⟨rfl, hbottom, rfl⟩ := hdone y rfl
        have hlen := length_places argv (PGSIZE * (pages u.sz + 2))
        have hfew : argv.length < 32 := hargv.few
        have huser : (u.addStack.strings argv (PGSIZE * (pages u.sz + 2))).User (pages u.sz + 1) := by
          unfold Mem.User
          rw [Mem.strings_sz, Mem.strings_perm]
          exact addStack_user u
        dsimp only
        rw [List.nil_append, hlen]
        split
        case isTrue => exact (hu₂ ▸ wp_bad h₂).mono fun _ _ hfail => .inl hfail
        case isFalse hin =>
          apply wp_bind.mpr
          apply wp_lift
          apply (wp_pushItem h₂ huser (bottom_le _ _) (by omega) (by omega) hin).mono
          rintro r l₃ (⟨hneg, h₃⟩ | ⟨rfl, hpush, hge, hle, h₃⟩)
          · rw [if_pos hneg]
            exact (hu₂ ▸ wp_bad h₃).mono fun _ _ hfail => .inl hfail
          · rw [if_neg (lt_irrefl 0), hpush]
            rw [down_bottom hmod] at hge h₃ ⊢
            have hroom : room argv ≤ PGSIZE := by
              omega
            rw [← hu₂]
            apply (wp_commit hc h₃).mono
            rintro x y ⟨hx, hend⟩
            exact .inr ⟨hroom, hx, t₁, hend⟩

theorem wp_exec (hc : Caller g p tf root₀ F₀ t₀ l) (hl : l.InRam g)
    (hargv : Admitted argv) (hlocked : ∀ ip, f.locked ip = false) :
    wp (execRules g panics) (exec trampoline p path argv)
      (fun x y => Failed p l f x y ∨ (room argv ≤ PGSIZE ∧ x.1 = argv.length ∧
        ∃ ip entry u root t, f.names path = some ip ∧ Program (f.data ip) entry u ∧
          Done g p l f path tf entry (PGSIZE * (pages u.sz + 2) - room argv) (u.final argv) x.2 root t
            y)) (l, f) := by
  apply wp_bind.mpr
  apply wp_begin_op
  apply wp_bind.mpr
  apply wp_namei
  · intro hnone
    apply wp_bind.mpr
    apply wp_end_op (Nat.succ_pos f.ops)
    exact .inl ⟨rfl, rfl, rfl, fun _ _ => rfl⟩
  · intro ip hip
    apply wp_bind.mpr
    have hfree : (f.begin.get ip).locked ip = false := hlocked ip
    apply wp_ilock hfree
    apply wp_bind.mpr
    apply wp_readi
    rintro ⟨tot, bytes⟩ hreads
    have hsame : ∀ ppn ∈ l.own, l.mem ppn = l.mem ppn := fun _ _ => rfl
    dsimp only
    split
    case isTrue => exact (wp_bad_open (hlocked ip) rfl hsame).mono fun _ _ hfail => .inl hfail
    case isFalse hall =>
      have hall' : tot = ELFHDR := not_not.mp hall
      have hhead : ElfHdr.decode bytes = ElfHdr.decode fun i => (f.data ip).getD i 0 := by
        apply ElfHdr.decode_congr
        intro i hi
        have hbyte := hreads.byte i (hall' ▸ hi)
        rwa [Nat.zero_add] at hbyte
      have hsize : ELFHDR ≤ (f.data ip).length := by
        have hin := (hreads.inside (hall' ▸ (by decide : 0 < ELFHDR))).1
        rwa [Nat.zero_add, hall'] at hin
      rw [hhead]
      split
      case isTrue => exact (wp_bad_open (hlocked ip) rfl hsame).mono fun _ _ hfail => .inl hfail
      case isFalse hmagic =>
        apply wp_bind.mpr
        apply wp_lift
        apply (wp_image_new hl).mono
        rintro r l₁ (⟨rfl, hown, hmem⟩ | ⟨root, t, rfl, hne, h₁⟩)
        · rw [if_pos rfl]
          exact (wp_bad_open (hlocked ip) hown hmem).mono fun _ _ hfail => .inl hfail
        · rw [if_neg hne]
          have huser : Mem.empty.AllUser := fun k hk => absurd hk (Nat.not_lt_zero k)
          apply (wp_loadLoop h₁ huser).bind
          rintro ⟨ok, sz⟩ ⟨l₂, f₂⟩ ⟨rfl, u, t₂, h₂, rfl, hloads⟩
          cases ok with
          | false =>
            rw [if_neg Bool.false_ne_true]
            exact (wp_bad_both h₂ (hlocked ip)).mono fun _ _ hfail => .inl hfail
          | true =>
            rw [if_pos rfl]
            obtain ⟨hloads, htable⟩ := hloads rfl
            have hprogram : Program (f.data ip) _ u :=
              ⟨hsize, not_not.mp hmagic, rfl, hloads, htable (uint_lt _)⟩
            apply wp_bind.mpr
            apply wp_release
            apply wp_bind.mpr
            apply wp_finish (hlocked ip)
            apply (wp_stack hc h₂ hargv).mono
            rintro x y (hfail | ⟨hroom, hx, t', hend⟩)
            · exact .inl hfail
            · exact .inr ⟨hroom, hx, ip, _, u, root, t', hip, hprogram, hend⟩

end Exec

/-! ### Failure -/

/-- **A failed `exec` leaves the caller intact**, for every file, every `argv` and every `kalloc`
and `readi` that fails: it returns, and if it returns -1 then the process is as before, with its
page table, its memory and its trapframe, the references and locks of inodes and the open system
calls are as before, and all pages that were taken are free again. -/
theorem exec_fails_cleanly (g : Geometry) (env : Env) (U F : Set ℕ)
    (trampoline tf root : ℕ) (t : Tree) (l : Loc) (p : Proc) (path : List UInt8)
    (argv : List (List UInt8)) (s : State) (hc : Caller g p tf root F t l)
    (hs : l.Agrees g U s.phys) (hargv : Admitted argv) (hlocked : ∀ ip, s.fs.locked ip = false) :
    ∃ r p' s', run g env (exec trampoline p path argv) s = some ((r, p'), s') ∧
      (r = -1 → p' = p ∧ Same p.space p'.space s.phys.mem s'.phys.mem ∧
        s'.phys.mem tf = s.phys.mem tf ∧ (∀ ppn ∈ l.own, s'.phys.mem ppn = s.phys.mem ppn) ∧
        s'.phys.free.Perm s.phys.free ∧ s'.fs = s.fs) := by
  have hl : l.InRam g := fun ppn hp => hs.ram (hs.own hp)
  have hwp : wp (execRules g False) (exec trampoline p path argv) _ (l, s.fs) :=
    wp_exec hc hl hargv hlocked
  obtain ⟨⟨r, p'⟩, s', l', hrun, hs', hend⟩ := run_of_wp env hwp hs
  refine ⟨r, p', s', hrun, fun hr => ?_⟩
  rcases hend with ⟨hresult, hfs, hown, hmem⟩ | ⟨-, hr', -⟩
  · have hp' : p' = p := (Prod.mk.inj hresult).2
    subst hp'
    have hpages : ∀ ppn ∈ l.own, s'.phys.mem ppn = s.phys.mem ppn := by
      intro ppn hp
      have hp' : ppn ∈ l'.own := hown.symm ▸ hp
      rw [hs'.mem hp', hs.mem hp]
      exact hmem ppn hp
    have hF : ∀ {ppn}, ppn ∈ F → ppn ∈ l.own := fun hp => hc.space.has.own ▸ Or.inl hp
    have htables : ∀ {ppn}, ppn ∈ t.tables → ppn ∈ l.own := fun ht => hc.space.has.own ▸ Or.inr ht
    have hspace : p'.space.Ok g root (l'.own \ t.tables) t l' := by
      refine hc.space.transfer (fun ppn ht => hown.symm ▸ htables ht) (fun hk => hown.symm ▸ hF ?_)
        fun ppn ht => hmem ppn (htables ht)
      exact (hc.space.backed.page hk).2.1
    have hsz : p'.space.sz ≤ TRAPFRAME := (hc.space.backed.sz_le).trans (by decide)
    refine ⟨rfl, ?_, hpages tf (hF hc.own), hpages, ?_, hfs⟩
    · exact hc.space.same hs hspace hs' rfl (fun ppn hp => hmem ppn (hF hp)) hsz
    · refine (List.perm_ext_iff_of_nodup hs'.nodup hs.nodup).mpr fun ppn => ?_
      rw [hs'.free_iff, hs.free_iff, show l'.own = l.own from hown]
  · have hr' : r = argv.length := hr'
    omega

/-! ### A small machine -/

/-- Sixteen pages. -/
def board : Geometry where
  lo := 1
  hi := 17
  lo_pos := Nat.one_pos
  hi_le := by decide

/-- Page 1 is a trapframe and the others are free. -/
def blank : Phys := freePages (fun _ => zeroPage) (List.range' 2 15)

/-- A process without memory, with its page table at page 2. -/
def shell : Proc := ⟨⟨PGSIZE * 2, 0⟩, PGSIZE * 1, fun _ => 0⟩

/-- Memory after its page table was made. -/
@[irreducible]
def shellMem : Phys := ((Vm.run board (proc_pagetable (PGSIZE * 20) shell.trapframe) blank).map
  Prod.snd).getD blank

theorem blank_agrees : Loc.Agrees board { c | board.Ram c } ⟨{1}, fun _ => zeroPage⟩ blank := by
  have hlist : blank.free = List.range' 2 15 :=
    (freePages_lists (g := board) List.nodup_range' (by decide)).free_eq
  refine ⟨id, hlist ▸ List.nodup_range', fun {c} => ?_, ?_, ?_⟩
  · rw [hlist, List.mem_range'_1]
    show _ ↔ (1 ≤ c ∧ c < 17) ∧ c ≠ 1
    omega
  · rintro c rfl
    exact ⟨le_rfl, by decide⟩
  · rintro c rfl
    exact freePages_mem (by decide)

/-- The process can call `exec`. -/
theorem shell_calls : ∃ U root F t l, Caller board shell 1 root F t l ∧ l.Agrees board U shellMem := by
  have hl : Loc.InRam board ⟨{1}, fun _ => zeroPage⟩ := fun c hc => blank_agrees.own hc
  have htable : (Vm.run board (proc_pagetable (PGSIZE * 20) shell.trapframe) blank).map Prod.fst =
      some (PGSIZE * 2) := by decide +kernel
  have hwp : wp (memRules board False) (proc_pagetable (PGSIZE * 20) shell.trapframe) _ _ :=
    wp_image_new hl
  rcases Vm.run_of_wp hwp blank_agrees with ⟨-, hpanic⟩ | ⟨r, m, l, hrun, hm, hend⟩
  · exact hpanic.elim
  · rw [hrun] at htable
    have hr : r = PGSIZE * 2 := Option.some.inj htable
    rcases hend with ⟨hzero, -⟩ | ⟨root, t, hroot, -, himage⟩
    · exact absurd (hzero.symm.trans hr) (by decide)
    · obtain rfl : root = 2 := Nat.eq_of_mul_eq_mul_left (by decide) (hroot.symm.trans hr)
      have hmem : shellMem = m := by
        unfold shellMem
        rw [hrun]
        rfl
      obtain ⟨htramp, hframe⟩ := himage.top
      refine ⟨_, 2, _, t, l, ⟨himage.space, ?_, ?_, rfl, .inl rfl, ?_⟩, hmem.symm ▸ hm⟩
      · rw [htramp]
        exact isLeaf_entryOf _ (by decide) (by decide)
      · rw [hframe]
        exact isLeaf_entryOf _ (by decide) (by decide)
      · rintro ⟨k, -, hk, -⟩
        exact absurd hk (Nat.not_lt_zero k)

/-- A number of `w` bytes. -/
def bytesOf (w n : ℕ) : List UInt8 := (List.range w).map (Digits.byte n)

/-- A program with one segment, three bytes in the file and five in memory, at address 0. Its
header says that the bytes are at `off`. -/
def program (flags off : ℕ) : List UInt8 :=
  bytesOf 4 ELF_MAGIC ++ bytesOf 28 0 ++ bytesOf 8 ELFHDR ++ bytesOf 16 0 ++ bytesOf 2 1 ++ bytesOf 6 0 ++
    (bytesOf 4 ELF_PROG_LOAD ++ bytesOf 4 flags ++ bytesOf 8 off ++ bytesOf 16 0 ++
      bytesOf 8 3 ++ bytesOf 8 5 ++ bytesOf 8 0) ++ [1, 2, 3]

/-- The program is the only file. -/
def disk (data : List UInt8) : Fs := ⟨fun _ => some 7, fun _ => data, fun _ => 0, fun _ => false, 0⟩

/-- Nothing fails. -/
def noFailure : Env := ⟨fun _ => false, fun _ => 4294967296⟩

/-- `kalloc` fails at one call, and `readi` reads whatever there is. -/
def failAt (call : ℕ) : Env := ⟨fun n => n == call, fun _ => 4294967296⟩

/-- The process calls `exec("a", {"b"})`, with the given file there. -/
def launch (data : List UInt8) : Option ((Int × Proc) × State) :=
  run board noFailure (exec (PGSIZE * 20) shell [97] [[98]]) ⟨shellMem, disk data, 0⟩

/-- A program that the process runs. -/
def tool : List UInt8 := program 5 (ELFHDR + PROGHDR)

/-- The program runs, and fails to call `exec` itself if there is no page for the segment. -/
theorem launch_tool : (launch tool).map (fun x => (x.1.1, x.1.2.space.sz,
      (run board (failAt 16) (exec (PGSIZE * 20) x.1.2 [97] [[98]]) x.2).map fun y => y.1.1)) =
    some (1, 3 * PGSIZE, some (-1)) := by
  decide +kernel

/-- The program can call `exec` itself. -/
theorem shell_runs : ∃ p s U root F t l, launch tool = some ((1, p), s) ∧
    Caller board p 1 root F t l ∧ l.Agrees board U s.phys ∧ s.fs = disk tool := by
  obtain ⟨U, root, F, t, l, hc, hs⟩ := shell_calls
  have hl : l.InRam board := fun ppn hp => hs.ram (hs.own hp)
  have hwp : wp (execRules board False) (exec (PGSIZE * 20) shell [97] [[98]]) _ (l, disk tool) :=
    wp_exec hc hl ⟨by decide, by decide +kernel, by decide⟩ fun _ => rfl
  have hone := launch_tool
  obtain ⟨⟨r, p⟩, s, l', hrun, hs', hend⟩ :=
    run_of_wp noFailure (s := ⟨shellMem, disk tool, 0⟩) hwp hs
  rw [launch, hrun] at hone
  obtain rfl : r = 1 := (Prod.mk.inj (Option.some.inj hone)).1
  rcases hend with ⟨hresult, -⟩ | ⟨-, -, ip, entry, u, root', t', -, -, hdone⟩
  · exact absurd (Prod.mk.inj hresult).1 (by decide)
  · exact ⟨p, s, U, root', _, t', l', hrun, hdone.caller, hs', hdone.fs⟩

/-- A process with three pages of memory calls `exec`, and there is no page for the segment of
the new image. -/
theorem exec_fails_cleanly_running : ∃ p s s',
    launch tool = some ((1, p), s) ∧ p.space.sz = 3 * PGSIZE ∧
    run board (failAt 16) (exec (PGSIZE * 20) p [97] [[98]]) s = some ((-1, p), s') ∧
    Same p.space p.space s.phys.mem s'.phys.mem ∧ s'.phys.free.Perm s.phys.free ∧
    s'.phys.mem 1 = s.phys.mem 1 ∧ s'.fs = s.fs := by
  obtain ⟨p, s, U, root, F, t, l, hfirst, hc, hs, hfs⟩ := shell_runs
  have hvalues := launch_tool
  rw [hfirst] at hvalues
  obtain ⟨hsz, hfails⟩ := Prod.mk.inj (Prod.mk.inj (Option.some.inj hvalues)).2
  obtain ⟨r, p', s', hrun, hend⟩ := exec_fails_cleanly board (failAt 16) U F (PGSIZE * 20) 1 root
    t l p [97] [[98]] s hc hs ⟨by decide, by decide +kernel, by decide⟩ (by rw [hfs]; exact fun _ => rfl)
  rw [hrun] at hfails
  have hr : r = -1 := Option.some.inj hfails
  obtain ⟨rfl, hsame, hframe, -, hfree, hfs'⟩ := hend hr
  exact ⟨p', s, s', hfirst, hsz, hr ▸ hrun, hsame, hfree, hframe, hfs'⟩

end Xv6.Exec
