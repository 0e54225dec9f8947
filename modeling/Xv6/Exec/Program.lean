import Xv6.Exec.Spec

/-!
What a successful `exec` has built, read back from memory.

The file is an ELF file with loadable segments in increasing order that do not share pages, at
offsets that a `uint` can hold. Memory is looked at through the new page table, as the program
will.

* `Loads.hasSegment`: each segment is in the image, since later ones leave it alone.
* `final_low`, `final_pointer`, `final_string`: the image below the stack, and the stack.
* `exec_builds_image`: the claims about memory after `exec`.
* `exec_narrows_offset`: pages are readable although no flag asks for it, and offsets are cut to
  32 bits.
-/

namespace Xv6.Exec

open Prog (wp)
open Vm

/-! ### ELF files -/

def elfOf (data : List UInt8) : ElfHdr := .decode fun i => data.getD i 0

/-- The loadable segments of the program header table. -/
def segments (data : List UInt8) : List ProgHdr :=
  ((List.range (elfOf data).phnum).map fun i => header data ((elfOf data).phoff + PROGHDR * i)).filter
    fun ph => ph.type = ELF_PROG_LOAD

/-- An ELF file. The size of a file is a `uint`. -/
structure IsElf (data : List UInt8) : Prop where
  size : data.length < 4294967296
  magic : (elfOf data).magic = ELF_MAGIC

/-- Segments start at pages, go up, and do not share pages. -/
structure Apart (phs : List ProgHdr) : Prop where
  aligned : ∀ ph ∈ phs, ph.vaddr % PGSIZE = 0
  increasing : phs.Pairwise fun a b => pages (a.vaddr + a.memsz) ≤ b.vaddr / PGSIZE

theorem headers_eq (data : List UInt8) {left off : ℕ} (h : off + PROGHDR * left < 4294967296) :
    headers data left off = (List.range left).map fun i => header data (off + PROGHDR * i) := by
  induction left generalizing off with
  | zero => rfl
  | succ left ih =>
    rw [Nat.mul_succ] at h
    rw [headers, uint_of_lt (by omega), ih (by omega), List.range_succ_eq_map, List.map_cons,
      List.map_map, Nat.mul_zero, Nat.add_zero]
    congr 1
    apply List.map_congr_left
    intro i _
    show header data (off + PROGHDR + PROGHDR * i) = header data (off + PROGHDR * (i + 1))
    rw [Nat.mul_succ, Nat.add_assoc, Nat.add_comm PROGHDR]

/-- Beyond the end of the file there are no segments. -/
theorem header_beyond {data : List UInt8} {off : ℕ} (h : data.length ≤ off) :
    (header data off).type ≠ ELF_PROG_LOAD := by
  have hzero : ∀ i, data.getD (off + i) 0 = 0 := fun i =>
    List.getD_eq_default _ _ (h.trans (Nat.le_add_right off i))
  have htype : (header data off).type = field (fun _ => 0) 0 4 :=
    Digits.number_congr fun i _ => hzero (0 + i)
  rw [htype]
  decide

/-- If there is a segment, the loop reads the headers of the segments. -/
theorem IsElf.filter_headers {data : List UInt8} (h : IsElf data)
    (htable : uint (elfOf data).phoff + PROGHDR * (elfOf data).phnum < 4294967296) {ph : ProgHdr}
    (hph : ph ∈ segments data) :
    (headers data (elfOf data).phnum (uint (elfOf data).phoff)).filter
      (fun ph => ph.type = ELF_PROG_LOAD) = segments data := by
  have hsize := h.size
  by_cases hfar : (elfOf data).phoff < 4294967296
  · rw [uint_of_lt hfar] at htable ⊢
    rw [headers_eq data htable]
    rfl
  · obtain ⟨hmem, htype⟩ := List.mem_filter.mp hph
    obtain ⟨i, -, rfl⟩ := List.mem_map.mp hmem
    exact absurd (of_decide_eq_true htype) (header_beyond (by omega))

theorem segmentByte_eq {data : List UInt8} {off i : ℕ} (h : off + i < 4294967296) :
    segmentByte data (uint off) i = data.getD (off + i) 0 := by
  have hdiv : i / PGSIZE * PGSIZE + i % PGSIZE = i := Nat.div_add_mod' i PGSIZE
  rw [segmentByte, uint_of_lt (show off < 4294967296 by omega), uint_of_lt (by omega), Nat.add_assoc,
    hdiv]

/-! ### Segments -/

/-- The segment is in the image. -/
structure Mem.HasSegment (u : Mem) (data : List UInt8) (ph : ProgHdr) : Prop where
  filesz : ph.filesz ≤ ph.memsz
  fits : uint ph.off + ph.filesz < 4294967296
  size : ph.vaddr + ph.memsz ≤ u.sz
  file : ∀ i < ph.filesz, u.byte (ph.vaddr + i) = segmentByte data (uint ph.off) i
  zero : ∀ i, ph.filesz ≤ i → i < ph.memsz → u.byte (ph.vaddr + i) = 0
  perm : ∀ i < ph.memsz, u.perm ((ph.vaddr + i) / PGSIZE) = userPerm (flags2perm ph.flags)

/-- Two images agree on the first `n` pages. -/
structure Mem.Agree (u u' : Mem) (n : ℕ) : Prop where
  byte : ∀ va, va / PGSIZE < n → u'.byte va = u.byte va
  perm : ∀ k < n, u'.perm k = u.perm k

section Segments

variable {u u' : Mem} {data : List UInt8} {ph : ProgHdr} {phs : List ProgHdr} {n : ℕ}

theorem lt_pages_of_lt {va sz : ℕ} (h : va < sz) : va / PGSIZE < pages sz := by
  rw [pages_eq]
  unfold PGSIZE
  omega

theorem Mem.Agree.trans {u'' : Mem} (h : u.Agree u' n) (h' : u'.Agree u'' n) : u.Agree u'' n where
  byte va hva := (h'.byte va hva).trans (h.byte va hva)
  perm k hk := (h'.perm k hk).trans (h.perm k hk)

theorem Mem.HasSegment.agree (h : u.HasSegment data ph) (hagree : u.Agree u' n)
    (hn : pages (ph.vaddr + ph.memsz) ≤ n) (hsz : u.sz ≤ u'.sz) : u'.HasSegment data ph := by
  have hpage : ∀ {i}, i < ph.memsz → (ph.vaddr + i) / PGSIZE < n := fun hi =>
    (lt_pages_of_lt (Nat.add_lt_add_left hi _)).trans_le hn
  refine ⟨h.filesz, h.fits, h.size.trans hsz, fun i hi => ?_, fun i hge hi => ?_, fun i hi => ?_⟩
  · rw [hagree.byte _ (hpage (hi.trans_le h.filesz))]
    exact h.file i hi
  · rw [hagree.byte _ (hpage hi)]
    exact h.zero i hge hi
  · rw [hagree.perm _ (hpage hi)]
    exact h.perm i hi

theorem le_of_pages_le {sz va : ℕ} (h : pages sz ≤ va / PGSIZE) : sz ≤ va := by
  rw [pages_eq] at h
  unfold PGSIZE at h
  omega

/-- A segment above the image. -/
theorem Mem.load_hasSegment (hvalid : ph.Valid) (hfits : uint ph.off + ph.filesz < 4294967296)
    (habove : pages u.sz ≤ ph.vaddr / PGSIZE) :
    (u.load data ph).HasSegment data ph ∧ (u.load data ph).sz = ph.vaddr + ph.memsz := by
  have hext : u.extend ph = u.grow (ph.vaddr + ph.memsz) (userPerm (flags2perm ph.flags)) :=
    if_neg (not_lt.mpr ((le_of_pages_le habove).trans (Nat.le_add_right _ _)))
  have hpage : ∀ i, pages u.sz ≤ (ph.vaddr + i) / PGSIZE := fun i =>
    habove.trans (Nat.div_le_div_right (Nat.le_add_right _ _))
  unfold Mem.load
  rw [hext]
  refine ⟨⟨hvalid.filesz, hfits, le_rfl, fun i hi => store_byte_add hi, fun i hge _ => ?_,
    fun i _ => ?_⟩, rfl⟩
  · rw [store_byte_of_not (.inr (Nat.add_le_add_left hge _))]
    exact if_pos (hpage i)
  · exact if_pos (hpage i)

theorem Mem.le_extend_sz (u : Mem) (ph : ProgHdr) : u.sz ≤ (u.extend ph).sz := by
  unfold Mem.extend
  split
  case isTrue => exact le_rfl
  case isFalse hge => exact not_lt.mp hge

/-- A segment leaves the pages below it alone. -/
theorem Mem.load_agree (habove : n ≤ ph.vaddr / PGSIZE) (hn : n ≤ pages u.sz) :
    u.Agree (u.load data ph) n := by
  have hgrow : u.Agree (u.extend ph) n := by
    unfold Mem.extend
    split
    case isTrue => exact ⟨fun _ _ => rfl, fun _ _ => rfl⟩
    case isFalse =>
      exact ⟨fun va hva => if_neg (not_le.mpr (hva.trans_le hn)),
        fun k hk => if_neg (not_le.mpr (hk.trans_le hn))⟩
  refine hgrow.trans ⟨fun va hva => store_byte_of_not (.inl ?_), fun _ _ => rfl⟩
  have hlt := hva.trans_le habove
  by_contra hge
  exact absurd hlt (not_lt.mpr (Nat.div_le_div_right (not_lt.mp hge)))

/-- Segments above page `n` leave the first `n` pages alone. -/
theorem Loads.keeps (h : Loads data u phs u')
    (habove : ∀ ph ∈ phs.filter (fun ph => ph.type = ELF_PROG_LOAD), n ≤ ph.vaddr / PGSIZE)
    (hn : n ≤ pages u.sz) : u.Agree u' n ∧ u.sz ≤ u'.sz := by
  induction h with
  | nil u => exact ⟨⟨fun _ _ => rfl, fun _ _ => rfl⟩, le_rfl⟩
  | skip htype hrest ih =>
    rw [List.filter_cons_of_neg (by simpa using htype)] at habove
    exact ih habove hn
  | @load u u' ph phs htype hvalid hfits hrest ih =>
    rw [List.filter_cons_of_pos (by simpa using htype)] at habove
    have hsz : u.sz ≤ (u.load data ph).sz := u.le_extend_sz ph
    obtain ⟨hagree, hle⟩ := ih (fun ph hph => habove ph (List.mem_cons_of_mem _ hph))
      (hn.trans (pages_mono hsz))
    exact ⟨(Mem.load_agree (habove ph List.mem_cons_self) hn).trans hagree, hsz.trans hle⟩

/-- All segments are in the image. -/
theorem Loads.hasSegment (h : Loads data u phs u')
    (hapart : (phs.filter fun ph => ph.type = ELF_PROG_LOAD).Pairwise
      fun a b => pages (a.vaddr + a.memsz) ≤ b.vaddr / PGSIZE)
    (habove : ∀ ph ∈ phs.filter (fun ph => ph.type = ELF_PROG_LOAD), pages u.sz ≤ ph.vaddr / PGSIZE) :
    ∀ ph ∈ phs.filter (fun ph => ph.type = ELF_PROG_LOAD), u'.HasSegment data ph := by
  induction h with
  | nil u => exact fun ph hph => absurd hph List.not_mem_nil
  | skip htype hrest ih =>
    rw [List.filter_cons_of_neg (by simpa using htype)] at hapart habove ⊢
    exact ih hapart habove
  | @load u u' ph phs htype hvalid hfits hrest ih =>
    rw [List.filter_cons_of_pos (by simpa using htype)] at hapart habove ⊢
    obtain ⟨hfirst, hlater⟩ := List.pairwise_cons.mp hapart
    obtain ⟨hhere, hsz⟩ : (u.load data ph).HasSegment data ph ∧ _ :=
      Mem.load_hasSegment hvalid hfits (habove ph List.mem_cons_self)
    rintro ph' (_ | ⟨_, hph'⟩)
    · -- the ones that follow are above it
      obtain ⟨hagree, hle⟩ := hrest.keeps hfirst (pages_mono hsz.ge)
      exact hhere.agree hagree le_rfl hle
    · exact ih hlater (fun ph'' hph'' => hsz.symm ▸ hfirst ph'' hph'') ph' hph'

end Segments

/-! ### The stack -/

section Final

variable {u : Mem} {argv : List (List UInt8)} {i : ℕ}

/-- The stack pointer of the new program. -/
def stackPointer (u : Mem) (argv : List (List UInt8)) : ℕ := PGSIZE * (pages u.sz + 2) - room argv

/-- Strings and pointers are in the stack page, the pointers below the strings. -/
theorem stackPointer_spec (hroom : room argv ≤ PGSIZE) :
    PGSIZE * (pages u.sz + 1) ≤ stackPointer u argv ∧ stackPointer u argv % 16 = 0 ∧
      stackPointer u argv + (argv.length + 1) * 8 ≤ bottom argv (PGSIZE * (pages u.sz + 2)) := by
  have hmod : PGSIZE * (pages u.sz + 2) % 16 = 0 := by
    unfold PGSIZE
    omega
  have htop : PGSIZE * (pages u.sz + 2) = PGSIZE * (pages u.sz + 1) + PGSIZE := Nat.mul_succ _ _
  have hbase : PGSIZE * (pages u.sz + 1) ≤ stackPointer u argv := by
    unfold stackPointer
    omega
  have hpos : 0 < PGSIZE * (pages u.sz + 1) := Nat.mul_pos (by decide) (Nat.succ_pos _)
  have hdown : stackPointer u argv = down (bottom argv (PGSIZE * (pages u.sz + 2)))
      ((argv.length + 1) * 8) := (down_bottom hmod).symm
  refine ⟨hbase, hdown ▸ down_mod _ _, ?_⟩
  rw [hdown] at hbase ⊢
  exact down_add_le (hpos.trans_le hbase)

theorem bottom_pos (hroom : room argv ≤ PGSIZE) : 0 < bottom argv (PGSIZE * (pages u.sz + 2)) := by
  have hspec := (stackPointer_spec (u := u) hroom).2.2
  omega

theorem final_sz (u : Mem) (argv : List (List UInt8)) :
    (u.final argv).sz = PGSIZE * (pages u.sz + 2) := u.addStack.strings_sz argv _

theorem final_perm (u : Mem) (argv : List (List UInt8)) : (u.final argv).perm = u.addStack.perm :=
  u.addStack.strings_perm argv _

/-- The stack does not touch the program. -/
theorem final_low (hroom : room argv ≤ PGSIZE) : u.Agree (u.final argv) (pages u.sz) := by
  obtain ⟨hbase, -, hbottom⟩ := stackPointer_spec (u := u) hroom
  have hround := pages_round u
  constructor
  · intro va hva
    have hlow : va < stackPointer u argv := by
      have hlt : va < PGSIZE * (pages u.sz + 1) := by
        unfold PGSIZE at *
        omega
      exact hlt.trans_le hbase
    refine (Mem.store_byte_of_not (.inl hlow)).trans ?_
    refine (Mem.strings_byte_of_not (bottom_pos hroom) (.inl (by omega))).trans ?_
    refine if_neg ?_
    rw [hround]
    exact not_le.mpr hva
  · intro k hk
    rw [final_perm]
    refine (Function.update_of_ne hk.ne ..).trans (if_neg ?_)
    rw [hround]
    exact not_le.mpr hk

theorem place_le (argv : List (List UInt8)) (sp i : ℕ) : (places argv sp).getD i 0 ≤ sp := by
  induction argv generalizing sp i with
  | nil => exact Nat.zero_le sp
  | cons arg rest ih =>
    cases i with
    | zero => exact down_le _ _
    | succ i => exact (ih _ i).trans (down_le _ _)

/-- A pointer of the array, or the null after the last one. -/
theorem final_pointer (hi : i < argv.length + 1)
    (hsz : PGSIZE * (pages u.sz + 2) < 18446744073709551616) :
    Digits.number (fun j => (u.final argv).byte (stackPointer u argv + 8 * i + j)) 8 =
      (places argv (PGSIZE * (pages u.sz + 2))).getD i 0 := by
  have hbyte : ∀ j < 8, (u.final argv).byte (stackPointer u argv + 8 * i + j) =
      Digits.byte ((places argv (PGSIZE * (pages u.sz + 2))).getD i 0) j := by
    intro j hj
    rw [Nat.add_assoc]
    refine (Mem.store_byte_add (by omega)).trans ?_
    rw [pointers, show (8 * i + j) / 8 = i by omega, show (8 * i + j) % 8 = j by omega]
  rw [Digits.number_congr hbyte, Digits.number_byte]
  exact Nat.mod_eq_of_lt ((place_le argv _ i).trans_lt hsz)

theorem final_string {place k : ℕ} {arg : List UInt8} (hroom : room argv ≤ PGSIZE)
    (harg : argv[i]? = some arg) (hplace : (places argv (PGSIZE * (pages u.sz + 2)))[i]? = some place)
    (hk : k < arg.length + 1) : (u.final argv).byte (place + k) = cstring arg k := by
  obtain ⟨-, -, hbottom⟩ := stackPointer_spec (u := u) hroom
  have hpos := bottom_pos (u := u) hroom
  obtain ⟨-, hge, -⟩ := place_spec hpos harg hplace
  refine (Mem.store_byte_of_not (.inr ?_)).trans (Mem.strings_byte hpos harg hplace hk)
  show stackPointer u argv + (argv.length + 1) * 8 ≤ place + k
  omega

end Final

/-! ### Memory after `exec` -/

/-- The word at a user address. -/
def wordAt (mem : ℕ → Page) (pagetable va : ℕ) : ℕ :=
  Digits.number (fun i => byteAt mem pagetable (va + i)) 8

/-- The page of an address has a flag. -/
def Flag (mem : ℕ → Page) (pagetable va bit : ℕ) : Prop := leafEntry mem pagetable va &&& bit ≠ 0

/-- A segment in memory: its bytes from the file and then zeros, in pages that the user may read,
and write and execute if the flags of the segment ask for it. -/
structure SegmentIn (mem : ℕ → Page) (pagetable : ℕ) (data : List UInt8) (ph : ProgHdr) : Prop where
  file : ∀ i < ph.filesz, byteAt mem pagetable (ph.vaddr + i) = data.getD (ph.off + i) 0
  zero : ∀ i, ph.filesz ≤ i → i < ph.memsz → byteAt mem pagetable (ph.vaddr + i) = 0
  user : ∀ i < ph.memsz, UserValid mem pagetable (ph.vaddr + i)
  read : ∀ i < ph.memsz, Flag mem pagetable (ph.vaddr + i) PTE_R
  write : ∀ i < ph.memsz, (Flag mem pagetable (ph.vaddr + i) PTE_W ↔ ph.flags &&& 2 ≠ 0)
  execute : ∀ i < ph.memsz, (Flag mem pagetable (ph.vaddr + i) PTE_X ↔ ph.flags &&& 1 ≠ 0)

/-- The stack of a process of size `sz`, in the last page below `sz`: the arguments are read back
from the array of pointers at `sp`. The page below is not for the user. -/
structure StackIn (mem : ℕ → Page) (pagetable sz sp : ℕ) (argv : List (List UInt8)) : Prop where
  page : sz % PGSIZE = 0 ∧ 2 * PGSIZE ≤ sz
  guard : ∀ va, sz - 2 * PGSIZE ≤ va → va < sz - PGSIZE →
    Present mem pagetable va ∧ ¬UserValid mem pagetable va
  stack : ∀ va, sz - PGSIZE ≤ va → va < sz →
    UserValid mem pagetable va ∧ Flag mem pagetable va PTE_R ∧ Flag mem pagetable va PTE_W
  aligned : sp % 16 = 0
  above : sz - PGSIZE ≤ sp
  null : wordAt mem pagetable (sp + 8 * argv.length) = 0
  copy : ∀ i arg, argv[i]? = some arg →
    wordAt mem pagetable (sp + 8 * i) % 16 = 0 ∧
      sp + 8 * (argv.length + 1) ≤ wordAt mem pagetable (sp + 8 * i) ∧
      wordAt mem pagetable (sp + 8 * i) + (arg.length + 1) ≤ sz ∧
      ∀ k < arg.length + 1, byteAt mem pagetable (wordAt mem pagetable (sp + 8 * i) + k) = cstring arg k
  apart : ∀ i j arg, i < j → argv[j]? = some arg →
    wordAt mem pagetable (sp + 8 * j) + (arg.length + 1) ≤ wordAt mem pagetable (sp + 8 * i)

section ReadBack

variable {g : Geometry} {U : Set ℕ} {tf root entry sp : ℕ} {t : Tree} {l : Loc} {f : Fs} {p p' : Proc}
  {path : List UInt8} {argv : List (List UInt8)} {u : Mem} {y : Loc × Fs} {m : Phys} {va : ℕ}

section

variable (h : Done g p l f path tf entry sp u p' root t y)
include h

theorem Done.lt_MAXVA (hva : va / PGSIZE < pages u.sz) :
    va < MAXVA := by
  have hsz : p'.space.sz ≤ 2281701376 := h.caller.space.backed.sz_le
  have hlt := lt_pages.mp hva
  have hM : MAXVA = 274877906944 := rfl
  rw [h.sz] at hsz
  unfold PGSIZE at hlt
  omega

theorem Done.byteAt (hm : y.1.Agrees g U m)
    (hva : va / PGSIZE < pages u.sz) : byteAt m.mem p'.space.pagetable va = u.byte va := by
  have hin : va / PGSIZE < pages p'.space.sz := h.sz.symm ▸ hva
  unfold Vm.byteAt byteIn placeIn
  rw [h.caller.space.contents hm hin (h.lt_MAXVA hva)]
  exact h.byte hva

/-- A flag of an address, by the flags of its page. -/
theorem Done.flag {bit : ℕ} (hm : y.1.Agrees g U m)
    (hva : va / PGSIZE < pages u.sz) (hbit : 0x3FF &&& bit = bit) :
    leafEntry m.mem p'.space.pagetable va &&& bit = u.perm (va / PGSIZE) &&& bit := by
  rw [h.caller.space.leafEntry hm (h.lt_MAXVA hva), flag_eq hbit, h.perm hva]

end

theorem userPerm_bits (flags : ℕ) :
    (userPerm (flags2perm flags) &&& PTE_W ≠ 0 ↔ flags &&& 2 ≠ 0) ∧
      (userPerm (flags2perm flags) &&& PTE_X ≠ 0 ↔ flags &&& 1 ≠ 0) := by
  unfold flags2perm
  by_cases hx : flags &&& 1 ≠ 0 <;> by_cases hw : flags &&& 2 ≠ 0
  · rw [if_pos hw, if_pos hx]
    exact ⟨iff_of_true (by decide) hw, iff_of_true (by decide) hx⟩
  · rw [if_neg hw, if_pos hx]
    exact ⟨iff_of_false (by decide) hw, iff_of_true (by decide) hx⟩
  · rw [if_pos hw, if_neg hx]
    exact ⟨iff_of_true (by decide) hw, iff_of_false (by decide) hx⟩
  · rw [if_neg hw, if_neg hx]
    exact ⟨iff_of_false (by decide) hw, iff_of_false (by decide) hx⟩

theorem userPerm_valid (xperm : ℕ) : userPerm xperm &&& PTE_V ≠ 0 := by
  unfold userPerm
  rw [Nat.and_or_distrib_right]
  exact fun h => absurd (Nat.or_eq_zero_iff.mp h).2 (by decide)

/-- A page with the flags of `uvmalloc`. -/
theorem Done.userPage {xperm : ℕ} (h : Done g p l f path tf entry sp u p' root t y)
    (hm : y.1.Agrees g U m) (hva : va / PGSIZE < pages u.sz)
    (hperm : u.perm (va / PGSIZE) = userPerm xperm) :
    UserValid m.mem p'.space.pagetable va ∧ Flag m.mem p'.space.pagetable va PTE_R := by
  refine ⟨⟨h.lt_MAXVA hva, ?_, ?_⟩, ?_⟩
  · rw [h.flag hm hva (by decide), hperm]
    exact userPerm_valid _
  · rw [h.flag hm hva (by decide), hperm]
    exact Mem.userPerm_user _
  · rw [Flag, h.flag hm hva (by decide), hperm]
    exact userPerm_read _

theorem Done.segmentIn {data : List UInt8} {ph : ProgHdr}
    (h : Done g p l f path tf entry sp u p' root t y) (hm : y.1.Agrees g U m)
    (hseg : u.HasSegment data ph) (hoff : ph.off < 4294967296) :
    SegmentIn m.mem p'.space.pagetable data ph := by
  have hpage : ∀ {i}, i < ph.memsz → (ph.vaddr + i) / PGSIZE < pages u.sz := fun hi =>
    lt_pages_of_lt ((Nat.add_lt_add_left hi _).trans_le hseg.size)
  have huser := fun {i} (hi : i < ph.memsz) => h.userPage hm (hpage hi) (hseg.perm i hi)
  have hfits := hseg.fits
  rw [uint_of_lt hoff] at hfits
  refine ⟨fun i hi => ?_, fun i hge hi => ?_, fun i hi => (huser hi).1, fun i hi => (huser hi).2,
    fun i hi => ?_, fun i hi => ?_⟩
  · rw [h.byteAt hm (hpage (hi.trans_le hseg.filesz)), hseg.file i hi]
    exact segmentByte_eq (by omega)
  · rw [h.byteAt hm (hpage hi)]
    exact hseg.zero i hge hi
  · rw [Flag, h.flag hm (hpage hi) (by decide), hseg.perm i hi]
    exact (userPerm_bits ph.flags).1
  · rw [Flag, h.flag hm (hpage hi) (by decide), hseg.perm i hi]
    exact (userPerm_bits ph.flags).2

theorem Done.stackIn (h : Done g p l f path tf entry sp (u.final argv) p' root t y)
    (hm : y.1.Agrees g U m) (hroom : room argv ≤ PGSIZE) :
    StackIn m.mem p'.space.pagetable p'.space.sz (stackPointer u argv) argv := by
  have hP : PGSIZE = 4096 := rfl
  obtain ⟨hbase, hmod, hbottom⟩ := stackPointer_spec (u := u) hroom
  have hpos := bottom_pos (u := u) hroom
  have hle := bottom_le argv (PGSIZE * (pages u.sz + 2))
  have htop := final_sz u argv
  have hlast : PGSIZE * (pages u.sz + 2) = PGSIZE * (pages u.sz + 1) + PGSIZE := Nat.mul_succ _ _
  have hfirst : PGSIZE ≤ PGSIZE * (pages u.sz + 1) := Nat.le_mul_of_pos_right _ (Nat.succ_pos _)
  have hsz : p'.space.sz = PGSIZE * (pages u.sz + 2) := h.sz.trans htop
  have hsmall : p'.space.sz ≤ 2281701376 := h.caller.space.backed.sz_le
  have hin : ∀ {va}, va < PGSIZE * (pages u.sz + 2) → va / PGSIZE < pages (u.final argv).sz :=
    fun hva => lt_pages_of_lt (htop.symm ▸ hva)
  obtain ⟨hguard, hstack⟩ := addStack_perm u
  rw [hsz]
  -- words of the array of pointers
  have hword : ∀ i < argv.length + 1, wordAt m.mem p'.space.pagetable (stackPointer u argv + 8 * i) =
      (places argv (PGSIZE * (pages u.sz + 2))).getD i 0 := by
    intro i hi
    rw [← final_pointer hi (by omega)]
    apply Digits.number_congr
    intro j hj
    exact h.byteAt hm (hin (by omega))
  have hplace : ∀ i, i < argv.length → (places argv (PGSIZE * (pages u.sz + 2)))[i]? =
      some (wordAt m.mem p'.space.pagetable (stackPointer u argv + 8 * i)) := by
    intro i hi
    rw [hword i (by omega), List.getD_eq_getElem?_getD,
      List.getElem?_eq_getElem ((length_places argv _).symm ▸ hi)]
    rfl
  have hlt : ∀ {i arg}, argv[i]? = some arg → i < argv.length := fun harg =>
    (List.getElem?_eq_some_iff.mp harg).1
  refine ⟨⟨page_mod _, by omega⟩, ?_, ?_, hmod, by omega, ?_, ?_, ?_⟩
  · intro va hge hva
    have hpage : va / PGSIZE = pages u.sz := by
      rw [hP] at hge hva ⊢
      omega
    have hva' : va / PGSIZE < pages (u.final argv).sz := hin (by omega)
    have hperm : (u.final argv).perm (va / PGSIZE) = withoutU (userPerm PTE_W) := by
      rw [final_perm, hpage]
      exact hguard
    constructor
    · refine ⟨h.lt_MAXVA hva', ?_⟩
      rw [h.flag hm hva' (by decide), hperm]
      decide
    · rintro ⟨-, -, hU⟩
      rw [h.flag hm hva' (by decide), hperm] at hU
      exact hU (withoutU_user _)
  · intro va hge hva
    have hpage : va / PGSIZE = pages u.sz + 1 := by
      rw [hP] at hge hva ⊢
      omega
    have hperm : (u.final argv).perm (va / PGSIZE) = userPerm PTE_W := by
      rw [final_perm, hpage]
      exact hstack
    obtain ⟨hvalid, hread⟩ := h.userPage hm (hin hva) hperm
    refine ⟨hvalid, hread, ?_⟩
    rw [Flag, h.flag hm (hin hva) (by decide), hperm]
    decide
  · rw [hword _ (Nat.lt_succ_self _)]
    exact List.getD_eq_default _ _ (length_places argv _).le
  · intro i arg harg
    have hp := hplace i (hlt harg)
    obtain ⟨hmod', hge, hend⟩ := place_spec hpos harg hp
    refine ⟨hmod', by omega, hend, fun k hk => ?_⟩
    rw [h.byteAt hm (hin (by omega))]
    exact final_string hroom harg hp hk
  · intro i j arg hij harg
    have hj := hlt harg
    exact places_apart hpos hij (hplace i (hij.trans hj)) harg (hplace j hj)

end ReadBack

/-- **A successful `exec` builds the image that the file and `argv` say**, for every ELF file
whose loadable segments are at offsets below 2^32, aligned, increasing and on pages of their own:
each segment is in memory, readable, and writable and executable exactly if its flags ask for it,
below the stack page is a page that the user may not access, and the stack decodes to `argv`. If
strings and pointers need more than a page it returns -1. -/
theorem exec_builds_image (g : Geometry) (env : Env) (U F : Set ℕ)
    (trampoline tf root : ℕ) (t : Tree) (l : Loc) (p : Proc) (path : List UInt8)
    (argv : List (List UInt8)) (s : State) (ip : ℕ) (hc : Caller g p tf root F t l)
    (hs : l.Agrees g U s.phys) (hargv : Admitted argv) (hlocked : ∀ ip, s.fs.locked ip = false)
    (hip : s.fs.names path = some ip) (helf : IsElf (s.fs.data ip))
    (hoff : ∀ ph ∈ segments (s.fs.data ip), ph.off < 4294967296)
    (hapart : Apart (segments (s.fs.data ip))) :
    ∃ r p' s', run g env (exec trampoline p path argv) s = some ((r, p'), s') ∧
      (r ≠ -1 →
        (∀ ph ∈ segments (s.fs.data ip),
          SegmentIn s'.phys.mem p'.space.pagetable (s.fs.data ip) ph) ∧
        r = argv.length ∧ ∃ sp, s'.phys.mem tf TF_A1 = sp ∧ s'.phys.mem tf TF_SP = sp ∧
          StackIn s'.phys.mem p'.space.pagetable p'.space.sz sp argv) ∧
      (PGSIZE < room argv → r = -1) := by
  have hl : l.InRam g := fun ppn hp => hs.ram (hs.own hp)
  have hwp : wp (execRules g False) (exec trampoline p path argv) _ (l, s.fs) :=
    wp_exec hc hl hargv hlocked
  obtain ⟨⟨r, p'⟩, s', l', hrun, hs', hend⟩ := run_of_wp env hwp hs
  refine ⟨r, p', s', hrun, ?_⟩
  rcases hend with ⟨hresult, -, -, -⟩ | ⟨hroom, hr, ip', entry, u, root', t', hip', hprogram, hdone⟩
  · have hr : r = -1 := (Prod.mk.inj hresult).1
    exact ⟨fun hne => absurd hr hne, fun _ => hr⟩
  · obtain rfl : ip' = ip := Option.some.inj (hip'.symm.trans hip)
    refine ⟨fun _ => ⟨fun ph hph => ?_, hr, stackPointer u argv, ?_, ?_, ?_⟩, fun hbig => ?_⟩
    · have heq := helf.filter_headers hprogram.table hph
      have hseg := hprogram.loads.hasSegment (heq.symm ▸ hapart.increasing)
        (fun _ _ => Nat.zero_le _) ph (heq.symm ▸ hph)
      have hseg' : (u.final argv).HasSegment (s.fs.data ip') ph := by
        refine hseg.agree (final_low hroom) (pages_mono hseg.size) ?_
        rw [final_sz]
        exact (sz_le_pages u.sz).trans (Nat.mul_le_mul_left _ (Nat.le_add_right _ _))
      exact hdone.segmentIn hs' hseg' (hoff ph hph)
    · rw [hs'.mem hdone.caller.own.1, hdone.frame]
      rfl
    · rw [hs'.mem hdone.caller.own.1, hdone.frame]
      rfl
    · exact hdone.stackIn hs' hroom
    · exact absurd hroom (not_le.mpr hbig)

/-- A program whose segment asks for execution only. -/
def code : List UInt8 := program 1 (ELFHDR + PROGHDR)

/-- One whose header says that the bytes of the segment are beyond 2^32. -/
def far : List UInt8 := program 5 (4294967296 + (ELFHDR + PROGHDR))

/-- The first program runs, and its page is readable. -/
theorem launch_code : (IsElf code ∧ Apart (segments code)) ∧ (launch code).map
    (fun x => (x.1.1, leafEntry x.2.phys.mem x.1.2.space.pagetable 0 &&& PTE_R)) = some (1, PTE_R) :=
  ⟨⟨⟨by decide +kernel, by decide +kernel⟩, by decide +kernel, by decide +kernel⟩, by decide +kernel⟩

/-- The second runs with the bytes at the lower 32 bits of the offset. -/
theorem launch_far : (IsElf far ∧ Apart (segments far)) ∧ (launch far).map
    (fun x => (x.1.1, byteAt x.2.phys.mem x.1.2.space.pagetable 0)) = some (1, 1) :=
  ⟨⟨⟨by decide +kernel, by decide +kernel⟩, by decide +kernel, by decide +kernel⟩, by decide +kernel⟩

theorem exec_builds_image_program : ∃ p' s', launch code = some ((1, p'), s') ∧
    (segments code).length = 1 ∧
    (∀ ph ∈ segments code, SegmentIn s'.phys.mem p'.space.pagetable code ph) ∧
    StackIn s'.phys.mem p'.space.pagetable p'.space.sz (s'.phys.mem 1 TF_SP) [[98]] := by
  obtain ⟨U, root, F, t, l, hc, hs⟩ := shell_calls
  obtain ⟨⟨helf, hapart⟩, hr⟩ := launch_code
  obtain ⟨r, p', s', hrun, hend, -⟩ := exec_builds_image board noFailure U F (PGSIZE * 20) 1
    root t l shell [97] [[98]] ⟨shellMem, disk code, 0⟩ 7 hc hs ⟨by decide, by decide +kernel, by decide⟩
    (fun _ => rfl) rfl helf (show ∀ ph ∈ segments code, _ by decide +kernel) hapart
  rw [launch, hrun] at hr
  have hr' : r = 1 := (Prod.mk.inj (Option.some.inj hr)).1
  subst hr'
  obtain ⟨hsegs, -, sp, -, hsp, hstack⟩ := hend (by decide)
  exact ⟨p', s', hrun, by decide +kernel, hsegs, hsp.symm ▸ hstack⟩

/-- Flags that ask for execution only (the bit for reading, 4, is not set) give a page that can be
read. And a segment whose offset is 2^32 + 120 in a file of 123 bytes is filled with the bytes
at 120. -/
theorem exec_narrows_offset :
    (∃ U root F t l, Caller board shell 1 root F t l ∧ l.Agrees board U shellMem) ∧
    (IsElf code ∧ Apart (segments code) ∧
      (segments code).map (fun ph => (ph.vaddr, ph.flags &&& 4)) = [(0, 0)] ∧
      ∃ p' s', launch code = some ((1, p'), s') ∧ Flag s'.phys.mem p'.space.pagetable 0 PTE_R) ∧
    IsElf far ∧ Apart (segments far) ∧ far.length = 123 ∧
      (segments far).map (fun ph => (ph.vaddr, ph.off, ph.filesz)) = [(0, 4294967296 + 120, 3)] ∧
      ∃ p' s', launch far = some ((1, p'), s') ∧
        byteAt s'.phys.mem p'.space.pagetable 0 ≠ far.getD (4294967296 + 120) 0 := by
  obtain ⟨⟨hcode, hapart⟩, hruns⟩ := launch_code
  obtain ⟨⟨hfar, hapart'⟩, hruns'⟩ := launch_far
  refine ⟨shell_calls, ⟨hcode, hapart, by decide +kernel, ?_⟩, hfar, hapart',
    by decide +kernel, by decide +kernel, ?_⟩
  · obtain ⟨⟨⟨r, p'⟩, s'⟩, hrun, hr⟩ := Option.map_eq_some_iff.mp hruns
    obtain ⟨hone, hread⟩ := Prod.mk.inj hr
    have hone : r = 1 := hone
    subst hone
    refine ⟨p', s', hrun, ?_⟩
    rw [Flag, hread]
    decide
  · obtain ⟨⟨⟨r, p'⟩, s'⟩, hrun, hr⟩ := Option.map_eq_some_iff.mp hruns'
    obtain ⟨hone, hbyte⟩ := Prod.mk.inj hr
    have hone : r = 1 := hone
    subst hone
    refine ⟨p', s', hrun, ?_⟩
    rw [hbyte]
    decide +kernel

end Xv6.Exec
