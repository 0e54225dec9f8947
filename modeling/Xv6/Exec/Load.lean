import Xv6.Exec.Image

/-!
How `exec` loads the segments of a program.

`Mem.load` is what one program header makes of the image, and `Loads` what a list of them does.

* `wp_loadseg`: the bytes of a segment come from the file, a page at a time.
* `wp_loadLoop`: if the loop gets to its end, the image is the one of `Loads`; if not, there is
  still an image of the size that is given back.

Offsets in the file are cut to 32 bits, as in the source. After that they do not wrap around
any more when the reads succeed, since `readi` refuses a range that does.
-/

namespace Xv6.Exec

open Prog (wp wp_bind)
open Vm

/-! ### Headers and bytes in the file -/

/-- Byte `i` of a segment that starts at `offset`. The offset is computed for each page. -/
def segmentByte (data : List UInt8) (offset i : ℕ) : UInt8 :=
  data.getD (uint (offset + i / PGSIZE * PGSIZE) + i % PGSIZE) 0

/-- The program header at `off`. -/
def header (data : List UInt8) (off : ℕ) : ProgHdr := .decode fun i => data.getD (off + i) 0

/-- The headers that the loop reads. -/
def headers (data : List UInt8) : ℕ → ℕ → List ProgHdr
  | 0, _ => []
  | left + 1, off => header data off :: headers data left (uint (off + PROGHDR))

theorem field_congr {bytes bytes' : ℕ → UInt8} {off w size : ℕ} (hin : off + w ≤ size)
    (h : ∀ i < size, bytes i = bytes' i) : field bytes off w = field bytes' off w :=
  Digits.number_congr fun i hi => h (off + i) (by omega)

theorem field_lt (bytes : ℕ → UInt8) (off : ℕ) : field bytes off 8 < 18446744073709551616 :=
  Digits.number_lt _ 8

theorem ProgHdr.decode_congr {bytes bytes' : ℕ → UInt8} (h : ∀ i < PROGHDR, bytes i = bytes' i) :
    ProgHdr.decode bytes = ProgHdr.decode bytes' := by
  unfold ProgHdr.decode
  rw [field_congr (by decide) h, field_congr (by decide) h, field_congr (by decide) h,
    field_congr (by decide) h, field_congr (by decide) h, field_congr (by decide) h]

theorem ElfHdr.decode_congr {bytes bytes' : ℕ → UInt8} (h : ∀ i < ELFHDR, bytes i = bytes' i) :
    ElfHdr.decode bytes = ElfHdr.decode bytes' := by
  unfold ElfHdr.decode
  rw [field_congr (by decide) h, field_congr (by decide) h, field_congr (by decide) h,
    field_congr (by decide) h]

theorem uint_of_lt {n : ℕ} (h : n < 4294967296) : uint n = n := by
  unfold uint
  exact Nat.mod_eq_of_lt h

theorem uint_lt (n : ℕ) : uint n < 4294967296 := by
  unfold uint
  exact Nat.mod_lt n (by decide)

theorem flags2perm_lt (flags : ℕ) : flags2perm flags < 1024 := by
  unfold flags2perm
  split <;> split <;> decide

/-! ### The image -/

namespace Mem

variable {u : Mem} {va n : ℕ} {data data' : ℕ → UInt8}

theorem store_zero (u : Mem) (va : ℕ) (data : ℕ → UInt8) : u.store va 0 data = u := by
  unfold store
  congr 1
  funext a
  exact if_neg (by omega)

theorem store_congr (h : ∀ i < n, data i = data' i) : u.store va n data = u.store va n data' := by
  unfold store
  congr 1
  funext a
  split
  case isTrue hin => exact h _ (by omega)
  case isFalse => rfl

/-- Bytes that follow those set before. -/
theorem store_store (u : Mem) (va i n : ℕ) (data : ℕ → UInt8) :
    (u.store va i data).store (va + i) n (fun j => data (i + j)) = u.store va (i + n) data := by
  unfold store
  congr 1
  funext a
  dsimp only
  by_cases hlate : va + i ≤ a ∧ a < va + i + n
  · rw [if_pos hlate, if_pos (by omega)]
    congr 1
    omega
  · rw [if_neg hlate]
    by_cases hearly : va ≤ a ∧ a < va + i
    · rw [if_pos hearly, if_pos (by omega)]
    · rw [if_neg hearly, if_neg (by omega)]

/-- The user may access every page. -/
def AllUser (u : Mem) : Prop := ∀ k < pages u.sz, u.perm k &&& PTE_U ≠ 0

/-- The pages of a loadable segment, if they are beyond the image. -/
def extend (u : Mem) (ph : ProgHdr) : Mem :=
  if ph.vaddr + ph.memsz < u.sz then u
  else u.grow (ph.vaddr + ph.memsz) (userPerm (flags2perm ph.flags))

/-- What a loadable segment makes of the image. -/
def load (data : List UInt8) (u : Mem) (ph : ProgHdr) : Mem :=
  (u.extend ph).store ph.vaddr ph.filesz (segmentByte data (uint ph.off))

theorem userPerm_user (xperm : ℕ) : userPerm xperm &&& PTE_U ≠ 0 := by
  unfold userPerm
  rw [Nat.and_or_distrib_right, Nat.and_or_distrib_right]
  exact fun h => absurd (Nat.or_eq_zero_iff.mp (Nat.or_eq_zero_iff.mp h).1).1 (by decide)

theorem AllUser.extend (h : u.AllUser) (ph : ProgHdr) : (u.extend ph).AllUser := by
  unfold Mem.extend
  split
  case isTrue => exact h
  case isFalse =>
    intro k hk
    show (if pages u.sz ≤ k then userPerm _ else u.perm k) &&& PTE_U ≠ 0
    split
    case isTrue => exact userPerm_user _
    case isFalse hlt => exact h k (not_le.mp hlt)

theorem le_extend (u : Mem) (ph : ProgHdr) : ph.vaddr + ph.memsz ≤ (u.extend ph).sz := by
  unfold extend
  split
  case isTrue hlt => exact hlt.le
  case isFalse => exact le_rfl

end Mem

/-- A header that `exec` does not refuse. -/
structure ProgHdr.Valid (ph : ProgHdr) : Prop where
  filesz : ph.filesz ≤ ph.memsz
  aligned : ph.vaddr % PGSIZE = 0
  lt : ph.vaddr + ph.memsz < 18446744073709551616

/-- The headers, one after another, make `u'` of `u`. -/
inductive Loads (data : List UInt8) : Mem → List ProgHdr → Mem → Prop where
  | nil (u : Mem) : Loads data u [] u
  | skip {u u' : Mem} {ph : ProgHdr} {phs : List ProgHdr} (htype : ph.type ≠ ELF_PROG_LOAD)
      (hrest : Loads data u phs u') : Loads data u (ph :: phs) u'
  | load {u u' : Mem} {ph : ProgHdr} {phs : List ProgHdr} (htype : ph.type = ELF_PROG_LOAD)
      (hvalid : ph.Valid) (hfits : uint ph.off + ph.filesz < 4294967296)
      (hrest : Loads data (u.load data ph) phs u') : Loads data u (ph :: phs) u'

/-! ### Specifications -/

section Load

variable {g : Geometry} {panics : Prop} {trampoline trapframe : ℕ} {base l : Loc} {root ip : ℕ}
  {u : Mem} {t : Tree} {f : Fs}

/-- A byte of the page that starts `i` bytes into the segment. -/
theorem segmentByte_add (data : List UInt8) (offset : ℕ) {i j : ℕ} (hi : i % PGSIZE = 0)
    (hj : j < PGSIZE) : segmentByte data offset (i + j) = data.getD (uint (offset + i) + j) 0 := by
  have hpage : (i + j) / PGSIZE * PGSIZE = i ∧ (i + j) % PGSIZE = j := by
    unfold PGSIZE at *
    omega
  rw [segmentByte, hpage.1, hpage.2]

/-- The loop of `loadseg`, after `i` bytes. -/
theorem wp_loadsegLoop {va offset sz rounds i : ℕ}
    (h : Image g trampoline trapframe base root
      (u.store va (min i sz) (segmentByte (f.data ip) offset)) t l)
    (huser : u.AllUser) (hva : va % PGSIZE = 0)
    (hi : i % PGSIZE = 0) (hin : va + sz ≤ u.sz) (hlast : i < sz + PGSIZE)
    (hrounds : sz + PGSIZE ≤ i + PGSIZE * rounds) :
    wp (execRules g panics) (loadsegLoop (PGSIZE * root) va ip offset sz rounds i)
      (fun r x => x.2 = f ∧
        ((r < 0 ∧ ∃ u', u'.sz = u.sz ∧ Image g trampoline trapframe base root u' t x.1) ∨
          (r = 0 ∧ (offset + min i sz < 4294967296 → offset + sz < 4294967296) ∧ Image g trampoline trapframe base root
            (u.store va sz (segmentByte (f.data ip) offset)) t x.1))) (l, f) := by
  have hP : PGSIZE = 4096 := rfl
  have hsz : u.sz ≤ 2281701376 := h.sz_le
  induction rounds generalizing i l with
  | zero => omega
  | succ rounds ih =>
    unfold loadsegLoop
    split
    case isFalse hge =>
      rw [min_eq_right (not_lt.mp hge)] at h
      exact ⟨rfl, .inr ⟨rfl, fun hfits => by rwa [min_eq_right (not_lt.mp hge)] at hfits, h⟩⟩
    case isTrue hlt =>
      rw [min_eq_left hlt.le] at h
      obtain ⟨k, hk⟩ : ∃ k, va + i = PGSIZE * k := ⟨(va + i) / PGSIZE, by
        rw [hP] at hva hi ⊢
        omega⟩
      have hin' : k < pages u.sz := lt_pages.mpr (by omega)
      rw [hk, wrap64_of_lt (by omega)]
      apply wp_bind.mpr
      apply wp_lift
      apply (wp_image_walkaddr h ((page_div k).symm ▸ ⟨hin', huser k hin'⟩)).mono
      rintro pa l' ⟨rfl, rfl⟩
      rw [page_div, if_neg (h.page_ne_zero hin')]
      have hn : (if sz - i < PGSIZE then sz - i else PGSIZE) = min (sz - i) PGSIZE := by
        rw [min_def]
        split <;> split <;> omega
      rw [hn]
      apply wp_bind.mpr
      apply wp_readi
      rintro ⟨tot, data⟩ hreads
      have htot : tot ≤ min (sz - i) PGSIZE := hreads.le
      apply wp_bind.mpr
      apply wp_lift
      apply wp_writePage (h.at_page hin')
      have hstore := h.store data hin' (show 0 + tot ≤ PGSIZE by omega)
      -- what was read continues the segment
      have hbytes : ∀ j < tot, data j = segmentByte (f.data ip) offset (i + j) := by
        intro j hj
        rw [segmentByte_add _ _ hi (by omega)]
        exact hreads.byte j hj
      rw [Nat.add_zero, ← hk, Mem.store_congr hbytes, Mem.store_store] at hstore
      split
      case isTrue =>
        exact ⟨rfl, .inl ⟨by decide, u.store va (i + tot) _, rfl, hstore⟩⟩
      case isFalse hall =>
        have hdone : i + tot = min (i + PGSIZE) sz := by
          omega
        rw [hdone] at hstore
        rw [uint_of_lt (by omega)]
        have hi' : (i + PGSIZE) % PGSIZE = 0 := (Nat.add_mod_right i PGSIZE).trans hi
        have hrounds' : sz + PGSIZE ≤ i + PGSIZE + PGSIZE * rounds := by
          rw [Nat.mul_succ] at hrounds
          omega
        apply (ih hstore hi' (by omega) hrounds').mono
        rintro r x ⟨hf, hfail | ⟨hr, hfits, himage⟩⟩
        · exact ⟨hf, .inl hfail⟩
        · refine ⟨hf, .inr ⟨hr, fun hnow => hfits ?_, himage⟩⟩
          rw [min_eq_left hlt.le] at hnow
          have hread := (hreads.inside (show 0 < tot by omega)).2
          rw [uint_of_lt hnow] at hread
          omega

theorem wp_loadseg {va offset sz : ℕ} (h : Image g trampoline trapframe base root u t l)
    (huser : u.AllUser) (hva : va % PGSIZE = 0)
    (hin : va + sz ≤ u.sz) :
    wp (execRules g panics) (loadseg (PGSIZE * root) va ip offset sz)
      (fun r x => x.2 = f ∧
        ((r < 0 ∧ ∃ u', u'.sz = u.sz ∧ Image g trampoline trapframe base root u' t x.1) ∨
          (r = 0 ∧ (offset < 4294967296 → offset + sz < 4294967296) ∧ Image g trampoline trapframe base root
            (u.store va sz (segmentByte (f.data ip) offset)) t x.1))) (l, f) := by
  have hsz : u.sz ≤ 2281701376 := h.sz_le
  have hmax : PGSIZE * MAXPAGES = 274877911040 := rfl
  have hP : PGSIZE = 4096 := rfl
  have hstart : Image g trampoline trapframe base root
      (u.store va (min 0 sz) (segmentByte (f.data ip) offset)) t l := by
    rw [Nat.zero_min, Mem.store_zero]
    exact h
  apply (wp_loadsegLoop hstart huser hva rfl hin (by omega) (by omega)).mono
  rintro r x ⟨hf, hfail | ⟨hr, hfits, himage⟩⟩
  · exact ⟨hf, .inl hfail⟩
  · exact ⟨hf, .inr ⟨hr, fun hlt => hfits (by rwa [Nat.zero_min, Nat.add_zero]), himage⟩⟩

theorem decode_lt (bytes : ℕ → UInt8) :
    (ProgHdr.decode bytes).vaddr < 18446744073709551616 ∧
      (ProgHdr.decode bytes).memsz < 18446744073709551616 := ⟨field_lt _ _, field_lt _ _⟩

/-- The end of a segment that does not wrap around. -/
theorem wrap64_of_not_lt {a b : ℕ} (ha : a < 18446744073709551616) (hb : b < 18446744073709551616)
    (h : ¬wrap64 (a + b) < a) : a + b < 18446744073709551616 := by
  unfold wrap64 at h
  omega

/-- `uvmalloc` for a segment. -/
theorem wp_extend {ph : ProgHdr} (h : Image g trampoline trapframe base root u t l)
    (hvalid : ph.Valid) :
    wp (memRules g panics)
      (uvmalloc (PGSIZE * root) u.sz (ph.vaddr + ph.memsz) (flags2perm ph.flags))
      (fun r l' => ∃ t',
        (r = 0 ∧ ∃ u', u'.sz = u.sz ∧ Image g trampoline trapframe base root u' t' l') ∨
          (r ≠ 0 ∧ r = (u.extend ph).sz ∧ Image g trampoline trapframe base root (u.extend ph) t' l'))
      l := by
  apply (wp_image_uvmalloc h (flags2perm_lt _) hvalid.lt).mono
  rintro r l' (⟨rfl, t', himage⟩ | ⟨hlt, rfl, himage⟩ | ⟨hle, rfl, t', himage⟩)
  · exact ⟨t', .inl ⟨rfl, u, rfl, himage⟩⟩
  · rw [Mem.extend, if_pos hlt]
    exact ⟨t, .inr ⟨by omega, rfl, himage⟩⟩
  · rw [Mem.extend, if_neg (not_lt.mpr hle)]
    by_cases hzero : ph.vaddr + ph.memsz = 0
    · -- an empty segment at 0 looks like a failure
      refine ⟨t', .inl ⟨hzero, _, ?_, himage⟩⟩
      show ph.vaddr + ph.memsz = u.sz
      omega
    · exact ⟨t', .inr ⟨hzero, rfl, himage⟩⟩

theorem wp_loadLoop {left off : ℕ} (h : Image g trampoline trapframe base root u t l)
    (huser : u.AllUser) :
    wp (execRules g panics) (loadLoop ip (PGSIZE * root) left off u.sz)
      (fun r x => x.2 = f ∧ ∃ u' t', Image g trampoline trapframe base root u' t' x.1 ∧
        u'.sz = r.2 ∧ (r.1 = true → Loads (f.data ip) u (headers (f.data ip) left off) u' ∧
          (off < 4294967296 → off + PROGHDR * left < 4294967296)))
      (l, f) := by
  induction left generalizing off u t l with
  | zero => exact ⟨rfl, u, t, h, rfl, fun _ => ⟨.nil u, id⟩⟩
  | succ left ih =>
    -- every `goto bad` before the image has changed
    have hbad : ∃ u' t', Image g trampoline trapframe base root u' t' l ∧ u'.sz = u.sz ∧
        (false = true → Loads (f.data ip) u (headers (f.data ip) (left + 1) off) u' ∧
          (off < 4294967296 → off + PROGHDR * (left + 1) < 4294967296)) :=
      ⟨u, t, h, rfl, fun hf => absurd hf Bool.false_ne_true⟩
    apply wp_bind.mpr
    apply wp_readi
    rintro ⟨tot, bytes⟩ hreads
    dsimp only
    split
    case isTrue => exact ⟨rfl, hbad⟩
    case isFalse hall =>
      have hhead : ProgHdr.decode bytes = header (f.data ip) off :=
        ProgHdr.decode_congr fun i hi => hreads.byte i (not_not.mp hall ▸ hi)
      have hlt := decode_lt bytes
      have hread : off + PROGHDR < 4294967296 :=
        (hreads.inside (not_not.mp hall ▸ (by decide : 0 < PROGHDR))).2
      have htable : (uint (off + PROGHDR) < 4294967296 →
          uint (off + PROGHDR) + PROGHDR * left < 4294967296) →
          off + PROGHDR * (left + 1) < 4294967296 := by
        rw [uint_of_lt hread, Nat.mul_succ]
        intro hrest
        have := hrest hread
        omega
      rw [hhead] at hlt ⊢
      generalize hph : header (f.data ip) off = ph at hlt ⊢
      have hcons : headers (f.data ip) (left + 1) off =
          ph :: headers (f.data ip) left (uint (off + PROGHDR)) := by
        rw [headers, hph]
      split
      case isTrue hskip =>
        apply (ih h huser).mono
        rintro r x ⟨hf, u', t', himage, hsz, hloads⟩
        exact ⟨hf, u', t', himage, hsz, fun hr =>
          ⟨hcons ▸ .skip hskip (hloads hr).1, fun _ => htable (hloads hr).2⟩⟩
      case isFalse htype =>
        split
        case isTrue => exact ⟨rfl, hbad⟩
        case isFalse hfile =>
          split
          case isTrue => exact ⟨rfl, hbad⟩
          case isFalse hwrap =>
            split
            case isTrue => exact ⟨rfl, hbad⟩
            case isFalse halign =>
              have hvalid : ph.Valid :=
                ⟨not_lt.mp hfile, not_not.mp halign, wrap64_of_not_lt hlt.1 hlt.2 hwrap⟩
              rw [wrap64_of_lt hvalid.lt]
              apply wp_bind.mpr
              apply wp_lift
              apply (wp_extend h hvalid).mono
              rintro r l' ⟨t', ⟨rfl, u', hsz, himage⟩ | ⟨hne, rfl, himage⟩⟩
              · exact ⟨rfl, u', t', himage, hsz, fun hf => absurd hf Bool.false_ne_true⟩
              · rw [if_neg hne]
                have hin : ph.vaddr + ph.filesz ≤ (u.extend ph).sz :=
                  (Nat.add_le_add_left hvalid.filesz _).trans (u.le_extend ph)
                have hsz : (u.extend ph).sz ≤ 2281701376 := himage.sz_le
                rw [uint_of_lt (show ph.filesz < 4294967296 by omega)]
                apply (wp_loadseg himage (huser.extend ph) hvalid.aligned hin).bind
                rintro r ⟨l', f'⟩ ⟨rfl, ⟨hneg, u', hu', himage'⟩ | ⟨rfl, hfits, himage'⟩⟩
                · rw [if_pos hneg]
                  exact ⟨rfl, u', t', himage', hu', fun hf => absurd hf Bool.false_ne_true⟩
                · rw [if_neg (lt_irrefl 0)]
                  apply (ih himage' (huser.extend ph)).mono
                  rintro r x ⟨hf, u', t', himage, hsz, hloads⟩
                  exact ⟨hf, u', t', himage, hsz, fun hr =>
                    ⟨hcons ▸ .load (not_not.mp htype) hvalid (hfits (uint_lt _)) (hloads hr).1,
                      fun _ => htable (hloads hr).2⟩⟩

end Load

end Xv6.Exec
