import Xv6.Lib.Digits
import Xv6.Vm.Walk

/-!
Copying between the kernel and user memory: `copyout`, `copyin` and `copyinstr`.

A page is read and written as bytes here, eight to an entry. Kernel buffers are functions
from offsets to bytes; they lie in memory that no page table maps for the user, so they are
kept apart from the pages.

The specifications are about the physical address `look va` that `walkaddr` finds for a
page, and hold for any rules of reading and writing (`Access`, `Writes`), so that they can be
used for a program that runs alone as well as for one that owns its pages.

* `wp_copyout`: the bytes are stored one after another, up to the first that is not mapped.
* `wp_copyin`: the bytes are fetched, up to the first that is not mapped.
* `wp_copyinstr`: the same, up to the first NUL.
-/

namespace Xv6.Vm

open Function (update update_of_ne update_self update_idem)
open Prog (Rules wp wp_bind)

/-! ### Bytes of a page -/

/-- Byte `i` of a page; entries are stored lowest byte first. -/
def Page.byte (page : Page) (i : ℕ) : UInt8 := UInt8.ofNat (page (i / 8) / 256 ^ (i % 8))

/-- The page with the given bytes. -/
def Page.ofBytes (f : ℕ → UInt8) : Page := fun k =>
  (List.range 8).foldr (fun j acc => (f (8 * k + j)).toNat + 256 * acc) 0

/-- `memmove` of `n` bytes into the page, from offset `off` on. -/
def Page.splice (page : Page) (off : ℕ) (src : ℕ → UInt8) (n : ℕ) : Page :=
  Page.ofBytes fun i => if off ≤ i ∧ i < off + n then src (i - off) else page.byte i

def Page.setByte (page : Page) (i : ℕ) (b : UInt8) : Page := Page.ofBytes (update page.byte i b)

@[simp] theorem Page.byte_ofBytes (f : ℕ → UInt8) (i : ℕ) : (Page.ofBytes f).byte i = f i := by
  have hbyte : (Page.ofBytes f).byte i = f (8 * (i / 8) + i % 8) :=
    Digits.byte_number (Nat.mod_lt i (by decide))
  rw [hbyte, Nat.div_add_mod]

theorem Page.byte_setByte (page : Page) (i : ℕ) (b : UInt8) :
    (page.setByte i b).byte = update page.byte i b := by
  funext j
  rw [setByte, byte_ofBytes]

theorem Page.byte_splice (page : Page) (off : ℕ) (src : ℕ → UInt8) (n i : ℕ) :
    (page.splice off src n).byte i =
      if off ≤ i ∧ i < off + n then src (i - off) else page.byte i := by
  rw [splice, byte_ofBytes]

/-- One byte more. -/
theorem Page.setByte_splice (page : Page) (off : ℕ) (src : ℕ → UInt8) (n : ℕ) :
    (page.splice off src n).setByte (off + n) (src n) = page.splice off src (n + 1) := by
  unfold setByte
  conv_rhs => rw [splice]
  congr 1
  funext i
  by_cases hi : i = off + n
  · subst hi
    rw [update_self, if_pos (by omega), Nat.add_sub_cancel_left]
  · rw [update_of_ne hi, byte_splice]
    by_cases hlt : off ≤ i ∧ i < off + n
    · rw [if_pos hlt, if_pos (by omega)]
    · rw [if_neg hlt, if_neg (by omega)]

theorem Page.setByte_eq_splice (page : Page) (off : ℕ) (src : ℕ → UInt8) :
    page.setByte off (src 0) = page.splice off src 1 := by
  unfold setByte splice
  congr 1
  funext i
  by_cases hi : i = off
  · subst hi
    rw [update_self, if_pos (by omega), Nat.sub_self]
  · rw [update_of_ne hi, if_neg (by omega)]

/-! ### The programs -/

def copyoutLoop (pagetable : ℕ) : ℕ → ℕ → (ℕ → UInt8) → ℕ → Code Int
  | 0, _, _, _ => outOfRounds
  | rounds + 1, dstva, src, len =>
    if len > 0 then do
      let va0 := PGROUNDDOWN dstva
      let pa0 ← walkaddr pagetable va0
      if pa0 = 0 then
        pure (-1)
      else do
        let n := min (PGSIZE - (dstva - va0)) len
        writePage pa0 fun page => page.splice (dstva - va0) src n
        copyoutLoop pagetable rounds (wrap64 (va0 + PGSIZE)) (fun i => src (n + i)) (len - n)
    else
      pure 0

def copyout (pagetable dstva : ℕ) (src : ℕ → UInt8) (len : ℕ) : Code Int :=
  copyoutLoop pagetable MAXPAGES dstva src len

/-- `memmove` of `n` bytes of a page, from offset `p` on, into a buffer at `off`. -/
def fetch (page : Page) (p n : ℕ) (dst : ℕ → UInt8) (off : ℕ) : ℕ → UInt8 := fun j =>
  if off ≤ j ∧ j < off + n then page.byte (p + (j - off)) else dst j

/-- `copyin`; `off` is how far `dst` has moved. The result is with the buffer. -/
def copyinLoop (pagetable : ℕ) : ℕ → (ℕ → UInt8) → ℕ → ℕ → ℕ → Code (Int × (ℕ → UInt8))
  | 0, _, _, _, _ => outOfRounds
  | rounds + 1, dst, off, srcva, len =>
    if len > 0 then do
      let va0 := PGROUNDDOWN srcva
      let pa0 ← walkaddr pagetable va0
      if pa0 = 0 then
        pure (-1, dst)
      else do
        let n := min (PGSIZE - (srcva - va0)) len
        let page ← readPage pa0
        copyinLoop pagetable rounds (fetch page (srcva - va0) n dst off) (off + n)
          (wrap64 (va0 + PGSIZE)) (len - n)
    else
      pure (0, dst)

def copyin (pagetable : ℕ) (dst : ℕ → UInt8) (srcva len : ℕ) : Code (Int × (ℕ → UInt8)) :=
  copyinLoop pagetable MAXPAGES dst 0 srcva len

/-- The variables of `copyinstr`: the buffer and how far `dst` has moved, the bytes still
allowed, and whether the NUL was seen. -/
structure StrState where
  dst : ℕ → UInt8
  off : ℕ
  max : ℕ
  gotNull : Bool

/-- The inner loop of `copyinstr`: at most `n` bytes of a page from offset `p` on. -/
def strChunk (page : Page) : ℕ → ℕ → StrState → StrState
  | 0, _, s => s
  | n + 1, p, s =>
    if page.byte p = 0 then
      { s with dst := update s.dst s.off 0, gotNull := true }
    else
      strChunk page n (p + 1)
        { s with dst := update s.dst s.off (page.byte p), off := s.off + 1, max := s.max - 1 }

def copyinstrLoop (pagetable : ℕ) : ℕ → ℕ → StrState → Code (Int × (ℕ → UInt8))
  | 0, _, _ => outOfRounds
  | rounds + 1, srcva, s =>
    if s.gotNull = false ∧ s.max > 0 then do
      let va0 := PGROUNDDOWN srcva
      let pa0 ← walkaddr pagetable va0
      if pa0 = 0 then
        pure (-1, s.dst)
      else do
        let n := min (PGSIZE - (srcva - va0)) s.max
        let page ← readPage pa0
        copyinstrLoop pagetable rounds (wrap64 (va0 + PGSIZE)) (strChunk page n (srcva - va0) s)
    else
      pure (if s.gotNull then 0 else -1, s.dst)

def copyinstr (pagetable : ℕ) (dst : ℕ → UInt8) (srcva max : ℕ) : Code (Int × (ℕ → UInt8)) :=
  copyinstrLoop pagetable MAXPAGES srcva ⟨dst, 0, max, false⟩

/-! ### User memory, a byte at a time -/

section UserBytes

variable (look : ℕ → ℕ)

/-- There is a page for the address. -/
def Mapped (va : ℕ) : Prop := look (PGROUNDDOWN va) ≠ 0

/-- Where the byte at `va` is: the physical page and the offset. -/
def place (va : ℕ) : ℕ × ℕ := (look (PGROUNDDOWN va) / PGSIZE, va % PGSIZE)

def userByte (m : ℕ → Page) (va : ℕ) : UInt8 := (m (place look va).1).byte (place look va).2

/-- The byte at `va` is set. -/
def storeByte (m : ℕ → Page) (va : ℕ) (b : UInt8) : ℕ → Page :=
  update m (place look va).1 ((m (place look va).1).setByte (place look va).2 b)

/-- `n` bytes are stored one after another, from `va` on. -/
def storeBytes (va : ℕ) (src : ℕ → UInt8) : ℕ → (ℕ → Page) → (ℕ → Page)
  | 0, m => m
  | n + 1, m => storeByte look (storeBytes va src n m) (va + n) (src n)

/-- The first `n` bytes of a buffer from `off` on are those at `va`. -/
def loadBytes (m : ℕ → Page) (va n : ℕ) (dst : ℕ → UInt8) (off : ℕ) : ℕ → UInt8 := fun j =>
  if off ≤ j ∧ j < off + n then userByte look m (va + (j - off)) else dst j

/-- How far a copy of `len` bytes gets, and what it returns: all bytes are mapped and it
gets to the end, or it stops at the first one that is not. -/
def Reaches (va len k : ℕ) (r : Int) : Prop :=
  (∀ i < k, Mapped look (va + i)) ∧
    (r = 0 ∧ k = len ∨ r = -1 ∧ k < len ∧ ¬Mapped look (va + k))

end UserBytes

variable {look : ℕ → ℕ} {m : ℕ → Page} {va n k len off : ℕ} {src dst : ℕ → UInt8} {r : Int}

theorem storeBytes_add (va : ℕ) (src : ℕ → UInt8) (n k : ℕ) (m : ℕ → Page) :
    storeBytes look (va + n) (fun i => src (n + i)) k (storeBytes look va src n m) =
      storeBytes look va src (n + k) m := by
  induction k with
  | zero => rfl
  | succ k ih => rw [storeBytes, ih, ← Nat.add_assoc n k 1, storeBytes, Nat.add_assoc]

theorem loadBytes_add (m : ℕ → Page) (va n k : ℕ) (dst : ℕ → UInt8) (off : ℕ) :
    loadBytes look m (va + n) k (loadBytes look m va n dst off) (off + n) =
      loadBytes look m va (n + k) dst off := by
  funext j
  unfold loadBytes
  by_cases hj : off ≤ j ∧ j < off + (n + k)
  · rw [if_pos hj]
    by_cases hn : off + n ≤ j ∧ j < off + n + k
    · rw [if_pos hn, show va + n + (j - (off + n)) = va + (j - off) by omega]
    · rw [if_neg hn, if_pos (by omega)]
  · rw [if_neg hj, if_neg (by omega), if_neg (by omega)]

theorem loadBytes_zero (m : ℕ → Page) (va : ℕ) (dst : ℕ → UInt8) (off : ℕ) :
    loadBytes look m va 0 dst off = dst := by
  funext j
  exact if_neg (by omega)

theorem PGROUNDDOWN_add_of_lt (h : va % PGSIZE + n < PGSIZE) :
    PGROUNDDOWN (va + n) = PGROUNDDOWN va := by
  unfold PGROUNDDOWN PGSIZE at *
  omega

theorem sub_PGROUNDDOWN (va : ℕ) : va - PGROUNDDOWN va = va % PGSIZE := by
  unfold PGROUNDDOWN PGSIZE
  omega

/-- Bytes of one page lie next to each other. -/
theorem place_add (h : va % PGSIZE + n < PGSIZE) :
    place look (va + n) = (look (PGROUNDDOWN va) / PGSIZE, va % PGSIZE + n) := by
  unfold place
  rw [PGROUNDDOWN_add_of_lt h]
  congr 1
  unfold PGSIZE at *
  omega

/-- A chunk that fits into its page is stored by one `memmove`. -/
theorem storeBytes_chunk (m : ℕ → Page) (src : ℕ → UInt8) (hn : 0 < n)
    (hfit : va % PGSIZE + n ≤ PGSIZE) :
    storeBytes look va src n m = update m (look (PGROUNDDOWN va) / PGSIZE)
      ((m (look (PGROUNDDOWN va) / PGSIZE)).splice (va % PGSIZE) src n) := by
  induction n with
  | zero => exact absurd hn (Nat.lt_irrefl 0)
  | succ n ih =>
    rw [storeBytes, storeByte, place_add (by omega)]
    cases n with
    | zero => rw [storeBytes, Nat.add_zero, Page.setByte_eq_splice]
    | succ n =>
      rw [ih (Nat.succ_pos n) (by omega), update_self, Page.setByte_splice,
        update_idem]

theorem userByte_add (m : ℕ → Page) (h : va % PGSIZE + n < PGSIZE) :
    userByte look m (va + n) = (m (look (PGROUNDDOWN va) / PGSIZE)).byte (va % PGSIZE + n) := by
  rw [userByte, place_add h]

theorem fetch_eq_loadBytes (m : ℕ → Page) (dst : ℕ → UInt8) (off : ℕ)
    (hfit : va % PGSIZE + n ≤ PGSIZE) :
    fetch (m (look (PGROUNDDOWN va) / PGSIZE)) (va % PGSIZE) n dst off =
      loadBytes look m va n dst off := by
  funext j
  unfold fetch loadBytes
  by_cases hj : off ≤ j ∧ j < off + n
  · rw [if_pos hj, if_pos hj, userByte_add m (by omega)]
  · rw [if_neg hj, if_neg hj]

theorem mapped_of_chunk (h : Mapped look va) (hn : va % PGSIZE + n < PGSIZE) :
    Mapped look (va + n) := by
  unfold Mapped at *
  rwa [PGROUNDDOWN_add_of_lt hn]

theorem Reaches.zero : Reaches look va 0 0 0 := ⟨fun _ hi => absurd hi (Nat.not_lt_zero _), .inl ⟨rfl, rfl⟩⟩

/-- The first byte is not mapped. -/
theorem Reaches.stop (hlen : 0 < len) (h : ¬Mapped look va) : Reaches look va len 0 (-1) :=
  ⟨fun _ hi => absurd hi (Nat.not_lt_zero _), .inr ⟨rfl, hlen, h⟩⟩

/-- A chunk, and then the rest. -/
theorem Reaches.chunk (h : Mapped look va) (hfit : va % PGSIZE + n ≤ PGSIZE) (hn : n ≤ len)
    (hk : Reaches look (va + n) (len - n) k r) : Reaches look va len (n + k) r := by
  obtain ⟨hmapped, hend⟩ := hk
  refine ⟨fun i hi => ?_, ?_⟩
  · by_cases hin : i < n
    · exact mapped_of_chunk h (by omega)
    · have := hmapped (i - n) (by omega)
      rwa [show va + n + (i - n) = va + i by omega] at this
  · rcases hend with ⟨rfl, rfl⟩ | ⟨rfl, hlt, hno⟩
    · exact .inl ⟨rfl, by omega⟩
    · exact .inr ⟨rfl, by omega, by rwa [← Nat.add_assoc]⟩

/-- Where the next round starts, if there is one. -/
theorem next_chunk (hva : va < MAXVA) (hmore : 0 < len - min (PGSIZE - va % PGSIZE) len) :
    wrap64 (PGROUNDDOWN va + PGSIZE) = va + min (PGSIZE - va % PGSIZE) len := by
  have hM : MAXVA = 274877906944 := rfl
  have hmod : va % PGSIZE < PGSIZE := Nat.mod_lt va (by decide)
  have hsum : PGROUNDDOWN va + va % PGSIZE = va := Nat.div_add_mod' va PGSIZE
  have hP : PGSIZE = 4096 := rfl
  rw [wrap64_of_lt (by omega)]
  omega

/-! ### Specifications -/

/-- Rules under which user memory `m` can be read through the page table at `pagetable`:
`walkaddr` finds the page at `look va`. Addresses in `scope` are those that are used. -/
structure Access {L : Type} (R : Rules MemResp L) (pagetable : ℕ) (look : ℕ → ℕ)
    (scope : ℕ → Prop) (S : (ℕ → Page) → L → Prop) : Prop where
  high : ∀ {va}, MAXVA ≤ va → look va = 0
  walk : ∀ {m l va}, S m l → scope va →
    wp R (walkaddr pagetable va) (fun pa l' => pa = look va ∧ S m l') l
  read : ∀ {m l va}, S m l → scope va → look va ≠ 0 →
    wp R (readPage (look va)) (fun page l' => page = m (look va / PGSIZE) ∧ S m l') l

/-- Rules under which it can be written, too. -/
structure Writes {L : Type} (R : Rules MemResp L) (pagetable : ℕ) (look : ℕ → ℕ)
    (scope : ℕ → Prop) (S : (ℕ → Page) → L → Prop) : Prop extends
    Access R pagetable look scope S where
  write : ∀ {m l va f}, S m l → scope va → look va ≠ 0 →
    wp R (writePage (look va) f)
      (fun _ l' => S (update m (look va / PGSIZE) (f (m (look va / PGSIZE)))) l') l

variable {L : Type} {R : Rules MemResp L} {pagetable : ℕ} {scope : ℕ → Prop}
  {S : (ℕ → Page) → L → Prop} {l : L} {start rounds : ℕ}

theorem Access.lt_MAXVA (A : Access R pagetable look scope S) (h : look (PGROUNDDOWN va) ≠ 0) :
    va < MAXVA := by
  by_contra hge
  apply h
  apply A.high
  have hM : MAXVA = 274877906944 := rfl
  unfold PGROUNDDOWN PGSIZE
  omega

/-- The arithmetic of a round that finds its page. -/
structure Round (va len rounds : ℕ) : Prop where
  fit : va % PGSIZE + min (PGSIZE - va % PGSIZE) len ≤ PGSIZE
  pos : 0 < min (PGSIZE - va % PGSIZE) len
  left : 0 < rounds
  more : NVPN < wrap64 (PGROUNDDOWN va + PGSIZE) / PGSIZE + rounds

theorem Round.of_lt (hva : va < MAXVA) (hlen : 0 < len) (hmore : NVPN < va / PGSIZE + (rounds + 1)) :
    Round va len rounds := by
  have hM : MAXVA = 274877906944 := rfl
  have hP : PGSIZE = 4096 := rfl
  have hN : NVPN = 67108864 := rfl
  have hmod : va % PGSIZE < PGSIZE := Nat.mod_lt va (by decide)
  have hsum : PGROUNDDOWN va + va % PGSIZE = va := Nat.div_add_mod' va PGSIZE
  have hdiv : va / PGSIZE < NVPN := by
    unfold PGSIZE NVPN
    omega
  refine ⟨by omega, by omega, by omega, ?_⟩
  rw [wrap64_of_lt (by omega)]
  unfold PGROUNDDOWN PGSIZE at *
  omega

/-- The next round starts where this one ends, if there is anything left. -/
theorem Round.next (h : Round va len rounds) (hva : va < MAXVA)
    (hmore : 0 < len - min (PGSIZE - va % PGSIZE) len) :
    va + min (PGSIZE - va % PGSIZE) len = wrap64 (PGROUNDDOWN va + PGSIZE) ∧
      NVPN < (va + min (PGSIZE - va % PGSIZE) len) / PGSIZE + rounds :=
  have hnext := next_chunk hva hmore
  ⟨hnext.symm, hnext ▸ h.more⟩

theorem wp_copyoutLoop (A : Writes R pagetable look scope S) (hS : S m l)
    (hscope : ∀ i < len, scope (PGROUNDDOWN (va + i))) (hrounds : 0 < rounds)
    (hstart : 0 < len → va = start ∧ NVPN < va / PGSIZE + rounds) :
    wp R (copyoutLoop pagetable rounds start src len)
      (fun r l' => ∃ k, Reaches look va len k r ∧ S (storeBytes look va src k m) l') l := by
  induction rounds generalizing start va src len m l with
  | zero => exact absurd hrounds (Nat.lt_irrefl 0)
  | succ rounds ih =>
    unfold copyoutLoop
    split
    case isFalse hlen =>
      obtain rfl : len = 0 := by omega
      exact ⟨0, .zero, hS⟩
    case isTrue hlen =>
      obtain ⟨rfl, hmore⟩ := hstart hlen
      have hpage : scope (PGROUNDDOWN va) := hscope 0 hlen
      apply (A.walk hS hpage).bind
      rintro pa l₁ ⟨rfl, hS₁⟩
      split
      case isTrue hno => exact ⟨0, .stop hlen (not_not.mpr hno), hS₁⟩
      case isFalse hpa =>
        have hva := A.lt_MAXVA hpa
        have hround := Round.of_lt hva hlen hmore
        apply (A.write hS₁ hpage hpa).bind
        intro _ l₂ hS₂
        rw [sub_PGROUNDDOWN] at hS₂ ⊢
        set n := min (PGSIZE - va % PGSIZE) len
        rw [← storeBytes_chunk m src hround.pos hround.fit] at hS₂
        refine (ih hS₂ (fun i hi => ?_) hround.left (hround.next hva)).mono ?_
        · rw [Nat.add_assoc]
          exact hscope (n + i) (by omega)
        · rintro r l' ⟨k, hk, hS'⟩
          rw [storeBytes_add] at hS'
          exact ⟨n + k, hk.chunk hpa hround.fit (by omega), hS'⟩

/-- `copyout` stores the bytes one after another, up to the first that is not mapped. -/
theorem wp_copyout (A : Writes R pagetable look scope S) (hS : S m l)
    (hscope : ∀ i < len, scope (PGROUNDDOWN (va + i))) :
    wp R (copyout pagetable va src len)
      (fun r l' => ∃ k, Reaches look va len k r ∧ S (storeBytes look va src k m) l') l :=
  wp_copyoutLoop A hS hscope MAXPAGES_pos fun _ => ⟨rfl, NVPN_lt_add_MAXPAGES _⟩

theorem wp_copyinLoop (A : Access R pagetable look scope S) (hS : S m l)
    (hscope : ∀ i < len, scope (PGROUNDDOWN (va + i))) (hrounds : 0 < rounds)
    (hstart : 0 < len → va = start ∧ NVPN < va / PGSIZE + rounds) :
    wp R (copyinLoop pagetable rounds dst off start len)
      (fun x l' => S m l' ∧ ∃ k, Reaches look va len k x.1 ∧ x.2 = loadBytes look m va k dst off)
      l := by
  induction rounds generalizing start va dst off len l with
  | zero => exact absurd hrounds (Nat.lt_irrefl 0)
  | succ rounds ih =>
    unfold copyinLoop
    split
    case isFalse hlen =>
      obtain rfl : len = 0 := by omega
      exact ⟨hS, 0, .zero, (loadBytes_zero m va dst off).symm⟩
    case isTrue hlen =>
      obtain ⟨rfl, hmore⟩ := hstart hlen
      have hpage : scope (PGROUNDDOWN va) := hscope 0 hlen
      apply (A.walk hS hpage).bind
      rintro pa l₁ ⟨rfl, hS₁⟩
      split
      case isTrue hno =>
        exact ⟨hS₁, 0, .stop hlen (not_not.mpr hno), (loadBytes_zero m va dst off).symm⟩
      case isFalse hpa =>
        have hva := A.lt_MAXVA hpa
        have hround := Round.of_lt hva hlen hmore
        apply (A.read hS₁ hpage hpa).bind
        rintro page l₂ ⟨rfl, hS₂⟩
        rw [sub_PGROUNDDOWN]
        set n := min (PGSIZE - va % PGSIZE) len
        rw [fetch_eq_loadBytes m dst off hround.fit]
        refine (ih hS₂ (fun i hi => ?_) hround.left (hround.next hva)).mono ?_
        · rw [Nat.add_assoc]
          exact hscope (n + i) (by omega)
        · rintro ⟨r, buf⟩ l' ⟨hS', k, hk, hbuf⟩
          rw [loadBytes_add] at hbuf
          exact ⟨hS', n + k, hk.chunk hpa hround.fit (by omega), hbuf⟩

/-- `copyin` fetches the bytes, up to the first that is not mapped. -/
theorem wp_copyin (A : Access R pagetable look scope S) (hS : S m l)
    (hscope : ∀ i < len, scope (PGROUNDDOWN (va + i))) :
    wp R (copyin pagetable dst va len)
      (fun x l' => S m l' ∧ ∃ k, Reaches look va len k x.1 ∧ x.2 = loadBytes look m va k dst 0) l :=
  wp_copyinLoop A hS hscope MAXPAGES_pos fun _ => ⟨rfl, NVPN_lt_add_MAXPAGES _⟩

/-! ### copyinstr -/

/-- The first `k` bytes are mapped and none of them is NUL. -/
def Plain (look : ℕ → ℕ) (m : ℕ → Page) (va k : ℕ) : Prop :=
  ∀ i < k, Mapped look (va + i) ∧ userByte look m (va + i) ≠ 0

/-- How `copyinstr` ends: with the first NUL, at a byte that is not mapped, or after `max`
bytes. -/
def Ends (look : ℕ → ℕ) (m : ℕ → Page) (va max : ℕ) (dst : ℕ → UInt8) (off : ℕ) (r : Int)
    (buf : ℕ → UInt8) : Prop :=
  ∃ k, Plain look m va k ∧
    (r = 0 ∧ k < max ∧ Mapped look (va + k) ∧ userByte look m (va + k) = 0 ∧
        buf = loadBytes look m va (k + 1) dst off ∨
      r = -1 ∧ buf = loadBytes look m va k dst off ∧
        (k = max ∨ k < max ∧ ¬Mapped look (va + k)))

theorem loadBytes_one (m : ℕ → Page) (va : ℕ) (dst : ℕ → UInt8) (off : ℕ) :
    loadBytes look m va 1 dst off = update dst off (userByte look m va) := by
  funext j
  unfold loadBytes
  by_cases hj : j = off
  · subst hj
    rw [if_pos (by omega), Nat.sub_self, Nat.add_zero, update_self]
  · rw [if_neg (by omega), update_of_ne hj]

theorem Plain.zero : Plain look m va 0 := fun _ hi => absurd hi (Nat.not_lt_zero _)

theorem Plain.add (hn : Plain look m va n) (hk : Plain look m (va + n) k) :
    Plain look m va (n + k) := by
  intro i hi
  by_cases hin : i < n
  · exact hn i hin
  · have := hk (i - n) (by omega)
    rwa [show va + n + (i - n) = va + i by omega] at this

/-- The inner loop stops at the first NUL of its chunk, or takes the whole chunk. -/
theorem strChunk_eq {page : Page} {p : ℕ} {s : StrState}
    (hpage : ∀ i < n, Mapped look (va + i) ∧ userByte look m (va + i) = page.byte (p + i))
    (hgot : s.gotNull = false) :
    (∃ k < n, Plain look m va k ∧ Mapped look (va + k) ∧ userByte look m (va + k) = 0 ∧
      (strChunk page n p s).gotNull = true ∧
      (strChunk page n p s).dst = loadBytes look m va (k + 1) s.dst s.off) ∨
    (Plain look m va n ∧
      strChunk page n p s = ⟨loadBytes look m va n s.dst s.off, s.off + n, s.max - n, false⟩) := by
  induction n generalizing va p s with
  | zero =>
    refine .inr ⟨.zero, ?_⟩
    rw [loadBytes_zero, Nat.add_zero, Nat.sub_zero, ← hgot]
    rfl
  | succ n ih =>
    obtain ⟨hmapped, hbyte⟩ := hpage 0 (Nat.succ_pos n)
    rw [Nat.add_zero, Nat.add_zero] at hbyte
    unfold strChunk
    split
    case isTrue hnul =>
      refine .inl ⟨0, Nat.succ_pos n, .zero, hmapped, hbyte.trans hnul, rfl, ?_⟩
      rw [loadBytes_one, hbyte, hnul]
    case isFalse hne =>
      have hplain : Plain look m va 1 := by
        intro i hi
        obtain rfl : i = 0 := by omega
        exact ⟨hmapped, fun h0 => hne (hbyte ▸ h0)⟩
      have hrest : ∀ i < n, Mapped look (va + 1 + i) ∧
          userByte look m (va + 1 + i) = page.byte (p + 1 + i) := by
        intro i hi
        have := hpage (1 + i) (by omega)
        rwa [← Nat.add_assoc, ← Nat.add_assoc] at this
      rw [← hbyte, ← loadBytes_one]
      rcases ih (s := ⟨loadBytes look m va 1 s.dst s.off, s.off + 1, s.max - 1, s.gotNull⟩)
        hrest hgot with ⟨k, hk, hp, hm, h0, hg, hd⟩ | ⟨hp, heq⟩
      · rw [loadBytes_add] at hd
        refine .inl ⟨1 + k, by omega, hplain.add hp, ?_, ?_, hg, ?_⟩
        · rwa [← Nat.add_assoc]
        · rwa [← Nat.add_assoc]
        · rw [hd, Nat.add_assoc]
      · refine .inr ⟨Nat.add_comm 1 n ▸ hplain.add hp, ?_⟩
        rw [heq, loadBytes_add, Nat.sub_sub, Nat.add_comm n 1, Nat.add_assoc]

theorem Ends.stop {max : ℕ} (hmax : 0 < max) (h : ¬Mapped look va) :
    Ends look m va max dst off (-1) dst :=
  ⟨0, .zero, .inr ⟨rfl, (loadBytes_zero m va dst off).symm, .inr ⟨hmax, h⟩⟩⟩

/-- A chunk without NUL, and then the rest. -/
theorem Ends.chunk {max : ℕ} {buf : ℕ → UInt8} (hplain : Plain look m va n) (hn : n ≤ max)
    (h : Ends look m (va + n) (max - n) (loadBytes look m va n dst off) (off + n) r buf) :
    Ends look m va max dst off r buf := by
  obtain ⟨k, hk, hend⟩ := h
  refine ⟨n + k, hplain.add hk, ?_⟩
  rcases hend with ⟨hr, hlt, hm, h0, hbuf⟩ | ⟨hr, hbuf, hend⟩
  · refine .inl ⟨hr, by omega, ?_, ?_, ?_⟩
    · rwa [← Nat.add_assoc]
    · rwa [← Nat.add_assoc]
    · rw [hbuf, loadBytes_add, Nat.add_assoc]
  · refine .inr ⟨hr, by rw [hbuf, loadBytes_add], ?_⟩
    rcases hend with rfl | ⟨hlt, hno⟩
    · exact .inl (by omega)
    · exact .inr ⟨by omega, by rwa [← Nat.add_assoc]⟩

theorem wp_copyinstrLoop (A : Access R pagetable look scope S) {s : StrState} (hS : S m l)
    (hgot : s.gotNull = false) (hscope : ∀ i < s.max, scope (PGROUNDDOWN (va + i)))
    (hrounds : 0 < rounds) (hstart : 0 < s.max → va = start ∧ NVPN < va / PGSIZE + rounds) :
    wp R (copyinstrLoop pagetable rounds start s)
      (fun x l' => S m l' ∧ Ends look m va s.max s.dst s.off x.1 x.2) l := by
  induction rounds generalizing start va s l with
  | zero => exact absurd hrounds (Nat.lt_irrefl 0)
  | succ rounds ih =>
    unfold copyinstrLoop
    split
    case isFalse hmax =>
      have hzero : s.max = 0 := by
        by_contra h0
        exact hmax ⟨hgot, Nat.pos_of_ne_zero h0⟩
      rw [hzero, hgot]
      exact ⟨hS, 0, .zero, .inr ⟨rfl, (loadBytes_zero m va s.dst s.off).symm, .inl rfl⟩⟩
    case isTrue hmax =>
      obtain ⟨rfl, hmore⟩ := hstart hmax.2
      have hpage : scope (PGROUNDDOWN va) := hscope 0 hmax.2
      apply (A.walk hS hpage).bind
      rintro pa l₁ ⟨rfl, hS₁⟩
      split
      case isTrue hno => exact ⟨hS₁, .stop hmax.2 (not_not.mpr hno)⟩
      case isFalse hpa =>
        have hva := A.lt_MAXVA hpa
        have hround := Round.of_lt hva hmax.2 hmore
        apply (A.read hS₁ hpage hpa).bind
        rintro page l₂ ⟨rfl, hS₂⟩
        rw [sub_PGROUNDDOWN]
        set n := min (PGSIZE - va % PGSIZE) s.max
        have hchunk : ∀ i < n, Mapped look (va + i) ∧ userByte look m (va + i) =
            (m (look (PGROUNDDOWN va) / PGSIZE)).byte (va % PGSIZE + i) := fun i hi =>
          ⟨mapped_of_chunk hpa (by have := hround.fit; omega),
            userByte_add m (by have := hround.fit; omega)⟩
        rcases strChunk_eq hchunk hgot with ⟨k, hk, hp, hm, h0, hg, hd⟩ | ⟨hp, heq⟩
        · -- the NUL was found: the next round only returns
          obtain ⟨rounds, rfl⟩ := Nat.exists_eq_succ_of_ne_zero hround.left.ne'
          unfold copyinstrLoop
          rw [if_neg (by rw [hg]; exact fun h => absurd h.1 (by decide)), hg]
          exact ⟨hS₂, k, hp, .inl ⟨rfl, by omega, hm, h0, hd⟩⟩
        · rw [heq]
          refine (ih hS₂ rfl (fun i hi => ?_) hround.left (hround.next hva)).mono ?_
          · rw [Nat.add_assoc]
            exact hscope (n + i) (by dsimp only at hi; omega)
          · rintro ⟨r, buf⟩ l' ⟨hS', hend⟩
            exact ⟨hS', hend.chunk hp (by omega)⟩

/-- `copyinstr` ends with the first NUL, at a byte that is not mapped, or after `max` bytes. -/
theorem wp_copyinstr (A : Access R pagetable look scope S) {max : ℕ} (hS : S m l)
    (hscope : ∀ i < max, scope (PGROUNDDOWN (va + i))) :
    wp R (copyinstr pagetable dst va max)
      (fun x l' => S m l' ∧ Ends look m va max dst 0 x.1 x.2) l :=
  wp_copyinstrLoop A hS rfl hscope MAXPAGES_pos fun _ => ⟨rfl, NVPN_lt_add_MAXPAGES _⟩

end Xv6.Vm
