import Xv6.Buffers.Model
import Xv6.Lib.Digits

/-!
Numbers, bits and inodes in the bytes of a block.

Reading what has been stored gives it back, and what does not overlap stays: for numbers
of any width (`number_setNumber`), for the bits of the bitmap (`bit_setBit`) and for the
fields of a `struct dinode` (`decodeInode_encodeInode`).
-/

namespace Xv6.Buffers

namespace Block

variable {d d' : Block} {off off' o w n : ℕ} {bytes : List UInt8}

/-! ### Bytes -/

theorem byte_of_lt (d : Block) (h : o < BSIZE) : d.byte o = d ⟨o, h⟩ := dif_pos h

theorem byte_of_le (d : Block) (h : BSIZE ≤ o) : d.byte o = 0 := dif_neg (by omega)

theorem byte_splice (h : off ≤ o) (h' : o < off + bytes.length) (hsize : o < BSIZE) :
    (d.splice off bytes).byte o = bytes.getD (o - off) 0 := by
  rw [byte_of_lt _ hsize, splice, if_pos ⟨h, h'⟩]

theorem byte_splice_of_not (h : o < off ∨ off + bytes.length ≤ o) :
    (d.splice off bytes).byte o = d.byte o := by
  by_cases hsize : o < BSIZE
  · rw [byte_of_lt _ hsize, byte_of_lt _ hsize, splice, if_neg (by dsimp only; omega)]
  · rw [byte_of_le _ (by omega), byte_of_le _ (by omega)]

/-! ### Numbers -/

theorem number_congr (h : ∀ i < w, d.byte (off + i) = d'.byte (off' + i)) :
    d.number off w = d'.number off' w := Digits.number_congr h

theorem number_of_bytes (h : ∀ i < w, d.byte (off + i) = UInt8.ofNat (n / 256 ^ i)) :
    d.number off w = n % 256 ^ w := (Digits.number_congr h).trans (Digits.number_byte n w)

theorem byte_setNumber {i : ℕ} (hi : i < w) (hsize : off + w ≤ BSIZE) :
    (d.setNumber off w n).byte (off + i) = UInt8.ofNat (n / 256 ^ i) := by
  unfold setNumber
  rw [byte_splice (Nat.le_add_right _ _) (by simpa using hi) (by omega), Nat.add_sub_cancel_left,
    List.getD_eq_getElem _ _ (by simpa using hi)]
  simp

/-- **Reading a stored number.** -/
theorem number_setNumber (hn : n < 256 ^ w) (hsize : off + w ≤ BSIZE) :
    (d.setNumber off w n).number off w = n := by
  rw [number_of_bytes fun i hi => byte_setNumber hi hsize, Nat.mod_eq_of_lt hn]

theorem byte_setNumber_of_not (h : o < off ∨ off + w ≤ o) :
    (d.setNumber off w n).byte o = d.byte o :=
  byte_splice_of_not (by simpa using h)

theorem number_setNumber_of_not {w' : ℕ} (h : off' + w' ≤ off ∨ off + w ≤ off') :
    (d.setNumber off w n).number off' w' = d.number off' w' := by
  apply number_congr
  intro i hi
  exact byte_setNumber_of_not (by omega)

/-- A number fits into its bytes. -/
theorem number_lt (d : Block) (off w : ℕ) : d.number off w < 256 ^ w := Digits.number_lt _ w

@[simp] theorem byte_zero (o : ℕ) : zero.byte o = 0 := by
  unfold byte
  split <;> rfl

@[simp] theorem number_zero (off w : ℕ) : zero.number off w = 0 := by
  unfold number
  simp only [byte_zero]
  induction List.range w with
  | nil => rfl
  | cons i l ih => rw [List.foldr_cons, ih, UInt8.toNat_zero]

/-! ### Bits -/

/-- **Setting a bit.** -/
theorem bit_setBit {bi bj : ℕ} (h : bi < BPB) : (d.setBit bi).bit bj = (d.bit bj || decide (bi = bj)) := by
  have hsize : bi / 8 < BSIZE := by
    unfold BPB at h
    omega
  unfold bit setBit
  by_cases hbyte : bj / 8 = bi / 8
  · rw [byte_splice (by omega) (by simp [hbyte]) (by omega), hbyte, Nat.sub_self]
    have hpow : 2 ^ (bi % 8) < 256 := Nat.pow_lt_pow_right (by decide) (Nat.mod_lt bi (by decide))
    have hsame : bi = bj ↔ bi % 8 = bj % 8 := by omega
    simp only [List.getD_cons_zero, UInt8.toNat_or, UInt8.toNat_ofNat', Nat.mod_eq_of_lt hpow,
      Nat.testBit_or, Nat.testBit_two_pow, hsame]
  · have hne : bi ≠ bj := fun h => hbyte (by rw [h])
    rw [byte_splice_of_not (by simp only [List.length_singleton]; omega)]
    simp [hne]

@[simp] theorem bit_zero (bi : ℕ) : zero.bit bi = false := by
  unfold bit byte
  split <;> simp [zero]

end Block

/-! ### Inodes -/

/-- The fields fit into a `struct dinode`. -/
structure Inode.Fits (ip : Inode) : Prop where
  type : ip.type < 256 ^ 2
  major : ip.major < 256 ^ 2
  minor : ip.minor < 256 ^ 2
  nlink : ip.nlink < 256 ^ 2
  size : ip.size < 256 ^ 4
  addrs : ∀ k, ip.addrs k < 256 ^ 4

variable {d : Block} {ip : Inode} {inum off o w : ℕ}

theorem decodeInode_fits (inum off : ℕ) (d : Block) : (decodeInode inum off d).Fits where
  type := d.number_lt ..
  major := d.number_lt ..
  minor := d.number_lt ..
  nlink := d.number_lt ..
  size := d.number_lt ..
  addrs _ := d.number_lt ..

/-- What the loop of `iupdate` over the addresses stores. -/
theorem number_foldl_addrs (d : Block) (off m : ℕ) (f : ℕ → ℕ) (hf : ∀ k, f k < 256 ^ 4)
    (hsize : off + 4 * m ≤ BSIZE) :
    (∀ o, o < off ∨ off + 4 * m ≤ o →
      ((List.range m).foldl (fun d i => d.setNumber (off + 4 * i) 4 (f i)) d).byte o = d.byte o) ∧
    ∀ k < m, ((List.range m).foldl (fun d i => d.setNumber (off + 4 * i) 4 (f i)) d).number
      (off + 4 * k) 4 = f k := by
  induction m with
  | zero => exact ⟨fun _ _ => rfl, fun k hk => absurd hk (Nat.not_lt_zero k)⟩
  | succ m ih =>
    obtain ⟨hbyte, hnumber⟩ := ih (by omega)
    rw [List.range_succ, List.foldl_append]
    constructor
    · intro o ho
      exact (Block.byte_setNumber_of_not (by omega)).trans (hbyte o (by omega))
    · intro k hk
      rcases Nat.lt_succ_iff_lt_or_eq.mp hk with hlt | rfl
      · exact (Block.number_setNumber_of_not (by omega)).trans (hnumber k hlt)
      · exact Block.number_setNumber (hf k) (by omega)

/-- Outside of the inode, the block stays. -/
theorem byte_encodeInode_of_not (h : o < off ∨ off + DINODE ≤ o) (hsize : off + DINODE ≤ BSIZE)
    (hf : ip.Fits) : (encodeInode ip off d).byte o = d.byte o := by
  unfold DINODE at h hsize
  have haddrs : off + 12 + 4 * (NDIRECT + 1) = off + 64 := rfl
  unfold encodeInode
  rw [(number_foldl_addrs _ (off + 12) (NDIRECT + 1) ip.addrs hf.addrs (by omega)).1 o (by omega)]
  rw [Block.byte_setNumber_of_not (by omega), Block.byte_setNumber_of_not (by omega),
    Block.byte_setNumber_of_not (by omega), Block.byte_setNumber_of_not (by omega),
    Block.byte_setNumber_of_not (by omega)]

theorem number_encodeInode_of_not (h : o + w ≤ off ∨ off + DINODE ≤ o) (hsize : off + DINODE ≤ BSIZE)
    (hf : ip.Fits) : (encodeInode ip off d).number o w = d.number o w := by
  apply Block.number_congr
  intro i hi
  exact byte_encodeInode_of_not (by omega) hsize hf

/-- Equality of inodes, as far as they are kept on disk. -/
structure Inode.Same (ip jp : Inode) : Prop where
  type : ip.type = jp.type
  major : ip.major = jp.major
  minor : ip.minor = jp.minor
  nlink : ip.nlink = jp.nlink
  size : ip.size = jp.size
  addrs : ∀ k ≤ NDIRECT, ip.addrs k = jp.addrs k

/-- **Reading a stored inode.** -/
theorem decodeInode_encodeInode (hf : ip.Fits) (hsize : off + DINODE ≤ BSIZE) :
    (decodeInode inum off (encodeInode ip off d)).Same ip := by
  unfold DINODE at hsize
  have hlen : off + 12 + 4 * (NDIRECT + 1) = off + 64 := rfl
  have hloop := fun d =>
    number_foldl_addrs d (off + 12) (NDIRECT + 1) ip.addrs hf.addrs (by omega)
  -- A field before the addresses is not changed by the loop.
  have hbefore : ∀ {d : Block} {o w : ℕ}, o + w ≤ off + 12 →
      ((List.range (NDIRECT + 1)).foldl
        (fun d i => d.setNumber (off + 12 + 4 * i) 4 (ip.addrs i)) d).number o w = d.number o w := by
    intro d o w ho
    apply Block.number_congr
    intro i hi
    exact (hloop d).1 _ (by omega)
  constructor
  case addrs =>
    intro k hk
    simp only [decodeInode, encodeInode]
    exact (hloop _).2 k (by omega)
  all_goals
    simp only [decodeInode, encodeInode]
    rw [hbefore (by omega)]
  case size => exact Block.number_setNumber hf.size (by omega)
  case nlink =>
    rw [Block.number_setNumber_of_not (by omega)]
    exact Block.number_setNumber hf.nlink (by omega)
  case minor =>
    rw [Block.number_setNumber_of_not (by omega), Block.number_setNumber_of_not (by omega)]
    exact Block.number_setNumber hf.minor (by omega)
  case major =>
    rw [Block.number_setNumber_of_not (by omega), Block.number_setNumber_of_not (by omega),
      Block.number_setNumber_of_not (by omega)]
    exact Block.number_setNumber hf.major (by omega)
  case type =>
    rw [Block.number_setNumber_of_not (by omega), Block.number_setNumber_of_not (by omega),
      Block.number_setNumber_of_not (by omega), Block.number_setNumber_of_not (by omega)]
    exact Block.number_setNumber hf.type (by omega)

/-- Another inode of the block stays. -/
theorem decodeInode_encodeInode_of_not {off' : ℕ} (h : off' + DINODE ≤ off ∨ off + DINODE ≤ off')
    (hsize : off + DINODE ≤ BSIZE) (hf : ip.Fits) :
    (decodeInode inum off' (encodeInode ip off d)).Same (decodeInode inum off' d) := by
  unfold DINODE at h
  constructor
  case addrs =>
    intro k hk
    have : NDIRECT = 12 := rfl
    exact number_encodeInode_of_not (by unfold DINODE; omega) hsize hf
  all_goals exact number_encodeInode_of_not (by unfold DINODE; omega) hsize hf

end Xv6.Buffers
