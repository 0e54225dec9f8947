import Mathlib.Data.Nat.Notation

/-!
The kernel's compile-time constants (`kernel/param.h`, `kernel/fs.h`) and the
geometry `mkfs/mkfs.c` writes into the superblock. Everything else in the
development refers to these names, so a change of a constant is a change here.
-/

namespace Xv6

/-! ### `kernel/param.h` -/

/-- Maximum number of processes. -/
def NPROC : ℕ := 64

theorem one_lt_NPROC : 1 < NPROC := Nat.succ_lt_succ (Nat.zero_lt_succ _)

theorem NPROC_pos : 0 < NPROC := Nat.lt_trans Nat.zero_lt_one one_lt_NPROC

/-- Maximum number of blocks any file system operation writes. -/
def MAXOPBLOCKS : ℕ := 10

/-- Maximum number of data blocks in the on-disk log. -/
def LOGSIZE : ℕ := MAXOPBLOCKS * 3

/-- Open files per process. -/
def NOFILE : ℕ := 16

/-- Open files per system. -/
def NFILE : ℕ := 100

/-- Maximum number of active inodes. -/
def NINODE : ℕ := 50

/-- Maximum major device number. -/
def NDEV : ℕ := 10

/-- Size of the file system in blocks. -/
def FSSIZE : ℕ := 2000

/-! ### `kernel/fs.h` -/

/-- Root inode number. -/
def ROOTINO : ℕ := 1

/-- Block size. -/
def BSIZE : ℕ := 1024

/-- Direct block addresses of an inode. -/
def NDIRECT : ℕ := 12

/-- Block addresses in an indirect block: `BSIZE / sizeof(uint)`. -/
def NINDIRECT : ℕ := BSIZE / 4

/-- Maximum file size in blocks. -/
def MAXFILE : ℕ := NDIRECT + NINDIRECT

def FSMAGIC : ℕ := 0x10203040

/-- Length of a directory entry's name. -/
def DIRSIZ : ℕ := 14

/-- `sizeof(struct dirent)`: a `ushort` and the name. -/
def direntSize : ℕ := 2 + DIRSIZ

/-! ### `mkfs/mkfs.c` -/

/-- Number of log blocks (header included) that `mkfs` stores in `sb.nlog`. -/
def nlog : ℕ := LOGSIZE

/-- First log block, `sb.logstart`: after the boot block and the superblock. -/
def logstart : ℕ := 2

def NINODES : ℕ := 200

end Xv6
