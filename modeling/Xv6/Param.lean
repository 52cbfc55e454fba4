import Mathlib.Algebra.Ring.Nat

/-!
# Xv6.Param

The constants of `param.h`, `memlayout.h`, `fcntl.h`, `stat.h`, `file.h` and `fs.h`
that the models use, with the build's `LS_EXEC`, `BAGIAN_UPROC` and `BAGIAN_INODE` defined.
-/

namespace Xv6

/-! ## param.h -/

/-- Most blocks one file-system operation writes. -/
def MAXOPBLOCKS : Nat := 10

/-- Most data blocks in the on-disk log. -/
def LOGSIZE : Nat := MAXOPBLOCKS * 3

/-- Open files of a process. -/
def NOFILE : Nat := 16

/-- Entries of the inode cache. -/
def NINODE : Nat := 50

/-- Entries of the device table. -/
def NDEV : Nat := 10

/-- Blocks of the file system. -/
def FSSIZE : Nat := 2000

/-- Owner of the first process. -/
def UID : UInt32 := 0

def GID : UInt32 := 0

/-- Ticks from one promotion to the next. -/
def TIME_TO_PROMOTE : UInt32 := 270

/-- Ticks a process may run before it is demoted. -/
def BUDGET : Int32 := 120

/-- Owner, group and mode of a new inode. -/
def DEFAULT_UID : UInt32 := 0

def DEFAULT_GID : UInt32 := 0

def DEFAULT_MODE : UInt32 := 0o755

/-- Device number of the file system's root disk. -/
def ROOTDEV : UInt32 := 1

/-! ## memlayout.h -/

/-- First kernel virtual address. -/
def KERNBASE : Nat := 0x80000000

/-! ## file.h -/

/-- Major number of the console. -/
def CONSOLE : Nat := 1

/-! ## fcntl.h -/

def O_RDONLY : UInt32 := 0x000

def O_WRONLY : UInt32 := 0x001

def O_CREATE : UInt32 := 0x200

/-! ## stat.h -/

/-- Directory. -/
def T_DIR : Int16 := 1

/-- File. -/
def T_FILE : Int16 := 2

/-- Device. -/
def T_DEV : Int16 := 3

/-! ## fs.h -/

/-- Inode number of the root directory. -/
def ROOTINO : Nat := 1

/-- Bytes in a block. -/
def BSIZE : Nat := 512

/-- The contents of a disk block. -/
abbrev Block : Type := Fin BSIZE → UInt8

/-- Direct block addresses of an inode. -/
abbrev NDIRECT : Nat := 25

/-- Block addresses in an indirect block. -/
abbrev NINDIRECT : Nat := BSIZE / 4

/-- Blocks of the largest file. -/
abbrev MAXFILE : Nat := NDIRECT + NINDIRECT

/-- Inodes per block; an on-disk inode has 128 bytes. -/
abbrev IPB : Nat := BSIZE / 128

/-- Bitmap bits per block. -/
abbrev BPB : Nat := BSIZE * 8

/-- Bytes of a name in a directory entry. -/
abbrev DIRSIZ : Nat := 14

/-! ## small tables -/

instance neZero_one : NeZero 1 := ⟨by decide⟩

instance neZero_two : NeZero 2 := ⟨by decide⟩

instance neZero_three : NeZero 3 := ⟨by decide⟩

end Xv6
