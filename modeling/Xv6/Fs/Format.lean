import Xv6.Param
import Xv6.Lib.Words

/-!
# Xv6.Fs.Format

The on-disk structures of `fs.h`, as the kernel reads and writes them through
a pointer into a block.

```
super block   uint size, nblocks, ninodes, nlog, logstart, inodestart, bmapstart
inode (128)   short type, major, minor, nlink; uint uid, gid, mode, size, addrs[NDIRECT+1]
dirent (16)   ushort inum; char name[DIRSIZ]
```

`getDinode_putDinode` and `getDinode_putDinode_of_ne` are all that is used of
the layout of inodes: a stored inode is read back, and the other inodes of the
block are as before.
-/

namespace Xv6.Fs

open Words

/-! ## the super block -/

structure Superblock where
  size : Nat
  nblocks : Nat
  ninodes : Nat
  nlog : Nat
  logstart : Nat
  inodestart : Nat
  bmapstart : Nat
deriving DecidableEq

/-- The `struct superblock` at the start of a block. -/
def getSuper (b : Block) : Superblock where
  size := le32 b 0
  nblocks := le32 b 4
  ninodes := le32 b 8
  nlog := le32 b 12
  logstart := le32 b 16
  inodestart := le32 b 20
  bmapstart := le32 b 24

/-- Block containing inode `i`. -/
def IBLOCK (i : Nat) (sb : Superblock) : Nat := i / IPB + sb.inodestart

/-- Block of the free map containing the bit for block `b`. -/
def BBLOCK (b : Nat) (sb : Superblock) : Nat := b / BPB + sb.bmapstart

/-! ## inodes -/

/-- `struct dinode`; the in-memory inode has a copy of the same fields. -/
structure Dinode where
  type : Int16
  major : Int16
  minor : Int16
  nlink : Int16
  uid : UInt32
  gid : UInt32
  mode : UInt32
  size : UInt32
  addrs : Fin (NDIRECT + 1) → UInt32

/-- `addrs[k]`. -/
def Dinode.addr (d : Dinode) (k : Nat) : UInt32 :=
  if h : k < NDIRECT + 1 then d.addrs ⟨k, h⟩ else 0

/-- `addrs[k] = v`. -/
def Dinode.setAddr (d : Dinode) (k : Nat) (v : UInt32) : Dinode :=
  { d with addrs := fun j => if j.val = k then v else d.addrs j }

theorem Dinode.addr_setAddr_self (d : Dinode) {k : Nat} (hk : k ≤ NDIRECT) (v : UInt32) :
    (d.setAddr k v).addr k = v := by
  simp [Dinode.addr, Dinode.setAddr, Nat.lt_succ_of_le hk]

theorem Dinode.addr_setAddr_of_ne (d : Dinode) {j k : Nat} (h : j ≠ k) (v : UInt32) :
    (d.setAddr k v).addr j = d.addr j := by
  unfold Dinode.addr
  split
  · simp [Dinode.setAddr, h]
  · rfl

/-- The inode that `ialloc` stores: all bytes zero but the type and the
defaults. -/
def Dinode.fresh (type : Int16) : Dinode where
  type := type
  major := 0
  minor := 0
  nlink := 0
  uid := DEFAULT_UID
  gid := DEFAULT_GID
  mode := DEFAULT_MODE
  size := 0
  addrs := fun _ => 0

/-- The `short` at byte offset `off`. -/
def getShort (b : Block) (off : Nat) : Int16 := (UInt16.ofNat (le16 b off)).toInt16

def putShort (b : Block) (off : Nat) (v : Int16) : Block := putLe16 b off v.toUInt16.toNat

/-- The `uint` at byte offset `off`. -/
def getUint (b : Block) (off : Nat) : UInt32 := UInt32.ofNat (le32 b off)

def putUint (b : Block) (off : Nat) (v : UInt32) : Block := putLe32 b off v.toNat

/-- Inode number `k` of an inode block. -/
def getDinode (b : Block) (k : Nat) : Dinode where
  type := getShort b (128 * k)
  major := getShort b (128 * k + 2)
  minor := getShort b (128 * k + 4)
  nlink := getShort b (128 * k + 6)
  uid := getUint b (128 * k + 8)
  gid := getUint b (128 * k + 12)
  mode := getUint b (128 * k + 16)
  size := getUint b (128 * k + 20)
  addrs := fun j => getUint b (128 * k + 24 + 4 * j.val)

/-- Store inode number `k` of an inode block, field by field and then the
addresses by `memmove`. -/
def putDinode (b : Block) (k : Nat) (d : Dinode) : Block :=
  let b := putShort b (128 * k) d.type
  let b := putShort b (128 * k + 2) d.major
  let b := putShort b (128 * k + 4) d.minor
  let b := putShort b (128 * k + 6) d.nlink
  let b := putUint b (128 * k + 8) d.uid
  let b := putUint b (128 * k + 12) d.gid
  let b := putUint b (128 * k + 16) d.mode
  let b := putUint b (128 * k + 20) d.size
  store b (128 * k + 24) (image fun j => (d.addr j).toNat) (4 * (NDIRECT + 1))

theorem getShort_putShort (b : Block) {off : Nat} (h : off + 2 ≤ BSIZE) (v : Int16) :
    getShort (putShort b off v) off = v := by
  rw [getShort, putShort, le16_putLe16 b h, Nat.mod_eq_of_lt v.toUInt16.toNat_lt,
    UInt16.ofNat_toNat, Int16.toInt16_toUInt16]

theorem getUint_putUint (b : Block) {off : Nat} (h : off + 4 ≤ BSIZE) (v : UInt32) :
    getUint (putUint b off v) off = v := by
  rw [getUint, putUint, le32_putLe32 b h, Nat.mod_eq_of_lt v.toNat_lt, UInt32.ofNat_toNat]

theorem getShort_putShort_of_disjoint (b : Block) {off off' : Nat} {v : Int16}
    (h : off' + 2 ≤ off ∨ off + 2 ≤ off') : getShort (putShort b off v) off' = getShort b off' := by
  rw [getShort, putShort, le16_putLe16_of_disjoint b h, getShort]

theorem getShort_putUint_of_disjoint (b : Block) {off off' : Nat} {v : UInt32}
    (h : off' + 2 ≤ off ∨ off + 4 ≤ off') : getShort (putUint b off v) off' = getShort b off' := by
  rw [getShort, putUint, le16_putLe32_of_disjoint b h, getShort]

theorem getShort_store_of_disjoint (b : Block) {off off' m : Nat} {src : Nat → UInt8}
    (h : off' + 2 ≤ off ∨ off + m ≤ off') : getShort (store b off src m) off' = getShort b off' := by
  rw [getShort, le16_store_of_disjoint b src h, getShort]

theorem getUint_putUint_of_disjoint (b : Block) {off off' : Nat} {v : UInt32}
    (h : off' + 4 ≤ off ∨ off + 4 ≤ off') : getUint (putUint b off v) off' = getUint b off' := by
  rw [getUint, putUint, le32_putLe32_of_disjoint b h, getUint]

theorem getUint_store_of_disjoint (b : Block) {off off' m : Nat} {src : Nat → UInt8}
    (h : off' + 4 ≤ off ∨ off + m ≤ off') : getUint (store b off src m) off' = getUint b off' := by
  rw [getUint, le32_store_of_disjoint b src h, getUint]

/-- **A stored inode is read back.** -/
theorem getDinode_putDinode (b : Block) {k : Nat} (hk : k < IPB) (d : Dinode) :
    getDinode (putDinode b k d) k = d := by
  have hk : 128 * k + 128 ≤ BSIZE := by
    simp only [IPB, BSIZE] at hk ⊢
    omega
  have haddrs (j : Fin (NDIRECT + 1)) (b : Block) :
      getUint (store b (128 * k + 24) (image fun j => (d.addr j).toNat) (4 * (NDIRECT + 1)))
        (128 * k + 24 + 4 * j.val) = d.addrs j := by
    rw [getUint, le32_store_image _ _ j.isLt (by simp only [NDIRECT]; omega),
      Nat.mod_eq_of_lt (d.addr j).toNat_lt, UInt32.ofNat_toNat, Dinode.addr, dif_pos j.isLt]
  have hin : 128 * k + 24 ≤ BSIZE := by omega
  cases d with
  | mk type major minor nlink uid gid mode size addrs =>
    simp only [putDinode, getDinode, haddrs]
    simp (disch := omega) only [getShort_store_of_disjoint, getUint_store_of_disjoint,
      getShort_putUint_of_disjoint, getShort_putShort_of_disjoint, getUint_putUint_of_disjoint,
      getUint_putUint, getShort_putShort]

/-- Storing an inode changes its own 128 bytes only. -/
theorem get_putDinode_of_outside (b : Block) {k i : Nat} (d : Dinode)
    (h : i < 128 * k ∨ 128 * k + 128 ≤ i) : get (putDinode b k d) i = get b i := by
  simp only [putDinode, putShort, putUint]
  rw [get_store_of_disjoint _ _ (by simp only [NDIRECT]; omega)]
  simp (disch := omega) only [get_putLe32_of_disjoint, get_putLe16_of_disjoint]

theorem getDinode_congr {a b : Block} {k : Nat}
    (h : ∀ i, 128 * k ≤ i → i < 128 * k + 128 → get a i = get b i) :
    getDinode a k = getDinode b k := by
  have hshort (off : Nat) (hoff : off + 2 ≤ 128) :
      getShort a (128 * k + off) = getShort b (128 * k + off) := by
    rw [getShort, le16_congr fun i _ _ => h i (by omega) (by omega), getShort]
  have huint (off : Nat) (hoff : off + 4 ≤ 128) :
      getUint a (128 * k + off) = getUint b (128 * k + off) := by
    rw [getUint, le32_congr fun i _ _ => h i (by omega) (by omega), getUint]
  have haddrs (j : Fin (NDIRECT + 1)) :
      getUint a (128 * k + 24 + 4 * j.val) = getUint b (128 * k + 24 + 4 * j.val) := by
    have hj : j.val < 26 := j.isLt
    rw [Nat.add_assoc]
    exact huint _ (by omega)
  simp only [getDinode, haddrs, hshort 2 (by omega), hshort 4 (by omega), hshort 6 (by omega),
    huint 8 (by omega), huint 12 (by omega), huint 16 (by omega), huint 20 (by omega),
    show getShort a (128 * k) = getShort b (128 * k) from hshort 0 (by omega)]

/-- **The other inodes of the block are as before.** -/
theorem getDinode_putDinode_of_ne (b : Block) {j k : Nat} (h : j ≠ k) (d : Dinode) :
    getDinode (putDinode b k d) j = getDinode b j :=
  getDinode_congr fun _ _ _ => get_putDinode_of_outside b d (by omega)

end Xv6.Fs
