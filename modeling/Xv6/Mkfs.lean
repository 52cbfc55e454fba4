import Xv6.Fs.Path

/-!
# Xv6.Mkfs

The program that builds the first file system image, `mkfs.c`.

The image file is its sectors and their number; a read of a sector that the file does
not have ends the program, as a failed `assert` does.  `xint` and `xshort` give a number
the byte order in which `getDinode` and `le32` read it, so they do not appear.  An input
file is its name and what the `read` calls return until the end of the file.
-/

namespace Xv6.Mkfs

open Words Fs

/-! ## layout -/

def NINODES : Nat := 200

def nbitmap : Nat := FSSIZE / (BSIZE * 8) + 1

def ninodeblocks : Nat := NINODES / IPB + 1

def nlog : Nat := LOGSIZE

/-- Number of meta blocks (boot, sb, nlog, inode, bitmap). -/
def nmeta : Nat := 2 + nlog + ninodeblocks + nbitmap

/-- Number of data blocks. -/
def nblocks : Nat := FSSIZE - nmeta

def sb : Superblock where
  size := FSSIZE
  nblocks := nblocks
  ninodes := NINODES
  nlog := nlog
  logstart := 2
  inodestart := 2 + nlog
  bmapstart := 2 + nlog + ninodeblocks

def zeroes : Block := fun _ => 0

/-- `memmove(buf, &sb, sizeof(sb))` -/
def superBlock : Block :=
  store zeroes 0 (image fun k => [sb.size, sb.nblocks, sb.ninodes, sb.nlog, sb.logstart,
    sb.inodestart, sb.bmapstart].getD k 0) 28

/-! ## sectors and inodes -/

structure State where
  disk : Nat → Block
  /-- sectors of the image file -/
  sectors : Nat
  freeinode : Nat
  freeblock : Nat

/-- Why the program ends early. -/
inductive Exit
  /-- an `assert` -/
  | assert
  /-- `perror("read")` -/
  | read
deriving DecidableEq

abbrev M := Prog Exit State

def wsect (sec : Nat) (buf : Block) : M Unit :=
  modify fun s => { s with
    disk := Function.update s.disk sec buf
    sectors := max s.sectors (sec + 1) }

def rsect (sec : Nat) : M Block := do
  let s ← get
  if sec < s.sectors then return s.disk sec else throw .read

def winode (inum : Nat) (ip : Dinode) : M Unit := do
  let bn := IBLOCK inum sb
  let buf ← rsect bn
  wsect bn (putDinode buf (inum % IPB) ip)

def rinode (inum : Nat) : M Dinode := do
  let buf ← rsect (IBLOCK inum sb)
  return getDinode buf (inum % IPB)

def ialloc (type : Int16) : M Nat := do
  let inum := (← get).freeinode
  modify fun s => { s with freeinode := inum + 1 }
  winode inum { Dinode.fresh type with nlink := 1 }
  return inum

/-- The bitmap with the first `used` bits set. -/
def bitmap (used : Nat) : Block := (List.range used).foldl setBit zeroes

def balloc (used : Nat) : M Unit := do
  if used < BSIZE * 8 then wsect sb.bmapstart (bitmap used) else throw .assert

/-! ## contents -/

/-- `freeblock++` -/
def nextBlock : M Nat := do
  let b := (← get).freeblock
  modify fun s => { s with freeblock := b + 1 }
  return b

/-- `din.addrs[k]`, with a new block if it is `0`. -/
def appendAddr (din : Dinode) (k : Nat) : M Dinode := do
  if din.addr k = 0 then do
    let b ← nextBlock
    return din.setAddr k (UInt32.ofNat b)
  else return din

/-- `indirect[k]` of the indirect block `x`, with a new block if it is `0`. -/
def appendEntry (x k : Nat) : M Nat := do
  let indirect ← rsect x
  if le32 indirect (4 * k) = 0 then do
    let b ← nextBlock
    let indirect := putLe32 indirect (4 * k) b
    wsect x indirect
    return le32 indirect (4 * k)
  else return le32 indirect (4 * k)

/-- The block `fbn` of a file, with new blocks where there are none. -/
def appendBlock (din : Dinode) (fbn : Nat) : M (Nat × Dinode) := do
  if fbn < NDIRECT then do
    let din ← appendAddr din fbn
    return ((din.addr fbn).toNat, din)
  else do
    let din ← appendAddr din NDIRECT
    let x ← appendEntry (din.addr NDIRECT).toNat (fbn - NDIRECT)
    return (x, din)

/-- The loop of `iappend`, which moves at least one byte a pass; the inode and the
offset at its end. -/
def appendLoop : Nat → Dinode → (Nat → UInt8) → Nat → Nat → M (Dinode × Nat)
  | 0, din, _, off, _ => return (din, off)
  | fuel + 1, din, p, off, n => do
      if n = 0 then return (din, off)
      else if MAXFILE ≤ off / BSIZE then throw .assert
      else do
        let (x, din) ← appendBlock din (off / BSIZE)
        let n1 := min n ((off / BSIZE + 1) * BSIZE - off)
        let buf ← rsect x
        wsect x (store buf (off - off / BSIZE * BSIZE) p n1)
        appendLoop fuel din (fun k => p (n1 + k)) (off + n1) (n - n1)

/-- Append bytes to a file. -/
def iappend (inum : Nat) (p : List UInt8) : M Unit := do
  let din ← rinode inum
  let (din, off) ← appendLoop p.length din (fun k => p.getD k 0) din.size.toNat p.length
  winode inum { din with size := UInt32.ofNat off }

/-! ## `main` -/

/-- An argument of `mkfs`: a string, and the results of `read` on the file. -/
structure HostFile where
  name : List UInt8
  reads : List (List UInt8)
  string : 0 ∉ name
  sizes : ∀ buf ∈ reads, 0 < buf.length ∧ buf.length ≤ BSIZE

/-- The bytes of the file. -/
def HostFile.contents (f : HostFile) : List UInt8 := f.reads.flatten

/-- The name in the file system: without a leading `_`. -/
def HostFile.target (f : HostFile) : List UInt8 :=
  if f.name.head? = some 0x5f then f.name.tail else f.name

/-- `struct dirent` -/
def dirent (inum : Nat) (name : List UInt8) : List UInt8 :=
  UInt8.ofNat inum :: UInt8.ofNat (inum / 256) :: strncpy DIRSIZ fun k => name.getD k 0

/-- The body of the loop over the files. -/
def addFile (rootino : Nat) (f : HostFile) : M Unit := do
  if slash ∈ f.name then throw .assert
  else do
    let inum ← ialloc T_FILE
    iappend rootino (dirent inum f.target)
    f.reads.forM (iappend inum)

/-- Round the size of the root directory. -/
def fixSize (rootino : Nat) : M Unit := do
  let din ← rinode rootino
  winode rootino { din with size := (din.size / 512 + 1) * 512 }

/-- `mkfs fs.img files…`. -/
def main (files : List HostFile) : M Unit := do
  (List.range FSSIZE).forM fun i => wsect i zeroes
  wsect 1 superBlock
  let rootino ← ialloc T_DIR
  if rootino = ROOTINO then do
    iappend rootino (dirent rootino [0x2e])
    iappend rootino (dirent rootino [0x2e, 0x2e])
    files.forM (addFile rootino)
    fixSize rootino
    balloc (← get).freeblock
  else throw .assert

/-- The image file was truncated. -/
def start : State where
  disk _ := zeroes
  sectors := 0
  freeinode := 1
  freeblock := nmeta

end Xv6.Mkfs
