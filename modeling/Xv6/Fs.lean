import Xv6.Fs.Format
import Xv6.Lib.Prog

/-!
# Xv6.Fs

The file system of `fs.c`: block allocator, inodes, inode contents and
directories.

* `State` is the super block in memory, the disk as `bread` shows it and
  `log_write` changes it, the inode cache and the device table.  There is one
  device.  A pointer into the cache is its index.
* Code is a `Prog`: it stops with `panic` or where it would sleep.
* Loops over a range of the source are recursions on the list of its indices.
  The copying loops of `readi` and `writei` move at least one byte a pass, so
  the number of bytes bounds their passes.
-/

namespace Xv6.Fs

open Words

/-! ## the state -/

/-- Why code stops: the argument of `panic`, or a wait for another process. -/
inductive Panic
  /-- "balloc: out of blocks" -/
  | ballocOutOfBlocks
  /-- "freeing free block" -/
  | freeingFreeBlock
  /-- "ialloc: no inodes" -/
  | iallocNoInodes
  /-- "iget: no inodes" -/
  | igetNoInodes
  /-- "ilock" -/
  | ilock
  /-- "ilock: no type" -/
  | ilockNoType
  /-- "iunlock" -/
  | iunlock
  /-- "iput busy" -/
  | iputBusy
  /-- "bmap: out of range" -/
  | bmapOutOfRange
  /-- "dirlookup not DIR" -/
  | dirlookupNotDir
  /-- "dirlink read" -/
  | dirlinkRead
  /-- "dirlink" -/
  | dirlink
  /-- no panic: `ilock` sleeps until the holder of the inode wakes it -/
  | sleep
deriving DecidableEq

/-- `struct inode`: an entry of the inode cache. -/
structure Inode where
  inum : Nat
  ref : Nat
  /-- `I_BUSY` -/
  busy : Bool
  /-- `I_VALID` -/
  valid : Bool
  /-- copy of the disk inode -/
  din : Dinode

/-- `devsw`, with what a device does for the caller: the bytes read, and the
value returned. -/
structure Devsw where
  read : Fin NDEV → Option (UInt32 → Int32 × List UInt8)
  write : Fin NDEV → Option ((Nat → UInt8) → UInt32 → Int32)

structure State where
  sb : Superblock
  disk : Nat → Block
  /-- `icache.inode` -/
  inode : Fin NINODE → Inode
  devsw : Devsw

abbrev M := Prog Panic State

/-- A pointer into the inode cache. -/
abbrev Ip := Fin NINODE

def bread (b : Nat) : M Block := do
  return (← get).disk b

/-- Store a changed block. -/
def logWrite (b : Nat) (data : Block) : M Unit :=
  modify fun s => { s with disk := Function.update s.disk b data }

/-- Change an entry of the inode cache. -/
def setInode (c : Ip) (f : Inode → Inode) : M Unit :=
  modify fun s => { s with inode := Function.update s.inode c (f (s.inode c)) }

/-- Change the copy of the disk inode in an entry of the cache. -/
def setDin (c : Ip) (f : Dinode → Dinode) : M Unit :=
  setInode c fun ip => { ip with din := f ip.din }

/-! ## blocks -/

/-- Read the super block. -/
def readsb : M Unit := do
  let data ← bread 1
  modify fun s => { s with sb := getSuper data }

/-- Zero a block. -/
def bzero (b : Nat) : M Unit := logWrite b fun _ => 0

/-- The inner loop of `balloc`, with `n` passes left: the first clear bit from
`bi` on in the block of the bitmap for `b`, `b + 1`, … -/
def freeBit (sb : Superblock) (b : Nat) (data : Block) : Nat → Nat → Option Nat
  | 0, _ => none
  | n + 1, bi =>
      if sb.size ≤ b + bi then none
      else if bitAt data bi then freeBit sb b data n (bi + 1)
      else some bi

/-- The outer loop of `balloc`, over the first blocks of the bitmap blocks. -/
def ballocIn : List Nat → M Nat
  | [] => throw .ballocOutOfBlocks
  | b :: bs => do
      let sb := (← get).sb
      let data ← bread (BBLOCK b sb)
      match freeBit sb b data BPB 0 with
      | some bi =>
          logWrite (BBLOCK b sb) (setBit data bi)
          bzero (b + bi)
          return b + bi
      | none => ballocIn bs

/-- Allocate a zeroed disk block. -/
def balloc : M Nat := do
  let sb := (← get).sb
  ballocIn ((List.range ((sb.size + BPB - 1) / BPB)).map (· * BPB))

/-- Free a disk block. -/
def bfree (b : Nat) : M Unit := do
  readsb
  let sb := (← get).sb
  let data ← bread (BBLOCK b sb)
  if bitAt data (b % BPB) then logWrite (BBLOCK b sb) (clearBit data (b % BPB))
  else throw .freeingFreeBlock

/-! ## inodes -/

/-- Find the inode with number `inum` and return the in-memory copy. -/
def iget (inum : Nat) : M Ip := do
  let s ← get
  match (List.finRange NINODE).find? fun c => 0 < (s.inode c).ref && (s.inode c).inum == inum with
  | some c =>
      setInode c fun ip => { ip with ref := ip.ref + 1 }
      return c
  | none =>
      match (List.finRange NINODE).find? fun c => (s.inode c).ref == 0 with
      | none => throw .igetNoInodes
      | some c =>
          setInode c fun ip => { ip with inum := inum, ref := 1, busy := false, valid := false }
          return c

/-- The loop of `ialloc`, over the inode numbers. -/
def iallocIn (type : Int16) : List Nat → M Ip
  | [] => throw .iallocNoInodes
  | inum :: inums => do
      let sb := (← get).sb
      let data ← bread (IBLOCK inum sb)
      if (getDinode data (inum % IPB)).type = 0 then
        logWrite (IBLOCK inum sb) (putDinode data (inum % IPB) (Dinode.fresh type))
        iget inum
      else iallocIn type inums

/-- Allocate a new inode with the given type. -/
def ialloc (type : Int16) : M Ip := do
  let sb := (← get).sb
  iallocIn type (List.range' 1 (sb.ninodes - 1))

/-- Copy a modified in-memory inode to disk. -/
def iupdate (c : Ip) : M Unit := do
  let s ← get
  let ip := s.inode c
  let data ← bread (IBLOCK ip.inum s.sb)
  logWrite (IBLOCK ip.inum s.sb) (putDinode data (ip.inum % IPB) ip.din)

/-- Increment reference count. -/
def idup (c : Ip) : M Unit := setInode c fun ip => { ip with ref := ip.ref + 1 }

/-- Read the inode from disk if necessary. -/
def loadInode (c : Ip) : M Unit := do
  let s ← get
  let ip := s.inode c
  if ip.valid then pure ()
  else do
    let data ← bread (IBLOCK ip.inum s.sb)
    let din := getDinode data (ip.inum % IPB)
    setInode c fun ip => { ip with din := din, valid := true }
    if din.type = 0 then throw .ilockNoType else pure ()

/-- Lock the given inode. -/
def ilock (c : Ip) : M Unit := do
  let ip := (← get).inode c
  if ip.ref < 1 then throw .ilock
  else if ip.busy then throw .sleep
  else do
    setInode c fun ip => { ip with busy := true }
    loadInode c

/-- Unlock the given inode. -/
def iunlock (c : Ip) : M Unit := do
  let ip := (← get).inode c
  if !ip.busy ∨ ip.ref < 1 then throw .iunlock
  else setInode c fun ip => { ip with busy := false }

/-! ## inode content -/

/-- `addrs[k]`, allocated if it is `0`. -/
def bmapAddr (c : Ip) (k : Nat) : M Nat := do
  let addr := ((← get).inode c).din.addr k
  if addr = 0 then do
    let b ← balloc
    setDin c (Dinode.setAddr · k (UInt32.ofNat b))
    return b
  else return addr.toNat

/-- Entry `k` of the indirect block `addr`, allocated if it is `0`. -/
def bmapEntry (addr k : Nat) : M Nat := do
  let a ← bread addr
  if le32 a (4 * k) = 0 then do
    let b ← balloc
    -- the store goes to the buffer that holds the block now
    let a ← bread addr
    logWrite addr (putLe32 a (4 * k) b)
    return b
  else return le32 a (4 * k)

/-- The disk block address of the `bn`th block in the inode. -/
def bmap (c : Ip) (bn : Nat) : M Nat := do
  if bn < NDIRECT then bmapAddr c bn
  else if bn - NDIRECT < NINDIRECT then do
    let addr ← bmapAddr c NDIRECT
    bmapEntry addr (bn - NDIRECT)
  else throw .bmapOutOfRange

/-- The body of the first loop of `itrunc`. -/
def truncDirect (c : Ip) (i : Nat) : M Unit := do
  let addr := ((← get).inode c).din.addr i
  if addr = 0 then pure ()
  else do
    bfree addr.toNat
    setDin c (Dinode.setAddr · i 0)

/-- The body of the second loop of `itrunc`, over the entries of the indirect
block. -/
def truncEntry (a : Block) (j : Nat) : M Unit :=
  if le32 a (4 * j) = 0 then pure () else bfree (le32 a (4 * j))

/-- The part of `itrunc` about the indirect block. -/
def truncIndirect (c : Ip) : M Unit := do
  let addr := ((← get).inode c).din.addr NDIRECT
  if addr = 0 then pure ()
  else do
    let a ← bread addr.toNat
    (List.range NINDIRECT).forM (truncEntry a)
    bfree addr.toNat
    setDin c (Dinode.setAddr · NDIRECT 0)

/-- Truncate inode. -/
def itrunc (c : Ip) : M Unit := do
  (List.range NDIRECT).forM (truncDirect c)
  truncIndirect c
  setDin c fun d => { d with size := 0 }
  iupdate c

/-- The part of `iput` that truncates and frees an inode without links and
other references. -/
def reap (c : Ip) : M Unit := do
  let ip := (← get).inode c
  if ip.ref = 1 ∧ ip.valid ∧ ip.din.nlink = 0 then
    if ip.busy then throw .iputBusy
    else do
      setInode c fun ip => { ip with busy := true }
      itrunc c
      setDin c fun d => { d with type := 0 }
      iupdate c
      setInode c fun ip => { ip with busy := false, valid := false }
  else pure ()

/-- Drop a reference to an in-memory inode. -/
def iput (c : Ip) : M Unit := do
  reap c
  setInode c fun ip => { ip with ref := ip.ref - 1 }

/-- The device of an inode, if its major number is in the table. -/
def deviceNo (d : Dinode) : Option (Fin NDEV) :=
  if h : 0 ≤ d.major.toInt ∧ d.major.toInt.toNat < NDEV then some ⟨d.major.toInt.toNat, h.2⟩
  else none

/-- The loop of `readi`: `left` bytes from offset `off` on. -/
def readLoop (c : Ip) : Nat → Nat → Nat → M (List UInt8)
  | 0, _, _ => return []
  | fuel + 1, off, left => do
      if left = 0 then return []
      else do
        let b ← bmap c (off / BSIZE)
        let data ← bread b
        let m := min left (BSIZE - off % BSIZE)
        let rest ← readLoop c fuel (off + m) (left - m)
        return (List.range m).map (fun k => Words.get data (off % BSIZE + k)) ++ rest

/-- Read data from inode: the value returned and the bytes delivered. -/
def readi (c : Ip) (off n : UInt32) : M (Int32 × List UInt8) := do
  let s ← get
  let d := (s.inode c).din
  if d.type = T_DEV then
    match (deviceNo d).bind s.devsw.read with
    | none => return (-1, [])
    | some read => return read n
  else if d.size < off ∨ off + n < off then return (-1, [])
  else do
    let n := if d.size < off + n then d.size - off else n
    let bytes ← readLoop c n.toNat off.toNat n.toNat
    return (n.toInt32, bytes)

/-- The loop of `writei`: `left` bytes of `src` to offset `off` on. -/
def writeLoop (c : Ip) : Nat → (Nat → UInt8) → Nat → Nat → M Unit
  | 0, _, _, _ => pure ()
  | fuel + 1, src, off, left => do
      if left = 0 then pure ()
      else do
        let b ← bmap c (off / BSIZE)
        let data ← bread b
        let m := min left (BSIZE - off % BSIZE)
        logWrite b (store data (off % BSIZE) src m)
        writeLoop c fuel (fun k => src (m + k)) (off + m) (left - m)

/-- The end of `writei`: record a larger size. -/
def growTo (c : Ip) (n off : UInt32) : M Unit := do
  if 0 < n ∧ ((← get).inode c).din.size < off then do
    setDin c fun d => { d with size := off }
    iupdate c
  else pure ()

/-- Write data to inode. -/
def writei (c : Ip) (src : Nat → UInt8) (off n : UInt32) : M Int32 := do
  let s ← get
  let d := (s.inode c).din
  if d.type = T_DEV then
    match (deviceNo d).bind s.devsw.write with
    | none => return -1
    | some write => return write src n
  else if d.size < off ∨ off + n < off then return -1
  else if MAXFILE * BSIZE < (off + n).toNat then return -1
  else do
    writeLoop c n.toNat src off.toNat n.toNat
    growTo c n (off + n)
    return n.toInt32

/-! ## directories -/

def strncmp : Nat → (Nat → UInt8) → (Nat → UInt8) → Int
  | 0, _, _ => 0
  | n + 1, p, q =>
      if p 0 ≠ 0 ∧ p 0 = q 0 then strncmp n (fun k => p (k + 1)) fun k => q (k + 1)
      else (p 0).toNat - (q 0).toNat

/-- The `n` bytes that `strncpy` stores. -/
def strncpy : Nat → (Nat → UInt8) → List UInt8
  | 0, _ => []
  | n + 1, t => if t 0 = 0 then List.replicate (n + 1) 0 else t 0 :: strncpy n fun k => t (k + 1)

def namecmp (s t : Nat → UInt8) : Int := strncmp DIRSIZ s t

/-- `struct dirent`. -/
abbrev Dirent : Type := Fin 16 → UInt8

/-- `de.inum`. -/
def Dirent.inum (de : Dirent) : Nat := le16 de 0

/-- `de.name`. -/
def Dirent.name (de : Dirent) : Nat → UInt8 := fun k => Words.get de (2 + k)

/-- Read the entry at offset `off`. -/
def readDirent (dp : Ip) (off : Nat) : M Dirent := do
  let (r, bytes) ← readi dp (UInt32.ofNat off) 16
  if r = 16 then return fun i => bytes.getD i.val 0 else throw .dirlinkRead

/-- The offsets of the entries of a directory of the given size. -/
def entryOffs (size : UInt32) : List Nat := (List.range ((size.toNat + 15) / 16)).map (16 * ·)

/-- The loop of `dirlookup`. -/
def lookupIn (dp : Ip) (name : Nat → UInt8) : List Nat → M (Option (Nat × Ip))
  | [] => return none
  | off :: offs => do
      let de ← readDirent dp off
      if de.inum = 0 then lookupIn dp name offs
      else if namecmp name de.name = 0 then do
        let ip ← iget de.inum
        return some (off, ip)
      else lookupIn dp name offs

/-- Look for a directory entry: its offset and its inode. -/
def dirlookup (dp : Ip) (name : Nat → UInt8) : M (Option (Nat × Ip)) := do
  let d := ((← get).inode dp).din
  if d.type = T_DIR then lookupIn dp name (entryOffs d.size) else throw .dirlookupNotDir

/-- The loop of `dirlink`: the offset of the first empty entry, or of the end
of the directory. -/
def emptyIn (dp : Ip) (stop : Nat) : List Nat → M Nat
  | [] => return stop
  | off :: offs => do
      let de ← readDirent dp off
      if de.inum = 0 then return off else emptyIn dp stop offs

/-- The entry that `dirlink` writes. -/
def newDirent (name : Nat → UInt8) (inum : Nat) : Nat → UInt8 := fun k =>
  if k = 0 then UInt8.ofNat inum
  else if k = 1 then UInt8.ofNat (inum / 256)
  else (strncpy DIRSIZ name).getD (k - 2) 0

/-- Write a new directory entry into the directory `dp`. -/
def dirlink (dp : Ip) (name : Nat → UInt8) (inum : Nat) : M Int32 := do
  match ← dirlookup dp name with
  | some (_, ip) =>
      iput ip
      return -1
  | none => do
      let offs := entryOffs ((← get).inode dp).din.size
      let off ← emptyIn dp (16 * offs.length) offs
      let r ← writei dp (newDirent name inum) (UInt32.ofNat off) 16
      if r = 16 then return 0 else throw .dirlink

end Xv6.Fs
