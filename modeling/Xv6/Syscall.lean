import Xv6.Lib.Bytes
import Xv6.Lib.Footprint
import Xv6.Pipe
import Xv6.Fs

/-!
# Xv6.Syscall

System calls with a buffer of the user: the checks of `syscall.c` and what
`sysfile.c`, `file.c`, `pipe.c`, `console.c` and the end of `fs.c` then do with the
pointer.

The state is the whole memory, a record of the addresses that are used through
the checked pointer, the calling process, and the other data of the kernel as
the call finds them.  Whenever the call is given a lock — by `acquire`, by
`ilock`, by `sleep` returning — others may have changed these data in the
meantime: `later` is what it will find, one after the other, and a call that has
come to the end of it is still waiting.

`begin_op`, `end_op`, `wakeup` and the output of the console do not touch the
user's memory and are left out.
-/

namespace Xv6.Syscall

open MemProg

/-! ## the state -/

inductive FileType
  | FD_NONE
  | FD_PIPE
  | FD_INODE
  deriving DecidableEq

/-- `struct file`, without what can change while it is open. -/
structure File where
  type : FileType
  readable : Bool
  writable : Bool
  ip : Fs.Ip
  deriving DecidableEq

/-- The calling process. -/
structure Proc where
  sz : UInt32
  /-- `allocuvm` refuses to grow a process up to `KERNBASE` -/
  sz_lt : sz.toNat < KERNBASE
  /-- `tf->esp` -/
  esp : UInt32
  ofile : Fin NOFILE → Option File

/-- The state of a call, where `K` are the data of the kernel that it uses. -/
structure Sys (K : Type) where
  proc : Proc
  now : K
  /-- what the call will find -/
  later : List K

inductive Halt
  | waiting
  | panic (msg : String)
  | fs (p : Fs.Panic)

abbrev M (K : Type) := MemProg Halt UInt32 UInt8 (Sys K)

abbrev State (K : Type) := Memory UInt32 UInt8 (Sys K)

section Locks

variable {K : Type}

def now : M K K := do return (← rest).now

def modifyNow (f : K → K) : M K Unit := modifyRest fun s => { s with now := f s.now }

/-- Take a lock. -/
def lock : M K Unit := do
  match (← rest).later with
  | [] => stop .waiting
  | k :: ks => modifyRest fun s => { s with now := k, later := ks }

/-- `while (wait) sleep(…)`. -/
def sleepWhile (wait : K → Bool) : M K Unit := do
  let s ← rest
  match (s.now :: s.later).dropWhile wait with
  | [] => stop .waiting
  | k :: ks => modifyRest fun s => { s with now := k, later := ks }

/-! ## syscall.c -/

/-- `*(uint*)a`. -/
def word (mem : Bytes.Mem) (a : UInt32) : UInt32 :=
  UInt32.ofNat (Bytes.leNat (Bytes.get mem a 4))

/-- Fetch the int at `addr` from the current process. -/
def fetchint (s : State K) (addr : UInt32) : Option Int32 :=
  if s.rest.proc.sz ≤ addr ∨ s.rest.proc.sz < addr + 4 then none
  else some (word s.mem addr).toInt32

/-- Fetch the `n`th 32-bit system call argument. -/
def argint (s : State K) (n : Nat) : Option Int32 :=
  fetchint s (s.rest.proc.esp + 4 + 4 * UInt32.ofNat n)

/-- Fetch the `n`th argument as a pointer to a block of `size` bytes. -/
def argptr (s : State K) (n : Nat) (size : Int32) : Option UInt32 := do
  let i ← argint s n
  if s.rest.proc.sz ≤ i.toUInt32 ∨ s.rest.proc.sz < i.toUInt32 + size.toUInt32 then none
  else some i.toUInt32

/-- Fetch the `n`th argument as a file descriptor. -/
def argfd (s : State K) (n : Nat) : Option File := do
  let fd ← argint s n
  if h : 0 ≤ fd.toInt ∧ fd.toInt.toNat < NOFILE then s.rest.proc.ofile ⟨fd.toInt.toNat, h.2⟩
  else none

/-! ## memory of the user -/

/-- Copy bytes to the user. -/
def copyTo (dst : UInt32) : List UInt8 → M K Unit
  | [] => return ()
  | b :: bs => do
      store dst b
      copyTo (dst + 1) bs

/-- Copy `m` bytes from the user. -/
def copyFrom (src : UInt32) : Nat → M K (List UInt8)
  | 0 => return []
  | m + 1 => do
      let b ← load src
      return b :: (← copyFrom (src + 1) m)

/-- Assign to fields, given by their offsets. -/
def setFields (p : UInt32) (fields : List (Nat × List UInt8)) : M K Unit :=
  fields.forM fun field => copyTo (p + UInt32.ofNat field.1) field.2

end Locks

/-! ## the data that a call on a file finds -/

def INPUT_BUF : Nat := 128

/-- The console's `input`; the edit index is not used here. -/
structure Input where
  buf : Fin INPUT_BUF → UInt8
  r : UInt32
  w : UInt32

/-- What a call finds when it is given a lock. -/
structure Found where
  /-- `proc->killed` -/
  killed : Bool
  /-- `*f->pipe` -/
  pipe : Pipe
  /-- `f->off` -/
  off : UInt32
  fs : Fs.State
  input : Input

def onFs {α : Type} (m : Fs.M α) : M Found α :=
  onRest .fs (fun s => s.now.fs) (fun fs s => { s with now := { s.now with fs } }) m

/-! ## pipe.c -/

/-- The copy loop of `piperead`: how many bytes are copied. -/
def pipereadCopy : Nat → UInt32 → M Found Nat
  | 0, _ => return 0
  | n + 1, addr => do
      let p := (← now).pipe
      if p.empty then return 0
      else do
        store addr (p.data (Ring.slot PIPESIZE p.nread))
        modifyNow fun k => { k with pipe := { k.pipe with nread := k.pipe.nread + 1 } }
        return (← pipereadCopy n (addr + 1)) + 1

def piperead (addr : UInt32) (n : Int32) : M Found Int32 := do
  lock
  sleepWhile fun k => k.pipe.empty && k.pipe.writeopen && !k.killed
  let k ← now
  if k.pipe.empty && k.pipe.writeopen then return -1
  else do
    let i ← pipereadCopy n.toInt.toNat addr
    return Int32.ofNat i

/-- The loop of `pipewrite`; `false` when it gives up. -/
def pipewriteLoop : Nat → UInt32 → M Found Bool
  | 0, _ => return true
  | n + 1, addr => do
      sleepWhile fun k => k.pipe.full && !(!k.pipe.readopen || k.killed)
      if (← now).pipe.full then return false
      else do
        let b ← load addr
        modifyNow fun k => { k with pipe := { k.pipe with
          data := Function.update k.pipe.data (Ring.slot PIPESIZE k.pipe.nwrite) b
          nwrite := k.pipe.nwrite + 1 } }
        pipewriteLoop n (addr + 1)

def pipewrite (addr : UInt32) (n : Int32) : M Found Int32 := do
  lock
  if ← pipewriteLoop n.toInt.toNat addr then return n else return -1

/-! ## console.c -/

/-- `C('D')`. -/
def ctrlD : UInt8 := 4

def newline : UInt8 := 10

/-- The loop of `consoleread`: what is left of `n`, or `none` for a killed process. -/
def consoleLoop (target : UInt32) : Nat → UInt32 → M Found (Option Nat)
  | 0, _ => return some 0
  | n + 1, dst => do
      sleepWhile fun k => k.input.r == k.input.w && !k.killed
      let input := (← now).input
      if input.r == input.w then return none
      else do
        let c := input.buf ⟨(input.r % UInt32.ofNat INPUT_BUF).toNat, by
          rw [UInt32.toNat_mod]
          exact Nat.mod_lt _ (by decide)⟩
        modifyNow fun k => { k with input := { k.input with r := k.input.r + 1 } }
        if c = ctrlD then do
          -- saved for the next call, which is to return 0
          if n + 1 < target.toNat then
            modifyNow fun k => { k with input := { k.input with r := k.input.r - 1 } }
          return some (n + 1)
        else do
          store dst c
          if c = newline then return some n else consoleLoop target n (dst + 1)

def consoleread (dst : UInt32) (n : Int32) : M Found Int32 := do
  lock
  let left ← consoleLoop n.toUInt32 n.toInt.toNat dst
  lock
  match left with
  | none => return -1
  | some left => return if 0 < n then n - Int32.ofNat left else 0

def consolewrite (buf : UInt32) (n : Int32) : M Found Int32 := do
  lock
  let _ ← copyFrom buf n.toInt.toNat
  lock
  return n

/-! ## fs.c -/

/-- The fields of a `struct stat` in the order in which `stati` assigns them. -/
def statFields (ip : Fs.Inode) : List (Nat × List UInt8) :=
  [(4, Bytes.le 4 ROOTDEV.toNat),
   (8, Bytes.le 4 ip.inum),
   (0, Bytes.le 2 ip.din.type.toUInt16.toNat),
   (12, Bytes.le 2 ip.din.nlink.toUInt16.toNat),
   (28, Bytes.le 4 ip.din.size.toNat),
   (16, Bytes.le 4 ip.din.uid.toNat),
   (20, Bytes.le 4 ip.din.gid.toNat),
   (24, Bytes.le 4 ip.din.mode.toNat)]

/-- Copy stat information from inode. -/
def stati (c : Fs.Ip) (st : UInt32) : M Found Unit := do
  setFields st (statFields ((← now).fs.inode c))

/-- `sizeof(struct stat)`. -/
def sizeofStat : Int32 := 32

/-- The loop of `readi`: `left` bytes from offset `off` on. -/
def readLoop (c : Fs.Ip) : Nat → UInt32 → Nat → Nat → M Found Unit
  | 0, _, _, _ => return ()
  | fuel + 1, dst, off, left => do
      if left = 0 then return ()
      else do
        let b ← onFs (Fs.bmap c (off / BSIZE))
        let data ← onFs (Fs.bread b)
        let m := min left (BSIZE - off % BSIZE)
        copyTo dst ((List.range m).map fun k => Words.get data (off % BSIZE + k))
        readLoop c fuel (dst + UInt32.ofNat m) (off + m) (left - m)

/-- Read data from inode. -/
def readi (c : Fs.Ip) (dst off n : UInt32) : M Found Int32 := do
  let d := ((← now).fs.inode c).din
  if d.type = T_DEV then
    -- of `devsw`, only the console is set
    if (Fs.deviceNo d).map Fin.val = some CONSOLE then consoleread dst n.toInt32 else return -1
  else if d.size < off ∨ off + n < off then return -1
  else do
    let n := if d.size < off + n then d.size - off else n
    readLoop c n.toNat dst off.toNat n.toNat
    return n.toInt32

/-- The loop of `writei`. -/
def writeLoop (c : Fs.Ip) : Nat → UInt32 → Nat → Nat → M Found Unit
  | 0, _, _, _ => return ()
  | fuel + 1, src, off, left => do
      if left = 0 then return ()
      else do
        let b ← onFs (Fs.bmap c (off / BSIZE))
        let data ← onFs (Fs.bread b)
        let m := min left (BSIZE - off % BSIZE)
        let bytes ← copyFrom src m
        onFs (Fs.logWrite b (Words.store data (off % BSIZE) (fun k => bytes.getD k 0) m))
        writeLoop c fuel (src + UInt32.ofNat m) (off + m) (left - m)

/-- Write data to inode. -/
def writei (c : Fs.Ip) (src off n : UInt32) : M Found Int32 := do
  let d := ((← now).fs.inode c).din
  if d.type = T_DEV then
    if (Fs.deviceNo d).map Fin.val = some CONSOLE then consolewrite src n.toInt32 else return -1
  else if d.size < off ∨ off + n < off then return -1
  else if MAXFILE * BSIZE < (off + n).toNat then return -1
  else do
    writeLoop c n.toNat src off.toNat n.toNat
    onFs (Fs.growTo c n (off + n))
    return n.toInt32

/-! ## file.c -/

/-- Get metadata about file. -/
def filestat (f : File) (st : UInt32) : M Found Int32 := do
  if f.type = .FD_INODE then do
    lock
    stati f.ip st
    return 0
  else return -1

/-- `f->off += r` after a transfer of `r` bytes. -/
def advance (r : Int32) : M Found Unit :=
  modifyNow fun k => if 0 < r then { k with off := k.off + r.toUInt32 } else k

/-- Read from file. -/
def fileread (f : File) (addr : UInt32) (n : Int32) : M Found Int32 := do
  if !f.readable then return -1
  else
    match f.type with
    | .FD_PIPE => piperead addr n
    | .FD_INODE => do
        lock
        let r ← readi f.ip addr (← now).off n.toUInt32
        advance r
        return r
    | .FD_NONE => stop (.panic "fileread")

/-- Most bytes that `filewrite` writes in one transaction. -/
def maxWrite : Nat := (LOGSIZE - 1 - 1 - 2) / 2 * 512

/-- The loop of `filewrite` when `i` bytes of `n` are written: the last `i`. -/
def filewriteLoop (f : File) (addr : UInt32) (n : Nat) : Nat → Nat → M Found Nat
  | 0, i => return i
  | fuel + 1, i => do
      if i < n then do
        let n1 := min (n - i) maxWrite
        lock
        let r ← writei f.ip (addr + UInt32.ofNat i) (← now).off (UInt32.ofNat n1)
        advance r
        if r < 0 then return i
        else if r ≠ Int32.ofNat n1 then stop (.panic "short filewrite")
        else filewriteLoop f addr n fuel (i + n1)
      else return i

/-- Write to file. -/
def filewrite (f : File) (addr : UInt32) (n : Int32) : M Found Int32 := do
  if !f.writable then return -1
  else
    match f.type with
    | .FD_PIPE => pipewrite addr n
    | .FD_INODE => do
        let i ← filewriteLoop f addr n.toInt.toNat n.toInt.toNat 0
        return if (i : Int) = n.toInt then n else -1
    | .FD_NONE => stop (.panic "filewrite")

/-! ## sysfile.c -/

def sysRead : M Found Int32 := do
  let s ← get
  match argfd s 0, argint s 2 with
  | some f, some n =>
      match argptr s 1 n with
      | some p => fileread f p n
      | none => return -1
  | _, _ => return -1

def sysWrite : M Found Int32 := do
  let s ← get
  match argfd s 0, argint s 2 with
  | some f, some n =>
      match argptr s 1 n with
      | some p => filewrite f p n
      | none => return -1
  | _, _ => return -1

def sysFstat : M Found Int32 := do
  let s ← get
  match argfd s 0, argptr s 1 sizeofStat with
  | some f, some st => filestat f st
  | _, _ => return -1

/-- Allocate a file descriptor for the given file. -/
def fdalloc (f : File) : M Found (Option (Fin NOFILE)) := do
  let ofile := (← rest).proc.ofile
  match (List.finRange NOFILE).find? fun fd => (ofile fd).isNone with
  | none => return none
  | some fd => do
      modifyRest fun s => { s with proc := { s.proc with
        ofile := Function.update s.proc.ofile fd (some f) } }
      return some fd

/-- `files` are the two that `pipealloc` allocates. -/
def sysPipe (files : Option (File × File)) : M Found Int32 := do
  let s ← get
  match argptr s 0 8, files with
  | some fd, some (rf, wf) => do
      match ← fdalloc rf with
      | none => return -1
      | some fd0 =>
          match ← fdalloc wf with
          | none => do
              modifyRest fun s => { s with proc := { s.proc with
                ofile := Function.update s.proc.ofile fd0 none } }
              return -1
          | some fd1 => do
              setFields fd [(0, Bytes.le 4 fd0), (4, Bytes.le 4 fd1)]
              return 0
  | _, _ => return -1

end Xv6.Syscall
