import Xv6.Lib.Dring
import Xv6.Log

/-!
# Xv6.Bio

The buffer cache of `bio.c`, the disk driver of `ide.c` below it and the log of `log.c`
above it, with any number of processes.

* `Bcache` is what memory and the disks hold: the buffers with their ring of `prev` and
  `next` pointers, the queue of the driver, the log in memory, and of every process the
  buffers that `bget` gave it and where it is.
* A step (`Act`) is a section of code under one of the locks, the interrupt of the disk,
  or what a process does with a buffer it holds.  `bget` scans the ring again after every
  sleep.  `commit` is the list of its statements, for the blocks in the log.
* A buffer is queued for the disk until the interrupt; the disk does not fail.
* `stored`, `unsaved`, `clock` and `released` are no part of the code.  They record what
  was last stored for a block, whether a buffer was changed since, and when it was
  released.

What is up to the callers of `bio.c`: they pass the number of one of the two disks, use
the buffers they hold, and release no buffer that they have changed and not stored.
-/

namespace Xv6.Bio

/-- `-1`, the device of a buffer that was never used. -/
def NODEV : Nat := 2 ^ 32 - 1

/-- `struct buf`; the pointers are in `Links`. -/
structure Buf where
  /-- `B_BUSY` -/
  busy : Bool
  /-- `B_VALID` -/
  valid : Bool
  /-- `B_DIRTY` -/
  dirty : Bool
  dev : Nat
  blockno : Nat
  data : Block

/-- Where a process is in `bread` or `bwrite`. -/
inductive Pending (NBUF : Nat)
  /-- outside -/
  | none
  /-- in `bget` -/
  | bget (dev blockno : Nat)
  /-- in `bread`, with the buffer that `bget` returned -/
  | got (dev blockno : Nat) (b : Fin NBUF)
  /-- in `iderw`, called by `bread` -/
  | reading (dev blockno : Nat) (b : Fin NBUF)
  /-- in `iderw`, called by `bwrite` -/
  | writing (b : Fin NBUF)
deriving DecidableEq

/-- The local variables of `commit`: the buffer of the log, and of the home block. -/
inductive Reg
  | lbuf
  | dbuf
deriving DecidableEq

/-- The statements of `commit`. -/
inductive Instr
  | bread (r : Reg) (blockno : Nat)
  /-- `memmove(dst->data, src->data, BSIZE)` -/
  | memmove (dst src : Reg)
  /-- the header is copied to the buffer -/
  | putHead (r : Reg)
  | bwrite (r : Reg)
  | brelse (r : Reg)
  /-- `log.lh.n = 0` -/
  | clear

structure Proc (NBUF : Nat) where
  /-- what `bget` has returned and was not passed to `brelse` -/
  held : List (Fin NBUF)
  pending : Pending NBUF
  /-- the rest of `commit`, for a process that is in it -/
  code : Option (List Instr)
  reg : Reg → Option (Fin NBUF)

/-- Not in `bread`, `bwrite` or `commit`. -/
def Proc.Free {NBUF : Nat} (x : Proc NBUF) : Prop := x.code.isNone = true ∧ x.pending = .none

instance {NBUF : Nat} (x : Proc NBUF) : Decidable x.Free := by
  unfold Proc.Free
  infer_instance

/-- `struct log`; `dev` is `ROOTDEV`. -/
structure Log where
  start : Nat
  size : Nat
  outstanding : Nat
  committing : Bool
  lh : List Nat

structure Bcache (NBUF : Nat) where
  buf : Fin NBUF → Buf
  links : Links (Fin NBUF)
  idequeue : List (Fin NBUF)
  havedisk1 : Bool
  disk : Nat → Nat → Block
  log : Log
  proc : Nat → Proc NBUF
  /-- what was last stored for a block, or is on the disk at the start -/
  stored : Nat → Nat → Block
  /-- changed since the last store -/
  unsaved : Fin NBUF → Bool
  clock : Nat
  /-- when it was last released -/
  released : Fin NBUF → Nat

/-- The statements of `write_log`. -/
def writeLog (log : Log) : List Instr :=
  log.lh.zipIdx.flatMap fun (home, tail) =>
    [.bread .lbuf (log.start + tail + 1), .bread .dbuf home, .memmove .lbuf .dbuf, .bwrite .lbuf,
      .brelse .dbuf, .brelse .lbuf]

/-- The statements of `write_head`. -/
def writeHead (log : Log) : List Instr :=
  [.bread .lbuf log.start, .putHead .lbuf, .bwrite .lbuf, .brelse .lbuf]

/-- The statements of `install_trans`. -/
def installTrans (log : Log) : List Instr :=
  log.lh.zipIdx.flatMap fun (home, tail) =>
    [.bread .lbuf (log.start + tail + 1), .bread .dbuf home, .memmove .dbuf .lbuf, .bwrite .dbuf,
      .brelse .lbuf, .brelse .dbuf]

/-- The statements of `commit`.  No block is added to the log until it returns. -/
def commit (log : Log) : List Instr :=
  if 0 < log.lh.length then
    writeLog log ++ writeHead log ++ installTrans log ++ [.clear] ++ writeHead log
  else []

inductive Act (NBUF : Nat)
  /-- a process calls `bread` -/
  | bread (p dev blockno : Nat)
  /-- the section of `bget`, from `loop` on -/
  | bget (p : Nat)
  /-- `bget` has returned: `if (!(b->flags & B_VALID)) iderw(b)` -/
  | check (p : Nat)
  /-- `iderw` returns -/
  | finish (p : Nat)
  | ideintr
  /-- a process changes the data of a buffer -/
  | modify (p : Nat) (b : Fin NBUF) (data : Block)
  | bwrite (p : Nat) (b : Fin NBUF)
  | logWrite (p : Nat) (b : Fin NBUF)
  | brelse (p : Nat) (b : Fin NBUF)
  | beginOp (p : Nat)
  /-- the first section of `end_op` -/
  | endOp (p : Nat)
  /-- the next statement of `commit`, and at its end the last section of `end_op` -/
  | commit (p : Nat)

namespace Bcache

variable {NBUF : Nat}

def setBuf (y : Bcache NBUF) (b : Fin NBUF) (f : Buf → Buf) : Bcache NBUF :=
  { y with buf := Function.update y.buf b (f (y.buf b)) }

def setProc (y : Bcache NBUF) (p : Nat) (f : Proc NBUF → Proc NBUF) : Bcache NBUF :=
  { y with proc := Function.update y.proc p (f (y.proc p)) }

/-- `bget` returns `b` to `p`. -/
def give (y : Bcache NBUF) (p dev blockno : Nat) (b : Fin NBUF) : Bcache NBUF :=
  y.setProc p fun x => { x with held := b :: x.held, pending := .got dev blockno b }

/-- The section of `bget`.  `none` is `panic("bget: no buffers")`. -/
def bget (y : Bcache NBUF) (p dev blockno : Nat) : Option (Bcache NBUF) :=
  -- is the block already cached?
  match scan y.links.next (fun b => (y.buf b).dev == dev && (y.buf b).blockno == blockno) (NBUF + 1)
      (y.links.next none) with
  | some b =>
      -- sleep(b, &bcache.lock); goto loop
      if (y.buf b).busy then some y
      else some ((y.setBuf b fun b => { b with busy := true }).give p dev blockno b)
  | none =>
      -- not cached; recycle some non-busy and clean buffer
      match scan y.links.prev (fun b => !(y.buf b).busy && !(y.buf b).dirty) (NBUF + 1)
          (y.links.prev none) with
      | some b =>
          some ((y.setBuf b fun b =>
            { b with dev, blockno, busy := true, valid := false, dirty := false }).give p dev blockno
              b)
      | none => none

/-- `idestart` finds the block on the disk. -/
def idestartOk (y : Bcache NBUF) (b : Fin NBUF) : Bool := (y.buf b).blockno < FSSIZE

/-- `iderw` until it sleeps; `none` is a panic. -/
def iderw (y : Bcache NBUF) (b : Fin NBUF) : Option (Bcache NBUF) :=
  if (y.buf b).busy = false then none
  else if (y.buf b).valid = true ∧ (y.buf b).dirty = false then none
  else if (y.buf b).dev ≠ 0 ∧ y.havedisk1 = false then none
  else if y.idequeue = [] ∧ y.idestartOk b = false then none
  else some { y with idequeue := y.idequeue ++ [b] }

/-- `iderw` returns once the buffer is valid and clean. -/
def Ready (y : Bcache NBUF) (b : Fin NBUF) : Prop :=
  (y.buf b).valid = true ∧ (y.buf b).dirty = false

instance (y : Bcache NBUF) (b : Fin NBUF) : Decidable (y.Ready b) := by
  unfold Ready
  infer_instance

/-- `bread` returns `b` to `p`. -/
def breturn (y : Bcache NBUF) (p : Nat) (b : Fin NBUF) : Bcache NBUF :=
  y.setProc p fun x => { x with
    pending := .none
    code := match x.code with
      | some (.bread _ _ :: is) => some is
      | code => code
    reg := match x.code with
      | some (.bread r _ :: _) => Function.update x.reg r (some b)
      | _ => x.reg }

/-- The transfer that `ideintr` finds complete. -/
def transfer (y : Bcache NBUF) (b : Fin NBUF) : Bcache NBUF :=
  let unit := (y.buf b).dev % 2
  let y :=
    if (y.buf b).dirty then
      { y with
        disk := Function.update y.disk unit
          (Function.update (y.disk unit) (y.buf b).blockno (y.buf b).data) }
    else y.setBuf b fun x => { x with data := y.disk unit x.blockno }
  y.setBuf b fun b => { b with valid := true, dirty := false }

def ideintr (y : Bcache NBUF) : Option (Bcache NBUF) :=
  match y.idequeue with
  | [] => some y
  | b :: q =>
      if q.head?.all y.idestartOk then some { y.transfer b with idequeue := q } else none

/-- The data of a buffer is changed. -/
def modify (y : Bcache NBUF) (b : Fin NBUF) (data : Block) : Bcache NBUF :=
  { y.setBuf b fun x => { x with data } with unsaved := Function.update y.unsaved b true }

/-- The data of a buffer is stored for its block. -/
def store (y : Bcache NBUF) (b : Fin NBUF) : Bcache NBUF :=
  { y.setBuf b fun x => { x with dirty := true } with
    stored := Function.update y.stored (y.buf b).dev
      (Function.update (y.stored (y.buf b).dev) (y.buf b).blockno (y.buf b).data)
    unsaved := Function.update y.unsaved b false }

/-- `bwrite` by `p`, until it sleeps; `none` is a panic. -/
def bwrite (y : Bcache NBUF) (p : Nat) (b : Fin NBUF) : Option (Bcache NBUF) :=
  if (y.buf b).busy = false then none
  else ((y.store b).iderw b).map (·.setProc p fun x => { x with pending := .writing b })

/-- `log_write`; `none` is a panic. -/
def logWrite (y : Bcache NBUF) (b : Fin NBUF) : Option (Bcache NBUF) :=
  if LOGSIZE ≤ y.log.lh.length ∨ y.log.size - 1 ≤ y.log.lh.length then none
  else if y.log.outstanding < 1 then none
  else
    some { y.store b with
      log := { y.log with lh := Xv6.Log.absorb y.log.lh (y.buf b).blockno } }

/-- `brelse` by `p`; `none` is a panic. -/
def brelse (y : Bcache NBUF) (p : Nat) (b : Fin NBUF) : Option (Bcache NBUF) :=
  if (y.buf b).busy = false then none
  else
    let y := { y with links := (y.links.unlink b).pushFront b }
    let y := y.setBuf b fun x => { x with busy := false }
    let y := { y with clock := y.clock + 1, released := Function.update y.released b (y.clock + 1) }
    some (y.setProc p fun x => { x with held := x.held.erase b })

/-- A process can do something with `b`. -/
def MayUse (y : Bcache NBUF) (p : Nat) (b : Fin NBUF) : Prop :=
  (y.proc p).Free ∧ b ∈ (y.proc p).held

instance (y : Bcache NBUF) (p : Nat) (b : Fin NBUF) : Decidable (y.MayUse p b) :=
  decidable_of_iff ((y.proc p).Free ∧ (y.proc p).held.contains b) (by simp [MayUse])

/-- The next statement of `commit` goes on to `is`. -/
def goOn (y : Bcache NBUF) (p : Nat) (is : List Instr) : Bcache NBUF :=
  y.setProc p fun x => { x with code := some is }

/-- The buffer in a local variable of `commit`, which the process holds. -/
def bufOf (y : Bcache NBUF) (p : Nat) (r : Reg) : Option (Fin NBUF) :=
  ((y.proc p).reg r).filter fun b => b ∈ (y.proc p).held

/-- A statement of `commit`. -/
def instr (y : Bcache NBUF) (p : Nat) (is : List Instr) : Instr → Option (Bcache NBUF)
  | .bread _ blockno =>
      some (y.setProc p fun x => { x with pending := .bget ROOTDEV.toNat blockno })
  | .memmove dst src =>
      match y.bufOf p dst, y.bufOf p src with
      | some b, some c => some ((y.modify b (y.buf c).data).goOn p is)
      | _, _ => none
  | .putHead r =>
      (y.bufOf p r).map fun b =>
        (y.modify b (Xv6.Log.putHead (y.buf b).data y.log.lh)).goOn p is
  | .bwrite r => (y.bufOf p r).bind fun b => ((y.goOn p is).bwrite p b)
  | .brelse r =>
      (y.bufOf p r).bind fun b => if y.unsaved b then none else (y.goOn p is).brelse p b
  | .clear => some ({ y with log := { y.log with lh := [] } }.goOn p is)

/-- **A step.** -/
def step (y : Bcache NBUF) : Act NBUF → Option (Bcache NBUF)
  | .bread p dev blockno =>
      if (y.proc p).Free ∧ dev < 2 then
        some (y.setProc p fun x => { x with pending := .bget dev blockno })
      else none
  | .bget p =>
      match (y.proc p).pending with
      | .bget dev blockno => y.bget p dev blockno
      | _ => none
  | .check p =>
      match (y.proc p).pending with
      | .got dev blockno b =>
          if (y.buf b).valid then some (y.breturn p b)
          else (y.iderw b).map (·.setProc p fun x => { x with pending := .reading dev blockno b })
      | _ => none
  | .finish p =>
      match (y.proc p).pending with
      | .reading _ _ b => if y.Ready b then some (y.breturn p b) else none
      | .writing b =>
          if y.Ready b then some (y.setProc p fun x => { x with pending := .none }) else none
      | _ => none
  | .ideintr => y.ideintr
  | .modify p b data => if y.MayUse p b then some (y.modify b data) else none
  | .bwrite p b => if y.MayUse p b then y.bwrite p b else none
  | .logWrite p b => if y.MayUse p b then y.logWrite b else none
  | .brelse p b => if y.MayUse p b ∧ y.unsaved b = false then y.brelse p b else none
  | .beginOp p =>
      -- otherwise it sleeps
      if (y.proc p).Free ∧ y.log.committing = false ∧
          y.log.lh.length + (y.log.outstanding + 1) * MAXOPBLOCKS ≤ LOGSIZE then
        some { y with log := { y.log with outstanding := y.log.outstanding + 1 } }
      else none
  | .endOp p =>
      -- `committing` is `panic("log.committing")`
      if (y.proc p).Free ∧ 0 < y.log.outstanding ∧ y.log.committing = false then
        let log := { y.log with outstanding := y.log.outstanding - 1 }
        if log.outstanding = 0 then
          some ({ y with log := { log with committing := true } }.goOn p (commit log))
        else some { y with log }
      else none
  | .commit p =>
      match (y.proc p).pending, (y.proc p).code with
      | .none, some [] =>
          some ({ y with log := { y.log with committing := false } }.setProc p fun x =>
            { x with code := none })
      | .none, some (i :: is) => y.instr p is i
      | _, _ => none

end Bcache

/-! ## the start -/

variable {NBUF : Nat}

/-- The state after `binit`, with given contents of the disks. -/
def binit (NBUF : Nat) (disk : Nat → Nat → Block) (havedisk1 : Bool) (log : Log) : Bcache NBUF where
  buf := fun _ => ⟨false, false, false, NODEV, 0, fun _ => 0⟩
  links := (List.finRange NBUF).foldl Links.pushFront Links.empty
  idequeue := []
  havedisk1
  disk
  log
  proc := fun _ => ⟨[], .none, none, fun _ => none⟩
  stored := disk
  unsaved := fun _ => false
  clock := 0
  released := fun _ => 0

end Xv6.Bio
