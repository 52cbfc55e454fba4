import Mathlib.Logic.Function.Basic
import Xv6.Param

/-!
# Xv6.Ide

The disk driver, `ide.c`.

The buffers in `idequeue` are linked through `qnext`.  A step is what one holder of `idelock`
does: a call of `iderw` up to its `sleep`, the end of such a call, or an interrupt.  An interrupt
comes when the drive is done with its command, and the drive reports success or an error for
it.  A panic ends a run.

`queued`, `served` and `call` are the history of the requests and are not read by the code.
-/

namespace Xv6.Ide

/-- A sector is a block. -/
def SECTOR_SIZE : Nat := 512

/-- `struct buf` -/
structure Buf where
  /-- `B_BUSY` -/
  busy : Bool
  /-- `B_VALID` -/
  valid : Bool
  /-- `B_DIRTY` -/
  dirty : Bool
  dev : Nat
  blockno : Nat
  data : Block

/-- What the registers of the drive ask for. -/
structure Command where
  /-- `b->dev & 1` -/
  drive : Bool
  sector : Nat
  /-- `IDE_CMD_WRITE` with its data; otherwise `IDE_CMD_READ` -/
  write : Option Block

/-- A call of `iderw`: is the block to be written, what was in the buffer, and, when the request
was served, what the block was then. -/
structure Request where
  write : Bool
  data : Block
  result : Option Block

structure State (N : Nat) where
  buf : Fin N → Buf
  idequeue : Option (Fin N)
  qnext : Fin N → Option (Fin N)
  havedisk1 : Bool
  disk : Bool → Nat → Block
  /-- the command in progress -/
  cmd : Option Command
  /-- the calls that did not return yet -/
  call : Fin N → Option Request
  queued : List (Fin N)
  served : List (Fin N)

variable {N : Nat}

/-- `b->dev & 1` -/
def Buf.drive (x : Buf) : Bool := x.dev % 2 == 1

def Buf.sector (x : Buf) : Nat := x.blockno * (BSIZE / SECTOR_SIZE)

/-- The block of a buffer on the disk. -/
def State.block (s : State N) (b : Fin N) : Block := s.disk (s.buf b).drive (s.buf b).sector

/-- Start the request for `b`. -/
def idestart (s : State N) (b : Fin N) : Option (State N) :=
  if FSSIZE ≤ (s.buf b).blockno then none
  else if 7 < BSIZE / SECTOR_SIZE then none
  else
    some { s with
      cmd := some
        { drive := (s.buf b).drive
          sector := (s.buf b).sector
          write := if (s.buf b).dirty then some (s.buf b).data else none } }

/-- The last buffer of a queue. -/
def lastOf (qnext : Fin N → Option (Fin N)) : Nat → Fin N → Option (Fin N)
  | 0, _ => none
  | n + 1, p =>
      match qnext p with
      | none => some p
      | some q => lastOf qnext n q

/-- Append `b` to `idequeue`. -/
def append (s : State N) (b : Fin N) : Option (State N) :=
  let qnext := Function.update s.qnext b none
  match s.idequeue with
  | none => some { s with qnext, idequeue := some b }
  | some p => (lastOf qnext N p).map fun t => { s with qnext := Function.update qnext t (some b) }

/-- Start disk if necessary. -/
def startFirst (s : State N) (b : Fin N) : Option (State N) :=
  if s.idequeue = some b then idestart s b else some s

/-- `iderw` up to the loop that waits for the request. -/
def iderw (s : State N) (b : Fin N) : Option (State N) :=
  let x := s.buf b
  if x.busy = false then none
  else if x.valid = true ∧ x.dirty = false then none
  else if x.dev ≠ 0 ∧ s.havedisk1 = false then none
  else do
    let s ← append s b
    let s ← startFirst s b
    return { s with
      queued := s.queued ++ [b]
      call := Function.update s.call b (some ⟨x.dirty, x.data, none⟩) }

/-- The drive is done with its command. -/
def finish (s : State N) (ok : Bool) : State N :=
  match s.cmd with
  | some ⟨drive, sector, some data⟩ =>
      if ok then
        { s with
          cmd := none
          disk := Function.update s.disk drive (Function.update (s.disk drive) sector data) }
      else { s with cmd := none }
  | _ => { s with cmd := none }

/-- The buffer of a request that is done: `status` is whether `idewait(1)` finds no error, and
`input` what `insl` reads. -/
def Buf.done (x : Buf) (status : Bool) (input : Block) : Buf :=
  let x := if x.dirty = false ∧ status = true then { x with data := input } else x
  { x with valid := true, dirty := false }

/-- `ideintr` for the request of `b`, up to `wakeup`. -/
def serve (s : State N) (b : Fin N) (status : Bool) (input : Block) : State N :=
  { s with
    idequeue := s.qnext b
    buf := Function.update s.buf b ((s.buf b).done status input)
    served := s.served ++ [b]
    call := Function.update s.call b
      ((s.call b).map fun r : Request => { r with result := some (s.block b) }) }

/-- Start disk on next buf in queue. -/
def startNext (s : State N) : Option (State N) :=
  match s.idequeue with
  | none => some s
  | some b => idestart s b

def ideintr (s : State N) (status : Bool) (input : Block) : Option (State N) :=
  match s.idequeue with
  -- spurious
  | none => some s
  | some b => startNext (serve s b status input)

/-- An interrupt, with what the drive reports for the command. -/
def interrupt (s : State N) (ok : Bool) : Option (State N) :=
  let input := match s.cmd with
    | some c => s.disk c.drive c.sector
    | none => fun _ => 0
  ideintr (finish s ok) ok input

inductive Label (N : Nat)
  /-- the holder of a buffer, or `bget`, changes it -/
  | use (b : Fin N) (x : Buf)
  /-- a process calls `iderw` -/
  | call (b : Fin N)
  /-- an interrupt of the disk -/
  | intr (ok : Bool)
  /-- `iderw` returns -/
  | ret (b : Fin N)

/-- A buffer is locked by the process that calls `iderw` for it, until that call returns. -/
def step (s : State N) : Label N → Option (State N)
  | .use b x =>
      if (s.call b).isSome then none else some { s with buf := Function.update s.buf b x }
  | .call b => if (s.call b).isSome then none else iderw s b
  | .intr ok => interrupt s ok
  | .ret b =>
      if (s.call b).isSome ∧ (s.buf b).valid = true ∧ (s.buf b).dirty = false then
        some { s with call := Function.update s.call b none }
      else none

/-- No request was made yet. -/
structure Initial (s : State N) : Prop where
  queue : s.idequeue = none
  cmd : s.cmd = none
  call : ∀ b, s.call b = none
  queued : s.queued = []
  served : s.served = []

end Xv6.Ide
