import Xv6.Lib.Run
import Xv6.Lib.Ring

/-!
# Xv6.Console

Console input: `consoleintr` and `consoleread` of `console.c`.

Every section under `cons.lock` is a step.  A section of `consoleintr` handles the
characters that `getc` has; a section of `consoleread` goes on until the call
returns or sleeps on `input.r`, and a call that slept goes on with another section,
whether it was woken or not.  What is printed is left out.

Four histories go with the state.  `stream` and `line` are what was typed, by the
rules of the line discipline (`typeKey`), which say nothing of the ring; `taken` is
who took which character from the ring, and `returned` what the calls returned.
-/

namespace Xv6.Console

def INPUT_BUF : Nat := 128

/-- `struct input` -/
structure Input where
  buf : Fin INPUT_BUF → UInt8
  /-- read index -/
  r : UInt32
  /-- write index -/
  w : UInt32
  /-- edit index -/
  e : UInt32

/-- `C(x)`: control-x. -/
def ctrl (x : Char) : UInt8 := UInt8.ofNat (x.toNat - '@'.toNat)

def newline : UInt8 := 0x0a

instance : NeZero INPUT_BUF := ⟨by decide⟩

/-- `input.buf[i % INPUT_BUF]` -/
def Input.at (i : Input) (c : UInt32) : UInt8 := i.buf (Ring.slot INPUT_BUF c)

/-! ## consoleintr -/

/-- The loop of `C('U')`; it ends at `w`, so that it takes `e - w` rounds at most. -/
def killLoop : Nat → Input → Input
  | 0, i => i
  | n + 1, i =>
      if i.e ≠ i.w ∧ i.at (i.e - 1) ≠ newline then killLoop n { i with e := i.e - 1 } else i

/-- One character of `consoleintr`. -/
def key (i : Input) (c : UInt8) : Input :=
  if c = ctrl 'P' then i
  else if c = ctrl 'U' then killLoop (i.e - i.w).toNat i
  else if c = ctrl 'H' ∨ c = 0x7f then
    if i.e ≠ i.w then { i with e := i.e - 1 } else i
  else if c = ctrl 'R' ∨ c = ctrl 'F' ∨ c = ctrl 'S' ∨ c = ctrl 'Z' then i
  else if c ≠ 0 ∧ (i.e - i.r).toNat < INPUT_BUF then
    let c := if c = 0x0d then newline else c
    let i := { i with buf := Function.update i.buf (Ring.slot INPUT_BUF i.e) c, e := i.e + 1 }
    if c = newline ∨ c = ctrl 'D' ∨ i.e = i.r + UInt32.ofNat INPUT_BUF then { i with w := i.e }
    else i
  else i

/-! ## consoleread -/

/-- How a section of `consoleread` ends; `n` bytes are still to be read. -/
inductive Status
  | asleep (n : Nat)
  | returns
  | killed

/-- What a section of `consoleread` leaves: the ring, the bytes stored in `dst`, and
the characters taken from the ring. -/
structure Turn where
  input : Input
  data : List UInt8
  taken : List UInt8
  status : Status

/-- The loop of `consoleread`. -/
def readLoop (target : Nat) (killed : Bool) :
    Nat → Input → List UInt8 → List UInt8 → Turn
  | 0, i, data, taken => ⟨i, data, taken, .returns⟩
  | n + 1, i, data, taken =>
      if i.r = i.w then ⟨i, data, taken, if killed then .killed else .asleep (n + 1)⟩
      else
        let c := i.at i.r
        let i := { i with r := i.r + 1 }
        if c = ctrl 'D' then
          if n + 1 < target then ⟨{ i with r := i.r - 1 }, data, taken, .returns⟩
          else ⟨i, data, taken ++ [c], .returns⟩
        else if c = newline then ⟨i, data ++ [c], taken ++ [c], .returns⟩
        else readLoop target killed n i (data ++ [c]) (taken ++ [c])

/-! ## what is typed -/

/-- What a character means. -/
inductive Key
  /-- a control-key command -/
  | command
  | killLine
  | erase
  | char (c : UInt8)

def classify (c : UInt8) : Key :=
  if c = ctrl 'P' ∨ c = ctrl 'R' ∨ c = ctrl 'F' ∨ c = ctrl 'S' ∨ c = ctrl 'Z' ∨ c = 0 then .command
  else if c = ctrl 'U' then .killLine
  else if c = ctrl 'H' ∨ c = 0x7f then .erase
  else if c = 0x0d then .char newline
  else .char c

/-- The committed stream and the line that is being typed, after one more character;
`room` characters fit in the buffer. -/
def typeKey (room : Nat) (stream line : List UInt8) (c : UInt8) : List UInt8 × List UInt8 :=
  match classify c with
  | .command => (stream, line)
  | .killLine => (stream, [])
  | .erase => (stream, line.dropLast)
  | .char c =>
      if room = 0 then (stream, line)
      else if c = newline ∨ c = ctrl 'D' ∨ room = 1 then (stream ++ line ++ [c], [])
      else (stream, line ++ [c])

/-! ## steps -/

variable {P : Type}

/-- A call of `consoleread` that has not returned. -/
structure Reader where
  target : Nat
  /-- bytes still to be read -/
  n : Nat
  /-- bytes stored in `dst` -/
  data : List UInt8

structure State (P : Type) where
  input : Input
  reader : P → Option Reader
  stream : List UInt8
  line : List UInt8
  taken : List (P × UInt8)
  returned : List (P × List UInt8)

namespace State

/-- The characters that were committed and not yet taken. -/
def pending (s : State P) : List UInt8 := s.stream.drop s.taken.length

/-- How many characters fit in the buffer. -/
def room (s : State P) : Nat := INPUT_BUF - (s.pending.length + s.line.length)

def type (s : State P) (c : UInt8) : State P :=
  let (stream, line) := typeKey s.room s.stream s.line c
  { s with input := key s.input c, stream, line }

variable [DecidableEq P]

/-- A section of `consoleread`. -/
def turn (s : State P) (p : P) (rd : Reader) (killed : Bool) : State P :=
  let t := readLoop rd.target killed rd.n s.input rd.data []
  let s := { s with input := t.input, taken := s.taken ++ t.taken.map fun c => (p, c) }
  match t.status with
  | .asleep n => { s with reader := Function.update s.reader p (some ⟨rd.target, n, t.data⟩) }
  | .returns =>
      { s with
        reader := Function.update s.reader p none
        returned := s.returned ++ [(p, t.data)] }
  | .killed => { s with reader := Function.update s.reader p none }

end State

inductive Label (P : Type)
  /-- `consoleintr`, with the characters that `getc` returns -/
  | intr (cs : List UInt8)
  /-- the process `p` calls `consoleread` for `n` bytes -/
  | read (p : P) (n : Nat) (killed : Bool)
  /-- a call that slept goes on -/
  | resume (p : P) (killed : Bool)

variable [DecidableEq P]

def step (s : State P) : Label P → Option (State P)
  | .intr cs => some (cs.foldl State.type s)
  | .read p n killed =>
      match s.reader p with
      | some _ => none
      | none => if n = 0 then some s else some (s.turn p ⟨n, n, []⟩ killed)
  | .resume p killed => (s.reader p).map fun rd => s.turn p rd killed

/-- Nothing is typed; the indices are equal. -/
def start (buf : Fin INPUT_BUF → UInt8) (r : UInt32) : State P where
  input := ⟨buf, r, r, r⟩
  reader _ := none
  stream := []
  line := []
  taken := []
  returned := []

end Xv6.Console
