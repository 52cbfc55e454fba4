import Mathlib.Data.List.Range
import Xv6.Lib.Prog

/-!
# Xv6.Zip

The compressor of `zip.c`: a sliding window over the text, binary search trees
over the strings in the window to find the longest match, and the encoder
that sends literals and position-and-length pairs in groups of eight.

The global arrays and the match found last are the state `Search` that
`InsertNode` and `DeleteNode` work on; `Out` is the code buffer with the bytes
that have been passed to `write`; `Enc` adds the other variables of `Encode`
and the rest of the current input file.  An array is a function together with its size: an access outside
stops with `outOfBounds`, and a loop that does not end with `endless`.

`int` variables that only hold indices and lengths are natural numbers; `len`,
which is counted down, is an integer.
-/

namespace Xv6.Zip

/-- size of ring buffer -/
abbrev N : Nat := 4096

/-- upper limit for match_length -/
abbrev F : Nat := 18

/-- encode string into position and length if match_length is greater than this -/
abbrev THRESHOLD : Nat := 2

/-- index for root of binary search trees -/
abbrev NIL : Nat := N

inductive Fault
  | outOfBounds
  | endless
  deriving DecidableEq

/-- The globals of the match search. -/
structure Search where
  textBuf : Nat → UInt8
  matchPosition : Nat
  matchLength : Nat
  lson : Nat → Nat
  rson : Nat → Nat
  dad : Nat → Nat

/-! ## the arrays -/

/-- An index of an array with `size` elements. -/
def check {σ : Type} (i size : Nat) : Prog Fault σ Unit :=
  if i < size then pure () else throw .outOfBounds

abbrev T := Prog Fault Search

def text (i : Nat) : T UInt8 := do
  check i (N + F - 1)
  return (← get).textBuf i

def setText (i : Nat) (c : UInt8) : T Unit := do
  check i (N + F - 1)
  modify fun g => { g with textBuf := Function.update g.textBuf i c }

def lsonOf (i : Nat) : T Nat := do
  check i (N + 1)
  return (← get).lson i

def setLson (i v : Nat) : T Unit := do
  check i (N + 1)
  modify fun g => { g with lson := Function.update g.lson i v }

def rsonOf (i : Nat) : T Nat := do
  check i (N + 257)
  return (← get).rson i

def setRson (i v : Nat) : T Unit := do
  check i (N + 257)
  modify fun g => { g with rson := Function.update g.rson i v }

def dadOf (i : Nat) : T Nat := do
  check i (N + 1)
  return (← get).dad i

def setDad (i v : Nat) : T Unit := do
  check i (N + 1)
  modify fun g => { g with dad := Function.update g.dad i v }

/-! ## the trees -/

def initTree : T Unit := do
  (List.range 256).forM fun i => setRson (N + 1 + i) NIL
  (List.range N).forM fun i => setDad i NIL

/-- `for ( ; i < F; i++) if ((cmp = key[i] - text_buf[p + i]) != 0) break;`
with the number of passes that are left first. -/
def compareFrom (r p : Nat) : Nat → Nat → Int → T (Nat × Int)
  | 0, i, cmp => return (i, cmp)
  | n + 1, i, _ => do
      let cmp : Int := (← text (r + i)).toNat - (← text (p + i)).toNat
      if cmp ≠ 0 then return (i, cmp)
      compareFrom r p n (i + 1) cmp

/-- To the son on the side of `cmp`; when there is none, `r` becomes that son
and the search is over. -/
def descend (r p : Nat) (cmp : Int) : T (Option Nat) := do
  if cmp ≥ 0 then
    if (← rsonOf p) ≠ NIL then return some (← rsonOf p)
    setRson p r
    setDad r p
    return none
  else
    if (← lsonOf p) ≠ NIL then return some (← lsonOf p)
    setLson p r
    setDad r p
    return none

/-- `if (rson[dad[p]] == p) rson[dad[p]] = q; else lson[dad[p]] = q;` -/
def relinkDad (p q : Nat) : T Unit := do
  if (← rsonOf (← dadOf p)) = p then setRson (← dadOf p) q
  else setLson (← dadOf p) q

/-- The end of `InsertNode`: `r` takes the place of `p`. -/
def replaceNode (r p : Nat) : T Unit := do
  setDad r (← dadOf p)
  setLson r (← lsonOf p)
  setRson r (← rsonOf p)
  setDad (← lsonOf p) r
  setDad (← rsonOf p) r
  relinkDad p r
  setDad p NIL

/-- The loop of `InsertNode`. -/
def insertFrom (r : Nat) : Nat → Nat → Int → T Unit
  | 0, _, _ => throw .endless
  | fuel + 1, p, cmp => do
      match ← descend r p cmp with
      | none => return ()
      | some p =>
          let (i, cmp) ← compareFrom r p (F - 1) 1 cmp
          if i > (← get).matchLength then
            modify fun g => { g with matchPosition := p, matchLength := i }
            if i ≥ F then return ← replaceNode r p
          insertFrom r fuel p cmp

def insertNode (r : Nat) : T Unit := do
  let p := N + 1 + (← text r).toNat
  setLson r NIL
  setRson r NIL
  modify fun g => { g with matchLength := 0 }
  insertFrom r (N + 1) p 1

/-- `do { q = rson[q]; } while (rson[q] != NIL);` -/
def rightmost : Nat → Nat → T Nat
  | 0, _ => throw .endless
  | fuel + 1, q => do
      let q ← rsonOf q
      if (← rsonOf q) ≠ NIL then rightmost fuel q else return q

/-- What takes the place of `p`, which has two sons. -/
def successor (p : Nat) : T Nat := do
  let mut q ← lsonOf p
  if (← rsonOf q) ≠ NIL then
    q ← rightmost (N + 1) q
    setRson (← dadOf q) (← lsonOf q)
    setDad (← lsonOf q) (← dadOf q)
    setLson q (← lsonOf p)
    setDad (← lsonOf p) q
  setRson q (← rsonOf p)
  setDad (← rsonOf p) q
  return q

/-- What takes the place of `p`. -/
def heir (p : Nat) : T Nat := do
  if (← rsonOf p) = NIL then lsonOf p
  else do
    if (← lsonOf p) = NIL then rsonOf p
    else successor p

def deleteNode (p : Nat) : T Unit := do
  if (← dadOf p) = NIL then return ()
  let q ← heir p
  setDad q (← dadOf p)
  relinkDad p q
  setDad p NIL

/-- `text_buf[s] = c;  if (s < F - 1) text_buf[s + N] = c;` -/
def storeByte (s : Nat) (c : UInt8) : T Unit := do
  setText s c
  if s < F - 1 then setText (s + N) c

/-! ## the code -/

/-- The code that waits to be sent, and what has been sent. -/
structure Out where
  codeBuf : Nat → UInt8
  codeBufPtr : Nat
  mask : UInt8
  codesize : UInt32
  /-- the bytes passed to `write`, in order -/
  written : List UInt8

abbrev O := Prog Fault Out

def setCode (i : Nat) (c : UInt8) : O Unit := do
  check i 17
  modify fun o => { o with codeBuf := Function.update o.codeBuf i c }

/-- `code_buf[code_buf_ptr++] = c;` -/
def pushCode (c : UInt8) : O Unit := do
  setCode (← get).codeBufPtr c
  modify fun o => { o with codeBufPtr := o.codeBufPtr + 1 }

/-- Write `code_buf[0..code_buf_ptr)`. -/
def writeCode : O Unit := do
  (List.range (← get).codeBufPtr).forM fun i => do
    check i 17
    modify fun o => { o with written := o.written ++ [o.codeBuf i] }
  modify fun o => { o with codesize := o.codesize + UInt32.ofNat o.codeBufPtr }

/-- `code_buf[0] = 0;  code_buf_ptr = mask = 1;` -/
def clearCode : O Unit := do
  setCode 0 0
  modify fun o => { o with codeBufPtr := 1, mask := 1 }

/-- Send one byte. -/
def sendByte (c : UInt8) : O Unit := do
  setCode 0 ((← get).codeBuf 0 ||| (← get).mask)
  pushCode c

/-- Send position and length pair. -/
def sendPair (pos length : Nat) : O Unit := do
  pushCode (UInt8.ofNat pos)
  pushCode (UInt8.ofNat (((pos >>> 4) &&& 0xf0) ||| (length - (THRESHOLD + 1))))

/-- Shift the mask; after eight units the code is sent. -/
def shiftMask : O Unit := do
  modify fun o => { o with mask := o.mask <<< 1 }
  if (← get).mask = 0 then
    writeCode
    clearCode

/-! ## the encoder -/

/-- The variables of `Encode` with the globals. -/
structure Enc where
  search : Search
  out : Out
  textsize : UInt32
  printcount : UInt32
  len : Int
  r : Nat
  s : Nat
  /-- what is left of the current input file -/
  file : List UInt8

abbrev E := Prog Fault Enc

def onSearch {α : Type} (m : T α) : E α := focus Enc.search (fun g e => { e with search := g }) m

def onOut {α : Type} (m : O α) : E α := focus Enc.out (fun o e => { e with out := o }) m

/-- `read(file_masuk[iter], &c, 1)` -/
def readByte : E (Option UInt8) := do
  match (← get).file with
  | [] => return none
  | c :: cs =>
      modify fun e => { e with file := cs }
      return some c

def setMatchLength (n : Nat) : E Unit :=
  onSearch (modify fun g => { g with matchLength := n })

/-- `if (match_length > len) match_length = len;` -/
def cutMatch : E Unit := do
  if ((← get).search.matchLength : Int) > (← get).len then setMatchLength (← get).len.toNat

/-- One unit of code. -/
def sendUnit : E Unit := do
  cutMatch
  if (← get).search.matchLength ≤ THRESHOLD then
    setMatchLength 1
    onOut (sendByte (← onSearch (text (← get).r)))
  else onOut (sendPair (← get).search.matchPosition (← get).search.matchLength)

/-- `s = (s + 1) & (N - 1);  r = (r + 1) & (N - 1);` -/
def advance : E Unit :=
  modify fun e => { e with s := (e.s + 1) &&& (N - 1), r := (e.r + 1) &&& (N - 1) }

/-- Delete an old string, take the byte `c` that was read in its place, and
register the string at the new `r`. -/
def takeByte (c : UInt8) : E Unit := do
  onSearch (deleteNode (← get).s)
  onSearch (storeByte (← get).s c)
  advance
  onSearch (insertNode (← get).r)

/-- The loop that reads one byte for each that has been encoded, with the
number of passes that are left first. -/
def readLoop : Nat → Nat → E Nat
  | 0, i => return i
  | n + 1, i => do
      match ← readByte with
      | none => return i
      | some c =>
          takeByte c
          readLoop n (i + 1)

/-- After the end of text, no need to read, but buffer may not be empty. -/
def dropByte : E Unit := do
  onSearch (deleteNode (← get).s)
  advance
  modify fun e => { e with len := e.len - 1 }
  if (← get).len ≠ 0 then onSearch (insertNode (← get).r)

/-- `while (i++ < last_match_length)` -/
def drainLoop : Nat → E Unit
  | 0 => return ()
  | n + 1 => do
      dropByte
      drainLoop n

/-- `if ((textsize += i) > printcount) printcount += 1024;` -/
def progress (i : Nat) : E Unit := do
  modify fun e => { e with textsize := e.textsize + UInt32.ofNat i }
  if (← get).textsize > (← get).printcount then
    modify fun e => { e with printcount := e.printcount + 1024 }

/-- The `do … while (len > 0)` loop. -/
def encodeLoop : Nat → E Unit
  | 0 => throw .endless
  | fuel + 1 => do
      sendUnit
      onOut shiftMask
      let last := (← get).search.matchLength
      let i ← readLoop last 0
      progress i
      drainLoop (last - i)
      if (← get).len > 0 then encodeLoop fuel

/-- `for (len = 0; len < F && read(…) != 0; len++) text_buf[r + len] = c;` with
the number of passes that are left first. -/
def fillLoop : Nat → Nat → E Nat
  | 0, len => return len
  | n + 1, len => do
      match ← readByte with
      | none => return len
      | some c =>
          onSearch (setText ((← get).r + len) c)
          fillLoop n (len + 1)

/-- The body of the loop over the files; `true` when `Encode` returns because
of a text of size zero. -/
def encodeFile (file : List UInt8) : E Bool := do
  modify fun e => { e with file := file }
  let len ← fillLoop F 0
  modify fun e => { e with len := len, textsize := UInt32.ofNat len }
  if (← get).textsize = 0 then return true
  (List.range F).forM fun i => do
    if (← get).r < i + 1 then throw .outOfBounds
    onSearch (insertNode ((← get).r - (i + 1)))
  onSearch (insertNode (← get).r)
  encodeLoop file.length
  return false

/-- The loop over the files; `true` when `Encode` returns inside it. -/
def encodeFiles : List (List UInt8) → E Bool
  | [] => return false
  | file :: files => do
      if ← encodeFile file then return true
      encodeFiles files

def encode (files : List (List UInt8)) : E Unit := do
  onSearch initTree
  onOut clearCode
  modify fun e => { e with s := 0, r := N - F }
  (List.range (N - F)).forM fun i => onSearch (setText i 0)
  if ← encodeFiles files then return ()
  if (← get).out.codeBufPtr > 1 then onOut writeCode

/-- The variables when `Encode` is called: the globals are zero, `code_buf`
holds anything. -/
def start (codeBuf : Nat → UInt8) : Enc where
  search :=
    { textBuf := fun _ => 0, matchPosition := 0, matchLength := 0
      lson := fun _ => 0, rson := fun _ => 0, dad := fun _ => 0 }
  out := { codeBuf := codeBuf, codeBufPtr := 0, mask := 0, codesize := 0, written := [] }
  textsize := 0
  printcount := 0
  len := 0
  r := 0
  s := 0
  file := []

end Xv6.Zip
