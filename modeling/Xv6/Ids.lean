import Xv6.Lib.Run

/-!
# Xv6.Ids

The enumeration of users and groups, `ids.c`.

The two families `setid`, `getid`, `endid` and `setgroup`, `getgroup`, `endgroup` are
the same three functions, over another file and with another record at the end, and
share the descriptor `dir` and the buffer `current_line`.

The file that `dir` is open on is its bytes that were not yet read.  A name is a
pointer into `current_line`.  The array `tokens` has no initial value and no bound
check where a blank is found; a call that stores past its end, or reads a place where
nothing was stored, is undefined (`none`).
-/

namespace Xv6.Ids

def PANJANG_LINE : Nat := 32

def JUMLAH_TOKEN : Nat := 3

inductive Family
  | id
  | group
deriving DecidableEq

/-! ## lines -/

/-- `c == '\n' || c == '\r'` -/
def isEnd (c : UInt8) : Bool := c == 0x0a || c == 0x0d

/-- The loop of `fgets`, for `n` bytes: what it stores, and the rest of the file. -/
def fgetsLoop : Nat → List UInt8 → List UInt8 × List UInt8
  | 0, f => ([], f)
  | _ + 1, [] => ([], [])
  | n + 1, c :: f =>
      if isEnd c then ([c], f)
      else
        let (line, f) := fgetsLoop n f
        (c :: line, f)

def fgets (size : Nat) (f : List UInt8) : List UInt8 × List UInt8 := fgetsLoop (size - 1) f

/-- The string in the buffer, without the end of the line. -/
def chop (line : List UInt8) : List UInt8 :=
  let s := line.takeWhile (· != 0)
  if s.getLast?.any isEnd then s.dropLast else s

/-- The loop that fills `tokens`; `i` is the index of the first byte. -/
def split : Nat → Bool → List Nat → List UInt8 → Option (List Nat)
  | _, _, tokens, [] => some tokens
  | i, ok, tokens, c :: line =>
      if c = 0x20 then
        if ok then split (i + 1) false tokens line
        else if tokens.length < JUMLAH_TOKEN then split (i + 1) false (tokens ++ [i]) line
        -- a store past the end of `tokens`
        else none
      else if !ok && tokens.length < JUMLAH_TOKEN then split (i + 1) true (tokens ++ [i]) line
      else split (i + 1) ok tokens line

/-- The string at a place of the buffer. -/
def cstr (line : List UInt8) (i : Nat) : List UInt8 := (line.drop i).takeWhile (· != 0)

/-- The digits at the front of a string. -/
def digits (n : UInt32) : List UInt8 → UInt32
  | [] => n
  | c :: s => if 0x30 ≤ c ∧ c ≤ 0x39 then digits (n * 10 + c.toUInt32 - 0x30) s else n

def atoi (s : List UInt8) : UInt32 :=
  match s.dropWhile (· == 0x20) with
  | [] => 0
  | c :: s =>
      if c = 0x2d then 0 - digits 0 s
      else if c = 0x2b then digits 0 s
      else digits 0 (c :: s)

/-! ## records -/

/-- What a caller sees in the record that it gets. -/
inductive Record
  | user (nama_user : List UInt8) (uid_user gid_user : UInt32)
  | group (nama_group : List UInt8) (gid : UInt32)
deriving DecidableEq

/-- What `get_id` or `get_group` leaves: the rest of the file, the buffer, and the
pointer and the values of the record unless it returns -1. -/
structure Entry where
  rest : List UInt8
  line : List UInt8
  record : Option (Nat × Record)

/-- `tokens` to a record. -/
def toRecord (line : List UInt8) : Family → List Nat → Option (Nat × Record)
  | .id, a :: b :: c :: _ =>
      some (a, .user (cstr line a) (atoi (cstr line b)) (atoi (cstr line c)))
  | .group, a :: b :: _ => some (a, .group (cstr line a) (atoi (cstr line b)))
  | _, _ => none

/-- `get_id` and `get_group`. -/
def getEntry (fam : Family) (f : List UInt8) : Option Entry := do
  let (line, rest) := fgets PANJANG_LINE f
  let s := chop line
  let tokens ← split 0 false [] s
  let line := s.map fun c => if c = 0x20 then 0 else c
  if s = [] then return ⟨rest, line, none⟩
  else
    let r ← toRecord line fam tokens
    return ⟨rest, line, some r⟩

/-! ## calls -/

/-- The contents of the two files; a file that cannot be opened has none. -/
abbrev Files : Type := Family → Option (List UInt8)

structure State where
  /-- the bytes that were not yet read; 0 is `none` -/
  dir : Option (List UInt8)
  current_line : List UInt8
  /-- what the calls of `getid` and `getgroup` returned -/
  out : List (Family × Option Record)
  /-- the name in the record of a family, as a pointer and as it was returned, until
  the next call of the family -/
  held : Family → Option (Nat × List UInt8)

inductive Call
  /-- `setid`, `setgroup` -/
  | set (fam : Family)
  /-- `getid`, `getgroup` -/
  | get (fam : Family)
  /-- `endid`, `endgroup` -/
  | fin (fam : Family)
deriving DecidableEq

def Call.family : Call → Family
  | .set fam => fam
  | .get fam => fam
  | .fin fam => fam

def Record.name : Record → List UInt8
  | .user name _ _ => name
  | .group name _ => name

/-- A call of `getid` or `getgroup` with `dir` open. -/
def State.read (s : State) (fam : Family) (f : List UInt8) : Option State := do
  let e ← getEntry fam f
  return {
    dir := some e.rest
    current_line := e.line
    out := s.out ++ [(fam, e.record.map Prod.snd)]
    held := Function.update s.held fam (e.record.map fun r => (r.1, r.2.name)) }

def step (files : Files) (s : State) : Call → Option State
  | .set fam => some { s with dir := files fam, held := Function.update s.held fam none }
  | .fin fam => some { s with dir := none, held := Function.update s.held fam none }
  | .get fam =>
      -- a file that is open is not opened again
      match s.dir <|> files fam with
      | some f => s.read fam f
      | none =>
          some { s with
            out := s.out ++ [(fam, none)]
            held := Function.update s.held fam none }

def init : State where
  dir := none
  current_line := []
  out := []
  held _ := none

/-! ## lookups -/

/-- Compare two strings. -/
def strcmp : List UInt8 → List UInt8 → Int
  | [], q => 0 - (q.headD 0).toNat
  | c :: _, [] => c.toNat
  | c :: p, d :: q => if c = d then strcmp p q else c.toNat - d.toNat

/-- What the last call of `getid` or `getgroup` returned. -/
def State.last (s : State) : Option Record := s.out.getLast?.bind Prod.snd

/-- The loop over the lines of a file, up to `fuel` of them; a lookup returns the record of
the first line that passes `test`. -/
def cekLoop (files : Files) (fam : Family) (test : Record → Bool) :
    Nat → State → Option (Option Record × State)
  | 0, _ => none
  | fuel + 1, s => do
      let s ← step files s (.get fam)
      match s.last with
      | none => return (none, ← step files s (.fin fam))
      | some r =>
          if test r then return (some r, ← step files s (.fin fam))
          else cekLoop files fam test fuel s

def cek (files : Files) (fam : Family) (test : Record → Bool) (fuel : Nat) (s : State) :
    Option (Option Record × State) := do
  cekLoop files fam test fuel (← step files s (.set fam))

/-- `uid_user`, or `gid` of a group -/
def Record.number : Record → UInt32
  | .user _ uid _ => uid
  | .group _ gid => gid

def cekNama (files : Files) (nama : List UInt8) (fuel : Nat) (s : State) :
    Option (Option Record × State) :=
  cek files .id (fun r => strcmp nama r.name = 0) fuel s

def cekUid (files : Files) (uid : UInt32) (fuel : Nat) (s : State) :
    Option (Option Record × State) :=
  cek files .id (fun r => r.number = uid) fuel s

def cekNamaGroup (files : Files) (nama : List UInt8) (fuel : Nat) (s : State) :
    Option (Option Record × State) :=
  cek files .group (fun r => strcmp nama r.name = 0) fuel s

def cekGid (files : Files) (gid : UInt32) (fuel : Nat) (s : State) :
    Option (Option Record × State) :=
  cek files .group (fun r => r.number = gid) fuel s

end Xv6.Ids
