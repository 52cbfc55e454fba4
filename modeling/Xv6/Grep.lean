import Mathlib.Data.List.Basic

/-!
# Xv6.Grep

The command `grep`, `grep.c`: its matcher, and the loop that reads the input through the
buffer `buf`.

A string is given without its terminating `0`.  The input is the list of what the calls of
`read` deliver, and the output is what is written.
-/

namespace Xv6.Grep

/-! ## the matcher -/

/-- Search for `c*re` at the beginning of `text`; `here` is `matchhere(re, ·)`. -/
def matchstar (here : List UInt8 → Bool) (c : UInt8) : List UInt8 → Bool
  | [] => here []
  | t :: text => here (t :: text) || (t == c || c == 0x2e) && matchstar here c text

/-- Search for `re` at the beginning of `text`. -/
def matchhere : List UInt8 → List UInt8 → Bool
  | [], _ => true
  | c :: 0x2a :: re, text => matchstar (matchhere re) c text
  | c :: re, text =>
      if c = 0x24 ∧ re = [] then text.isEmpty
      else
        match text with
        | [] => false
        | t :: text => (c == 0x2e || c == t) && matchhere re text

/-- The loop of `match` over the ends of `text`, the empty one included. -/
def matchLoop (re : List UInt8) : List UInt8 → Bool
  | [] => matchhere re []
  | t :: text => matchhere re (t :: text) || matchLoop re text

/-- `match` -/
def match' (re text : List UInt8) : Bool :=
  match re with
  | 0x5e :: re => matchhere re text
  | re => matchLoop re text

/-! ## the buffer -/

/-- `sizeof(buf)` -/
def BUFSIZE : Nat := 1024

abbrev Buf := Nat → UInt8

/-- `strchr(p, c)`, within `n` bytes. -/
def strchr (buf : Buf) (c : UInt8) : Nat → Nat → Option Nat
  | 0, _ => none
  | n + 1, p =>
      if buf p = 0 then none
      else if buf p = c then some p
      else strchr buf c n (p + 1)

/-- The string at `p`, within `n` bytes. -/
def str (buf : Buf) : Nat → Nat → List UInt8
  | 0, _ => []
  | n + 1, p => if buf p = 0 then [] else buf p :: str buf n (p + 1)

/-- The bytes from `p` up to `q`. -/
def bytes (buf : Buf) (p q : Nat) : List UInt8 := (List.range (q - p)).map fun k => buf (p + k)

/-- What `read` does: store bytes from `m` on. -/
def fill (buf : Buf) (m : Nat) (piece : List UInt8) : Buf :=
  fun k => if m ≤ k ∧ k < m + piece.length then piece.getD (k - m) 0 else buf k

/-- `memmove(buf, p, n)` -/
def memmove (buf : Buf) (p n : Nat) : Buf := fun k => if k < n then buf (p + k) else buf k

/-- The inner loop: the buffer, `p` and the output at its end. -/
def lines (pattern : List UInt8) : Nat → Buf → Nat → Buf × Nat × List UInt8
  | 0, buf, p => (buf, p, [])
  | n + 1, buf, p =>
      match strchr buf 0x0a BUFSIZE p with
      | none => (buf, p, [])
      | some q =>
          let buf := Function.update buf q 0
          if match' pattern (str buf BUFSIZE p) then
            let buf := Function.update buf q 0x0a
            let (buf', p', out) := lines pattern n buf (q + 1)
            (buf', p', bytes buf p (q + 1) ++ out)
          else lines pattern n buf (q + 1)

/-- One pass of the outer loop, after `read` has delivered `piece`: the buffer, `m` and the
output. -/
def pass (pattern : List UInt8) (buf : Buf) (m : Nat) (piece : List UInt8) :
    Buf × Nat × List UInt8 :=
  let buf := fill buf m piece
  let m := m + piece.length
  let buf := Function.update buf m 0
  let (buf, p, out) := lines pattern BUFSIZE buf 0
  let m := if p = 0 then 0 else m
  if 0 < m then (memmove buf p (m - p), m - p, out) else (buf, m, out)

/-- `grep`: what it writes. -/
def grep (pattern : List UInt8) : Buf → Nat → List (List UInt8) → List UInt8
  | _, _, [] => []
  | buf, m, piece :: pieces =>
      let (buf, m, out) := pass pattern buf m piece
      out ++ grep pattern buf m pieces

end Xv6.Grep
