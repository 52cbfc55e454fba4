import Xv6.Param

/-!
# Xv6.Sh

The parser of the shell, `sh.c`.

A pointer into the string is the rest of the string from there: `s == es` is the
empty list, and `*s` is then the terminating `0`.  The functions that take
`char **ps` return the new pointer.  Every pass of a loop and every call inside a
call takes a byte of the string, so its length bounds them; `endless` is what the
parser would stop with otherwise.
-/

namespace Xv6.Sh

/-- Words of a simple command, with the `0` that ends them. -/
def MAXARGS : Nat := 10

/-- `" \t\r\n\v"` -/
def whitespace : List UInt8 := [0x20, 0x09, 0x0d, 0x0a, 0x0b]

/-- `"<|>&;()"` -/
def symbols : List UInt8 := [0x3c, 0x7c, 0x3e, 0x26, 0x3b, 0x28, 0x29]

/-- The first byte and the byte after the last one of a word: `q` and `eq`. -/
abbrev Span : Type := List UInt8 × List UInt8

/-- A parsed command; its words are spans while it is parsed, and strings in the
end. -/
inductive Cmd (α : Type)
  | exec (argv : List α)
  | redir (cmd : Cmd α) (file : α) (mode : UInt32) (fd : Nat)
  | pipe (left right : Cmd α)
  | list (left right : Cmd α)
  | back (cmd : Cmd α)

/-- Why the parser stops. -/
inductive Panic
  /-- "syntax" -/
  | syntaxErr
  /-- "missing file for redirection" -/
  | missingFile
  /-- "parseblock" -/
  | parseblock
  /-- "syntax - missing )" -/
  | missingParen
  /-- "too many args" -/
  | tooManyArgs
  /-- no panic: an index of `argv` or `eargv` that is not below `MAXARGS` -/
  | outOfBounds
  /-- no panic: the parser does not end -/
  | endless
deriving DecidableEq

abbrev R (α : Type) : Type := Except Panic α

/-! ## tokens -/

/-- `while(s < es && strchr(whitespace, *s)) s++;` -/
def skip (s : List UInt8) : List UInt8 := s.dropWhile (whitespace.contains ·)

/-- A byte of a word. -/
def isWord (c : UInt8) : Bool := !whitespace.contains c && !symbols.contains c

/-- The next token: the value returned, its span, and the rest. -/
def gettoken (s : List UInt8) : UInt8 × Span × List UInt8 :=
  match skip s with
  | [] => (0, ([], []), [])
  | c :: t =>
      if c = 0 then (0, (c :: t, c :: t), skip (c :: t))
      else if c = 0x3e then
        match t with
        | [] => (c, (c :: t, t), skip t)
        | d :: u => if d = 0x3e then (0x2b, (c :: t, u), skip u) else (c, (c :: t, t), skip t)
      else if symbols.contains c then (c, (c :: t, t), skip t)
      else
        let e := (c :: t).dropWhile isWord
        (0x61, (c :: t, e), skip e)

/-- Is the next byte, after white space, one of `toks`? -/
def peek (s : List UInt8) (toks : List UInt8) : Bool × List UInt8 :=
  match skip s with
  | [] => (false, [])
  | c :: t => (c != 0 && toks.contains c, c :: t)

/-! ## commands -/

/-- The loop of `parseredirs`. -/
def parseredirsLoop : Nat → Cmd Span → List UInt8 → R (Cmd Span × List UInt8)
  | 0, _, _ => throw .endless
  | n + 1, cmd, s =>
      let (more, s) := peek s [0x3c, 0x3e]
      if more then
        let (tok, _, s) := gettoken s
        let (file, q, s) := gettoken s
        if file ≠ 0x61 then throw .missingFile
        else if tok = 0x3c then parseredirsLoop n (.redir cmd q O_RDONLY 0) s
        else if tok = 0x3e then parseredirsLoop n (.redir cmd q (O_WRONLY ||| O_CREATE) 1) s
        -- `>>`
        else if tok = 0x2b then parseredirsLoop n (.redir cmd q (O_WRONLY ||| O_CREATE) 1) s
        else parseredirsLoop n cmd s
      else return (cmd, s)

def parseredirs (cmd : Cmd Span) (s : List UInt8) : R (Cmd Span × List UInt8) :=
  parseredirsLoop (s.length + 1) cmd s

/-- Store word number `argc` of the simple command inside `cmd`. -/
def addArg {α : Type} (w : α) : Cmd α → Cmd α
  | .exec argv => .exec (argv ++ [w])
  | .redir cmd file mode fd => .redir (addArg w cmd) file mode fd
  | cmd => cmd

/-- The loop of `parseexec`. -/
def parseargs : Nat → Cmd Span → Nat → List UInt8 → R (Cmd Span × List UInt8)
  | 0, _, _, _ => throw .endless
  | n + 1, ret, argc, s =>
      let (stop, s) := peek s [0x7c, 0x29, 0x26, 0x3b]
      if stop then parseargsEnd ret argc s
      else
        let (tok, w, s) := gettoken s
        if tok = 0 then parseargsEnd ret argc s
        else if tok ≠ 0x61 then throw .syntaxErr
        else if MAXARGS ≤ argc then throw .outOfBounds
        else if MAXARGS ≤ argc + 1 then throw .tooManyArgs
        else do
          let (ret, s) ← parseredirs (addArg w ret) s
          parseargs n ret (argc + 1) s
where
  /-- `cmd->argv[argc] = 0; cmd->eargv[argc] = 0;` -/
  parseargsEnd (ret : Cmd Span) (argc : Nat) (s : List UInt8) : R (Cmd Span × List UInt8) :=
    if MAXARGS ≤ argc then throw .outOfBounds else return (ret, s)

/-- `while(peek(ps, es, "&")) { gettoken(ps, es, 0, 0); cmd = backcmd(cmd); }` -/
def backLoop : Nat → Cmd Span → List UInt8 → R (Cmd Span × List UInt8)
  | 0, _, _ => throw .endless
  | n + 1, cmd, s =>
      let (more, s) := peek s [0x26]
      if more then backLoop n (.back cmd) (gettoken s).2.2 else return (cmd, s)

mutual

def parseline : Nat → List UInt8 → R (Cmd Span × List UInt8)
  | 0, _ => throw .endless
  | n + 1, s => do
      let (cmd, s) ← parsepipe n s
      let (cmd, s) ← backLoop (s.length + 1) cmd s
      let (more, s) := peek s [0x3b]
      if more then
        let (right, s) ← parseline n (gettoken s).2.2
        return (.list cmd right, s)
      else return (cmd, s)

def parsepipe : Nat → List UInt8 → R (Cmd Span × List UInt8)
  | 0, _ => throw .endless
  | n + 1, s => do
      let (cmd, s) ← parseexec n s
      let (more, s) := peek s [0x7c]
      if more then
        let (right, s) ← parsepipe n (gettoken s).2.2
        return (.pipe cmd right, s)
      else return (cmd, s)

def parseexec : Nat → List UInt8 → R (Cmd Span × List UInt8)
  | 0, _ => throw .endless
  | n + 1, s =>
      let (block, s) := peek s [0x28]
      if block then parseblock n s
      else do
        let (ret, s) ← parseredirs (.exec []) s
        parseargs (s.length + 1) ret 0 s

def parseblock : Nat → List UInt8 → R (Cmd Span × List UInt8)
  | 0, _ => throw .endless
  | n + 1, s => do
      let (opened, s) := peek s [0x28]
      if !opened then throw .parseblock
      let (cmd, s) ← parseline n (gettoken s).2.2
      let (closed, s) := peek s [0x29]
      if !closed then throw .missingParen
      parseredirs cmd (gettoken s).2.2

end

/-! ## strings -/

/-- The bytes of the string with its terminating `0`, by index. -/
abbrev Buf : Type := List UInt8

/-- The index of a pointer. -/
def addr (n : Nat) (p : List UInt8) : Nat := n - p.length

/-- `*p = 0` for a pointer into the string of length `n`. -/
def terminate (n : Nat) (buf : Buf) (p : List UInt8) : Buf := buf.set (addr n p) 0

/-- NUL-terminate all the counted strings. -/
def nulterminate (n : Nat) : Cmd Span → Buf → Buf
  | .exec argv, buf => argv.foldl (fun buf w => terminate n buf w.2) buf
  | .redir cmd file _ _, buf => terminate n (nulterminate n cmd buf) file.2
  | .pipe left right, buf => nulterminate n right (nulterminate n left buf)
  | .list left right, buf => nulterminate n right (nulterminate n left buf)
  | .back cmd, buf => nulterminate n cmd buf

/-- A string of bytes other than `0`. -/
structure CString where
  bytes : List UInt8
  no_nul : 0 ∉ bytes

/-- Parse a string: the command, and the bytes that the string's place has
afterwards. -/
def parsecmd (s : CString) : R (Cmd Span × Buf) := do
  let n := s.bytes.length
  let (cmd, rest) ← parseline (4 * n + 4) s.bytes
  let (_, rest) := peek rest []
  if rest ≠ [] then throw .syntaxErr
  return (cmd, nulterminate n cmd (s.bytes ++ [0]))

/-- The same command with other words. -/
def Cmd.map {α β : Type} (f : α → β) : Cmd α → Cmd β
  | .exec argv => .exec (argv.map f)
  | .redir cmd file mode fd => .redir (cmd.map f) (f file) mode fd
  | .pipe left right => .pipe (left.map f) (right.map f)
  | .list left right => .list (left.map f) (right.map f)
  | .back cmd => .back (cmd.map f)

/-- The string that a pointer points to: the bytes up to the next `0`. -/
def cstr (n : Nat) (buf : Buf) (p : List UInt8) : List UInt8 :=
  (buf.drop (addr n p)).takeWhile (· != 0)

/-- The command with its words as they are read in memory. -/
def readback (n : Nat) (cmd : Cmd Span) (buf : Buf) : Cmd (List UInt8) :=
  cmd.map fun w => cstr n buf w.1

end Xv6.Sh
