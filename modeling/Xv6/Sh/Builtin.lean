import Xv6.Ids.Lookup

/-!
# Xv6.Sh.Builtin

The built-in commands of the shell, `sh.c`, and the system calls they use, `sysproc.c`.

`makeint` gives 0 for a text without a digit, and its `int` wraps around.  The kernel checks the
range of what it is given, so that it takes both for a user: `_set uid` alone makes the shell
root, and so does a numeral whose value is a multiple of 2^32.

A string is given without its terminating `0`.
-/

namespace Xv6.Sh

/-! ## the functions -/

/-- `strncmp(p, q, n)` -/
def strncmp : List UInt8 → List UInt8 → Nat → Int
  | _, _, 0 => 0
  | p, q, n + 1 =>
      if p.headD 0 ≠ 0 ∧ p.headD 0 = q.headD 0 then strncmp p.tail q.tail n
      else (p.headD 0).toNat - (q.headD 0).toNat

/-- The loop of `makeint`. -/
def makeintLoop (val : Int32) : List UInt8 → Int32
  | [] => val
  | c :: p =>
      if 0x30 ≤ c ∧ c ≤ 0x39 then makeintLoop (10 * val + (.ofNat c.toNat - 0x30)) p else val

def makeint (p : List UInt8) : Int32 := makeintLoop 0 p

/-- What is written to descriptor 2. -/
inductive Message
  | text (s : String)
  | number (n : UInt32)
deriving DecidableEq

/-- `proc->uid` and `proc->gid` of the shell, and what it has written. -/
structure Shell where
  uid : UInt32
  gid : UInt32
  written : List Message
deriving DecidableEq

def Shell.printf (s : Shell) (m : Message) : Shell := { s with written := s.written ++ [m] }

/-- The two identifiers that `_set` knows. -/
inductive Which
  | uid
  | gid

def Which.name : Which → List UInt8
  | uid => [0x75, 0x69, 0x64]
  | gid => [0x67, 0x69, 0x64]

def Shell.get (s : Shell) : Which → UInt32
  | .uid => s.uid
  | .gid => s.gid

def Shell.set (s : Shell) : Which → UInt32 → Shell
  | .uid, v => { s with uid := v }
  | .gid, v => { s with gid := v }

/-- `sys_setuid` and `sys_setgid`, with what `argint(0, &n)` finds. -/
def sysSet (w : Which) (arg : Option Int32) (s : Shell) : Int32 × Shell :=
  match arg with
  | none => (-1, s)
  | some n => if n < 0 ∨ n > 32767 then (-1, s) else (0, s.set w n.toUInt32)

/-- `setuid(i)`: the argument is on the stack of the shell. -/
def setuid (i : Int32) : Shell → Int32 × Shell := sysSet .uid (some i)

/-- `setgid(i)` -/
def setgid (i : Int32) : Shell → Int32 × Shell := sysSet .gid (some i)

/-- `while (strncmp(p, " ", 1) == 0) p++;` -/
def chomp : List UInt8 → List UInt8
  | [] => []
  | c :: p => if strncmp (c :: p) [0x20] 1 = 0 then chomp p else c :: p

def setbuiltin (p : List UInt8) (s : Shell) : Int32 × Shell :=
  let p := chomp (p.drop 4)
  if strncmp Which.uid.name p 3 = 0 then setuid (makeint (chomp (p.drop 3))) s
  else if strncmp Which.gid.name p 3 = 0 then setgid (makeint (chomp (p.drop 3))) s
  else (-1, s.printf (.text "Invalid _set parameter\n"))

def getbuiltin (p : List UInt8) (s : Shell) : Int32 × Shell :=
  let p := chomp (p.drop 4)
  if strncmp Which.uid.name p 3 = 0 then (0, s.printf (.number s.uid))
  else if strncmp Which.gid.name p 3 = 0 then (0, s.printf (.number s.gid))
  else (-1, s.printf (.text "Invalid _get parameter\n"))

/-- `"_set"` -/
def setName : List UInt8 := [0x5f, 0x73, 0x65, 0x74]

/-- `"_get"` -/
def getName : List UInt8 := [0x5f, 0x67, 0x65, 0x74]

def fdt : List (List UInt8 × (List UInt8 → Shell → Int32 × Shell)) :=
  [(setName, setbuiltin), (getName, getbuiltin)]

def dobuiltin (cmd : List UInt8) (s : Shell) : Shell :=
  fdt.foldl (fun s e => if strncmp cmd e.1 e.1.length = 0 then (e.2 cmd s).2 else s) s

/-! ## what was typed -/

/-- `_set`, spaces, the name of the identifier, spaces, and the text. -/
def setLine (w : Which) (a b : Nat) (text : List UInt8) : List UInt8 :=
  setName ++ List.replicate a 0x20 ++ w.name ++ List.replicate b 0x20 ++ text

/-- The numeral at the front of the text. -/
def numeral (text : List UInt8) : List UInt8 := text.takeWhile Ids.isDigit

/-- What the line asks for. -/
def asked (w : Which) (text : List UInt8) (s : Shell) : Shell :=
  if numeral text ≠ [] ∧ Ids.decimal (numeral text) ≤ 32767 then
    s.set w (.ofNat (Ids.decimal (numeral text)))
  else s

/-! ## strings -/

theorem chomp_cons (c : UInt8) (p : List UInt8) :
    chomp (c :: p) = if c = 0x20 then chomp p else c :: p := by
  have hcmp : strncmp (c :: p) [0x20] 1 = 0 ↔ c = 0x20 := by
    by_cases hc : c = 0x20
    · simp [strncmp, hc]
    · have hne : c.toNat ≠ 32 := fun e => hc (UInt8.toNat_inj.mp e)
      simp [strncmp, hc]
      omega
  rw [chomp]
  simp only [hcmp]

/-- The spaces up to the first other byte are passed over. -/
theorem chomp_eq (b : Nat) {text : List UInt8} (h : text.head? ≠ some 0x20) :
    chomp (List.replicate b 0x20 ++ text) = text := by
  induction b with
  | zero =>
      cases text with
      | nil => rfl
      | cons c text => exact (chomp_cons c text).trans (if_neg (by simpa using h))
  | succ b ih => rw [List.replicate_succ, List.cons_append, chomp_cons, if_pos rfl, ih]

theorem makeintLoop_eq (n : Nat) (p : List UInt8) :
    makeintLoop (.ofNat n) p =
      .ofNat ((numeral p).foldl (fun n c => n * 10 + (c.toNat - 0x30)) n) := by
  induction p generalizing n with
  | nil => rfl
  | cons c p ih =>
      rw [makeintLoop, numeral, List.takeWhile_cons]
      split
      · next h =>
          have hdigit : Ids.isDigit c = true := by simpa [Ids.isDigit] using h
          have hle : 0x30 ≤ c.toNat := h.1
          have hstep : 10 * Int32.ofNat n + (Int32.ofNat c.toNat - 0x30) =
              Int32.ofNat (n * 10 + (c.toNat - 0x30)) := by
            rw [Int32.ofNat_add, Int32.ofNat_mul, Int32.mul_comm, Int32.ofNat_sub _ _ hle]
            rfl
          rw [if_pos hdigit, List.foldl_cons, hstep, ih]
          rfl
      · next h =>
          have hdigit : ¬ Ids.isDigit c = true := by simpa [Ids.isDigit] using h
          rw [if_neg hdigit]
          rfl

/-- The value of the numeral, as an `int` holds it. -/
theorem makeint_eq (p : List UInt8) : makeint p = .ofNat (Ids.decimal (numeral p)) :=
  makeintLoop_eq 0 p

/-! ## the command -/

theorem setbuiltin_setLine (w : Which) (a b : Nat) {text : List UInt8}
    (h : text.head? ≠ some 0x20) (s : Shell) :
    setbuiltin (setLine w a b text) s = sysSet w (some (makeint text)) s := by
  have hname : (w.name ++ (List.replicate b 0x20 ++ text)).head? ≠ some 0x20 := by
    cases w <;> simp [Which.name]
  have hp : chomp ((setLine w a b text).drop 4) = w.name ++ (List.replicate b 0x20 ++ text) := by
    rw [← chomp_eq a hname]
    simp [setLine, setName]
  have hrest : chomp ((w.name ++ (List.replicate b 0x20 ++ text)).drop 3) = text := by
    rw [List.drop_left' (by cases w <;> rfl)]
    exact chomp_eq b h
  rw [setbuiltin, hp, hrest]
  cases w with
  | uid => simp [strncmp, Which.name, setuid]
  | gid => simp [strncmp, Which.name, setgid]

/-- A line that starts with `_set` is for `setbuiltin` alone. -/
theorem dobuiltin_setLine (w : Which) (a b : Nat) {text : List UInt8}
    (h : text.head? ≠ some 0x20) (s : Shell) :
    dobuiltin (setLine w a b text) s = (sysSet w (some (makeint text)) s).2 := by
  have hset : strncmp (setLine w a b text) setName setName.length = 0 := by
    simp [setLine, setName, strncmp]
  have hget : strncmp (setLine w a b text) getName getName.length ≠ 0 := by
    simp [setLine, setName, getName, strncmp]
  rw [← setbuiltin_setLine w a b h]
  simp only [dobuiltin, fdt, List.foldl_cons, List.foldl_nil]
  rw [if_neg hget, if_pos hset]

/-- The kernel lets a number pass when its last 32 bits are in range. -/
theorem sysSet_ofNat (w : Which) (v : Nat) (s : Shell) :
    (sysSet w (some (.ofNat v)) s).2 = if v % 2 ^ 32 ≤ 32767 then s.set w (.ofNat v) else s := by
  have hint : (Int32.ofNat v).toInt = if 2 * (v % 2 ^ 32) < 2 ^ 32 then ((v % 2 ^ 32 : Nat) : Int)
      else ((v % 2 ^ 32 : Nat) : Int) - 2 ^ 32 := BitVec.toInt_eq_toNat_cond _
  have hlt := Nat.mod_lt v (show 0 < 2 ^ 32 by decide)
  have hcond : (Int32.ofNat v < 0 ∨ Int32.ofNat v > 32767) ↔ ¬ v % 2 ^ 32 ≤ 32767 := by
    rw [gt_iff_lt, Int32.lt_iff_toInt_lt, Int32.lt_iff_toInt_lt, hint,
      show Int32.toInt 0 = 0 from rfl, show Int32.toInt 32767 = 32767 from rfl]
    split <;> omega
  simp only [sysSet, hcond]
  by_cases h : v % 2 ^ 32 ≤ 32767
  · rw [if_pos h, if_neg (not_not.mpr h)]
    rfl
  · rw [if_neg h, if_pos h]

theorem Shell.set_eq_self {s : Shell} {w : Which} {v : UInt32} : s.set w v = s ↔ s.get w = v := by
  obtain ⟨uid, gid, written⟩ := s
  cases w <;> simp [set, get, eq_comm]

/-- **What `_set` does.** It does what the line asks for exactly when the text starts with a digit
or the identifier is already 0, and the numeral's value is in range, or is out of range also for
an `int`, or the identifier is already what remains of it in an `int`. -/
theorem setbuiltin_iff (w : Which) (a b : Nat) (text : List UInt8) (h : text.head? ≠ some 0x20)
    (s : Shell) :
    dobuiltin (setLine w a b text) s = asked w text s ↔
      (numeral text ≠ [] ∨ s.get w = 0) ∧
      (Ids.decimal (numeral text) ≤ 32767 ∨ 32767 < Ids.decimal (numeral text) % 2 ^ 32 ∨
        (s.get w).toNat = Ids.decimal (numeral text) % 2 ^ 32) := by
  rw [dobuiltin_setLine w a b h, makeint_eq, sysSet_ofNat, asked]
  by_cases hnil : numeral text = []
  · -- no digit: 0 is set, whatever was typed
    have hzero : Ids.decimal [] = 0 := rfl
    rw [hnil, hzero, if_pos (by decide), if_neg (by simp), Shell.set_eq_self]
    simp
  · generalize Ids.decimal (numeral text) = v
    have hdigit : numeral text ≠ [] ∨ s.get w = 0 := .inl hnil
    by_cases hv : v ≤ 32767
    · have hmod : v % 2 ^ 32 ≤ 32767 := by omega
      rw [if_pos hmod, if_pos ⟨hnil, hv⟩]
      exact iff_of_true rfl ⟨hdigit, .inl hv⟩
    · have hasked : ¬ (numeral text ≠ [] ∧ v ≤ 32767) := fun hn => hv hn.2
      rw [if_neg hasked, and_iff_right hdigit]
      by_cases hmod : v % 2 ^ 32 ≤ 32767
      · rw [if_pos hmod, Shell.set_eq_self, ← UInt32.toNat_inj, UInt32.toNat_ofNat']
        omega
      · rw [if_neg hmod]
        exact iff_of_true rfl (.inr (.inl (by omega)))

/-- `_set gid 7` as an ordinary user. -/
theorem setbuiltin_iff_seven :
    ∃ (text : List UInt8) (s : Shell), text.head? ≠ some 0x20 ∧ numeral text = [0x37] ∧
      dobuiltin (setLine .gid 1 1 text) s = { s with gid := 7 } :=
  let text : List UInt8 := [0x37, 0x0a]
  let s : Shell := ⟨1000, 1000, []⟩
  ⟨text, s, by decide, by decide,
    (setbuiltin_iff .gid 1 1 text (by decide) s).mpr ⟨.inl (by decide), .inl (by decide)⟩⟩

/-- `_set uid` without a number, and `_set uid 4294967296`: the shell is root. -/
theorem setbuiltin_root :
    ∃ s : Shell, s.uid = 1000 ∧
      (∃ text, dobuiltin (setLine .uid 1 0 text) s ≠ asked .uid text s ∧ numeral text = [] ∧
        (dobuiltin (setLine .uid 1 0 text) s).uid = 0) ∧
      (∃ text, dobuiltin (setLine .uid 1 1 text) s ≠ asked .uid text s ∧
        Ids.decimal (numeral text) = 2 ^ 32 ∧ (dobuiltin (setLine .uid 1 1 text) s).uid = 0) := by
  refine ⟨⟨1000, 1000, []⟩, rfl, ⟨[0x0a], ?_⟩,
    ⟨[0x34, 0x32, 0x39, 0x34, 0x39, 0x36, 0x37, 0x32, 0x39, 0x36, 0x0a], ?_⟩⟩
  · exact ⟨by decide, by decide, by decide⟩
  · exact ⟨by decide, by decide, by decide⟩

end Xv6.Sh
