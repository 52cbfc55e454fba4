import Xv6.Fs

/-!
# Xv6.Fs.Path

Path names: the last part of `fs.c`.

A path is the list of the bytes before its terminating `0`.  `skipelem` takes at
least one byte away, so the length of the path bounds the passes of the loop of
`namex`.
-/

namespace Xv6.Fs

/-- `'/'` -/
def slash : UInt8 := 0x2f

/-- A name as the bytes of `char name[DIRSIZ]`. -/
abbrev Name : Type := Nat → UInt8

/-- Copy the next path element into `name`: the path that follows it, without
leading slashes, and the name.  None if there is no element. -/
def skipelem (path : List UInt8) : Option (List UInt8 × Name) :=
  match path.dropWhile (· == slash) with
  | [] => none
  | c :: s =>
      let elem := (c :: s).takeWhile (· != slash)
      some (((c :: s).dropWhile (· != slash)).dropWhile (· == slash),
        fun k => if k < DIRSIZ then elem.getD k 0 else 0)

/-- Common idiom: unlock, then put. -/
def iunlockput (c : Ip) : M Unit := do
  iunlock c
  iput c

/-- The end of `namex`, with no element left. -/
def namexEnd (nameiparent : Bool) (ip : Ip) : M (Option (Ip × Name)) := do
  if nameiparent then do
    iput ip
    return none
  else return some (ip, fun _ => 0)

/-- The loop of `namex`; the path has at most `fuel` bytes. -/
def namexLoop (nameiparent : Bool) : Nat → Ip → List UInt8 → M (Option (Ip × Name))
  | 0, ip, _ => namexEnd nameiparent ip
  | fuel + 1, ip, path =>
      match skipelem path with
      | none => namexEnd nameiparent ip
      | some (path, name) => do
          ilock ip
          if ((← get).inode ip).din.type ≠ T_DIR then do
            iunlockput ip
            return none
          else if nameiparent ∧ path = [] then do
            -- stop one level early
            iunlock ip
            return some (ip, name)
          else do
            match ← dirlookup ip name with
            | none =>
                iunlockput ip
                return none
            | some (_, next) =>
                iunlockput ip
                namexLoop nameiparent fuel next path

/-- Look up and return the inode for a path name, or the inode of its parent and
the final path element. -/
def namex (cwd : Ip) (path : List UInt8) (nameiparent : Bool) : M (Option (Ip × Name)) := do
  if path.head? = some slash then do
    let ip ← iget ROOTINO
    namexLoop nameiparent path.length ip path
  else do
    idup cwd
    namexLoop nameiparent path.length cwd path

def namei (cwd : Ip) (path : List UInt8) : M (Option Ip) := do
  return (← namex cwd path false).map (·.1)

def nameiparent (cwd : Ip) (path : List UInt8) : M (Option (Ip × Name)) := namex cwd path true

end Xv6.Fs
