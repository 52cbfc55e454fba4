import Mathlib.Algebra.Ring.Nat
import Mathlib.Data.List.TakeWhile
import Xv6.Ids

/-!
# Xv6.Ids.Lookup

A lookup finds the first line.  `Line.text` writes a line of `id_file` or `group_file`, and
`getEntry_text` reads it back; the four lookups are then searches in the list of lines.
-/

namespace Xv6.Ids

/-! ## lines -/

/-- A line, with its numbers in decimal. -/
inductive Line
  | user (nama_user uid_user gid_user : List UInt8)
  | group (nama_group gid : List UInt8)

def Line.family : Line → Family
  | .user _ _ _ => .id
  | .group _ _ => .group

def Line.name : Line → List UInt8
  | .user name _ _ => name
  | .group name _ => name

def Line.numbers : Line → List (List UInt8)
  | .user _ uid gid => [uid, gid]
  | .group _ gid => [gid]

/-- The line without its end. -/
def Line.body (l : Line) : List UInt8 := l.name ++ l.numbers.flatMap fun n => 0x20 :: n

def Line.text (l : Line) : List UInt8 := l.body ++ [0x0a]

/-- The value of decimal digits. -/
def decimal (s : List UInt8) : Nat := s.foldl (fun n c => n * 10 + (c.toNat - 0x30)) 0

def Line.record : Line → Record
  | .user name uid gid => .user name (.ofNat (decimal uid)) (.ofNat (decimal gid))
  | .group name gid => .group name (.ofNat (decimal gid))

/-- A byte of a name. -/
def isPlain (c : UInt8) : Bool := c != 0x20 && !isEnd c && c != 0

def isDigit (c : UInt8) : Bool := 0x30 ≤ c && c ≤ 0x39

/-- A name, and numbers below `2 ^ 31`, that fit in the buffer. -/
structure Line.Valid (l : Line) : Prop where
  name_ne : l.name ≠ []
  name : ∀ c ∈ l.name, isPlain c
  numbers : ∀ n ∈ l.numbers, n ≠ [] ∧ (∀ c ∈ n, isDigit c) ∧ decimal n < 2 ^ 31
  fits : l.text.length ≤ PANJANG_LINE - 1

theorem isPlain_of_isDigit {c : UInt8} (h : isDigit c) : isPlain c := by
  have hne (d : UInt8) (hd : isDigit d = false) : c ≠ d := by
    rintro rfl
    rw [h] at hd
    cases hd
  simp [isPlain, isEnd, hne 0x20 (by decide), hne 0x0a (by decide), hne 0x0d (by decide),
    hne 0 (by decide)]

/-- `fgets` reads a line that fits. -/
theorem fgetsLoop_line {body rest : List UInt8} {n : Nat} (hbody : ∀ c ∈ body, isEnd c = false)
    (hn : body.length < n) : fgetsLoop n (body ++ 0x0a :: rest) = (body ++ [0x0a], rest) := by
  induction body generalizing n with
  | nil =>
      obtain ⟨n, rfl⟩ := Nat.exists_eq_add_one_of_ne_zero (Nat.ne_zero_of_lt hn)
      rfl
  | cons c body ih =>
      obtain ⟨n, rfl⟩ := Nat.exists_eq_add_one_of_ne_zero (Nat.ne_zero_of_lt hn)
      rw [List.forall_mem_cons] at hbody
      simp only [List.cons_append, fgetsLoop, hbody.1, ih hbody.2 (Nat.lt_of_succ_lt_succ hn),
        Bool.false_eq_true, if_false]

theorem takeWhile_ne_zero {s : List UInt8} (h : ∀ c ∈ s, c ≠ 0) : s.takeWhile (· != 0) = s := by
  rw [List.takeWhile_eq_self_iff]
  intro c hc
  simpa using h c hc

theorem chop_line {body : List UInt8} (h : ∀ c ∈ body, c ≠ 0) : chop (body ++ [0x0a]) = body := by
  have hall : ∀ c ∈ body ++ [0x0a], c ≠ 0 := by
    intro c hc
    rcases List.mem_append.mp hc with hc | hc
    · exact h c hc
    · rw [List.mem_singleton.mp hc]
      decide
  simp only [chop, takeWhile_ne_zero hall, List.getLast?_append, List.getLast?_singleton,
    Option.some_or, Option.any_some, List.dropLast_concat]
  rfl

/-! ## tokens -/

variable {i : Nat} {tokens : List Nat} {w rest : List UInt8}

/-- Inside a word the scan only goes on. -/
theorem split_word (hw : ∀ c ∈ w, isPlain c) :
    split i true tokens (w ++ rest) = split (i + w.length) true tokens rest := by
  induction w generalizing i with
  | nil => rfl
  | cons c w ih =>
      rw [List.forall_mem_cons] at hw
      have hc : c ≠ 0x20 := by
        rintro rfl
        exact absurd hw.1 (by decide)
      rw [List.cons_append, split, if_neg hc]
      simp only [Bool.not_true, Bool.false_and, Bool.false_eq_true, if_false, List.length_cons]
      rw [ih hw.2]
      congr 1
      omega

/-- A word is a token. -/
theorem split_token (hne : w ≠ []) (hw : ∀ c ∈ w, isPlain c) (hlt : tokens.length < JUMLAH_TOKEN) :
    split i false tokens (w ++ rest) = split (i + w.length) true (tokens ++ [i]) rest := by
  cases w with
  | nil => exact absurd rfl hne
  | cons c w =>
      rw [List.forall_mem_cons] at hw
      have hc : c ≠ 0x20 := by
        rintro rfl
        exact absurd hw.1 (by decide)
      rw [List.cons_append, split, if_neg hc]
      simp only [Bool.not_false, Bool.true_and, decide_eq_true hlt, if_true]
      rw [split_word hw.2, List.length_cons]
      congr 1
      omega

/-- The blank after a word. -/
theorem split_blank : split i true tokens (0x20 :: rest) = split (i + 1) false tokens rest := by
  rw [split, if_pos rfl, if_pos rfl]

/-- The buffer after the scan. -/
def blanked (s : List UInt8) : List UInt8 := s.map fun c => if c = 0x20 then 0 else c

theorem blanked_append (s t : List UInt8) : blanked (s ++ t) = blanked s ++ blanked t :=
  List.map_append

theorem blanked_cons_blank (s : List UInt8) : blanked (0x20 :: s) = 0 :: blanked s := rfl

theorem ne_of_isPlain {c d : UInt8} (hc : isPlain c) (hd : isPlain d = false) : c ≠ d := by
  rintro rfl
  rw [hc] at hd
  cases hd

theorem blanked_word (hw : ∀ c ∈ w, isPlain c) : blanked w = w := by
  rw [blanked, List.map_congr_left fun c hc => if_neg (ne_of_isPlain (hw c hc) rfl), List.map_id']

/-- The string of a token. -/
theorem cstr_word (pre : List UInt8) {w : List UInt8} (tail : List UInt8)
    (hw : ∀ c ∈ w, isPlain c) (htail : tail.headD 0 = 0) :
    cstr (pre ++ (w ++ tail)) pre.length = w := by
  have hpos : ∀ c ∈ w, (c != 0) = true := fun c hc => by
    simpa using ne_of_isPlain (hw c hc) (d := 0) rfl
  rw [cstr, List.drop_left, List.takeWhile_append_of_pos hpos]
  cases tail with
  | nil => rw [List.takeWhile_nil, List.append_nil]
  | cons c tail =>
      obtain rfl : c = 0 := htail
      rw [List.takeWhile_cons_of_neg (by decide), List.append_nil]

/-! ## numbers -/

theorem digits_eq {s : List UInt8} (h : ∀ c ∈ s, isDigit c) (n : Nat) :
    digits (.ofNat n) s = .ofNat (s.foldl (fun n c => n * 10 + (c.toNat - 0x30)) n) := by
  induction s generalizing n with
  | nil => rfl
  | cons c s ih =>
      rw [List.forall_mem_cons] at h
      have hc := h.1
      simp only [isDigit, Bool.and_eq_true, decide_eq_true_eq] at hc
      have hstep : UInt32.ofNat n * 10 + c.toUInt32 - 0x30 =
          UInt32.ofNat (n * 10 + (c.toNat - 0x30)) := by
        have hle : 0x30 ≤ c.toNat := hc.1
        apply UInt32.toNat_inj.mp
        simp only [UInt32.toNat_sub, UInt32.toNat_add, UInt32.toNat_mul, UInt32.toNat_ofNat',
          UInt8.toNat_toUInt32]
        have := c.toNat_lt
        simp
        omega
      rw [digits, if_pos hc, hstep, ih h.2, List.foldl_cons]

theorem atoi_eq {s : List UInt8} (hne : s ≠ []) (h : ∀ c ∈ s, isDigit c) :
    atoi s = .ofNat (decimal s) := by
  cases s with
  | nil => exact absurd rfl hne
  | cons c s =>
      have hc := h c List.mem_cons_self
      have hned (d : UInt8) (hd : isDigit d = false) : c ≠ d := by
        rintro rfl
        rw [hc] at hd
        cases hd
      have hdrop : (c :: s).dropWhile (· == 0x20) = c :: s :=
        List.dropWhile_cons_of_neg (by simpa using hned 0x20 (by decide))
      rw [atoi, hdrop]
      simp only [if_neg (hned 0x2d (by decide)), if_neg (hned 0x2b (by decide))]
      exact digits_eq h 0

/-! ## one line -/

theorem Line.Valid.plain {l : Line} (h : l.Valid) {n : List UInt8} (hn : n ∈ l.numbers) :
    ∀ c ∈ n, isPlain c :=
  fun c hc => isPlain_of_isDigit ((h.numbers n hn).2.1 c hc)

/-- A valid line is one for `fgets`. -/
theorem Line.Valid.body {l : Line} (h : l.Valid) : ∀ c ∈ l.body, isEnd c = false ∧ c ≠ 0 := by
  have hplain (c : UInt8) (hc : isPlain c) : isEnd c = false ∧ c ≠ 0 := by
    simp only [isPlain, Bool.and_eq_true, Bool.not_eq_true', bne_iff_ne] at hc
    exact ⟨hc.1.2, hc.2⟩
  intro c hc
  rcases List.mem_append.mp hc with hc | hc
  · exact hplain c (h.name c hc)
  · obtain ⟨n, hn, hc⟩ := List.mem_flatMap.mp hc
    rcases List.mem_cons.mp hc with rfl | hc
    · exact ⟨rfl, by decide⟩
    · exact hplain c (h.plain hn c hc)

theorem Line.Valid.body_ne {l : Line} (h : l.Valid) : l.body ≠ [] :=
  List.append_ne_nil_of_left_ne_nil h.name_ne _

/-- The tokens of a line, and the record that they make. -/
theorem Line.Valid.record_tokens {l : Line} (h : l.Valid) :
    ∃ tokens, split 0 false [] l.body = some tokens ∧
      toRecord (blanked l.body) l.family tokens = some (0, l.record) := by
  cases l with
  | user name uid gid =>
      have hne : name ≠ [] := h.name_ne
      have hname : ∀ c ∈ name, isPlain c := h.name
      have huid := h.numbers uid (by simp [Line.numbers])
      have hgid := h.numbers gid (by simp [Line.numbers])
      have hu := h.plain (n := uid) (by simp [Line.numbers])
      have hg := h.plain (n := gid) (by simp [Line.numbers])
      have hbody : Line.body (.user name uid gid) = name ++ 0x20 :: (uid ++ 0x20 :: gid) := by
        simp [Line.body, Line.numbers, Line.name]
      have hblank : blanked (Line.body (.user name uid gid)) = name ++ 0 :: (uid ++ 0 :: gid) := by
        rw [hbody, blanked_append, blanked_cons_blank, blanked_append, blanked_cons_blank,
          blanked_word hname, blanked_word hu, blanked_word hg]
      refine ⟨[0, name.length + 1, name.length + 1 + uid.length + 1], ?_, ?_⟩
      · rw [hbody, split_token hne hname (by decide), split_blank,
          split_token huid.1 hu (by simp [JUMLAH_TOKEN]), split_blank,
          ← List.append_nil gid, split_token hgid.1 hg (by simp [JUMLAH_TOKEN]), split]
        simp
      · rw [hblank, Line.family, toRecord, Line.record]
        have h0 : cstr (name ++ 0 :: (uid ++ 0 :: gid)) 0 = name :=
          cstr_word [] _ hname rfl
        have h1 : cstr (name ++ 0 :: (uid ++ 0 :: gid)) (name.length + 1) = uid := by
          have := cstr_word (name ++ [0]) (0 :: gid) hu rfl
          simpa using this
        have h2 : cstr (name ++ 0 :: (uid ++ 0 :: gid)) (name.length + 1 + uid.length + 1) = gid := by
          have := cstr_word (name ++ 0 :: (uid ++ [0])) [] hg rfl
          simpa [Nat.add_assoc, Nat.add_comm 1] using this
        rw [h0, h1, h2, atoi_eq huid.1 huid.2.1, atoi_eq hgid.1 hgid.2.1]
  | group name gid =>
      have hne : name ≠ [] := h.name_ne
      have hname : ∀ c ∈ name, isPlain c := h.name
      have hgid := h.numbers gid (by simp [Line.numbers])
      have hg := h.plain (n := gid) (by simp [Line.numbers])
      have hbody : Line.body (.group name gid) = name ++ 0x20 :: gid := by
        simp [Line.body, Line.numbers, Line.name]
      have hblank : blanked (Line.body (.group name gid)) = name ++ 0 :: gid := by
        rw [hbody, blanked_append, blanked_cons_blank, blanked_word hname, blanked_word hg]
      refine ⟨[0, name.length + 1], ?_, ?_⟩
      · rw [hbody, split_token hne hname (by decide), split_blank,
          ← List.append_nil gid, split_token hgid.1 hg (by simp [JUMLAH_TOKEN]), split]
        simp
      · rw [hblank, Line.family, toRecord, Line.record]
        have h0 : cstr (name ++ 0 :: gid) 0 = name := cstr_word [] _ hname rfl
        have h1 : cstr (name ++ 0 :: gid) (name.length + 1) = gid := by
          have := cstr_word (name ++ [0]) [] hg rfl
          simpa using this
        rw [h0, h1, atoi_eq hgid.1 hgid.2.1]

/-- **A line is read back.** -/
theorem getEntry_text {l : Line} (h : l.Valid) (rest : List UInt8) :
    getEntry l.family (l.text ++ rest) = some ⟨rest, blanked l.body, some (0, l.record)⟩ := by
  obtain ⟨tokens, hsplit, hrecord⟩ := h.record_tokens
  have hfits := h.fits
  rw [Line.text, List.length_append, List.length_singleton] at hfits
  have hfgets : fgets PANJANG_LINE (l.text ++ rest) = (l.body ++ [0x0a], rest) := by
    rw [Line.text, List.append_assoc, List.singleton_append, fgets]
    exact fgetsLoop_line (fun c hc => (h.body c hc).1) (by omega)
  have hchop : chop (l.body ++ [0x0a]) = l.body := chop_line fun c hc => (h.body c hc).2
  simp only [getEntry, hfgets, hchop, hsplit, Option.bind_eq_bind, Option.bind_some,
    if_neg h.body_ne]
  rw [show (l.body.map fun c => if c = 0x20 then 0 else c) = blanked l.body from rfl, hrecord]
  rfl

/-- The end of the file. -/
theorem getEntry_nil (fam : Family) : getEntry fam [] = some ⟨[], [], none⟩ := rfl

/-! ## lookups -/

variable {files : Files} {fam : Family} {test : Record → Bool} {s : State} {fuel : Nat}

/-- One line of the open file. -/
theorem step_get (files : Files) {f : List UInt8} {e : Entry} (hdir : s.dir = some f)
    (he : getEntry fam f = some e) : ∃ s', step files s (.get fam) = some s' ∧
      s'.dir = some e.rest ∧ s'.last = e.record.map Prod.snd := by
  have hstep : step files s (.get fam) = s.read fam f := by
    simp only [step, hdir, Option.orElse_eq_orElse, Option.orElse_eq_or, Option.some_or]
  rw [hstep, State.read, he]
  exact ⟨_, rfl, rfl, by simp [State.last]⟩

/-- **The loop finds the first line that passes the test.** -/
theorem cekLoop_lines {lines : List Line} (hlines : ∀ l ∈ lines, l.Valid ∧ l.family = fam)
    (hdir : s.dir = some (lines.flatMap Line.text)) (hfuel : lines.length < fuel) :
    ∃ s', cekLoop files fam test fuel s = some ((lines.map Line.record).find? test, s') ∧
      s'.dir = none := by
  induction lines generalizing s fuel with
  | nil =>
      obtain ⟨fuel, rfl⟩ := Nat.exists_eq_add_one_of_ne_zero (Nat.ne_zero_of_lt hfuel)
      obtain ⟨s₁, hget, -, hlast⟩ := step_get files hdir (getEntry_nil fam)
      refine ⟨{ s₁ with dir := none, held := Function.update s₁.held fam none }, ?_, rfl⟩
      simp only [cekLoop, hget, Option.bind_eq_bind, Option.bind_some, hlast, Option.map_none]
      rfl
  | cons l lines ih =>
      obtain ⟨fuel, rfl⟩ := Nat.exists_eq_add_one_of_ne_zero (Nat.ne_zero_of_lt hfuel)
      obtain ⟨hl, hlines⟩ := List.forall_mem_cons.mp hlines
      obtain ⟨hvalid, rfl⟩ := hl
      rw [List.flatMap_cons] at hdir
      obtain ⟨s₁, hget, hdir₁, hlast⟩ := step_get files hdir (getEntry_text hvalid _)
      simp only [cekLoop, hget, Option.bind_eq_bind, Option.bind_some, hlast, Option.map_some,
        List.map_cons, List.find?_cons]
      cases test l.record with
      | true => exact ⟨{ s₁ with dir := none, held := Function.update s₁.held l.family none }, rfl, rfl⟩
      | false => exact ih hlines hdir₁ (Nat.lt_of_succ_lt_succ hfuel)

theorem cek_lines (test : Record → Bool) (s : State) {lines : List Line}
    (hlines : ∀ l ∈ lines, l.Valid ∧ l.family = fam)
    (hfile : files fam = some (lines.flatMap Line.text)) (hfuel : lines.length < fuel) :
    ∃ s', cek files fam test fuel s = some ((lines.map Line.record).find? test, s') ∧
      s'.dir = none :=
  cekLoop_lines hlines hfile hfuel

theorem toNat_ne_zero {c : UInt8} {p : List UInt8} (h : 0 ∉ c :: p) : c.toNat ≠ 0 := by
  intro h0
  have hc : c = 0 := UInt8.toNat_inj.mp h0
  exact h (hc ▸ List.mem_cons_self)

/-- Strings are equal when they compare as such. -/
theorem strcmp_eq_zero {p q : List UInt8} (hp : 0 ∉ p) (hq : 0 ∉ q) : strcmp p q = 0 ↔ p = q := by
  induction p generalizing q with
  | nil =>
      cases q with
      | nil => simp [strcmp]
      | cons d q =>
          have hd := toNat_ne_zero hq
          simp only [strcmp, List.headD_cons, reduceCtorEq, iff_false]
          omega
  | cons c p ih =>
      cases q with
      | nil =>
          have hc := toNat_ne_zero hp
          simp only [strcmp, reduceCtorEq, iff_false]
          omega
      | cons d q =>
          rw [strcmp]
          by_cases hcd : c = d
          · rw [if_pos hcd, ih (fun h => hp (List.mem_cons_of_mem _ h))
              (fun h => hq (List.mem_cons_of_mem _ h)), List.cons.injEq]
            exact ⟨fun h => ⟨hcd, h⟩, fun h => h.2⟩
          · have hne : c.toNat ≠ d.toNat := fun h => hcd (UInt8.toNat_inj.mp h)
            rw [if_neg hcd, List.cons.injEq]
            exact ⟨fun h => by omega, fun h => absurd h.1 hcd⟩

theorem Line.record_name (l : Line) : l.record.name = l.name := by
  cases l with
  | user name uid gid => rfl
  | group name gid => rfl

/-- A search by name, in the lines. -/
theorem find_name {lines : List Line} (hlines : ∀ l ∈ lines, l.Valid) {x : List UInt8}
    (hx : 0 ∉ x) : (lines.map Line.record).find? (fun r => strcmp x r.name = 0) =
      (lines.find? fun l => l.name = x).map Line.record := by
  induction lines with
  | nil => rfl
  | cons l lines ih =>
      obtain ⟨hl, hlines⟩ := List.forall_mem_cons.mp hlines
      have hname : 0 ∉ l.name := fun h0 => absurd (hl.name 0 h0) (by decide)
      rw [List.map_cons, List.find?_cons, List.find?_cons, ih hlines]
      simp only [Line.record_name, strcmp_eq_zero hx hname, eq_comm (a := x)]
      cases decide (l.name = x) with
      | true => rfl
      | false => rfl

/-- A call returns `r`. -/
def Returns (m : Option (Option Record × State)) (r : Option Record) : Prop :=
  ∃ s', m = some (r, s')

/-- The uid of a user, or the gid of a group. -/
def Line.number (l : Line) : Nat := decimal (l.numbers.headD [])

/-- A search by number, in the lines. -/
theorem find_number {lines : List Line} (hlines : ∀ l ∈ lines, l.Valid) (u : UInt32) :
    (lines.map Line.record).find? (fun r => r.number = u) =
      (lines.find? fun l => l.number = u.toNat).map Line.record := by
  induction lines with
  | nil => rfl
  | cons l lines ih =>
      obtain ⟨hl, hlines⟩ := List.forall_mem_cons.mp hlines
      have hrecord : l.record.number = .ofNat l.number := by
        cases l with
        | user name uid gid => rfl
        | group name gid => rfl
      have hlt : l.number < 2 ^ 32 := by
        cases l with
        | user name uid gid =>
            have := (hl.numbers uid (by simp [Line.numbers])).2.2
            exact Nat.lt_trans this (by decide)
        | group name gid =>
            have := (hl.numbers gid (by simp [Line.numbers])).2.2
            exact Nat.lt_trans this (by decide)
      have hiff : l.record.number = u ↔ l.number = u.toNat := by
        rw [hrecord, ← UInt32.toNat_inj, UInt32.toNat_ofNat', Nat.mod_eq_of_lt hlt]
      rw [List.map_cons, List.find?_cons, List.find?_cons, ih hlines]
      simp only [hiff]
      cases decide (l.number = u.toNat) with
      | true => rfl
      | false => rfl

/-- **A lookup returns the first line with the name or the number**, and 0 if there is none.
A loop over `n` lines takes `n + 1` calls of `getid` or `getgroup`. -/
theorem cek_finds_first {users groups : List Line} {files : Files}
    (husers : ∀ l ∈ users, l.Valid ∧ l.family = .id)
    (hgroups : ∀ l ∈ groups, l.Valid ∧ l.family = .group)
    (hid : files .id = some (users.flatMap Line.text))
    (hgroup : files .group = some (groups.flatMap Line.text)) (s : State) {fuel : Nat}
    (hfuel : users.length < fuel) (hfuel' : groups.length < fuel) :
    (∀ x, 0 ∉ x → Returns (cekNama files x fuel s)
      ((users.find? fun l => l.name = x).map Line.record)) ∧
    (∀ u : UInt32, Returns (cekUid files u fuel s)
      ((users.find? fun l => l.number = u.toNat).map Line.record)) ∧
    (∀ x, 0 ∉ x → Returns (cekNamaGroup files x fuel s)
      ((groups.find? fun l => l.name = x).map Line.record)) ∧
    (∀ g : UInt32, Returns (cekGid files g fuel s)
      ((groups.find? fun l => l.number = g.toNat).map Line.record)) := by
  have hvalid : ∀ l ∈ users, l.Valid := fun l hl => (husers l hl).1
  have hvalid' : ∀ l ∈ groups, l.Valid := fun l hl => (hgroups l hl).1
  refine ⟨fun x hx => ?_, fun u => ?_, fun x hx => ?_, fun g => ?_⟩
  · obtain ⟨s', h, -⟩ := cek_lines (fun r => strcmp x r.name = 0) s husers hid hfuel
    rw [find_name hvalid hx] at h
    exact ⟨s', h⟩
  · obtain ⟨s', h, -⟩ := cek_lines (fun r => r.number = u) s husers hid hfuel
    rw [find_number hvalid u] at h
    exact ⟨s', h⟩
  · obtain ⟨s', h, -⟩ :=
      cek_lines (fun r => strcmp x r.name = 0) s hgroups hgroup hfuel'
    rw [find_name hvalid' hx] at h
    exact ⟨s', h⟩
  · obtain ⟨s', h, -⟩ := cek_lines (fun r => r.number = g) s hgroups hgroup hfuel'
    rw [find_number hvalid' g] at h
    exact ⟨s', h⟩

/-- Two users, the second one with a line as long as the buffer, and a group. -/
def someUsers : List Line :=
  [.user [0x61] [0x31] [0x31], .user (List.replicate 26 0x62) [0x32] [0x37]]

def someGroups : List Line := [.group [0x67] [0x35]]

def someFiles : Files
  | .id => some (someUsers.flatMap Line.text)
  | .group => some (someGroups.flatMap Line.text)

theorem someUsers_valid : ∀ l ∈ someUsers, l.Valid ∧ l.family = .id := by
  simp only [someUsers, List.forall_mem_cons, List.not_mem_nil, false_imp_iff, implies_true, and_true]
  exact ⟨⟨⟨by decide, by decide +kernel, by decide +kernel, by decide⟩, rfl⟩,
    ⟨⟨by decide, by decide +kernel, by decide +kernel, by decide⟩, rfl⟩⟩

theorem someGroups_valid : ∀ l ∈ someGroups, l.Valid ∧ l.family = .group := by
  simp only [someGroups, List.forall_mem_cons, List.not_mem_nil, false_imp_iff, implies_true,
    and_true]
  exact ⟨⟨by decide, by decide +kernel, by decide +kernel, by decide⟩, rfl⟩

theorem cek_finds_first_someFiles :
    (∀ l ∈ someUsers, l.Valid ∧ l.family = .id) ∧ (∀ l ∈ someGroups, l.Valid ∧ l.family = .group) ∧
      Returns (cekNama someFiles (List.replicate 26 0x62) 3 init)
        (some (.user (List.replicate 26 0x62) 2 7)) ∧
      Returns (cekUid someFiles 3 3 init) none ∧
      Returns (cekGid someFiles 5 3 init) (some (.group [0x67] 5)) := by
  obtain ⟨hname, huid, -, hgid⟩ := cek_finds_first someUsers_valid someGroups_valid
    (rfl : someFiles .id = _) (rfl : someFiles .group = _) init
    (by decide : someUsers.length < 3) (by decide : someGroups.length < 3)
  exact ⟨someUsers_valid, someGroups_valid, hname _ (by decide), huid 3, hgid 5⟩

end Xv6.Ids
