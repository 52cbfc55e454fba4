import Xv6.Console

/-!
# Xv6.Console.Discipline

The console gives its readers what was typed.

`Inv` ties the three indices and the ring to the histories: between `r` and `w` are
the characters that were committed and not yet taken, and between `w` and `e` the
line that is being typed.  `type_inv` is one character of `consoleintr`, `turn_spec`
one section of `consoleread`.  What the calls return then follows from the
characters that each section takes.
-/

namespace Xv6.Console

/-- The ring holds the characters `q` between `r` and `w`, and the line that is being
typed between `w` and `e`. -/
structure Layout (i : Input) (q line : List UInt8) : Prop where
  ring : Ring.Holds i.buf i.r (q ++ line)
  w : i.w = i.r + UInt32.ofNat q.length
  e : i.e = i.r + UInt32.ofNat (q.length + line.length)
  cap : q.length + line.length ≤ INPUT_BUF
  line : newline ∉ line

variable {i : Input} {q line : List UInt8}

theorem toNat_ofNat_sub {r : UInt32} {k : Nat} (hk : k ≤ INPUT_BUF) :
    (r + UInt32.ofNat k - r).toNat = k := by
  have : k < 2 ^ 32 := lt_of_le_of_lt hk (by decide)
  rw [add_sub_cancel_left, UInt32.toNat_ofNat_of_lt' this]

theorem add_ofNat_inj {r : UInt32} {j k : Nat} (hj : j ≤ INPUT_BUF) (hk : k ≤ INPUT_BUF)
    (h : r + UInt32.ofNat j = r + UInt32.ofNat k) : j = k := by
  rw [← toNat_ofNat_sub (r := r) hj, h, toNat_ofNat_sub hk]

namespace Layout

theorem e_sub_r (hl : Layout i q line) : (i.e - i.r).toNat = q.length + line.length := by
  rw [hl.e]
  exact toNat_ofNat_sub hl.cap

theorem w_sub_r (hl : Layout i q line) : (i.w - i.r).toNat = q.length := by
  rw [hl.w]
  exact toNat_ofNat_sub (Nat.le_trans (Nat.le_add_right _ _) hl.cap)

theorem e_eq (hl : Layout i q line) : i.e = i.w + UInt32.ofNat line.length := by
  rw [hl.e, hl.w, UInt32.ofNat_add, add_assoc]

theorem e_eq_w_iff (hl : Layout i q line) : i.e = i.w ↔ line = [] := by
  constructor
  · intro h
    rw [hl.e, hl.w] at h
    have := add_ofNat_inj hl.cap (Nat.le_trans (Nat.le_add_right _ _) hl.cap) h
    exact List.eq_nil_of_length_eq_zero (by omega)
  · intro h
    rw [hl.e_eq, h]
    simp

theorem r_eq_w_iff (hl : Layout i q line) : i.r = i.w ↔ q = [] := by
  have hzero : i.r = i.r + UInt32.ofNat 0 := by simp
  constructor
  · intro h
    rw [hl.w, hzero, add_assoc, ← UInt32.ofNat_add] at h
    have hcap := hl.cap
    have := add_ofNat_inj (Nat.zero_le _) (by omega) h
    exact List.eq_nil_of_length_eq_zero (by omega)
  · intro h
    rw [hl.w, h]
    exact hzero

end Layout

/-! ## consoleintr -/

/-- Store a character, and commit the line at its end. -/
def put (i : Input) (c : UInt8) : Input :=
  if (i.e - i.r).toNat < INPUT_BUF then
    let i := { i with buf := Function.update i.buf (Ring.slot INPUT_BUF i.e) c, e := i.e + 1 }
    if c = newline ∨ c = ctrl 'D' ∨ i.e = i.r + UInt32.ofNat INPUT_BUF then { i with w := i.e }
    else i
  else i

/-- `consoleintr` by what the character means. -/
theorem key_eq (i : Input) (c : UInt8) :
    key i c = match classify c with
      | .command => i
      | .killLine => killLoop (i.e - i.w).toNat i
      | .erase => if i.e ≠ i.w then { i with e := i.e - 1 } else i
      | .char c => put i c := by
  by_cases hP : c = ctrl 'P'
  · subst hP
    rfl
  by_cases hU : c = ctrl 'U'
  · subst hU
    rfl
  by_cases hH : c = ctrl 'H' ∨ c = 0x7f
  · rcases hH with rfl | rfl <;> rfl
  by_cases hR : c = ctrl 'R' ∨ c = ctrl 'F' ∨ c = ctrl 'S' ∨ c = ctrl 'Z'
  · rcases hR with rfl | rfl | rfl | rfl <;> rfl
  by_cases h0 : c = 0
  · subst h0
    rfl
  have hcommand : ¬ (c = ctrl 'P' ∨ c = ctrl 'R' ∨ c = ctrl 'F' ∨ c = ctrl 'S' ∨ c = ctrl 'Z' ∨
      c = 0) := by
    tauto
  have hclass : classify c = .char (if c = 0x0d then newline else c) := by
    unfold classify
    rw [if_neg hcommand, if_neg hU, if_neg hH]
    split <;> rfl
  rw [hclass]
  unfold key put
  rw [if_neg hP, if_neg hU, if_neg hH, if_neg hR]
  simp only [ne_eq, h0, not_false_eq_true, true_and]

/-- The last character of the line. -/
theorem Layout.last {c : UInt8} (hl : Layout i q (line ++ [c])) :
    i.e ≠ i.w ∧ i.at (i.e - 1) = c ∧ Layout { i with e := i.e - 1 } q line := by
  have he := hl.e
  have hcap := hl.cap
  have hring := hl.ring
  rw [List.length_append, List.length_singleton] at he hcap
  rw [← List.append_assoc, Ring.holds_append, List.length_append] at hring
  have hprev : i.e - 1 = i.r + UInt32.ofNat (q.length + line.length) := by
    rw [he, ← Nat.add_assoc, Ring.ofNat_succ_eq, ← add_assoc, add_sub_cancel_right]
  refine ⟨?_, ?_, hring.1, hl.w, hprev, by omega, fun h => hl.line (List.mem_append_left _ h)⟩
  · rw [ne_eq, hl.e_eq_w_iff]
    simp
  · rw [Input.at, hprev]
    exact hring.2.1

/-- The loop of `C('U')` takes the whole line. -/
theorem Layout.killLoop (hl : Layout i q line) : Layout (killLoop line.length i) q [] := by
  induction line using List.reverseRecOn generalizing i with
  | nil => exact hl
  | append_singleton line c ih =>
      obtain ⟨hne, hlast, hl'⟩ := hl.last
      have hc : c ≠ newline := by
        rintro rfl
        exact hl.line (by simp)
      rw [List.length_append, List.length_singleton, Console.killLoop,
        if_pos ⟨hne, by rw [hlast]; exact hc⟩]
      exact ih hl'

theorem Layout.killLine (hl : Layout i q line) :
    Layout (Console.killLoop (i.e - i.w).toNat i) q [] := by
  have hcap := hl.cap
  have hlen : (i.e - i.w).toNat = line.length := by
    rw [hl.e_eq]
    exact toNat_ofNat_sub (by omega)
  rw [hlen]
  exact hl.killLoop

theorem Layout.erase (hl : Layout i q line) :
    Layout (if i.e ≠ i.w then { i with e := i.e - 1 } else i) q line.dropLast := by
  rcases List.eq_nil_or_concat line with rfl | ⟨line, c, rfl⟩
  · rw [if_neg (not_not.mpr (hl.e_eq_w_iff.mpr rfl))]
    exact hl
  · rw [List.concat_eq_append] at hl ⊢
    obtain ⟨hne, -, hl'⟩ := hl.last
    rw [if_pos hne, List.dropLast_concat]
    exact hl'

/-- A character is stored, and the line is committed at its end. -/
theorem Layout.put (hl : Layout i q line) (c : UInt8) :
    if INPUT_BUF - (q.length + line.length) = 0 then Layout (put i c) q line
    else if c = newline ∨ c = ctrl 'D' ∨ INPUT_BUF - (q.length + line.length) = 1 then
      Layout (put i c) (q ++ (line ++ [c])) []
    else Layout (put i c) q (line ++ [c]) := by
  have hcap := hl.cap
  have hpush : q.length + line.length < INPUT_BUF →
      Ring.Holds (Function.update i.buf (Ring.slot INPUT_BUF i.e) c) i.r (q ++ (line ++ [c])) := by
    intro hlt
    have := hl.ring.push (b := c) (by decide) (by rwa [List.length_append])
    rwa [List.length_append, ← hl.e, List.append_assoc] at this
  have he : i.e + 1 = i.r + UInt32.ofNat (q.length + line.length + 1) := by
    rw [hl.e, Ring.ofNat_succ_eq, add_assoc]
  unfold Console.put
  rw [hl.e_sub_r]
  split
  next hfull =>
    rw [if_neg (by omega)]
    exact hl
  next hroom =>
    have hlt : q.length + line.length < INPUT_BUF := by omega
    have hlast : i.e + 1 = i.r + UInt32.ofNat INPUT_BUF ↔
        INPUT_BUF - (q.length + line.length) = 1 := by
      rw [he]
      constructor
      · intro h
        have := add_ofNat_inj (by omega) (Nat.le_refl _) h
        omega
      · intro h
        rw [show q.length + line.length + 1 = INPUT_BUF by omega]
    rw [if_pos hlt]
    dsimp only
    split
    next hend =>
      rw [if_pos (hend.imp_right (Or.imp_right hlast.mpr))]
      refine ⟨by simpa using hpush hlt, ?_, ?_, ?_, by simp⟩
      · simp [he, Nat.add_assoc]
      · simp [he, Nat.add_assoc]
      · simp only [List.length_append, List.length_singleton, List.length_nil]
        omega
    next hend =>
      rw [if_neg (fun h => hend (h.imp_right (Or.imp_right hlast.mp)))]
      refine ⟨hpush hlt, hl.w, ?_, ?_, ?_⟩
      · simp [he, Nat.add_assoc]
      · simp only [List.length_append, List.length_singleton]
        omega
      · intro hin
        rcases List.mem_append.mp hin with h | h
        · exact hl.line h
        · exact hend (.inl (List.mem_singleton.mp h).symm)

variable {P : Type} {s : State P}

/-- The ring against what was typed, and what was taken from it. -/
structure Inv (s : State P) : Prop where
  layout : Layout s.input s.pending s.line
  taken : s.taken.map Prod.snd = s.stream.take s.taken.length

theorem Inv.taken_le (hi : Inv s) : s.taken.length ≤ s.stream.length := by
  have := congrArg List.length hi.taken
  rw [List.length_map, List.length_take] at this
  omega

/-- **One character** of `consoleintr`. -/
theorem Inv.type (hi : Inv s) (c : UInt8) : Inv (s.type c) := by
  have hle := hi.taken_le
  unfold State.type typeKey
  rw [key_eq]
  cases classify c with
  | command => exact ⟨hi.layout, hi.taken⟩
  | killLine => exact ⟨hi.layout.killLine, hi.taken⟩
  | erase => exact ⟨hi.layout.erase, hi.taken⟩
  | char c =>
      have hput := hi.layout.put c
      have hroom : s.room = INPUT_BUF - (s.pending.length + s.line.length) := rfl
      dsimp only
      rw [hroom]
      split
      next hfull =>
        rw [if_pos hfull] at hput
        exact ⟨hput, hi.taken⟩
      next hfull =>
        rw [if_neg hfull] at hput
        split
        next hend =>
          rw [if_pos hend] at hput
          refine ⟨?_, ?_⟩
          · rwa [State.pending, List.append_assoc, List.drop_append_of_le_length hle]
          · rw [List.append_assoc, List.take_append_of_le_length hle]
            exact hi.taken
        next hend =>
          rw [if_neg hend] at hput
          exact ⟨hput, hi.taken⟩

theorem Inv.foldl_type (hi : Inv s) (cs : List UInt8) : Inv (cs.foldl State.type s) := by
  induction cs generalizing s with
  | nil => exact hi
  | cons c cs ih => exact ih (hi.type c)

/-! ## consoleread -/

/-- A call that goes on has read neither a newline nor `C('D')`. -/
def Plain (d : List UInt8) : Prop := ctrl 'D' ∉ d ∧ newline ∉ d

/-- What a call may return: nothing follows a newline. -/
def Whole (d : List UInt8) : Prop := ctrl 'D' ∉ d ∧ newline ∉ d.dropLast

/-- The characters that a call has taken from the stream, by what it returned. -/
def eaten (d : List UInt8) : List UInt8 := if d = [] then [ctrl 'D'] else d

/-- A call that has not returned. -/
structure Reader.Ok (rd : Reader) : Prop where
  plain : Plain rd.data
  count : rd.data.length + rd.n = rd.target
  pos : 0 < rd.n

/-- How a section ends, when the call has taken the characters `d` by then. -/
def Ends (target : Nat) (killed : Bool) (d : List UInt8) (t : Turn) : Prop :=
  match t.status with
  | .asleep n => t.data = d ∧ Reader.Ok ⟨target, n, t.data⟩
  | .returns => eaten t.data = d ∧ Whole t.data
  | .killed => killed = true

theorem Plain.whole {d : List UInt8} (h : Plain d) : Whole d :=
  ⟨h.1, fun hin => h.2 (List.mem_of_mem_dropLast hin)⟩

theorem Plain.concat {d : List UInt8} {c : UInt8} (h : Plain d) (hD : c ≠ ctrl 'D')
    (hn : c ≠ newline) : Plain (d ++ [c]) := by
  simp only [Plain, List.mem_append, List.mem_singleton] at h ⊢
  exact ⟨fun hin => hin.elim h.1 fun he => hD he.symm, fun hin => hin.elim h.2 fun he => hn he.symm⟩

/-- The first character between `r` and `w`. -/
theorem Layout.pop {c : UInt8} (hl : Layout i (c :: q) line) :
    i.at i.r = c ∧ Layout { i with r := i.r + 1 } q line := by
  have hw := hl.w
  have he := hl.e
  have hcap := hl.cap
  rw [List.length_cons] at hw he hcap
  refine ⟨hl.ring.1, hl.ring.2, ?_, ?_, by omega, hl.line⟩
  · dsimp only
    rw [hw, Ring.ofNat_succ_eq, add_assoc, add_comm 1]
  · dsimp only
    rw [he, show q.length + 1 + line.length = q.length + line.length + 1 by omega,
      Ring.ofNat_succ_eq, add_assoc, add_comm 1]

/-- **The loop of `consoleread`** takes characters from the front. -/
theorem readLoop_spec (target : Nat) (killed : Bool) (n : Nat) (data taken : List UInt8)
    (hl : Layout i q line) (hplain : Plain data) (hcount : data.length + n = target)
    (hpos : 0 < target) :
    ∃ k, k ≤ q.length ∧ (readLoop target killed n i data taken).taken = taken ++ q.take k ∧
      Layout (readLoop target killed n i data taken).input (q.drop k) line ∧
      Ends target killed (data ++ q.take k) (readLoop target killed n i data taken) := by
  induction n generalizing i q data taken with
  | zero =>
      have hne : data ≠ [] := by
        rintro rfl
        simp at hcount
        omega
      refine ⟨0, Nat.zero_le _, by simp [readLoop], hl, ?_⟩
      simp [readLoop, Ends, eaten, hne, hplain.whole]
  | succ n ih =>
      cases q with
      | nil =>
          refine ⟨0, Nat.zero_le _, ?_⟩
          rw [readLoop, if_pos (hl.r_eq_w_iff.mpr rfl)]
          refine ⟨by simp, hl, ?_⟩
          cases killed with
          | true => rfl
          | false => exact ⟨by simp, hplain, hcount, Nat.succ_pos n⟩
      | cons c q =>
          obtain ⟨hat, hl'⟩ := hl.pop
          have hne : i.r ≠ i.w := by
            rw [ne_eq, hl.r_eq_w_iff]
            simp
          rw [readLoop, if_neg hne]
          dsimp only
          rw [hat]
          split
          next hD =>
            subst hD
            split
            next hlt =>
              have hdata : data ≠ [] := by
                rintro rfl
                simp at hcount
                omega
              refine ⟨0, Nat.zero_le _, by simp, ?_, ?_⟩
              · simpa using hl
              · simp [Ends, eaten, hdata, hplain.whole]
            next hlt =>
              obtain rfl : data = [] := List.eq_nil_of_length_eq_zero (by omega)
              exact ⟨1, by simp, by simp, by simpa using hl', by simp [Ends, eaten, Whole]⟩
          next hD =>
            split
            next hn =>
              refine ⟨1, by simp, by simp, by simpa using hl', ?_⟩
              have hD' : ctrl 'D' ∉ data ++ [c] := by
                simp only [List.mem_append, List.mem_singleton]
                exact fun hin => hin.elim hplain.1 fun he => hD he.symm
              simp [Ends, eaten, Whole, hplain.2, hD']
            next hn =>
              obtain ⟨k, hk, htaken, hlay, hends⟩ := ih (data ++ [c]) (taken ++ [c]) hl'
                (hplain.concat hD hn) (by simp; omega)
              refine ⟨k + 1, by simpa using hk, by simpa using htaken, by simpa using hlay, ?_⟩
              simpa using hends

variable [DecidableEq P]

/-- What a section of `consoleread` by `p` leaves of the calls, if it takes `u`. -/
inductive TurnEnds (s s' : State P) (p : P) (rd : Reader) (killed : Bool) (u : List UInt8) : Prop
  | asleep (rd' : Reader) : rd'.Ok → rd'.data = rd.data ++ u →
      s'.reader = Function.update s.reader p (some rd') → s'.returned = s.returned →
      TurnEnds s s' p rd killed u
  | returns (d : List UInt8) : Whole d → eaten d = rd.data ++ u →
      s'.reader = Function.update s.reader p none → s'.returned = s.returned ++ [(p, d)] →
      TurnEnds s s' p rd killed u
  | killed : killed = true → s'.reader = Function.update s.reader p none →
      s'.returned = s.returned → TurnEnds s s' p rd killed u

/-- **One section** of `consoleread`. -/
theorem turn_spec (hi : Inv s) {rd : Reader} (hrd : rd.Ok) (p : P) (killed : Bool) :
    Inv (s.turn p rd killed) ∧ ∃ u, (s.turn p rd killed).taken = s.taken ++ u.map (fun c => (p, c)) ∧
      TurnEnds s (s.turn p rd killed) p rd killed u := by
  have hpos : 0 < rd.target := by
    have := hrd.count
    have := hrd.pos
    omega
  obtain ⟨k, hk, htaken, hlay, hends⟩ := readLoop_spec rd.target killed rd.n rd.data [] hi.layout
    hrd.plain hrd.count hpos
  have hlen : ((s.pending.take k).map fun c => (p, c)).length = k := by
    rw [List.length_map, List.length_take, min_eq_left hk]
  have hinv {s' : State P} (hinput : s'.input = (readLoop rd.target killed rd.n s.input rd.data []).input)
      (hstream : s'.stream = s.stream) (hline : s'.line = s.line)
      (htk : s'.taken = s.taken ++ (s.pending.take k).map fun c => (p, c)) : Inv s' := by
    refine ⟨?_, ?_⟩
    · rw [State.pending, hinput, hstream, hline, htk, List.length_append, hlen, ← List.drop_drop]
      exact hlay
    · rw [htk, hstream, List.length_append, hlen, List.take_add, List.map_append, hi.taken]
      simp [State.pending, Function.comp_def]
  rw [List.nil_append] at htaken
  unfold Ends at hends
  unfold State.turn
  dsimp only
  rw [htaken]
  split
  next n hst =>
    rw [hst] at hends
    exact ⟨hinv rfl rfl rfl rfl, s.pending.take k, rfl,
      .asleep ⟨rd.target, n, _⟩ hends.2 hends.1 rfl rfl⟩
  next hst =>
    rw [hst] at hends
    exact ⟨hinv rfl rfl rfl rfl, s.pending.take k, rfl, .returns _ hends.2 hends.1 rfl rfl⟩
  next hst =>
    rw [hst] at hends
    exact ⟨hinv rfl rfl rfl rfl, s.pending.take k, rfl, .killed hends rfl rfl⟩

/-! ## runs -/

/-- The bytes of a call that has not returned. -/
def State.partly (s : State P) (p : P) : List UInt8 := (s.reader p).elim [] Reader.data

/-- The calls that have not returned, and what the others returned. -/
structure Calls (s : State P) : Prop where
  inv : Inv s
  reader : ∀ p rd, s.reader p = some rd → rd.Ok
  whole : ∀ a ∈ s.returned, Whole a.2

/-- The step of a label is a section of `consoleread`, or leaves the calls alone. -/
theorem step_cases {l : Label P} {s' : State P} (hc : Calls s) (h : step s l = some s') :
    (Inv s' ∧ s'.reader = s.reader ∧ s'.taken = s.taken ∧ s'.returned = s.returned) ∨
    ∃ p rd killed, rd.Ok ∧ s' = s.turn p rd killed ∧ s.partly p = rd.data ∧
      (l = .resume p killed ∨ ∃ n, l = .read p n killed) := by
  cases l with
  | intr cs =>
      obtain rfl := Option.some.inj h
      have hkeep (t : State P) (cs : List UInt8) : (cs.foldl State.type t).reader = t.reader ∧
          (cs.foldl State.type t).taken = t.taken ∧
          (cs.foldl State.type t).returned = t.returned := by
        induction cs generalizing t with
        | nil => exact ⟨rfl, rfl, rfl⟩
        | cons c cs ih => exact ih (t.type c)
      exact .inl ⟨hc.inv.foldl_type cs, hkeep s cs⟩
  | read p n killed =>
      unfold step at h
      cases hr : s.reader p with
      | some rd => simp [hr] at h
      | none =>
          simp only [hr] at h
          split at h
          next =>
            obtain rfl := Option.some.inj h
            exact .inl ⟨hc.inv, rfl, rfl, rfl⟩
          next hn =>
            refine .inr ⟨p, ⟨n, n, []⟩, killed, ⟨?_, ?_, ?_⟩, (Option.some.inj h).symm, ?_,
              .inr ⟨n, rfl⟩⟩
            · simp [Plain]
            · simp
            · exact Nat.pos_of_ne_zero hn
            · simp [State.partly, hr]
  | resume p killed =>
      unfold step at h
      cases hr : s.reader p with
      | none => simp [hr] at h
      | some rd =>
          simp only [hr, Option.map_some, Option.some.injEq] at h
          exact .inr ⟨p, rd, killed, hc.reader p rd hr, h.symm, by simp [State.partly, hr], .inl rfl⟩

theorem Calls.step {l : Label P} {s' : State P} (hc : Calls s) (h : Console.step s l = some s') :
    Calls s' := by
  rcases step_cases hc h with ⟨hi, hr, -, hret⟩ | ⟨p, rd, killed, hrd, rfl, -, -⟩
  · exact ⟨hi, fun q rd hq => hc.reader q rd (hr ▸ hq), hret.symm ▸ hc.whole⟩
  · obtain ⟨hi, u, -, hends⟩ := turn_spec hc.inv hrd p killed
    have hreader {r : Option Reader} (hr : ∀ rd, r = some rd → rd.Ok) (q : P) (rd' : Reader)
        (hq : Function.update s.reader p r q = some rd') : rd'.Ok := by
      by_cases hqp : q = p
      · subst hqp
        rw [Function.update_self] at hq
        exact hr rd' hq
      · rw [Function.update_of_ne hqp] at hq
        exact hc.reader q rd' hq
    cases hends with
    | asleep rd' hok _ hr hret =>
        refine ⟨hi, ?_, hret.symm ▸ hc.whole⟩
        rw [hr]
        exact hreader (by rintro _ ⟨⟩; exact hok)
    | returns d hd _ hr hret =>
        refine ⟨hi, ?_, ?_⟩
        · rw [hr]
          exact hreader (by simp)
        · intro a ha
          rw [hret] at ha
          rcases List.mem_append.mp ha with ha | ha
          · exact hc.whole a ha
          · rw [List.mem_singleton.mp ha]
            exact hd
    | killed _ hr hret =>
        refine ⟨hi, ?_, hret.symm ▸ hc.whole⟩
        rw [hr]
        exact hreader (by simp)

/-- No call finds its process killed. -/
def NotKilled (_ : State P) : Label P → Prop
  | .intr _ => True
  | .read _ _ killed => killed = false
  | .resume _ killed => killed = false

/-- A call begins when no other one is under way. -/
def Alone (s : State P) : Label P → Prop
  | .read _ _ _ => ∀ q, s.reader q = none
  | _ => True

/-- Each process has taken what its calls returned and hold. -/
def Mine (s : State P) : Prop :=
  ∀ p, (s.taken.filter fun a => a.1 = p).map Prod.snd =
    (s.returned.filter fun a => a.1 = p).flatMap (fun a => eaten a.2) ++ s.partly p

/-- What was taken is what the calls returned, in their order, and what the one that is
under way holds. -/
def InOrder (s : State P) : Prop :=
  ∀ p, (∀ q, q ≠ p → s.reader q = none) →
    s.taken.map Prod.snd = s.returned.flatMap (fun a => eaten a.2) ++ s.partly p

omit [DecidableEq P] in
theorem start_calls (buf : Fin INPUT_BUF → UInt8) (r : UInt32) :
    Calls (start buf r : State P) := by
  refine ⟨⟨⟨?_, ?_, ?_, ?_, ?_⟩, ?_⟩, ?_, ?_⟩ <;> simp [start, State.pending]

/-- What a call that is not killed has taken, it returns or holds. -/
theorem TurnEnds.account {s' : State P} {p : P} {rd : Reader} {u : List UInt8}
    (h : TurnEnds s s' p rd false u) :
    ∃ more, s'.returned = s.returned ++ more ∧ (∀ a ∈ more, a.1 = p) ∧
      more.flatMap (fun a => eaten a.2) ++ s'.partly p = rd.data ++ u ∧
      ∀ q, q ≠ p → s'.reader q = s.reader q := by
  cases h with
  | asleep rd' _ hdata hr hret =>
      refine ⟨[], by simp [hret], by simp, ?_, fun q hq => ?_⟩
      · simp [State.partly, hr, hdata]
      · rw [hr, Function.update_of_ne hq]
  | returns d _ hd hr hret =>
      refine ⟨[(p, d)], hret, by simp, ?_, fun q hq => ?_⟩
      · simp [State.partly, hr, hd]
      · rw [hr, Function.update_of_ne hq]
  | killed hk _ _ => cases hk

theorem Mine.step {l : Label P} {s' : State P} (hm : Mine s) (hc : Calls s) (hk : NotKilled s l)
    (h : Console.step s l = some s') : Mine s' := by
  rcases step_cases hc h with ⟨-, hr, ht, hret⟩ | ⟨p, rd, killed, hrd, rfl, hpart, hl⟩
  · intro p
    rw [State.partly, ht, hret, hr]
    exact hm p
  · obtain rfl : killed = false := by
      rcases hl with rfl | ⟨n, rfl⟩ <;> exact hk
    obtain ⟨-, u, htaken, hends⟩ := turn_spec hc.inv hrd p false
    obtain ⟨more, hret, hmore, hsum, hother⟩ := hends.account
    intro q
    rw [htaken, hret, List.filter_append, List.map_append, hm q, List.filter_append,
      List.flatMap_append]
    by_cases hqp : q = p
    · subst hqp
      have hmine : (u.map fun c => (q, c)).filter (fun a => a.1 = q) = u.map fun c => (q, c) := by
        rw [List.filter_eq_self]
        simp
      have hall : more.filter (fun a => a.1 = q) = more := by
        rw [List.filter_eq_self]
        simpa using hmore
      rw [hmine, hall, List.append_assoc, List.append_assoc, hsum, hpart]
      simp [Function.comp_def]
    · have hnone : (u.map fun c => (p, c)).filter (fun a => a.1 = q) = [] := by
        rw [List.filter_eq_nil_iff]
        simp [Ne.symm hqp]
      have hnone' : more.filter (fun a => a.1 = q) = [] := by
        rw [List.filter_eq_nil_iff]
        intro a ha
        rw [hmore a ha]
        simpa using Ne.symm hqp
      rw [hnone, hnone', State.partly, State.partly, hother q hqp]
      simp

/-- At most one call is under way. -/
def Single (s : State P) : Prop := ∀ p q, s.reader p ≠ none → s.reader q ≠ none → p = q

theorem InOrder.step {l : Label P} {s' : State P} (ho : InOrder s) (hs : Single s) (hc : Calls s)
    (hk : NotKilled s l) (ha : Alone s l) (h : Console.step s l = some s') :
    InOrder s' ∧ Single s' := by
  rcases step_cases hc h with ⟨-, hr, ht, hret⟩ | ⟨p, rd, killed, hrd, rfl, hpart, hl⟩
  · refine ⟨?_, ?_⟩
    · intro p hp
      rw [State.partly, ht, hret, hr]
      exact ho p (hr ▸ hp)
    · intro p q
      rw [hr]
      exact hs p q
  · obtain rfl : killed = false := by
      rcases hl with rfl | ⟨n, rfl⟩ <;> exact hk
    obtain ⟨-, u, htaken, hends⟩ := turn_spec hc.inv hrd p false
    obtain ⟨more, hret, -, hsum, hother⟩ := hends.account
    -- no other call is under way
    have hidle : ∀ q, q ≠ p → s.reader q = none := by
      intro q hq
      rcases hl with rfl | ⟨n, rfl⟩
      · by_contra hne
        refine hq (hs q p hne ?_)
        intro hnone
        simp [Console.step, hnone] at h
      · exact ha q
    refine ⟨?_, ?_⟩
    · intro q hq
      have hq' : (s.turn p rd false).partly q = (s.turn p rd false).partly p := by
        by_cases hqp : q = p
        · rw [hqp]
        · rw [State.partly, State.partly, hother q hqp, hidle q hqp, hq p (Ne.symm hqp)]
      rw [hq', htaken, hret, List.map_append, ho p hidle, List.flatMap_append, List.append_assoc,
        List.append_assoc, hsum, hpart]
      simp [Function.comp_def]
    · intro q q' hne hne'
      have hone : ∀ q, (s.turn p rd false).reader q ≠ none → q = p := by
        intro q hne
        by_contra hqp
        exact hne ((hother q hqp).trans (hidle q hqp))
      rw [hone q hne, hone q' hne']

/-- The indices and the ring. -/
structure Indexed (s : State P) : Prop where
  w_le : s.input.w - s.input.r ≤ s.input.e - s.input.r
  e_le : s.input.e - s.input.r ≤ UInt32.ofNat INPUT_BUF
  w : s.input.w = s.input.r + UInt32.ofNat s.pending.length
  ring : Ring.Holds s.input.buf s.input.r s.pending
  taken : s.taken.map Prod.snd = s.stream.take s.taken.length

omit [DecidableEq P] in
theorem Inv.indexed (hi : Inv s) : Indexed s where
  w_le := by
    rw [UInt32.le_iff_toNat_le, hi.layout.w_sub_r, hi.layout.e_sub_r]
    exact Nat.le_add_right _ _
  e_le := by
    rw [UInt32.le_iff_toNat_le, hi.layout.e_sub_r]
    exact hi.layout.cap
  w := hi.layout.w
  ring := (Ring.holds_append.mp hi.layout.ring).1
  taken := hi.taken

/-- **The line discipline.**  In every run the indices stay in order and the ring
holds what was committed and not yet taken, and the characters are taken in the
order of the stream.  If no process is killed, each process has taken what its
calls returned, where a call that returned nothing has taken one `C('D')`, and no
call reads past a newline or a `C('D')`; and calls that follow each other return the
stream in order. -/
theorem console_discipline (buf : Fin INPUT_BUF → UInt8) (r : UInt32) (ls : List (Label P)) :
    Run.Along step Indexed (start buf r) ls ∧
    (Run.Guarded step NotKilled (start buf r) ls →
      Run.Along step (fun s => (∀ a ∈ s.returned, Whole a.2) ∧ Mine s) (start buf r) ls ∧
      (Run.Guarded step Alone (start buf r) ls → Run.Along step InOrder (start buf r) ls)) := by
  have hstart := start_calls (P := P) buf r
  refine ⟨?_, fun hk => ⟨?_, fun ha => ?_⟩⟩
  · exact Run.along_of_guarded (G := fun _ _ => True) (fun _ _ _ hc _ h => hc.step h)
      (fun _ hc => hc.inv.indexed) hstart (Run.guarded_of_forall_mem fun _ _ _ => trivial)
  · have hstep (s : State P) (l : Label P) (s' : State P) (hI : Calls s ∧ Mine s)
        (hk : NotKilled s l) (h : step s l = some s') : Calls s' ∧ Mine s' :=
      ⟨hI.1.step h, hI.2.step hI.1 hk h⟩
    refine Run.along_of_guarded hstep (fun _ hI => ⟨hI.1.whole, hI.2⟩) ⟨hstart, ?_⟩ hk
    intro p
    rfl
  · have hstep (s : State P) (l : Label P) (s' : State P) (hI : Calls s ∧ InOrder s ∧ Single s)
        (hok : NotKilled s l ∧ Alone s l) (h : step s l = some s') :
        Calls s' ∧ InOrder s' ∧ Single s' :=
      ⟨hI.1.step h, hI.2.1.step hI.2.2 hI.1 hok.1 hok.2 h⟩
    refine Run.along_of_guarded hstep (fun _ hI => hI.2.1) ⟨hstart, ?_, ?_⟩ (hk.and ha)
    · intro p _
      rfl
    · intro p q hne
      exact absurd rfl hne

/-- A line, an end of file and a line again, with the indices about to wrap. -/
theorem console_discipline_run :
    Run.Along step InOrder (start (fun _ => 0) 0xffffffff : State Bool)
      [.read true 5 false, .intr [0x68, 0x69, 0x0d, 0x04], .resume true false,
        .read false 9 false] := by
  refine ((console_discipline (fun _ => 0) 0xffffffff _).2 ?_).2 ?_
  · exact ⟨rfl, fun _ _ => ⟨trivial, fun _ _ => ⟨rfl, fun _ _ => ⟨rfl, fun _ _ => trivial⟩⟩⟩⟩
  · refine ⟨fun _ => rfl, fun s h => ⟨trivial, fun t h' => ⟨trivial, fun u h'' => ⟨?_, fun _ _ =>
      trivial⟩⟩⟩⟩
    -- the first call has returned
    have hrun : (Run.exec step (start (fun _ => 0) 0xffffffff : State Bool)
        [.read true 5 false, .intr [0x68, 0x69, 0x0d, 0x04], .resume true false]).any
          (fun u => (u.reader true).isNone && (u.reader false).isNone) = true := by
      decide +kernel
    simp only [Run.exec, h, h', h'', Option.bind_some, Option.any_some, Bool.and_eq_true,
      Option.isNone_iff_eq_none] at hrun
    intro q
    cases q with
    | true => exact hrun.1
    | false => exact hrun.2

end Xv6.Console
