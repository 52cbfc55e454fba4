import Xv6.Ids.Lookup
import Xv6.Lib.Prog

/-!
# Xv6.Ids.Bounds

The accesses of `get_id` and `get_group`.

`getEntryAt` is the same code as `getEntry`, with the buffer `current_line` as an array and with
each access checked: an index outside of the buffer, a store past the end of `tokens` and the
use of a token that was not set are errors.  `getEntryAt_eq` says that without an error both
return the same record, and `getEntryAt_safe_iff` that there is none exactly if the next line
is `Tidy`.
-/

namespace Xv6.Ids

/-! ## checked accesses -/

/-- An access that is not allowed. -/
inductive Fault
  /-- a store past the end of `tokens` -/
  | tokens
  /-- an index outside of `current_line` -/
  | line
  /-- a token that was not set -/
  | unset
deriving DecidableEq

structure Mem where
  /-- the bytes of the file that were not yet read -/
  file : List UInt8
  /-- `current_line` -/
  line : Nat → UInt8
  /-- the local array `tokens` -/
  tokens : Nat → Option Nat

abbrev M := Prog Fault Mem

/-- `current_line[i]` -/
def readAt (i : Int) : M UInt8 := do
  if 0 ≤ i ∧ i < PANJANG_LINE then return (← get).line i.toNat
  else throw .line

/-- `current_line[i] = c` -/
def writeAt (i : Int) (c : UInt8) : M Unit := do
  if 0 ≤ i ∧ i < PANJANG_LINE then
    modify fun m => { m with line := Function.update m.line i.toNat c }
  else throw .line

/-- `tokens[n] = current_line + i` -/
def setToken (n i : Nat) : M Unit := do
  if n < JUMLAH_TOKEN then
    modify fun m => { m with tokens := Function.update m.tokens n (some i) }
  else throw .tokens

/-- `tokens[n]` -/
def useToken (n : Nat) : M Nat := do
  match (← get).tokens n with
  | some i => return i
  | none => throw .unset

/-- The loop of `fgets`: where the next byte would be stored. -/
def fgetsAt : Nat → Nat → M Nat
  | 0, i => return i
  | n + 1, i => do
      match (← get).file with
      | [] => return i
      | c :: f =>
          modify fun m => { m with file := f }
          writeAt i c
          if isEnd c then return i + 1 else fgetsAt n (i + 1)

/-- `strlen(current_line)`, from `i` on. -/
def strlenAt : Nat → Nat → M Nat
  | 0, _ => throw .line
  | fuel + 1, i => do
      if (← readAt i) = 0 then return i else strlenAt fuel (i + 1)

/-- The loop that fills `tokens`; `n` is `token_selanjutnya`. -/
def scanAt : Nat → Nat → Bool → Nat → M Nat
  | 0, _, _, _ => throw .line
  | fuel + 1, i, ok, n => do
      let c ← readAt i
      if c = 0 then return i
      else if c = 0x20 then
        if ok then do
          writeAt i 0
          scanAt fuel (i + 1) false n
        else do
          setToken n i
          writeAt i 0
          scanAt fuel (i + 1) false (n + 1)
      else if !ok && n < JUMLAH_TOKEN then do
        setToken n i
        scanAt fuel (i + 1) true (n + 1)
      else scanAt fuel (i + 1) ok n

/-- The string at a place, for `atoi` and for those who use the name. -/
def strAt : Nat → Nat → M (List UInt8)
  | 0, _ => throw .line
  | fuel + 1, i => do
      let c ← readAt i
      if c = 0 then return [] else return c :: (← strAt fuel (i + 1))

/-- The end of `get_id` and `get_group`. -/
def recordAt : Family → M Record
  | .id => do
      let name ← strAt (PANJANG_LINE + 1) (← useToken 0)
      let uid ← strAt (PANJANG_LINE + 1) (← useToken 1)
      let gid ← strAt (PANJANG_LINE + 1) (← useToken 2)
      return .user name (atoi uid) (atoi gid)
  | .group => do
      let name ← strAt (PANJANG_LINE + 1) (← useToken 0)
      let gid ← strAt (PANJANG_LINE + 1) (← useToken 1)
      return .group name (atoi gid)

/-- `get_id` and `get_group`; `none` is -1. -/
def getEntryAt (fam : Family) : M (Option Record) := do
  let i ← fgetsAt (PANJANG_LINE - 1) 0
  writeAt i 0
  let len ← strlenAt (PANJANG_LINE + 1) 0
  if isEnd (← readAt (len - 1 : Int)) then writeAt (len - 1 : Int) 0
  modify fun m => { m with tokens := fun _ => none }
  let i ← scanAt (PANJANG_LINE + 1) 0 false 0
  if i = 0 then return none
  else return some (← recordAt fam)

/-! ## the buffer -/

/-- The string `s` is in the buffer at `i`. -/
def StrAt (line : Nat → UInt8) : Nat → List UInt8 → Prop
  | i, [] => line i = 0 ∧ i < PANJANG_LINE
  | i, c :: s => line i = c ∧ c ≠ 0 ∧ i < PANJANG_LINE ∧ StrAt line (i + 1) s

section Access

variable {m : Mem} {i n fuel : Nat} {c : UInt8} {s : List UInt8} {line : Nat → UInt8}
  {E : Fault → Prop}

theorem wpE_readAt {Q : UInt8 → Mem → Prop} (hi : i < PANJANG_LINE) :
    wpE (readAt i) m Q E ↔ Q (m.line i) m := by
  have hin : (0 : Int) ≤ i ∧ (i : Int) < PANJANG_LINE := by omega
  rw [readAt, if_pos hin]
  exact Iff.rfl

theorem wpE_writeAt {Q : Unit → Mem → Prop} (hi : i < PANJANG_LINE) :
    wpE (writeAt i c) m Q E ↔ Q () { m with line := Function.update m.line i c } := by
  have hin : (0 : Int) ≤ i ∧ (i : Int) < PANJANG_LINE := by omega
  rw [writeAt, if_pos hin]
  exact Iff.rfl

theorem wpE_setToken {Q : Unit → Mem → Prop} (hn : n < JUMLAH_TOKEN) :
    wpE (setToken n i) m Q E ↔
      Q () { m with tokens := Function.update m.tokens n (some i) } := by
  rw [setToken, if_pos hn]
  exact Iff.rfl

theorem StrAt.lt (h : StrAt line i s) : i + s.length < PANJANG_LINE := by
  induction s generalizing i with
  | nil => exact h.2
  | cons c s ih =>
      have := ih h.2.2.2
      rw [List.length_cons]
      omega

theorem StrAt.congr {line' : Nat → UInt8} (h : StrAt line i s)
    (heq : ∀ k, i ≤ k → line' k = line k) : StrAt line' i s := by
  induction s generalizing i with
  | nil => exact ⟨(heq i le_rfl).trans h.1, h.2⟩
  | cons c s ih =>
      exact ⟨(heq i le_rfl).trans h.1, h.2.1, h.2.2.1, ih h.2.2.2 fun k hk => heq k (by omega)⟩

/-- The string without its last byte. -/
theorem StrAt.chop (h : StrAt line i (s ++ [c])) :
    StrAt (Function.update line (i + s.length) 0) i s := by
  induction s generalizing i with
  | nil => exact ⟨Function.update_self _ _ _, h.2.2.1⟩
  | cons d s ih =>
      have hne : i ≠ i + (d :: s).length := by
        rw [List.length_cons]
        omega
      refine ⟨(Function.update_of_ne hne _ _).trans h.1, h.2.1, h.2.2.1, ?_⟩
      have hrest := ih h.2.2.2
      rwa [List.length_cons, ← Nat.add_assoc, Nat.add_right_comm]

/-- The byte before the end. -/
theorem StrAt.last (h : StrAt line i (s ++ [c])) : line (i + s.length) = c := by
  induction s generalizing i with
  | nil => exact h.1
  | cons d s ih =>
      have hrest := ih h.2.2.2
      rwa [List.length_cons, ← Nat.add_assoc, Nat.add_right_comm]

/-- **`fgets`** stores the bytes that it reads, and then a `0`. -/
theorem fgetsAt_spec (hin : i + n < PANJANG_LINE) :
    wpE (fgetsAt n i) m (fun j m' => j < PANJANG_LINE ∧ (∀ k < i, m'.line k = m.line k) ∧ i ≤ j ∧
      m'.file = (fgetsLoop n m.file).2 ∧ StrAt (Function.update m'.line j 0) i
        ((fgetsLoop n m.file).1.takeWhile (· != 0))) E := by
  induction n generalizing m i with
  | zero =>
      exact wpE_pure.mpr ⟨hin, fun _ _ => rfl, le_rfl, rfl, Function.update_self _ _ _, hin⟩
  | succ n ih =>
      simp only [fgetsAt, wpE_bind, wpE_get]
      cases hf : m.file with
      | nil =>
          exact wpE_pure.mpr ⟨by omega, fun _ _ => rfl, le_rfl, hf, Function.update_self _ _ _,
            by omega⟩
      | cons c f =>
          have hi : i < PANJANG_LINE := by omega
          simp only [wpE_bind, wpE_modify, wpE_writeAt hi]
          -- the byte at `i`, and the string that starts there
          have hcell (l : Nat → UInt8) (t : List UInt8) (hc : l i = c) (ht : StrAt l (i + 1)
              (t.takeWhile (· != 0))) : StrAt l i ((c :: t).takeWhile (· != 0)) := by
            by_cases h0 : c = 0
            · rw [List.takeWhile_cons_of_neg (by simp [h0])]
              exact ⟨hc.trans h0, hi⟩
            · rw [List.takeWhile_cons_of_pos (by simp [h0])]
              exact ⟨hc, h0, hi, ht⟩
          split
          · next hend =>
            refine wpE_pure.mpr ⟨by omega, fun k hk => Function.update_of_ne (Nat.ne_of_lt hk) _ _,
              Nat.le_succ i, ?_, ?_⟩
            · simp [fgetsLoop, hend]
            · simp only [fgetsLoop, hend, if_true]
              refine hcell _ [] ?_ ⟨Function.update_self _ _ _, by omega⟩
              rw [Function.update_of_ne (by omega), Function.update_self]
          · next hend =>
            refine (ih (i := i + 1) (by omega)).mono ?_ fun _ he => he
            rintro j m' ⟨hj, hsame, hle, hfile, hstr⟩
            have hbyte : m'.line i = c := by
              rw [hsame i (by omega)]
              exact Function.update_self _ _ _
            refine ⟨hj, fun k hk => ?_, by omega, ?_, ?_⟩
            · rw [hsame k (by omega)]
              exact Function.update_of_ne (Nat.ne_of_lt hk) _ _
            · simpa [fgetsLoop, hend] using hfile
            · simp only [fgetsLoop, hend, Bool.false_eq_true, if_false]
              refine hcell _ _ ?_ hstr
              rw [Function.update_of_ne (by omega), hbyte]

theorem strlenAt_spec (h : StrAt m.line i s) (hfuel : s.length < fuel) :
    wpE (strlenAt fuel i) m (fun r m' => m' = m ∧ r = i + s.length) E := by
  induction s generalizing i fuel with
  | nil =>
      obtain ⟨fuel, rfl⟩ := Nat.exists_eq_add_one_of_ne_zero (Nat.ne_zero_of_lt hfuel)
      simp only [strlenAt, wpE_bind, wpE_readAt h.2, h.1, if_true]
      exact wpE_pure.mpr ⟨rfl, rfl⟩
  | cons c s ih =>
      obtain ⟨fuel, rfl⟩ := Nat.exists_eq_add_one_of_ne_zero (Nat.ne_zero_of_lt hfuel)
      obtain ⟨hc, h0, hi, hrest⟩ := h
      simp only [strlenAt, wpE_bind, wpE_readAt hi, hc, if_neg h0]
      refine (ih hrest (Nat.lt_of_succ_lt_succ hfuel)).mono ?_ fun _ he => he
      rintro r m' ⟨rfl, rfl⟩
      exact ⟨rfl, by rw [List.length_cons]; omega⟩

/-! ## tokens -/

/-- The tokens are those of a list. -/
def Tokens (t : Nat → Option Nat) (tokens : List Nat) : Prop := ∀ k, t k = tokens[k]?

theorem Tokens.push {t : Nat → Option Nat} {tokens : List Nat} (h : Tokens t tokens) (i : Nat) :
    Tokens (Function.update t tokens.length (some i)) (tokens ++ [i]) := by
  intro k
  by_cases hk : k = tokens.length
  · subst hk
    simp
  · have hne : (tokens ++ [i])[k]? = tokens[k]? := by
      rcases Nat.lt_or_gt_of_ne hk with hlt | hgt
      · rw [List.getElem?_append_left hlt]
      · rw [List.getElem?_append_right (by omega), List.getElem?_eq_none (by simp; omega),
          List.getElem?_eq_none (by omega)]
    rw [Function.update_of_ne hk, h k, hne]

/-- **The scan** does what `split` does. -/
theorem scanAt_spec {tokens : List Nat} {ok : Bool} (h : StrAt m.line i s) (hfuel : s.length < fuel)
    (htokens : Tokens m.tokens tokens) :
    wpE (scanAt fuel i ok tokens.length) m (fun r m' => r = i + s.length ∧
      (∀ k < i, m'.line k = m.line k) ∧ (∀ k ≤ s.length, m'.line (i + k) = (blanked s).getD k 0) ∧
      ∃ tokens', split i ok tokens s = some tokens' ∧ Tokens m'.tokens tokens')
      fun _ => split i ok tokens s = none := by
  induction s generalizing m i fuel ok tokens with
  | nil =>
      obtain ⟨fuel, rfl⟩ := Nat.exists_eq_add_one_of_ne_zero (Nat.ne_zero_of_lt hfuel)
      simp only [scanAt, wpE_bind, wpE_readAt h.2, h.1, if_true]
      refine wpE_pure.mpr ⟨rfl, fun _ _ => rfl, fun k hk => ?_, tokens, rfl, htokens⟩
      obtain rfl : k = 0 := Nat.le_zero.mp hk
      exact h.1
  | cons c s ih =>
      obtain ⟨fuel, rfl⟩ := Nat.exists_eq_add_one_of_ne_zero (Nat.ne_zero_of_lt hfuel)
      obtain ⟨hc, h0, hi, hrest⟩ := h
      have hfuel' : s.length < fuel := Nat.lt_of_succ_lt_succ hfuel
      -- what the rest of the scan leaves, with the byte `d` at `i`
      have hnext (m₁ : Mem) (ok' : Bool) (tokens₁ : List Nat) (d : UInt8)
          (hd : (blanked (c :: s)).getD 0 0 = d) (hline : m₁.line = Function.update m.line i d)
          (ht : Tokens m₁.tokens tokens₁) (hsplit : split i ok tokens (c :: s) =
            split (i + 1) ok' tokens₁ s) :
          wpE (scanAt fuel (i + 1) ok' tokens₁.length) m₁ (fun r m' => r = i + (c :: s).length ∧
            (∀ k < i, m'.line k = m.line k) ∧
            (∀ k ≤ (c :: s).length, m'.line (i + k) = (blanked (c :: s)).getD k 0) ∧
            ∃ tokens', split i ok tokens (c :: s) = some tokens' ∧ Tokens m'.tokens tokens')
            fun _ => split i ok tokens (c :: s) = none := by
        have hstr : StrAt m₁.line (i + 1) s := hrest.congr fun k hk => by
          rw [hline, Function.update_of_ne (by omega)]
        rw [hsplit]
        refine wpE.mono (ih hstr hfuel' ht) ?_ fun _ he => he
        rintro r m' ⟨rfl, hbelow, habove, htok⟩
        refine ⟨by rw [List.length_cons]; omega, fun k hk => ?_, fun k hk => ?_, htok⟩
        · rw [hbelow k (by omega), hline, Function.update_of_ne (by omega)]
        · cases k with
          | zero => rw [Nat.add_zero, hbelow i (by omega), hline, Function.update_self, hd]
          | succ k =>
              rw [List.length_cons] at hk
              have := habove k (by omega)
              rw [show i + (k + 1) = i + 1 + k by omega, this]
              rfl
      have hsame : m.line = Function.update m.line i c := by
        rw [← hc, Function.update_eq_self]
      simp only [scanAt, wpE_bind, wpE_readAt hi, hc, if_neg h0]
      by_cases hblank : c = 0x20
      · subst hblank
        simp only [if_true]
        cases ok with
        | true =>
            simp only [if_true, wpE_bind, wpE_writeAt hi]
            exact hnext ⟨m.file, _, m.tokens⟩ false tokens 0 rfl rfl htokens (by simp [split])
        | false =>
            simp only [Bool.false_eq_true, if_false]
            by_cases hlt : tokens.length < JUMLAH_TOKEN
            · simp only [wpE_bind, wpE_setToken hlt, wpE_writeAt hi]
              have := hnext ⟨m.file, _, _⟩ false (tokens ++ [i]) 0 rfl rfl (htokens.push i)
                (by simp [split, hlt])
              rwa [List.length_append, List.length_singleton] at this
            · simp only [wpE_bind, setToken, if_neg hlt]
              simp [split, hlt]
      · simp only [if_neg hblank]
        have hd : (blanked (c :: s)).getD 0 0 = c := by simp [blanked, hblank]
        split
        · next hnew =>
          simp only [Bool.and_eq_true, Bool.not_eq_true', decide_eq_true_eq] at hnew
          obtain ⟨rfl, hlt⟩ := hnew
          simp only [wpE_bind, wpE_setToken hlt]
          have := hnext ⟨m.file, m.line, Function.update m.tokens tokens.length (some i)⟩ true
            (tokens ++ [i]) c hd hsame (htokens.push i)
            (by simp [split, hblank, hlt])
          rwa [List.length_append, List.length_singleton] at this
        · next hold =>
          exact hnext m ok tokens c hd hsame htokens (by
            rw [split, if_neg hblank, if_neg hold])

/-- The string of a token is read. -/
theorem strAt_spec {len : Nat} {buf : List UInt8} (hlen : len < PANJANG_LINE)
    (hbuf : buf.length = len) (hline : ∀ k ≤ len, m.line k = buf.getD k 0) (hi : i ≤ len)
    (hfuel : len < i + fuel) :
    wpE (strAt fuel i) m (fun r m' => m' = m ∧ r = cstr buf i) E := by
  induction fuel generalizing i with
  | zero => omega
  | succ fuel ih =>
      simp only [strAt, wpE_bind, wpE_readAt (Nat.lt_of_le_of_lt hi hlen), hline i hi]
      rcases Nat.eq_or_lt_of_le hi with rfl | hlt
      · have hend : buf.getD i 0 = 0 := by simp [hbuf]
        rw [if_pos hend]
        exact wpE_pure.mpr ⟨rfl, by rw [cstr, List.drop_of_length_le (by omega), List.takeWhile_nil]⟩
      · have hget : buf.drop i = buf.getD i 0 :: buf.drop (i + 1) := by
          rw [List.drop_eq_getElem_cons (by omega), List.getD_eq_getElem?_getD,
            List.getElem?_eq_getElem (by omega), Option.getD_some]
        split
        · next h0 =>
          exact wpE_pure.mpr ⟨rfl, by rw [cstr, hget, h0, List.takeWhile_cons_of_neg (by decide)]⟩
        · next h0 =>
          refine wpE_bind_of (ih (by omega) (by omega)) ?_
          rintro r m' ⟨rfl, rfl⟩
          refine wpE_pure.mpr ⟨rfl, ?_⟩
          unfold cstr
          have hne : (buf.getD i 0 != 0) = true := bne_iff_ne.mpr h0
          rw [hget, List.takeWhile_cons, hne, if_pos rfl]

end Access

/-! ## how many tokens -/

/-- **When `tokens` overflows**: a blank is one too many after three tokens. -/
theorem split_eq_none {i : Nat} {ok : Bool} {tokens : List Nat} {s : List UInt8}
    (hlen : tokens.length ≤ JUMLAH_TOKEN) :
    split i ok tokens s = none ↔
      JUMLAH_TOKEN + (if ok then 1 else 0) < tokens.length + s.count 0x20 := by
  induction s generalizing i ok tokens with
  | nil => simp [split]; omega
  | cons c s ih =>
      rw [split]
      by_cases hblank : c = 0x20
      · subst hblank
        rw [if_pos rfl, List.count_cons_self]
        cases ok with
        | true =>
            rw [if_pos rfl, ih hlen]
            simp
            omega
        | false =>
            rw [if_neg (by simp)]
            split
            · next hlt =>
              rw [ih (by simp; omega), List.length_append, List.length_singleton]
              simp
              omega
            · simp
              omega
      · rw [if_neg hblank, List.count_cons_of_ne (Ne.symm (Ne.symm hblank))]
        split
        · next hnew =>
          simp only [Bool.and_eq_true, Bool.not_eq_true', decide_eq_true_eq] at hnew
          rw [ih (by simp; omega), List.length_append, List.length_singleton, hnew.1]
          simp
          omega
        · exact ih hlen

/-- **How many tokens are set**: one at the start, and one after each blank. -/
theorem length_split {i : Nat} {ok : Bool} {tokens tokens' : List Nat} {s : List UInt8}
    (hlen : tokens.length ≤ JUMLAH_TOKEN) (h : split i ok tokens s = some tokens') :
    tokens'.length = min JUMLAH_TOKEN
      (tokens.length + (if s = [] ∨ ok then 0 else 1) + s.dropLast.count 0x20) := by
  induction s generalizing i ok tokens with
  | nil =>
      obtain rfl := Option.some.inj h
      simp
      omega
  | cons c s ih =>
      have hlast : (c :: s).dropLast.count 0x20 =
          (if c = 0x20 ∧ s ≠ [] then 1 else 0) + s.dropLast.count 0x20 := by
        cases s with
        | nil => simp
        | cons d s =>
            rw [List.dropLast_cons_of_ne_nil (by simp), List.count_cons]
            simp
            omega
      rw [hlast]
      rw [split] at h
      by_cases hblank : c = 0x20
      · rw [if_pos hblank] at h
        cases ok with
        | true =>
            rw [if_pos rfl] at h
            rw [ih hlen h]
            by_cases hs : s = []
            · simp [hs]
            · simp [hs, hblank, Nat.add_assoc]
        | false =>
            rw [if_neg (by simp)] at h
            split at h
            · next hlt =>
              rw [ih (by simp; omega) h, List.length_append, List.length_singleton]
              by_cases hs : s = [] <;> simp [hs, hblank]
              omega
            · cases h
      · rw [if_neg hblank] at h
        split at h
        · next hnew =>
          simp only [Bool.and_eq_true, Bool.not_eq_true', decide_eq_true_eq] at hnew
          rw [ih (by simp; omega) h, List.length_append, List.length_singleton]
          simp [hblank, hnew.1]
        · next hold =>
          rw [ih hlen h]
          cases ok with
          | true => simp [hblank]
          | false =>
              simp only [Bool.not_false, Bool.true_and, decide_eq_true_eq] at hold
              by_cases hs : s = [] <;> simp [hs, hblank]
              all_goals omega

theorem split_mem {i : Nat} {ok : Bool} {tokens tokens' : List Nat} {s : List UInt8} {N : Nat}
    (h : split i ok tokens s = some tokens') (hold : ∀ a ∈ tokens, a ≤ N) (hN : i + s.length ≤ N) :
    ∀ a ∈ tokens', a ≤ N := by
  induction s generalizing i ok tokens with
  | nil =>
      obtain rfl := Option.some.inj h
      exact hold
  | cons c s ih =>
      rw [List.length_cons] at hN
      have hpush : ∀ a ∈ tokens ++ [i], a ≤ N := by
        intro a ha
        rcases List.mem_append.mp ha with ha | ha
        · exact hold a ha
        · rw [List.mem_singleton.mp ha]
          omega
      rw [split] at h
      split at h
      · split at h
        · exact ih h hold (by omega)
        · split at h
          · exact ih h hpush (by omega)
          · cases h
      · split at h
        · exact ih h hpush (by omega)
        · exact ih h hold (by omega)

/-! ## the next line -/

/-- The line at the front of a file, without its end. -/
def lineOf (n : Nat) (f : List UInt8) : List UInt8 :=
  (f.take n).takeWhile fun c => c != 0 && !isEnd c

/-- The fields after the first one. -/
def needs : Family → Nat
  | .id => 2
  | .group => 1

/-- The line is there and has blanks for the fields, but not more than three. -/
def Tidy (fam : Family) (f : List UInt8) : Prop :=
  f.headD 0 ≠ 0 ∧ (isEnd (f.headD 0) = true ∨
    (lineOf (PANJANG_LINE - 1) f).count 0x20 ≤ JUMLAH_TOKEN ∧
      needs fam ≤ (lineOf (PANJANG_LINE - 1) f).dropLast.count 0x20)

instance (fam : Family) (f : List UInt8) : Decidable (Tidy fam f) := by
  unfold Tidy
  infer_instance

theorem ne_zero_of_isEnd {c : UInt8} (h : isEnd c = true) : c ≠ 0 := by
  rintro rfl
  cases h

/-- What `fgets` stores before the first `0`: the line, and its end if that was read. -/
theorem fgetsLoop_cut (n : Nat) (f : List UInt8) :
    (fgetsLoop n f).1.takeWhile (· != 0) = lineOf n f ∨
      ∃ c, isEnd c = true ∧ (fgetsLoop n f).1.takeWhile (· != 0) = lineOf n f ++ [c] := by
  induction n generalizing f with
  | zero => exact .inl rfl
  | succ n ih =>
      cases f with
      | nil => exact .inl rfl
      | cons c f =>
          by_cases hend : isEnd c = true
          · have h0 := ne_zero_of_isEnd hend
            exact .inr ⟨c, hend, by simp [fgetsLoop, lineOf, hend, h0]⟩
          · by_cases h0 : c = 0
            · exact .inl (by simp [fgetsLoop, lineOf, h0, isEnd])
            · have hline : lineOf (n + 1) (c :: f) = c :: lineOf n f := by
                simp [lineOf, h0, hend]
              have hread : (fgetsLoop (n + 1) (c :: f)).1.takeWhile (· != 0) =
                  c :: (fgetsLoop n f).1.takeWhile (· != 0) := by
                simp [fgetsLoop, hend, h0]
              rw [hline, hread]
              rcases ih f with h | ⟨d, hd, h⟩
              · exact .inl (by rw [h])
              · exact .inr ⟨d, hd, by rw [h, List.cons_append]⟩

theorem isEnd_of_mem_lineOf {n : Nat} {f : List UInt8} {c : UInt8} (h : c ∈ lineOf n f) :
    isEnd c = false := by
  have := List.mem_takeWhile_imp h
  simp only [Bool.and_eq_true, Bool.not_eq_true'] at this
  exact this.2

theorem chop_fgets (n : Nat) (f : List UInt8) : chop (fgetsLoop n f).1 = lineOf n f := by
  unfold chop
  rcases fgetsLoop_cut n f with h | ⟨c, hc, h⟩
  · simp only [h]
    rcases List.eq_nil_or_concat (lineOf n f) with hnil | ⟨t, c, hcat⟩
    · simp [hnil]
    · have hc := isEnd_of_mem_lineOf (n := n) (f := f) (c := c) (by simp [hcat])
      simp [hcat, hc]
  · simp [h, hc]

theorem lineOf_eq_nil {n : Nat} {f : List UInt8} (h : f.headD 0 ≠ 0) :
    lineOf (n + 1) f = [] ↔ isEnd (f.headD 0) = true := by
  cases f with
  | nil => exact absurd rfl h
  | cons c f =>
      have h0 : c ≠ 0 := h
      by_cases hend : isEnd c = true
      · simp [lineOf, hend]
      · simp [lineOf, hend, h0]

theorem fgets_eq_nil {n : Nat} {f : List UInt8} :
    (fgetsLoop (n + 1) f).1.takeWhile (· != 0) = [] ↔ f.headD 0 = 0 := by
  cases f with
  | nil => simp [fgetsLoop]
  | cons c f =>
      by_cases hend : isEnd c = true
      · simp [fgetsLoop, hend, ne_zero_of_isEnd hend]
      · by_cases h0 : c = 0
        · simp [fgetsLoop, h0, isEnd]
        · simp [fgetsLoop, hend, h0]

/-! ## the whole call -/

section Call

variable {m : Mem} {fam : Family} {tokens : List Nat} {buf : List UInt8} {len : Nat}

/-- A token is used. -/
theorem useToken_spec {n : Nat} (ht : Tokens m.tokens tokens) :
    wpE (useToken n) m (fun a m' => m' = m ∧ tokens[n]? = some a) fun _ => tokens.length ≤ n := by
  simp only [useToken, wpE_bind, wpE_get]
  cases h : m.tokens n with
  | none =>
      rw [ht n] at h
      exact List.getElem?_eq_none_iff.mp h
  | some a =>
      rw [ht n] at h
      exact wpE_pure.mpr ⟨rfl, h⟩

/-- A token and its string. -/
theorem tokenStr_spec {α : Type} {f : List UInt8 → M α} {Q : α → Mem → Prop} {E : Fault → Prop}
    {n : Nat} (hlen : len < PANJANG_LINE) (hbuf : buf.length = len)
    (hline : ∀ k ≤ len, m.line k = buf.getD k 0) (ht : Tokens m.tokens tokens)
    (hle : ∀ a ∈ tokens, a ≤ len) (hshort : ∀ e, tokens.length ≤ n → E e)
    (hf : ∀ a, tokens[n]? = some a → wpE (f (cstr buf a)) m Q E) :
    wpE (do f (← strAt (PANJANG_LINE + 1) (← useToken n))) m Q E := by
  rw [wpE_bind]
  refine (useToken_spec ht).mono ?_ hshort
  rintro a m' ⟨hm', ha⟩
  obtain rfl := hm'.symm
  refine wpE_bind_of (strAt_spec hlen hbuf hline (hle a (List.mem_of_getElem? ha)) (by omega)) ?_
  rintro r m' ⟨hm', rfl⟩
  obtain rfl := hm'.symm
  exact hf a ha

theorem recordAt_spec (hlen : len < PANJANG_LINE) (hbuf : buf.length = len)
    (hline : ∀ k ≤ len, m.line k = buf.getD k 0) (ht : Tokens m.tokens tokens)
    (hle : ∀ a ∈ tokens, a ≤ len) :
    wpE (recordAt fam) m (fun r _ => needs fam < tokens.length ∧
      ∃ a, toRecord buf fam tokens = some (a, r)) fun _ => tokens.length ≤ needs fam := by
  cases fam with
  | id =>
      refine tokenStr_spec hlen hbuf hline ht hle (fun _ h => Nat.le_trans h (by decide))
        fun a ha => ?_
      refine tokenStr_spec hlen hbuf hline ht hle (fun _ h => Nat.le_trans h (by decide))
        fun b hb => ?_
      refine tokenStr_spec hlen hbuf hline ht hle (fun _ h => h) fun c hc => ?_
      obtain _ | ⟨a', _ | ⟨b', _ | ⟨c', rest⟩⟩⟩ := tokens
      · cases ha
      · cases hb
      · cases hc
      · cases ha
        cases hb
        cases hc
        exact wpE_pure.mpr ⟨by simp [needs], a, rfl⟩
  | group =>
      refine tokenStr_spec hlen hbuf hline ht hle (fun _ h => Nat.le_trans h (by decide))
        fun a ha => ?_
      refine tokenStr_spec hlen hbuf hline ht hle (fun _ h => h) fun b hb => ?_
      obtain _ | ⟨a', _ | ⟨b', rest⟩⟩ := tokens
      · cases ha
      · cases hb
      · cases ha
        cases hb
        exact wpE_pure.mpr ⟨by simp [needs], a, rfl⟩

/-- The scan and the record, once the line `s` without its end is in the buffer. -/
theorem scanLine_spec {s : List UInt8} (h : StrAt m.line 0 s) :
    wpE (do
      modify fun m => { m with tokens := fun _ => none }
      let i ← scanAt (PANJANG_LINE + 1) 0 false 0
      if i = 0 then return none
      else return some (← recordAt fam)) m
      (fun r _ => (s = [] ∧ r = none) ∨ s ≠ [] ∧ ∃ tokens a r', split 0 false [] s = some tokens ∧
        needs fam < tokens.length ∧ toRecord (blanked s) fam tokens = some (a, r') ∧ r = some r')
      fun _ => s ≠ [] ∧ ∀ tokens, split 0 false [] s = some tokens → tokens.length ≤ needs fam := by
  have hlt := h.lt
  rw [Nat.zero_add] at hlt
  rw [wpE_bind, wpE_modify, wpE_bind]
  have hnil : Tokens (fun _ => none) [] := fun _ => rfl
  have hscan : wpE (scanAt (PANJANG_LINE + 1) 0 false ([] : List Nat).length)
      ⟨m.file, m.line, fun _ => none⟩ _ _ := scanAt_spec h (by omega) hnil
  refine hscan.mono ?_ fun _ hnone => ?_
  · rintro r m' ⟨rfl, -, hline, tokens, hsplit, ht⟩
    rw [Nat.zero_add]
    split
    · next hnil => exact wpE_pure.mpr (.inl ⟨List.length_eq_zero_iff.mp hnil, rfl⟩)
    · next hne =>
      have hs : s ≠ [] := fun hnil => hne (by rw [hnil, List.length_nil])
      have hline' : ∀ k ≤ s.length, m'.line k = (blanked s).getD k 0 := fun k hk => by
        simpa using hline k hk
      refine wpE_bind.mpr ((recordAt_spec hlt (by simp [blanked]) hline' ht
        (split_mem hsplit (by simp) (by omega))).mono ?_ fun _ hshort => ?_)
      · rintro r _ ⟨hneeds, a, hrecord⟩
        exact wpE_pure.mpr (.inr ⟨hs, tokens, a, r, hsplit, hneeds, hrecord, rfl⟩)
      · refine ⟨hs, fun tokens' h' => ?_⟩
        rw [hsplit, Option.some.injEq] at h'
        exact h' ▸ hshort
  · refine ⟨fun hnil => ?_, fun tokens h' => ?_⟩
    · rw [hnil] at hnone
      cases hnone
    · rw [hnone] at h'
      cases h'

/-- The tokens of a line are enough exactly if it has the blanks. -/
theorem split_tidy {s : List UInt8} (hs : s ≠ []) :
    (∃ tokens, split 0 false [] s = some tokens ∧ needs fam < tokens.length) ↔
      s.count 0x20 ≤ JUMLAH_TOKEN ∧ needs fam ≤ s.dropLast.count 0x20 := by
  have hnone : split 0 false [] s = none ↔ _ := split_eq_none (by simp)
  simp only [Bool.false_eq_true, if_false, Nat.add_zero, List.length_nil, Nat.zero_add] at hnone
  have hneeds : needs fam < JUMLAH_TOKEN := by
    cases fam <;> decide
  cases hsplit : split 0 false [] s with
  | none =>
      have := hnone.mp hsplit
      simp only [reduceCtorEq, false_and, exists_const, false_iff]
      omega
  | some tokens =>
      have hle : ¬ JUMLAH_TOKEN < s.count 0x20 := fun hlt => by
        rw [hnone.mpr hlt] at hsplit
        cases hsplit
      have hlen := length_split (by simp) hsplit
      simp only [List.length_nil, hs, Bool.false_eq_true, or_self, if_false] at hlen
      simp only [Option.some.injEq, exists_eq_left']
      omega

/-- An empty line. -/
theorem getEntry_of_nil {f : List UInt8} (h : lineOf (PANJANG_LINE - 1) f = []) :
    getEntry fam f = some ⟨(fgets PANJANG_LINE f).2, [], none⟩ := by
  simp only [getEntry, fgets, chop_fgets, h]
  rfl

/-- A line with its tokens. -/
theorem getEntry_of_tokens {f : List UInt8} {a : Nat} {r : Record}
    (hne : lineOf (PANJANG_LINE - 1) f ≠ [])
    (hsplit : split 0 false [] (lineOf (PANJANG_LINE - 1) f) = some tokens)
    (hrecord : toRecord (blanked (lineOf (PANJANG_LINE - 1) f)) fam tokens = some (a, r)) :
    getEntry fam f =
      some ⟨(fgets PANJANG_LINE f).2, blanked (lineOf (PANJANG_LINE - 1) f), some (a, r)⟩ := by
  simp only [getEntry, fgets, chop_fgets, hsplit, Option.bind_eq_bind, Option.bind_some, if_neg hne]
  rw [show ((lineOf (PANJANG_LINE - 1) f).map fun c => if c = 0x20 then 0 else c) =
    blanked (lineOf (PANJANG_LINE - 1) f) from rfl, hrecord]
  rfl

/-- What `getEntryAt` does for a file. -/
def Checked (fam : Family) (f : List UInt8) (p : M (Option Record)) (m : Mem) : Prop :=
  wpE p m (fun r _ => Tidy fam f ∧ ∃ e, getEntry fam f = some e ∧ e.record.map Prod.snd = r)
    fun _ => ¬ Tidy fam f

/-- The rest of the call, with the line of the file in the buffer. -/
theorem scanLine_checked {f : List UInt8} (hhead : f.headD 0 ≠ 0)
    (h : StrAt m.line 0 (lineOf (PANJANG_LINE - 1) f)) :
    Checked fam f (do
      modify fun m => { m with tokens := fun _ => none }
      let i ← scanAt (PANJANG_LINE + 1) 0 false 0
      if i = 0 then return none
      else return some (← recordAt fam)) m := by
  have hempty : lineOf (PANJANG_LINE - 1) f = [] ↔ isEnd (f.headD 0) = true :=
    lineOf_eq_nil (n := PANJANG_LINE - 2) hhead
  refine wpE.mono (scanLine_spec h) ?_ fun _ hbad htidy => ?_
  · rintro r _ (⟨hnil, rfl⟩ | ⟨hne, tokens, a, r', hsplit, hneeds, hrecord, rfl⟩)
    · exact ⟨⟨hhead, .inl (hempty.mp hnil)⟩, _, getEntry_of_nil hnil, rfl⟩
    · exact ⟨⟨hhead, .inr ((split_tidy hne).mp ⟨tokens, hsplit, hneeds⟩)⟩, _,
        getEntry_of_tokens hne hsplit hrecord, rfl⟩
  · obtain ⟨hne, hall⟩ := hbad
    rcases htidy.2 with hend | hblanks
    · exact hne (hempty.mpr hend)
    · obtain ⟨tokens, hsplit, hneeds⟩ := (split_tidy hne).mpr hblanks
      have := hall tokens hsplit
      omega

theorem getEntryAt_checked (fam : Family) (m : Mem) : Checked fam m.file (getEntryAt fam) m := by
  unfold getEntryAt Checked
  refine wpE_bind_of (fgetsAt_spec (i := 0) (n := PANJANG_LINE - 1) (by decide)) ?_
  rintro i m₁ ⟨hi, -, -, -, hstr⟩
  rw [wpE_bind, wpE_writeAt hi]
  have hlt := hstr.lt
  refine wpE_bind_of (strlenAt_spec (m := { m₁ with line := Function.update m₁.line i 0 }) hstr
    (by omega)) ?_
  rintro len m₂ ⟨rfl, hlen⟩
  rw [Nat.zero_add] at hlen
  have hnil : (fgetsLoop (PANJANG_LINE - 1) m.file).1.takeWhile (· != 0) = [] ↔
      m.file.headD 0 = 0 := fgets_eq_nil (n := PANJANG_LINE - 2)
  rcases List.eq_nil_or_concat ((fgetsLoop (PANJANG_LINE - 1) m.file).1.takeWhile (· != 0)) with
    h | ⟨t, c, h⟩
  · -- an access before the buffer
    rw [h, List.length_nil] at hlen
    subst hlen
    rw [wpE_bind]
    exact fun htidy => htidy.1 (hnil.mp h)
  · have hhead : m.file.headD 0 ≠ 0 := fun h0 => by
      rw [hnil.mpr h0] at h
      simp at h
    rw [List.concat_eq_append] at h
    rw [h] at hstr hlen
    have hlast : ((len : Int) - 1) = (t.length : Nat) := by
      rw [hlen, List.length_append, List.length_singleton]
      omega
    have htlt : t.length < PANJANG_LINE := by
      have := hstr.lt
      rw [List.length_append] at this
      omega
    have hbyte := hstr.last
    rw [Nat.zero_add] at hbyte
    have hchop := chop_fgets (PANJANG_LINE - 1) m.file
    simp only [chop, h, List.getLast?_append, List.getLast?_singleton, Option.some_or,
      Option.any_some, List.dropLast_concat] at hchop
    rw [hlast, wpE_bind, wpE_readAt htlt]
    simp only [hbyte]
    split
    · next hend =>
      rw [if_pos hend] at hchop
      rw [wpE_bind, wpE_writeAt htlt]
      have hstr' := hstr.chop
      rw [Nat.zero_add] at hstr'
      exact scanLine_checked hhead (hchop ▸ hstr')
    · next hend =>
      rw [if_neg hend] at hchop
      rw [hchop] at hstr
      exact scanLine_checked hhead hstr

end Call

/-- All accesses of a call are in order. -/
def Safe (fam : Family) (m : Mem) : Prop := ∃ r m', getEntryAt fam m = .ok (r, m')

/-- Without an error, the checked call returns what the other one does. -/
theorem getEntryAt_eq {fam : Family} {m m' : Mem} {r : Option Record}
    (h : getEntryAt fam m = .ok (r, m')) :
    ∃ e, getEntry fam m.file = some e ∧ e.record.map Prod.snd = r :=
  (wpE.of_ok (getEntryAt_checked fam m) h).2

/-- **A call is safe exactly if the next line is tidy**: it is not the end of the file, and it
has a blank for each field, but at most three. -/
theorem getEntryAt_safe_iff (fam : Family) (m : Mem) : Safe fam m ↔ Tidy fam m.file := by
  have h := getEntryAt_checked fam m
  constructor
  · rintro ⟨r, m', hok⟩
    exact (wpE.of_ok h hok).1
  · intro htidy
    cases hm : getEntryAt fam m with
    | ok r => exact ⟨r.1, r.2, hm⟩
    | error e => exact absurd htidy (wpE.of_error (E := fun _ => ¬ Tidy fam m.file) h hm)

/-- Four blanks are a store past the end of `tokens`, a line with one field leaves a token
unset, and at the end of the file the byte before the buffer is read. -/
theorem getEntryAt_faults :
    ¬ Safe .id ⟨[0x61, 0x20, 0x20, 0x20, 0x20, 0x0a], fun _ => 0, fun _ => none⟩ ∧
      ¬ Safe .group ⟨[0x61, 0x0a], fun _ => 0, fun _ => none⟩ ∧
      ¬ Safe .id ⟨[], fun _ => 0, fun _ => none⟩ := by
  have hfault {fam : Family} {m : Mem} {e : Fault} (h : getEntryAt fam m = .error e) :
      ¬ Safe fam m := by
    rintro ⟨r, m', hok⟩
    rw [h] at hok
    cases hok
  exact ⟨hfault (e := .tokens) rfl, hfault (e := .unset) rfl, hfault (e := .line) rfl⟩

example : Tidy .id [0x61, 0x20, 0x31, 0x20, 0x31, 0x0a] := by decide

end Xv6.Ids
