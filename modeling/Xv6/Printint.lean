import Mathlib.Data.Nat.Digits.Lemmas
import Xv6.Ids.Lookup

/-!
# Xv6.Printint

The two functions `printint`, of the library's `printf.c` and of the kernel's `console.c`, and
the way back through `atoi` (`Xv6.Ids`).

Both fill a buffer of 16 characters from the last digit on, and write it out backwards.  The
number is negated as an `int` and then taken as unsigned, so that the least `int`, whose negative
is itself, is written as it should be.

The buffer is the list of the characters placed in it.
-/

namespace Xv6.Printint

/-- `do { buf[i++] = digits[x % base]; } while((x /= base) != 0);`, for at most `fuel` passes. -/
def fill (digits : List Char) (base : UInt32) : Nat → UInt32 → List UInt8 → Option (List UInt8)
  | 0, _, _ => none
  | fuel + 1, x, buf =>
      -- a division by zero
      if base = 0 then none
      else
        let buf := buf ++ [(digits.getD (x % base).toNat '0').toUInt8]
        let x := x / base
        if x ≠ 0 then fill digits base fuel x buf else some buf

/-- `while(--i >= 0) putc(fd, buf[i]);` -/
def emit (buf : List UInt8) : Nat → List UInt8
  | 0 => []
  | i + 1 => buf.getD i 0 :: emit buf i

namespace User

def digits : List Char :=
  ['0', '1', '2', '3', '4', '5', '6', '7', '8', '9', 'A', 'B', 'C', 'D', 'E', 'F']

/-- What `printint(fd, xx, base, sgn)` of `printf.c` places in `buf`. -/
def buffer (xx base sgn : Int32) : Option (List UInt8) :=
  let neg := sgn ≠ 0 ∧ xx < 0
  let x := if neg then (-xx).toUInt32 else xx.toUInt32
  (fill digits base.toUInt32 32 x []).map fun buf => if neg then buf ++ [0x2d] else buf

/-- `printint(fd, xx, base, sgn)` of `printf.c` -/
def printint (xx base sgn : Int32) : Option (List UInt8) :=
  (buffer xx base sgn).map fun buf => emit buf buf.length

end User

namespace Kernel

def digits : List Char :=
  ['0', '1', '2', '3', '4', '5', '6', '7', '8', '9', 'a', 'b', 'c', 'd', 'e', 'f']

/-- What `printint(xx, base, sign)` of `console.c` places in `buf`; `sign` becomes
`sign && xx < 0`. -/
def buffer (xx base sign : Int32) : Option (List UInt8) :=
  let sign := if sign ≠ 0 then (if xx < 0 then 1 else 0) else sign
  let x := if sign ≠ 0 then (-xx).toUInt32 else xx.toUInt32
  (fill digits base.toUInt32 32 x []).map fun buf => if sign ≠ 0 then buf ++ [0x2d] else buf

/-- `printint(xx, base, sign)` of `console.c` -/
def printint (xx base sign : Int32) : Option (List UInt8) :=
  (buffer xx base sign).map fun buf => emit buf buf.length

end Kernel

/-! ## numerals -/

/-- `ds` is the decimal numeral of `n`, without leading zeros. -/
structure Canonical (ds : List UInt8) (n : Nat) : Prop where
  ne_nil : ds ≠ []
  digit : ∀ c ∈ ds, Ids.isDigit c
  value : Ids.decimal ds = n
  lead : ds.head? = some 0x30 → ds = [0x30]

/-- `w` is the decimal numeral of `x`, with `-` exactly for a negative number. -/
def Numeral (w : List UInt8) (x : Int) : Prop :=
  ∃ ds, Canonical ds x.natAbs ∧ w = if x < 0 then 0x2d :: ds else ds

/-- The digits of a number from the last one on, with one digit for 0. -/
def places (b n : Nat) : List Nat := if n = 0 then [0] else Nat.digits b n

theorem places_of_lt {b n : Nat} (h : n < b) : places b n = [n] := by
  unfold places
  split
  · next h0 => rw [h0]
  · next h0 => exact Nat.digits_of_lt b n h0 h

theorem places_of_le {b n : Nat} (hb : 1 < b) (h : b ≤ n) :
    places b n = n % b :: places b (n / b) := by
  have hdiv : n / b ≠ 0 := (Nat.div_pos h (by omega)).ne'
  rw [places, places, if_neg (by omega), if_neg hdiv, Nat.digits_def' hb (by omega)]

theorem lt_of_mem_places {b n r : Nat} (hb : 1 < b) (h : r ∈ places b n) : r < b := by
  unfold places at h
  split at h
  · rw [List.mem_singleton] at h
    omega
  · exact Nat.digits_lt_base hb h

theorem length_places_le {b n L : Nat} (hb : 1 < b) (hL : 0 < L) (h : n < b ^ L) :
    (places b n).length ≤ L := by
  unfold places
  split
  · exact hL
  · exact (Nat.digits_length_le_iff hb n).mpr h

theorem ofDigits_places (b n : Nat) : Nat.ofDigits b (places b n) = n := by
  by_cases h : n = 0
  · simp [places, h]
  · rw [places, if_neg h, Nat.ofDigits_digits]

/-- The character of a digit. -/
def chr (r : Nat) : UInt8 := .ofNat (0x30 + r)

theorem toNat_chr {r : Nat} (h : r < 10) : (chr r).toNat = 0x30 + r := by
  rw [chr, UInt8.toNat_ofNat']
  omega

/-- The value of the digits, written from the first one on. -/
theorem decimal_chr {ds : List Nat} (h : ∀ r ∈ ds, r < 10) :
    Ids.decimal (ds.map chr).reverse = Nat.ofDigits 10 ds := by
  induction ds with
  | nil => rfl
  | cons r ds ih =>
      rw [List.forall_mem_cons] at h
      have ih := ih h.2
      unfold Ids.decimal at ih ⊢
      rw [List.map_cons, List.reverse_cons, List.foldl_concat, ih, toNat_chr h.1,
        Nat.ofDigits_cons]
      omega

/-- Written from the first one on, the digits are the numeral. -/
theorem canonical_places (n : Nat) : Canonical ((places 10 n).map chr).reverse n where
  ne_nil := by
    unfold places
    split
    · simp
    · next h => simpa using Nat.digits_ne_nil_iff_ne_zero.mpr h
  digit c hc := by
    obtain ⟨r, hr, rfl⟩ := List.mem_map.mp (List.mem_reverse.mp hc)
    have hlt := lt_of_mem_places (by decide) hr
    have hnat := toNat_chr hlt
    simp only [Ids.isDigit, Bool.and_eq_true, decide_eq_true_eq, UInt8.le_iff_toNat_le, hnat]
    exact ⟨Nat.le_add_right _ _, by simp; omega⟩
  value := by
    rw [decimal_chr fun r hr => lt_of_mem_places (by decide) hr, places]
    split
    · next h => simp [h]
    · exact Nat.ofDigits_digits 10 n
  lead h := by
    by_cases hn : n = 0
    · rw [hn]
      rfl
    · have hne : Nat.digits 10 n ≠ [] := Nat.digits_ne_nil_iff_ne_zero.mpr hn
      have hlast := Nat.getLast_digit_ne_zero 10 hn
      have hlt := Nat.digits_lt_base (by decide) (List.getLast_mem hne)
      rw [places, if_neg hn, List.head?_reverse, List.getLast?_map,
        List.getLast?_eq_some_getLast hne, Option.map_some, Option.some.injEq] at h
      have hnat := toNat_chr hlt
      rw [h] at hnat
      exact absurd hnat (by simpa using hlast)

/-! ## the buffer -/

theorem emit_append (buf rest : List UInt8) : emit (buf ++ rest) buf.length = buf.reverse := by
  induction buf using List.reverseRecOn generalizing rest with
  | nil => rfl
  | append_singleton buf c ih =>
      rw [List.length_append, List.length_singleton, emit, List.append_assoc, ih,
        List.reverse_concat]
      simp

/-- The buffer is written out backwards. -/
theorem emit_eq (buf : List UInt8) : emit buf buf.length = buf.reverse := by
  simpa using emit_append buf []

/-- The loop places the digits, from the last one on. -/
theorem fill_eq {digits : List Char} {base : UInt32} (hb : 1 < base.toNat) (fuel : Nat)
    (x : UInt32) (hx : x.toNat < base.toNat ^ fuel) (hfuel : 0 < fuel) (buf : List UInt8) :
    fill digits base fuel x buf = some (buf ++
      (places base.toNat x.toNat).map fun r => (digits.getD r '0').toUInt8) := by
  induction fuel generalizing x buf with
  | zero => omega
  | succ fuel ih =>
      have hne : base ≠ 0 := by
        rintro rfl
        exact absurd hb (by decide)
      have hdiv : (x / base).toNat = x.toNat / base.toNat := UInt32.toNat_div x base
      simp only [fill, if_neg hne]
      by_cases hlt : x.toNat < base.toNat
      · have hzero : x / base = 0 := by
          rw [← UInt32.toNat_inj, hdiv]
          exact Nat.div_eq_of_lt hlt
        rw [if_neg (not_not.mpr hzero), places_of_lt hlt, UInt32.toNat_mod, Nat.mod_eq_of_lt hlt,
          List.map_singleton]
      · have hle : base.toNat ≤ x.toNat := by omega
        have hpos : 0 < x.toNat / base.toNat := Nat.div_pos hle (by omega)
        have hnz : x / base ≠ 0 := by
          rw [ne_eq, ← UInt32.toNat_inj, hdiv]
          exact hpos.ne'
        have hx' : x.toNat / base.toNat < base.toNat ^ fuel :=
          Nat.div_lt_of_lt_mul (by rwa [← Nat.pow_succ'])
        have hfuel' : 0 < fuel := by
          by_contra h0
          obtain rfl : fuel = 0 := by omega
          rw [Nat.pow_zero] at hx'
          omega
        rw [if_pos hnz, ih (x / base) (by rwa [hdiv]) hfuel', places_of_le hb hle, hdiv,
          UInt32.toNat_mod, List.map_cons, List.append_assoc, List.singleton_append]

/-! ## the two functions -/

/-- The number whose digits are placed. -/
def magnitude (neg : Bool) (xx : Int32) : UInt32 := if neg then (-xx).toUInt32 else xx.toUInt32

/-- What both place in the buffer, each with its own table of digits. -/
def placed (digits : List Char) (base : Nat) (neg : Bool) (xx : Int32) : List UInt8 :=
  (places base (magnitude neg xx).toNat).map (fun r => (digits.getD r '0').toUInt8) ++
    if neg then [0x2d] else []

theorem fill_magnitude {digits : List Char} {base : UInt32} (hb : 1 < base.toNat) (neg : Bool)
    (xx : Int32) :
    ((fill digits base 32 (magnitude neg xx) []).map fun buf =>
        if neg then buf ++ [0x2d] else buf) =
      some (placed digits base.toNat neg xx) := by
  have hx : (magnitude neg xx).toNat < base.toNat ^ 32 :=
    (magnitude neg xx).toNat_lt.trans_le (Nat.pow_le_pow_left hb 32)
  rw [fill_eq hb 32 _ hx (by decide), placed, List.nil_append, Option.map_some]
  cases neg <;> simp

theorem user_buffer_eq {base : Int32} (hb : 1 < base.toUInt32.toNat) (xx sgn : Int32) :
    User.buffer xx base sgn =
      some (placed User.digits base.toUInt32.toNat (sgn ≠ 0 ∧ xx < 0) xx) := by
  rw [← fill_magnitude hb]
  simp [User.buffer, magnitude]

theorem kernel_buffer_eq {base : Int32} (hb : 1 < base.toUInt32.toNat) (xx sign : Int32) :
    Kernel.buffer xx base sign =
      some (placed Kernel.digits base.toUInt32.toNat (sign ≠ 0 ∧ xx < 0) xx) := by
  have hsign : (if sign ≠ 0 then (if xx < 0 then 1 else 0) else sign) ≠ 0 ↔
      sign ≠ 0 ∧ xx < 0 := by
    by_cases h : sign = 0 <;> by_cases hneg : xx < 0 <;> simp [h, hneg]
  rw [← fill_magnitude hb]
  simp only [Kernel.buffer, hsign]
  simp [magnitude]

/-- Ten digits in base 10 and eight in base 16, and the sign. -/
theorem length_placed_le {digits : List Char} {base : Nat} (hb : base = 10 ∨ base = 16)
    (neg : Bool) (xx : Int32) : (placed digits base neg xx).length ≤ 11 := by
  have hx := (magnitude neg xx).toNat_lt
  have hlen : (places base (magnitude neg xx).toNat).length ≤ 10 := by
    rcases hb with rfl | rfl
    · exact length_places_le (by decide) (by decide) (hx.trans_le (by decide))
    · exact length_places_le (by decide) (by decide) (hx.trans_le (by decide))
  rw [placed, List.length_append, List.length_map]
  cases neg
  · simp; omega
  · simp; omega

/-- Without sign the buffer tells the number, if the table has no digit twice. -/
theorem placed_inj {digits : List Char} {base : Nat} (hb : 1 < base) (hle : base ≤ 16)
    (hd : ∀ r < 16, (digits.map Char.toUInt8).idxOf (digits.getD r '0').toUInt8 = r)
    {x y : Int32} (h : placed digits base false x = placed digits base false y) : x = y := by
  -- the digits are found again in the table
  have hback (z : Nat) : ((places base z).map fun r => (digits.getD r '0').toUInt8).map
      (digits.map Char.toUInt8).idxOf = places base z := by
    rw [List.map_map]
    refine (List.map_congr_left fun r hr => ?_).trans (List.map_id _)
    exact hd r ((lt_of_mem_places hb hr).trans_le hle)
  have hmag : magnitude false x = magnitude false y := UInt32.toNat_inj.mp <| by
    rw [← ofDigits_places base (magnitude false x).toNat, ← hback, List.append_cancel_right h,
      hback, ofDigits_places]
  exact congrArg Int32.ofUInt32 hmag

/-- In base 10 both tables give the character of the digit. -/
theorem placed_ten {digits : List Char} (hd : ∀ r < 10, (digits.getD r '0').toUInt8 = chr r)
    (neg : Bool) (xx : Int32) :
    placed digits 10 neg xx =
      (places 10 (magnitude neg xx).toNat).map chr ++ if neg then [0x2d] else [] := by
  rw [placed]
  congr 1
  exact List.map_congr_left fun r hr => hd r (lt_of_mem_places (by decide) hr)

/-- The magnitude of a number, the least `int` included. -/
theorem toNat_magnitude (x : Int32) : (magnitude (x < 0) x).toNat = x.toInt.natAbs := by
  have hneg : (-x).toUInt32.toNat = (2 ^ 32 - x.toUInt32.toNat) % 2 ^ 32 := BitVec.toNat_neg _
  have hlt := x.toUInt32.toNat_lt
  have hint : x.toInt = if 2 * x.toUInt32.toNat < 2 ^ 32 then (x.toUInt32.toNat : Int)
      else (x.toUInt32.toNat : Int) - 2 ^ 32 := BitVec.toInt_eq_toNat_cond _
  have hsign : x < 0 ↔ x.toInt < 0 := Int32.lt_iff_toInt_lt
  by_cases h : x < 0
  · have hx := hsign.mp h
    simp only [magnitude, h, decide_true, if_true, hneg]
    split at hint <;> omega
  · have hx := mt hsign.mpr h
    simp only [magnitude, h, decide_false, Bool.false_eq_true, if_false]
    split at hint <;> omega

/-- What both write for an `int` in base 10. -/
def numeral (x : Int32) : List UInt8 :=
  (if x < 0 then [0x2d] else []) ++ ((places 10 x.toInt.natAbs).map chr).reverse

theorem numeral_eq {digits : List Char} (hd : ∀ r < 10, (digits.getD r '0').toUInt8 = chr r)
    (x : Int32) : (placed digits 10 (x < 0) x).reverse = numeral x := by
  rw [placed_ten hd, toNat_magnitude, List.reverse_append, numeral]
  congr 1
  by_cases h : x < 0 <;> simp [h]

theorem numeral_spec (x : Int32) : Numeral (numeral x) x.toInt := by
  have hsign : x < 0 ↔ x.toInt < 0 := Int32.lt_iff_toInt_lt
  refine ⟨_, canonical_places x.toInt.natAbs, ?_⟩
  by_cases h : x < 0
  · rw [numeral, if_pos h, if_pos (hsign.mp h), List.singleton_append]
  · rw [numeral, if_neg h, if_neg (mt hsign.mpr h), List.nil_append]

/-- `atoi` multiplies and adds without regard to overflow, and finds the number again. -/
theorem atoi_numeral (x : Int32) : (Ids.atoi (numeral x)).toInt32 = x := by
  have hcan := canonical_places x.toInt.natAbs
  have hmag : UInt32.ofNat x.toInt.natAbs = magnitude (x < 0) x := by
    rw [← toNat_magnitude, UInt32.ofNat_toNat]
  by_cases h : x < 0
  · have hatoi (s : List UInt8) : Ids.atoi (0x2d :: s) = 0 - Ids.digits 0 s := rfl
    have hdigits := Ids.digits_eq hcan.digit 0
    rw [numeral, if_pos h, List.singleton_append, hatoi]
    rw [show Ids.digits 0 _ = _ from hdigits, show List.foldl _ 0 _ = _ from hcan.value, hmag]
    simp [magnitude, h]
  · rw [numeral, if_neg h, List.nil_append, Ids.atoi_eq hcan.ne_nil hcan.digit, hcan.value, hmag]
    simp [magnitude, h]

theorem user_printint (x : Int32) : User.printint x 10 1 = some (numeral x) := by
  rw [User.printint, user_buffer_eq (by decide), Option.map_some, emit_eq]
  have hneg : decide ((1 : Int32) ≠ 0 ∧ x < 0) = decide (x < 0) := by simp
  rw [hneg]
  exact congrArg some (numeral_eq (by decide) x)

/-- The tables differ above 9 only. -/
theorem kernel_printint_ten (x sign : Int32) :
    Kernel.printint x 10 sign = User.printint x 10 sign := by
  rw [Kernel.printint, User.printint, kernel_buffer_eq (by decide), user_buffer_eq (by decide)]
  congr 2
  exact (placed_ten (by decide) _ x).trans (placed_ten (by decide) _ x).symm

/-- **Numbers are written and read back.** What `printint` writes for an `int` in base 10 is its
numeral, also in the kernel, and `atoi` reads the number from it; in base 10 and 16, with sign or
without, the buffer is large enough. -/
theorem printint_atoi (x : Int32) :
    (∃ w, User.printint x 10 1 = some w ∧ Numeral w x.toInt ∧ (Ids.atoi w).toInt32 = x) ∧
    (∀ sign, Kernel.printint x 10 sign = User.printint x 10 sign) ∧
    ∀ base sgn, base = 10 ∨ base = 16 →
      ∃ buf, User.buffer x base sgn = some buf ∧ buf.length ≤ 16 := by
  refine ⟨⟨numeral x, user_printint x, numeral_spec x, atoi_numeral x⟩,
    kernel_printint_ten x, ?_⟩
  intro base sgn hb
  have hten : base.toUInt32.toNat = 10 ∨ base.toUInt32.toNat = 16 :=
    hb.imp (fun h => by rw [h]; rfl) (fun h => by rw [h]; rfl)
  refine ⟨_, user_buffer_eq (by omega) x sgn, ?_⟩
  exact (length_placed_le hten _ x).trans (by decide)

end Xv6.Printint
