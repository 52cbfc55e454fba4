import Mathlib.Algebra.BigOperators.Group.List.Basic
import Mathlib.Tactic.IntervalCases

/-!
# Xv6.Date

The command `date`, `date.c`: the expression of `dayofweek` against the Gregorian calendar.

The calendar is given by the lengths of its months.  The number of a day counts the days of all
the years and months before it, and the weekday is found by counting from one day that is known,
Thursday the first of January 1970.
-/

namespace Xv6.Date

/-- `dayofweek`, with its `y--` in one branch of the conditional. -/
def dayofweek (y m d : Int32) : Int32 :=
  let d := d + if m < 3 then y else y - 2
  let y := if m < 3 then y - 1 else y
  (23 * m / 9 + d + 4 + y / 4 - y / 100 + y / 400) % 7

/-! ## the calendar -/

def isLeap (y : Nat) : Bool := y % 4 = 0 ∧ (y % 100 ≠ 0 ∨ y % 400 = 0)

def daysInMonth (y m : Nat) : Nat :=
  if m = 2 then (if isLeap y then 29 else 28)
  else if m = 4 ∨ m = 6 ∨ m = 9 ∨ m = 11 then 30
  else 31

/-- The days of the months of year `y` before month `m`. -/
def daysBeforeMonth (y m : Nat) : Nat := ((List.range' 1 (m - 1)).map (daysInMonth y)).sum

def daysInYear (y : Nat) : Nat := daysBeforeMonth y 13

/-- The days of the years before `y`. -/
def daysBeforeYear : Nat → Nat
  | 0 => 0
  | y + 1 => daysBeforeYear y + daysInYear y

/-- A day of the calendar, from year 1 on. -/
structure Day where
  year : Nat
  month : Nat
  day : Nat
  year_pos : 1 ≤ year
  month_mem : 1 ≤ month ∧ month ≤ 12
  day_mem : 1 ≤ day ∧ day ≤ daysInMonth year month

/-- How many days there are up to this one. -/
def Day.number (D : Day) : Nat := daysBeforeYear D.year + daysBeforeMonth D.year D.month + D.day

/-- Thursday the first of January 1970. -/
def epoch : Day := ⟨1970, 1, 1, by decide, by decide, by decide⟩

/-- The weekday, with Sunday as 0: four for the first of January 1970, and one more each day. -/
def Day.weekday (D : Day) : Int := (4 + (D.number - epoch.number : Int)) % 7

theorem isLeap_iff (y : Nat) : isLeap y = true ↔ y % 4 = 0 ∧ (y % 100 ≠ 0 ∨ y % 400 = 0) := by
  simp [isLeap]

theorem daysInYear_eq (y : Nat) : daysInYear y = if isLeap y then 366 else 365 := by
  simp only [daysInYear, daysBeforeMonth, List.range'_succ, List.map_cons, List.sum_cons]
  simp [daysInMonth]
  split <;> rfl

/-- What `23 * m / 9` is for: the days over the weeks of the months before `m`. -/
theorem daysBeforeMonth_eq {y m : Nat} (hm : 1 ≤ m ∧ m ≤ 12) :
    daysBeforeMonth y m + (if m < 3 then 2 else 4) =
      28 * (m - 1) + 23 * m / 9 + (if 3 ≤ m ∧ isLeap y then 1 else 0) := by
  obtain ⟨h1, h2⟩ := hm
  cases hl : isLeap y <;> interval_cases m <;>
    simp [daysBeforeMonth, List.range'_succ, daysInMonth, hl]

/-- The years up to `y` with their leap days, the one of the year 0 included. -/
theorem daysBeforeYear_succ (y : Nat) :
    daysBeforeYear (y + 1) + y / 100 = 365 * (y + 1) + y / 4 + y / 400 + 1 := by
  induction y with
  | zero => rfl
  | succ y ih =>
      have hleap := isLeap_iff (y + 1)
      rw [daysBeforeYear, daysInYear_eq]
      split
      · next h =>
          have := hleap.mp h
          omega
      · next h =>
          have := mt hleap.mpr h
          omega

theorem number_epoch : epoch.number = 719529 := by
  have h := daysBeforeYear_succ 1969
  have : epoch.number = daysBeforeYear (1969 + 1) + 1 := by
    simp [Day.number, epoch, daysBeforeMonth]
  omega

/-- The weekday without a sum over the years: March to December count the 29th of February of
their own year, January and February do not. -/
theorem Day.weekday_eq (D : Day) :
    D.weekday =
      if D.month < 3 then
        (23 * D.month / 9 + (D.day + D.year) + 4 + (D.year - 1) / 4 - (D.year - 1) / 100
          + (D.year - 1) / 400 : Int) % 7
      else
        (23 * D.month / 9 + (D.day + (D.year - 2)) + 4 + D.year / 4 - D.year / 100
          + D.year / 400 : Int) % 7 := by
  have hmonth := daysBeforeMonth_eq (y := D.year) D.month_mem
  have hpos := D.year_pos
  have hmem := D.month_mem
  rw [weekday, number_epoch, number]
  -- the two sides differ by whole weeks
  split
  · next h =>
      have hyear := daysBeforeYear_succ (D.year - 1)
      rw [Nat.sub_add_cancel hpos] at hyear
      rw [if_pos h, if_neg (by omega)] at hmonth
      rw [← Int.add_mul_emod_self_left (23 * D.month / 9 + _ + 4 + _ - _ + _) 7
        (52 * D.year + 4 * (D.month - 1) - 102790)]
      congr 1
      omega
  · next h =>
      have hyear := daysBeforeYear_succ D.year
      rw [daysBeforeYear, daysInYear_eq] at hyear
      rw [if_neg h] at hmonth
      rw [← Int.add_mul_emod_self_left (23 * D.month / 9 + _ + 4 + _ - _ + _) 7
        (52 * D.year + 4 * (D.month - 1) - 102790)]
      congr 1
      split at hyear
      · next hl =>
          rw [if_pos ⟨by omega, hl⟩] at hmonth
          omega
      · next hl =>
          rw [if_neg fun hn => hl hn.2] at hmonth
          omega

/-! ## the expression -/

/-- The largest value on the way: it is reached before the century years are taken off. -/
def Day.peak (D : Day) : Nat :=
  if D.month < 3 then 23 * D.month / 9 + (D.day + D.year) + 4 + (D.year - 1) / 4
  else 23 * D.month / 9 + (D.day + D.year - 2) + 4 + D.year / 4

/-- Nothing overflows an `int`. -/
def Day.Fits (D : Day) : Prop := D.peak < 2 ^ 31

instance (D : Day) : Decidable D.Fits := inferInstanceAs (Decidable (_ < _))

/-- A sum that fits is the sum of the integers. -/
theorem toInt_add_of_fits {a b : Int32} {x y : Int} (ha : a.toInt = x) (hb : b.toInt = y)
    (h : -2 ^ 31 ≤ x + y ∧ x + y < 2 ^ 31) : (a + b).toInt = x + y := by
  rw [Int32.toInt_add, ha, hb]
  exact Int.bmod_eq_of_le (by omega) (by omega)

theorem toInt_sub_of_fits {a b : Int32} {x y : Int} (ha : a.toInt = x) (hb : b.toInt = y)
    (h : -2 ^ 31 ≤ x - y ∧ x - y < 2 ^ 31) : (a - b).toInt = x - y := by
  rw [Int32.toInt_sub, ha, hb]
  exact Int.bmod_eq_of_le (by omega) (by omega)

/-- Division by a positive constant rounds down, for a dividend that is not negative. -/
theorem toInt_div_of_nonneg {a b : Int32} {x y : Int} (ha : a.toInt = x) (hb : b.toInt = y)
    (hx : 0 ≤ x ∧ x < 2 ^ 31) (hy : 0 < y) : (a / b).toInt = x / y := by
  have h0 : 0 ≤ x / y := Int.ediv_nonneg hx.1 hy.le
  have h1 : x / y ≤ x := Int.ediv_le_self _ hx.1
  rw [Int32.toInt_div, ha, hb, Int.tdiv_eq_ediv_of_nonneg hx.1]
  exact Int.bmod_eq_of_le (by omega) (by omega)

/-- From `d` and `y` as they are after the first operand of the comma. -/
theorem toInt_expression {m d y : Int32} {m' d' y' : Int} (hm : m.toInt = m') (hd : d.toInt = d')
    (hy : y.toInt = y') (hm' : 0 ≤ m' ∧ m' ≤ 12) (hd' : 0 ≤ d') (hy' : 0 ≤ y')
    (h : 23 * m' / 9 + d' + 4 + y' / 4 < 2 ^ 31) :
    ((23 * m / 9 + d + 4 + y / 4 - y / 100 + y / 400) % 7).toInt =
      (23 * m' / 9 + d' + 4 + y' / 4 - y' / 100 + y' / 400) % 7 := by
  have hmul : (23 * m).toInt = 23 * m' := by
    rw [Int32.toInt_mul, hm]
    exact Int.bmod_eq_of_le (by simp; omega) (by simp; omega)
  have hlt : y' < 2 ^ 31 := hy ▸ y.toInt_lt
  have h0 := toInt_div_of_nonneg hmul (show Int32.toInt 9 = 9 from rfl) (by omega) (by omega)
  have h1 := toInt_add_of_fits h0 hd (by omega)
  have h2 := toInt_add_of_fits h1 (show Int32.toInt 4 = 4 from rfl) (by omega)
  have hy4 := toInt_div_of_nonneg hy (show Int32.toInt 4 = 4 from rfl) (by omega) (by omega)
  have hy100 := toInt_div_of_nonneg hy (show Int32.toInt 100 = 100 from rfl) (by omega) (by omega)
  have hy400 := toInt_div_of_nonneg hy (show Int32.toInt 400 = 400 from rfl) (by omega) (by omega)
  have h3 := toInt_add_of_fits h2 hy4 (by omega)
  have h4 := toInt_sub_of_fits h3 hy100 (by omega)
  have h5 := toInt_add_of_fits h4 hy400 (by omega)
  rw [Int32.toInt_mod, h5, show Int32.toInt 7 = 7 from rfl, Int.tmod_eq_emod_of_nonneg (by omega)]

/-- **`dayofweek` is the weekday of the Gregorian calendar**, for every day from year 1 on that
does not overflow an `int`. -/
theorem dayofweek_gregorian (D : Day) (h : D.Fits) :
    (dayofweek (Int32.ofNat D.year) (Int32.ofNat D.month) (Int32.ofNat D.day)).toInt =
      D.weekday := by
  have hpos := D.year_pos
  have hmonth := D.month_mem
  have hday := D.day_mem
  unfold Day.Fits Day.peak at h
  have hy : (Int32.ofNat D.year).toInt = D.year :=
    Int32.toInt_ofNat_of_lt (by split at h <;> omega)
  have hm : (Int32.ofNat D.month).toInt = D.month := Int32.toInt_ofNat_of_lt (by omega)
  have hd : (Int32.ofNat D.day).toInt = D.day :=
    Int32.toInt_ofNat_of_lt (by split at h <;> omega)
  have hlt : Int32.ofNat D.month < 3 ↔ D.month < 3 := by
    rw [Int32.lt_iff_toInt_lt, hm, show Int32.toInt 3 = 3 from rfl]
    omega
  rw [D.weekday_eq]
  unfold dayofweek
  by_cases h3 : D.month < 3
  · -- the old `y` is added to `d`, and `y--` leaves the year before
    rw [if_pos h3] at h ⊢
    simp only [if_pos (hlt.mpr h3)]
    have hadd := toInt_add_of_fits hd hy (by omega)
    have hsub := toInt_sub_of_fits hy (show Int32.toInt 1 = 1 from rfl) (by omega)
    exact toInt_expression hm hadd hsub (by omega) (by omega) (by omega) (by omega)
  · rw [if_neg h3] at h ⊢
    simp only [if_neg (mt hlt.mp h3)]
    have hsub := toInt_sub_of_fits hy (show Int32.toInt 2 = 2 from rfl) (by omega)
    have hadd := toInt_add_of_fits hd hsub (by omega)
    exact toInt_expression hm hadd hy (by omega) (by omega) (by omega) (by omega)

/-- The 29th of February 2000 was a Tuesday. -/
theorem dayofweek_gregorian_leap_day :
    ∃ D : Day, (D.year, D.month, D.day) = (2000, 2, 29) ∧ D.Fits ∧
      (dayofweek (Int32.ofNat D.year) (Int32.ofNat D.month) (Int32.ofNat D.day)).toInt =
        D.weekday ∧ dayofweek 2000 2 29 = 2 :=
  let D : Day := ⟨2000, 2, 29, by decide, by decide, by decide⟩
  have h : D.Fits := by decide
  ⟨D, rfl, h, dayofweek_gregorian D h, by decide⟩

end Xv6.Date
