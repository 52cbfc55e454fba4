import Mathlib.Computability.Language
import Xv6.Grep

/-!
# Xv6.Grep.Match

What the matcher of `grep` finds.  A pattern is read as an optional `^`, a sequence of items and
an optional `$`; an item is a character or a starred character, and denotes a language.  `match`
answers whether some part of the text is in the language of the items, from the beginning of the
text where there is a `^` and up to its end where there is a `$`.
-/

namespace Xv6.Grep

open Computability

/-! ## patterns -/

inductive Item
  | one (c : UInt8)
  | star (c : UInt8)
  deriving DecidableEq, Repr

/-- The items of a pattern, and whether it ends with an anchor. -/
def items : List UInt8 → List Item × Bool
  | [] => ([], false)
  | c :: 0x2a :: re => (.star c :: (items re).1, (items re).2)
  | c :: re =>
      if c = 0x24 ∧ re = [] then ([], true)
      else (.one c :: (items re).1, (items re).2)

structure Pattern where
  /-- `^` -/
  start : Bool
  items : List Item
  /-- `$` -/
  stop : Bool

/-- How a pattern is read. -/
def Pattern.ofBytes : List UInt8 → Pattern
  | 0x5e :: re => ⟨true, (Grep.items re).1, (Grep.items re).2⟩
  | re => ⟨false, (Grep.items re).1, (Grep.items re).2⟩

/-- A character denotes itself, and `.` any character. -/
def letter (c : UInt8) : Language UInt8 := {w | ∃ t, w = [t] ∧ (c = 0x2e ∨ c = t)}

def Item.language : Item → Language UInt8
  | one c => letter c
  | star c => (letter c)∗

def language (is : List Item) : Language UInt8 := (is.map Item.language).prod

/-- Some part of the text is in the language, at the ends that the anchors ask for. -/
def Pattern.Finds (p : Pattern) (text : List UInt8) : Prop :=
  ∃ front part rest, text = front ++ part ++ rest ∧ part ∈ language p.items ∧
    (p.start = true → front = []) ∧ (p.stop = true → rest = [])

/-! ## membership -/

theorem mem_letter {c : UInt8} {w : List UInt8} :
    w ∈ letter c ↔ ∃ t, w = [t] ∧ (c = 0x2e ∨ c = t) := Iff.rfl

theorem mem_kstar_letter {c : UInt8} {w : List UInt8} :
    w ∈ (letter c)∗ ↔ ∀ t ∈ w, c = 0x2e ∨ c = t := by
  rw [Language.mem_kstar]
  constructor
  · rintro ⟨L, rfl, hL⟩ t ht
    obtain ⟨y, hy, hty⟩ := List.mem_flatten.mp ht
    obtain ⟨t', rfl, hc⟩ := mem_letter.mp (hL y hy)
    rwa [List.mem_singleton.mp hty]
  · intro h
    refine ⟨w.map fun t => [t], by simp [← List.flatMap_def], fun y hy => ?_⟩
    obtain ⟨t, ht, rfl⟩ := List.mem_map.mp hy
    exact mem_letter.mpr ⟨t, rfl, h t ht⟩

@[simp] theorem mem_language_nil {w : List UInt8} : w ∈ language [] ↔ w = [] := by
  simp [language, Language.mem_one]

theorem mem_language_cons {i : Item} {is : List Item} {w : List UInt8} :
    w ∈ language (i :: is) ↔ ∃ u ∈ i.language, ∃ v ∈ language is, u ++ v = w := by
  simp [language, Language.mem_mul]

/-! ## the matcher -/

/-- `matchhere` starts where it is. -/
def FindsHere (re text : List UInt8) : Prop :=
  ∃ part rest, text = part ++ rest ∧ part ∈ language (items re).1 ∧
    ((items re).2 = true → rest = [])

/-- The loop of `matchstar` tries every run of the character. -/
theorem matchstar_iff {here : List UInt8 → Bool} {c : UInt8} {text : List UInt8} :
    matchstar here c text = true ↔
      ∃ u v, text = u ++ v ∧ u ∈ (letter c)∗ ∧ here v = true := by
  induction text with
  | nil => simp [matchstar, mem_kstar_letter]
  | cons t text ih =>
      simp only [matchstar, Bool.or_eq_true, Bool.and_eq_true, beq_iff_eq, ih, mem_kstar_letter]
      constructor
      · rintro (h | ⟨hc, u, v, rfl, hu, hv⟩)
        · exact ⟨[], t :: text, rfl, by simp, h⟩
        · refine ⟨t :: u, v, rfl, ?_, hv⟩
          simp only [List.mem_cons, forall_eq_or_imp]
          exact ⟨hc.symm.imp_right Eq.symm, hu⟩
      · rintro ⟨u, v, htext, hu, hv⟩
        cases u with
        | nil => exact .inl (by rwa [htext])
        | cons t' u =>
            obtain ⟨rfl, rfl⟩ := List.cons.inj htext
            simp only [List.mem_cons, forall_eq_or_imp] at hu
            exact .inr ⟨hu.1.symm.imp_left Eq.symm, u, v, rfl, hu.2, hv⟩

theorem matchhere_iff (re text : List UInt8) : matchhere re text = true ↔ FindsHere re text := by
  -- by induction along the reading of the pattern: `matchhere` looks at it in the same order
  induction re using items.induct generalizing text with
  | case1 => simp [matchhere, FindsHere, items]
  | case2 c re ih =>
      simp only [matchhere, matchstar_iff, ih, FindsHere, items, mem_language_cons]
      constructor
      · rintro ⟨u, v, rfl, hu, part, rest, rfl, hpart, hstop⟩
        exact ⟨u ++ part, rest, by simp, ⟨u, hu, part, hpart, rfl⟩, hstop⟩
      · rintro ⟨_, rest, rfl, ⟨u, hu, part, hpart, rfl⟩, hstop⟩
        exact ⟨u, part ++ rest, by simp, hu, part, rest, rfl, hpart, hstop⟩
  | case3 c re hre hend =>
      obtain ⟨rfl, rfl⟩ := hend
      simp [matchhere, FindsHere, items]
  | case4 c re hre hend ih =>
      have hitems : items (c :: re) = (.one c :: (items re).1, (items re).2) := by
        rw [items, if_neg hend]
        exact hre
      have hmatch : matchhere (c :: re) text = true ↔
          ∃ t text', text = t :: text' ∧ (c = 0x2e ∨ c = t) ∧ FindsHere re text' := by
        cases text with
        | nil => simp [matchhere.eq_3 c re hre, hend]
        | cons t text => simp [matchhere.eq_4 c re t text hre, hend, ih]
      simp only [hmatch, FindsHere, hitems, mem_language_cons]
      constructor
      · rintro ⟨t, _, rfl, hc, part, rest, rfl, hpart, hstop⟩
        exact ⟨t :: part, rest, rfl, ⟨[t], ⟨t, rfl, hc⟩, part, hpart, rfl⟩, hstop⟩
      · rintro ⟨_, rest, rfl, ⟨_, ⟨t, rfl, hc⟩, part, hpart, rfl⟩, hstop⟩
        exact ⟨t, part ++ rest, rfl, hc, part, rest, rfl, hpart, hstop⟩

/-- The loop of `match` tries every place, the end of the text included. -/
theorem matchLoop_iff (re text : List UInt8) :
    matchLoop re text = true ↔ ∃ front rest, text = front ++ rest ∧ FindsHere re rest := by
  induction text with
  | nil => simp [matchLoop, matchhere_iff]
  | cons t text ih =>
      simp only [matchLoop, Bool.or_eq_true, matchhere_iff, ih]
      constructor
      · rintro (h | ⟨front, rest, rfl, h⟩)
        · exact ⟨[], t :: text, rfl, h⟩
        · exact ⟨t :: front, rest, rfl, h⟩
      · rintro ⟨front, rest, htext, h⟩
        cases front with
        | nil => exact .inl (by rwa [htext])
        | cons t' front =>
            obtain ⟨rfl, rfl⟩ := List.cons.inj htext
            exact .inr ⟨front, rest, rfl, h⟩

/-- **`match` implements its regular expressions**: for every pattern and text it answers whether
the pattern, as it is read, finds a part of the text. -/
theorem match_iff (re text : List UInt8) :
    match' re text = true ↔ (Pattern.ofBytes re).Finds text := by
  unfold match' Pattern.ofBytes
  split
  · next re =>
      simp only [matchhere_iff, FindsHere, Pattern.Finds, forall_const]
      constructor
      · rintro ⟨part, rest, rfl, hpart, hstop⟩
        exact ⟨[], part, rest, rfl, hpart, rfl, hstop⟩
      · rintro ⟨front, part, rest, rfl, hpart, rfl, hstop⟩
        exact ⟨part, rest, rfl, hpart, hstop⟩
  · next re hre =>
      simp only [matchLoop_iff, FindsHere, Pattern.Finds]
      constructor
      · rintro ⟨front, _, rfl, part, rest, rfl, hpart, hstop⟩
        exact ⟨front, part, rest, by simp, hpart, by simp, hstop⟩
      · rintro ⟨front, part, rest, rfl, hpart, -, hstop⟩
        exact ⟨front, part ++ rest, by simp, part, rest, rfl, hpart, hstop⟩

-- `$` is an anchor only as the last character: in `$*x$` the first one is starred
example : (Pattern.ofBytes [0x24, 0x2a, 0x78, 0x24]).items = [.star 0x24, .one 0x78] := by decide

end Xv6.Grep
