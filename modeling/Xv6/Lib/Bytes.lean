import Mathlib.Algebra.Ring.Nat
import Mathlib.Data.List.Basic

/-!
# Xv6.Lib.Bytes

A byte memory with 32-bit addresses.

* `le w v` are the `w` bytes of a number, least significant first, and `leNat`
  the number that bytes stand for;
* `fill mem p bs` is the memory after the bytes `bs` were stored from `p` on, and
  `get mem p n` are `n` bytes from `p` on.  Addresses wrap around at `2 ^ 32`, so
  offsets from a base address are compared instead of addresses.
-/

namespace Xv6.Bytes

/-! ## numbers -/

def le : Nat → Nat → List UInt8
  | 0, _ => []
  | w + 1, v => UInt8.ofNat v :: le w (v / 256)

def leNat : List UInt8 → Nat
  | [] => 0
  | b :: bs => b.toNat + 256 * leNat bs

@[simp] theorem length_le (w v : Nat) : (le w v).length = w := by
  induction w generalizing v with
  | zero => rfl
  | succ w ih => simp [le, ih]

theorem leNat_le (w v : Nat) : leNat (le w v) = v % 256 ^ w := by
  induction w generalizing v with
  | zero => simp [le, leNat, Nat.mod_one]
  | succ w ih =>
      have hsplit : v % (256 * 256 ^ w) = v % 256 + 256 * (v / 256 % 256 ^ w) := Nat.mod_mul
      rw [Nat.pow_succ', hsplit, le, leNat, ih, UInt8.toNat_ofNat']

/-! ## memory -/

abbrev Mem : Type := UInt32 → UInt8

def fill (mem : Mem) (p : UInt32) (bs : List UInt8) : Mem := fun x =>
  (bs[(x - p).toNat]?).getD (mem x)

def get (mem : Mem) (p : UInt32) (n : Nat) : List UInt8 :=
  (List.range n).map fun k => mem (p + UInt32.ofNat k)

variable {mem : Mem} {p : UInt32} {bs : List UInt8}

@[simp] theorem length_get (mem : Mem) (p : UInt32) (n : Nat) : (get mem p n).length = n := by
  simp [get]

theorem fill_nil : fill mem p [] = mem := by
  funext x
  simp [fill]

/-- Bytes are stored one after the other. -/
theorem fill_cons {b : UInt8} (h : bs.length < 2 ^ 32) :
    fill (Function.update mem p b) (p + 1) bs = fill mem p (b :: bs) := by
  funext x
  have hp := p.toNat_lt
  have hx := x.toNat_lt
  unfold fill
  by_cases hxp : x = p
  · subst hxp
    have hfar : (x - (x + 1)).toNat = 2 ^ 32 - 1 := by
      rw [UInt32.toNat_sub, UInt32.toNat_add, UInt32.toNat_one]
      omega
    rw [hfar, List.getElem?_eq_none (by omega), UInt32.sub_self]
    simp
  · have hne : x.toNat ≠ p.toNat := fun he => hxp (UInt32.toNat_inj.mp he)
    have hnext : (x - p).toNat = (x - (p + 1)).toNat + 1 := by
      rw [UInt32.toNat_sub, UInt32.toNat_sub, UInt32.toNat_add, UInt32.toNat_one]
      omega
    rw [hnext, List.getElem?_cons_succ, Function.update_of_ne hxp]

/-- What is at an offset from the base after bytes were stored at another offset. -/
theorem fill_offset {off i : Nat} (hoff : off + bs.length ≤ 2 ^ 32) (hi : i < 2 ^ 32) :
    fill mem (p + UInt32.ofNat off) bs (p + UInt32.ofNat i) =
      if off ≤ i then (bs[i - off]?).getD (mem (p + UInt32.ofNat i))
      else mem (p + UInt32.ofNat i) := by
  have hp := p.toNat_lt
  unfold fill
  have hdist : (p + UInt32.ofNat i - (p + UInt32.ofNat off)).toNat = (2 ^ 32 + i - off) % 2 ^ 32 := by
    rw [UInt32.toNat_sub, UInt32.toNat_add, UInt32.toNat_add, UInt32.toNat_ofNat',
      UInt32.toNat_ofNat']
    omega
  split
  · next h =>
    rw [hdist]
    congr 2
    omega
  · next h =>
    rw [hdist, List.getElem?_eq_none (by omega), Option.getD_none]

/-! ## fields -/

/-- Two blocks do not overlap, given by their offsets and lengths. -/
def Apart (off n off' n' : Nat) : Prop := off + n ≤ off' ∨ off' + n' ≤ off

theorem get_offset (mem : Mem) (p : UInt32) (off n : Nat) :
    get mem (p + UInt32.ofNat off) n = (List.range n).map fun k => mem (p + UInt32.ofNat (off + k)) := by
  simp [get, UInt32.ofNat_add, UInt32.add_assoc]

theorem get_add (mem : Mem) (p : UInt32) (m n : Nat) :
    get mem p (m + n) = get mem p m ++ get mem (p + UInt32.ofNat m) n := by
  rw [get_offset]
  simp [get, List.range_add]

/-- A part of a block. -/
theorem take_drop_get {off m n : Nat} (h : off + m ≤ n) :
    ((get mem p n).drop off).take m = get mem (p + UInt32.ofNat off) m := by
  rw [get_offset]
  apply List.ext_getElem
  · simp
    omega
  · intro k h1 h2
    simp [get]

theorem get_fill_self {off : Nat} (hoff : off + bs.length ≤ 2 ^ 32) :
    get (fill mem (p + UInt32.ofNat off) bs) (p + UInt32.ofNat off) bs.length = bs := by
  rw [get_offset]
  apply List.ext_getElem
  · simp
  · intro k h1 h2
    rw [List.getElem_map, List.getElem_range, fill_offset hoff (by omega),
      if_pos (Nat.le_add_right off k), Nat.add_sub_cancel_left, List.getElem?_eq_getElem h2]
    rfl

theorem get_fill_of_apart {off n off' : Nat} (hoff : off + n ≤ 2 ^ 32)
    (hoff' : off' + bs.length ≤ 2 ^ 32) (h : Apart off n off' bs.length) :
    get (fill mem (p + UInt32.ofNat off') bs) (p + UInt32.ofNat off) n =
      get mem (p + UInt32.ofNat off) n := by
  rw [get_offset, get_offset]
  refine List.map_congr_left fun k hk => ?_
  have hk := List.mem_range.mp hk
  rw [fill_offset hoff' (by omega)]
  split
  · rw [List.getElem?_eq_none (by cases h <;> omega), Option.getD_none]
  · rfl

/-- The memory after bytes were stored at several offsets from a base. -/
def fills (mem : Mem) (p : UInt32) (fields : List (Nat × List UInt8)) : Mem :=
  fields.foldl (fun mem field => fill mem (p + UInt32.ofNat field.1) field.2) mem

variable {fields : List (Nat × List UInt8)}

/-- The offsets from another base. -/
theorem fills_base (mem : Mem) (p : UInt32) (base : Nat) (fields : List (Nat × List UInt8)) :
    fills mem (p + UInt32.ofNat base) fields =
      fills mem p (fields.map fun field => (base + field.1, field.2)) := by
  simp [fills, List.foldl_map, UInt32.ofNat_add, UInt32.add_assoc]

theorem get_fills_of_apart {off n : Nat} (hoff : off + n ≤ 2 ^ 32)
    (h : ∀ field ∈ fields, field.1 + field.2.length ≤ 2 ^ 32 ∧
      Apart off n field.1 field.2.length) :
    get (fills mem p fields) (p + UInt32.ofNat off) n = get mem (p + UInt32.ofNat off) n := by
  induction fields generalizing mem with
  | nil => rfl
  | cons field fields ih =>
      obtain ⟨hle, hap⟩ := h field List.mem_cons_self
      rw [fills, List.foldl_cons, ← fills, ih fun f hf => h f (List.mem_cons_of_mem field hf),
        get_fill_of_apart hoff hle hap]

/-- Fields that do not overlap have the bytes that were stored in them. -/
theorem get_fills (hle : ∀ field ∈ fields, field.1 + field.2.length ≤ 2 ^ 32)
    (hap : fields.Pairwise fun f g => Apart f.1 f.2.length g.1 g.2.length)
    {off : Nat} (hf : (off, bs) ∈ fields) :
    get (fills mem p fields) (p + UInt32.ofNat off) bs.length = bs := by
  induction fields generalizing mem with
  | nil => contradiction
  | cons field fields ih =>
      obtain ⟨hfirst, hap⟩ := List.pairwise_cons.mp hap
      have hle' : ∀ f ∈ fields, f.1 + f.2.length ≤ 2 ^ 32 := fun f hf =>
        hle f (List.mem_cons_of_mem field hf)
      rw [fills, List.foldl_cons, ← fills]
      cases List.mem_cons.mp hf with
      | inl he =>
          subst he
          have hself := hle (off, bs) List.mem_cons_self
          rw [get_fills_of_apart hself fun f hf => ⟨hle' f hf, hfirst f hf⟩, get_fill_self hself]
      | inr hf => exact ih hle' hap hf

end Xv6.Bytes
