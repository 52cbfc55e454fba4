import Mathlib.Data.UInt

/-!
# Xv6.Lib.Ring

A ring buffer with free-running 32-bit counters: slot `c % cap` of the array
belongs to counter value `c`, the counters are never reduced, and they wrap
at `2 ^ 32`.  When `cap` divides `2 ^ 32` the wrap is invisible.

`Holds data r xs` says that the slots from counter `r` on hold the queue
`xs`; `Holds.push` and `Holds.pop` are the two operations.
-/

namespace Xv6.Ring

variable {α : Type*} {cap : Nat} [NeZero cap]

/-- The slot of a free-running counter. -/
def slot (cap : Nat) [NeZero cap] (c : UInt32) : Fin cap := Fin.ofNat cap c.toNat

/-- The slots from counter `r` on hold the queue `xs`, oldest first. -/
def Holds (data : Fin cap → α) (r : UInt32) : List α → Prop
  | [] => True
  | x :: xs => data (slot cap r) = x ∧ Holds data (r + 1) xs

@[simp] theorem holds_nil (data : Fin cap → α) (r : UInt32) : Holds data r [] := trivial

theorem holds_cons {data : Fin cap → α} {r : UInt32} {x : α} {xs : List α} :
    Holds data r (x :: xs) ↔ data (slot cap r) = x ∧ Holds data (r + 1) xs := Iff.rfl

/-- The oldest element is the one in the slot of the read counter, and the
rest of the queue starts one further. -/
theorem Holds.pop {data : Fin cap → α} {r : UInt32} {x : α} {xs : List α}
    (h : Holds data r (x :: xs)) : data (slot cap r) = x ∧ Holds data (r + 1) xs := h

/-- Two counters less than `cap` apart have different slots. -/
theorem slot_ne (hcap : cap ∣ 2 ^ 32) {r : UInt32} {k : Nat} (h0 : 0 < k) (hk : k < cap) :
    slot cap (r + UInt32.ofNat k) ≠ slot cap r := by
  intro h
  have hv : (r + UInt32.ofNat k).toNat % cap = r.toNat % cap := congrArg Fin.val h
  have hsum : (r + UInt32.ofNat k).toNat % cap = (r.toNat + k) % cap := by
    rw [UInt32.toNat_add, UInt32.toNat_ofNat', Nat.add_mod_mod, Nat.mod_mod_of_dvd _ hcap]
  have hmod : (r.toNat + k) % cap = (r.toNat + 0) % cap := by rw [← hsum, hv, Nat.add_zero]
  have hk0 : k % cap = 0 % cap := Nat.ModEq.add_left_cancel' r.toNat hmod
  rw [Nat.mod_eq_of_lt hk, Nat.zero_mod] at hk0
  omega

theorem ofNat_succ_eq (k : Nat) : UInt32.ofNat (k + 1) = UInt32.ofNat k + 1 := by
  rw [UInt32.ofNat_add]; rfl

/-- Storing past the end of the queue keeps what the queue holds. -/
theorem Holds.update_of_le (hcap : cap ∣ 2 ^ 32) {data : Fin cap → α} {r : UInt32}
    {xs : List α} {k : Nat} {b : α} (h : Holds data (r + UInt32.ofNat k) xs)
    (hk : xs.length + k < cap) :
    ∀ j, xs.length + k ≤ j → j < cap →
      Holds (Function.update data (slot cap (r + UInt32.ofNat j)) b) (r + UInt32.ofNat k) xs := by
  induction xs generalizing k with
  | nil => intro j _ _; trivial
  | cons x xs ih =>
      intro j hj hjc
      rw [List.length_cons] at hk hj
      -- the counter of the new slot lies `j - k` past the one of `x`
      have hne : slot cap (r + UInt32.ofNat k) ≠ slot cap (r + UInt32.ofNat j) := by
        have hjk : r + UInt32.ofNat j = r + UInt32.ofNat k + UInt32.ofNat (j - k) := by
          rw [add_assoc, ← UInt32.ofNat_add, Nat.add_sub_cancel' (by omega)]
        rw [hjk]
        exact (slot_ne hcap (by omega) (by omega)).symm
      have hnext : r + UInt32.ofNat k + 1 = r + UInt32.ofNat (k + 1) := by
        rw [ofNat_succ_eq, add_assoc]
      refine ⟨?_, ?_⟩
      · rw [Function.update_of_ne hne]
        exact h.1
      · rw [hnext]
        exact ih (hnext ▸ h.2) (by omega) j (by omega) hjc

/-- A queue is held part by part. -/
theorem holds_append {data : Fin cap → α} {r : UInt32} {xs ys : List α} :
    Holds data r (xs ++ ys) ↔ Holds data r xs ∧ Holds data (r + UInt32.ofNat xs.length) ys := by
  induction xs generalizing r with
  | nil => simp
  | cons x xs ih =>
      rw [List.cons_append, holds_cons, holds_cons, ih, and_assoc, List.length_cons,
        ofNat_succ_eq, add_assoc, add_comm 1]

/-- Storing at the write counter appends to the queue. -/
theorem Holds.push (hcap : cap ∣ 2 ^ 32) {data : Fin cap → α} {r : UInt32} {xs : List α}
    {b : α} (h : Holds data r xs) (hlen : xs.length < cap) :
    Holds (Function.update data (slot cap (r + UInt32.ofNat xs.length)) b) r (xs ++ [b]) := by
  have hkeep : Holds (Function.update data (slot cap (r + UInt32.ofNat xs.length)) b) r xs := by
    have h0 : r + UInt32.ofNat 0 = r := by simp
    have := Holds.update_of_le (k := 0) (b := b) hcap (h0.symm ▸ h) (by omega) xs.length
      (by omega) hlen
    rwa [h0] at this
  exact holds_append.mpr ⟨hkeep, Function.update_self .., trivial⟩

end Xv6.Ring
