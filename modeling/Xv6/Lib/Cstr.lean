import Mathlib.Data.List.Basic

/-!
# Xv6.Lib.Cstr

Strings in memory.  `StrAt mem p s` says that the bytes of `s` are at `p`, none of them 0, and
that a 0 follows.
-/

namespace Xv6

/-- The string `s` is in memory at `p`. -/
def StrAt (mem : Nat → UInt8) : Nat → List UInt8 → Prop
  | p, [] => mem p = 0
  | p, c :: s => mem p = c ∧ c ≠ 0 ∧ StrAt mem (p + 1) s

variable {mem mem' : Nat → UInt8} {p : Nat} {s t : List UInt8} {c : UInt8}

theorem StrAt.congr (h : StrAt mem p s) (heq : ∀ k, p ≤ k → k ≤ p + s.length → mem' k = mem k) :
    StrAt mem' p s := by
  induction s generalizing p with
  | nil => exact (heq p (Nat.le_refl _) (Nat.le_refl _)).trans h
  | cons c s ih =>
      rw [List.length_cons] at heq
      exact ⟨(heq p (Nat.le_refl _) (by omega)).trans h.1, h.2.1,
        ih h.2.2 fun k hk hle => heq k (by omega) (by omega)⟩

theorem StrAt.append (h : StrAt mem p (s ++ t)) : StrAt mem (p + s.length) t := by
  induction s generalizing p with
  | nil => exact h
  | cons c s ih =>
      have := ih h.2.2
      rwa [List.length_cons, ← Nat.add_assoc, Nat.add_right_comm]

/-- The string ends early when a 0 is stored in it. -/
theorem StrAt.cut (h : StrAt mem p (s ++ t)) : StrAt (Function.update mem (p + s.length) 0) p s := by
  induction s generalizing p with
  | nil => exact Function.update_self _ _ _
  | cons c s ih =>
      have hne : p ≠ p + (c :: s).length := by
        rw [List.length_cons]
        omega
      refine ⟨(Function.update_of_ne hne _ _).trans h.1, h.2.1, ?_⟩
      have := ih h.2.2
      rwa [List.length_cons, ← Nat.add_assoc, Nat.add_right_comm]

theorem StrAt.end_eq (h : StrAt mem p s) : mem (p + s.length) = 0 := by
  induction s generalizing p with
  | nil => exact h
  | cons c s ih =>
      have := ih h.2.2
      rwa [List.length_cons, ← Nat.add_assoc, Nat.add_right_comm]

theorem StrAt.get (h : StrAt mem p s) {k : Nat} (hk : k < s.length) : mem (p + k) = s[k] := by
  induction s generalizing p k with
  | nil => cases hk
  | cons c s ih =>
      cases k with
      | zero => exact h.1
      | succ k =>
          have := ih h.2.2 (Nat.lt_of_succ_lt_succ hk)
          rwa [Nat.add_right_comm, Nat.add_assoc] at this

theorem strAt_iff : StrAt mem p s ↔
    (∀ k (hk : k < s.length), mem (p + k) = s[k]) ∧ 0 ∉ s ∧ mem (p + s.length) = 0 := by
  constructor
  · intro h
    refine ⟨fun k hk => h.get hk, ?_, h.end_eq⟩
    induction s generalizing p with
    | nil => simp
    | cons c s ih =>
        rw [List.mem_cons, not_or]
        exact ⟨Ne.symm h.2.1, ih h.2.2⟩
  · rintro ⟨hget, hne, hend⟩
    induction s generalizing p with
    | nil => exact hend
    | cons c s ih =>
        rw [List.mem_cons, not_or] at hne
        refine ⟨hget 0 (by simp), Ne.symm hne.1, ih (fun k hk => ?_) hne.2 ?_⟩
        · have := hget (k + 1) (by simpa using hk)
          rwa [← Nat.add_assoc, Nat.add_right_comm] at this
        · rwa [List.length_cons, ← Nat.add_assoc, Nat.add_right_comm] at hend

end Xv6
