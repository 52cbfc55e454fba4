import Mathlib.Algebra.Order.BigOperators.Group.Finset
import Mathlib.Algebra.BigOperators.Ring.Finset

/-!
# Xv6.Lib.Weight

Counting over a finite family of processes: `total w g` adds up a weight of
the local states `g p`.  With a weight of `0` or `1` it counts the processes
in a set of local states.  Protocol proofs move one process at a time, so
the law that matters is `total_update`.
-/

namespace Xv6.Weight

variable {P α : Type*} [Fintype P]

/-- The weights of all local states together. -/
def total (w : α → Nat) (g : P → α) : Nat := ∑ p, w (g p)

theorem total_congr {w : α → Nat} {g g' : P → α} (h : ∀ p, w (g' p) = w (g p)) :
    total w g' = total w g :=
  Finset.sum_congr rfl fun p _ => h p

/-- No process weighs more than all of them. -/
theorem le_total (w : α → Nat) (g : P → α) (p : P) : w (g p) ≤ total w g :=
  Finset.single_le_sum (f := fun q => w (g q)) (fun _ _ => Nat.zero_le _) (Finset.mem_univ p)

theorem total_eq_zero_iff {w : α → Nat} {g : P → α} : total w g = 0 ↔ ∀ p, w (g p) = 0 := by
  simp [total]

/-- A weight bounded process by process by a multiple of another one. -/
theorem total_le_mul_total {v w : α → Nat} {m : Nat} (h : ∀ a, v a ≤ m * w a) (g : P → α) :
    total v g ≤ m * total w g := by
  unfold total
  rw [Finset.mul_sum]
  exact Finset.sum_le_sum fun p _ => h (g p)

variable [DecidableEq P]

/-- **One process moves**: the total changes by the difference of its
weights. -/
theorem total_update (w : α → Nat) (g : P → α) (p : P) (a : α) :
    total w (Function.update g p a) + w (g p) = total w g + w a := by
  have hrest : ∑ q ∈ Finset.univ.erase p, w (Function.update g p a q) =
      ∑ q ∈ Finset.univ.erase p, w (g q) :=
    Finset.sum_congr rfl fun q hq => by
      rw [Function.update_of_ne (Finset.ne_of_mem_erase hq)]
  unfold total
  rw [← Finset.add_sum_erase _ _ (Finset.mem_univ p),
    ← Finset.add_sum_erase _ (fun q => w (g q)) (Finset.mem_univ p), hrest,
    Function.update_self]
  omega

/-- One process moves and the others do not gain. -/
theorem total_move_le (w : α → Nat) {g g' : P → α} (p : P)
    (h : ∀ q, q ≠ p → w (g' q) ≤ w (g q)) :
    total w g' + w (g p) ≤ total w g + w (g' p) := by
  have hrest : ∑ q ∈ Finset.univ.erase p, w (g' q) ≤ ∑ q ∈ Finset.univ.erase p, w (g q) :=
    Finset.sum_le_sum fun q hq => h q (Finset.ne_of_mem_erase hq)
  unfold total
  rw [← Finset.add_sum_erase _ (fun q => w (g' q)) (Finset.mem_univ p),
    ← Finset.add_sum_erase _ (fun q => w (g q)) (Finset.mem_univ p)]
  omega

/-- Two processes weigh at most what all of them do. -/
theorem add_le_total (w : α → Nat) (g : P → α) {p q : P} (h : p ≠ q) :
    w (g p) + w (g q) ≤ total w g := by
  unfold total
  rw [← Finset.add_sum_erase _ _ (Finset.mem_univ p)]
  refine Nat.add_le_add_left ?_ _
  exact Finset.single_le_sum (f := fun r => w (g r)) (fun _ _ => Nat.zero_le _)
    (Finset.mem_erase.mpr ⟨h.symm, Finset.mem_univ q⟩)

end Xv6.Weight
