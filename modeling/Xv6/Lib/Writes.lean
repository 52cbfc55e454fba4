import Mathlib.Tactic.Common

/-!
# Xv6.Lib.Writes

Sequences of point updates, as a store sees them: `apply ws f` performs the
writes of `ws` in order on the store `f`.  The law a redo log lives on is
`apply_apply_take`: performing some of the writes and then all of them is
performing all of them.
-/

namespace Xv6.Writes

variable {α β : Type*} [DecidableEq α]

/-- Perform the writes in order. -/
def apply (ws : List (α × β)) (f : α → β) : α → β :=
  ws.foldl (fun g w => Function.update g w.1 w.2) f

@[simp] theorem apply_nil (f : α → β) : apply [] f = f := rfl

@[simp] theorem apply_cons (w : α × β) (ws : List (α × β)) (f : α → β) :
    apply (w :: ws) f = apply ws (Function.update f w.1 w.2) := rfl

theorem apply_append (ws vs : List (α × β)) (f : α → β) :
    apply (ws ++ vs) f = apply vs (apply ws f) := by
  unfold apply
  rw [List.foldl_append]

/-- Performing one more write. -/
theorem apply_concat (ws : List (α × β)) (a : α) (b : β) (f : α → β) :
    apply (ws ++ [(a, b)]) f = Function.update (apply ws f) a b := by
  rw [apply_append]; rfl

/-- A location that is not written keeps its value. -/
theorem apply_of_forall_ne {ws : List (α × β)} {a : α} (h : ∀ w ∈ ws, w.1 ≠ a) (f : α → β) :
    apply ws f a = f a := by
  induction ws generalizing f with
  | nil => rfl
  | cons w ws ih =>
      rw [apply_cons, ih fun v hv => h v (List.mem_cons_of_mem w hv)]
      exact Function.update_of_ne (h w List.mem_cons_self).symm _ _

/-- A location that is written ends with a value that does not depend on the
store; one that is not keeps its value. -/
theorem apply_congr {ws : List (α × β)} {a : α} {f g : α → β}
    (h : (∀ w ∈ ws, w.1 ≠ a) → f a = g a) : apply ws f a = apply ws g a := by
  induction ws generalizing f g with
  | nil => exact h (by simp)
  | cons w ws ih =>
      rw [apply_cons, apply_cons]
      refine ih fun hne => ?_
      by_cases hw : w.1 = a
      · subst hw; simp
      · rw [Function.update_of_ne (Ne.symm hw), Function.update_of_ne (Ne.symm hw)]
        refine h fun v hv => ?_
        rcases List.mem_cons.mp hv with rfl | hv
        · exact hw
        · exact hne v hv

/-- **Redo is idempotent**: some of the writes followed by all of them do
what all of them do. -/
theorem apply_apply_take (ws : List (α × β)) (k : Nat) (f : α → β) :
    apply ws (apply (ws.take k) f) = apply ws f := by
  funext a
  refine apply_congr fun h => ?_
  exact apply_of_forall_ne (fun w hw => h w (List.mem_of_mem_take hw)) f

end Xv6.Writes
