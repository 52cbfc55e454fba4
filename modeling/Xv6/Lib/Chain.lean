import Mathlib.Data.List.Nodup

/-!
# Xv6.Lib.Chain

Singly linked lists in a store: from a head pointer, the `next` pointers run
through the nodes of a list and end in NULL.

A chain is a finite list by definition, and since `next` is a function it can
not come back to a node (`Chain.nodup`): "NULL-terminated", "finite" and
"acyclic" are one property.  `chain_iff` describes a chain node by node;
the rules for linking and unlinking a node follow from it.
-/

namespace Xv6

variable {α : Type*}

/-- From `a`, the `next` pointers run through `xs` and end in NULL. -/
def Chain (next : α → Option α) : Option α → List α → Prop
  | a, [] => a = none
  | a, x :: xs => a = some x ∧ Chain next (next x) xs

variable {next next' : α → Option α} {a : Option α} {xs ys : List α} {p x y : α}

/-- A chain, node by node. -/
theorem chain_iff : Chain next a xs ↔
    a = xs.head? ∧ ∀ ys x zs, xs = ys ++ x :: zs → next x = zs.head? := by
  induction xs generalizing a with
  | nil => simp [Chain]
  | cons x xs ih =>
      rw [Chain, ih, List.head?_cons]
      constructor
      · rintro ⟨ha, hhead, hrest⟩
        refine ⟨ha, fun ys y zs he => ?_⟩
        rcases List.cons_eq_append_iff.mp he with ⟨rfl, hy⟩ | ⟨ys', rfl, hxs⟩
        · obtain ⟨rfl, rfl⟩ := List.cons_eq_cons.mp hy
          exact hhead
        · exact hrest ys' y zs hxs
      · rintro ⟨ha, h⟩
        exact ⟨ha, h [] x xs rfl, fun ys y zs he => h (x :: ys) y zs (by rw [he]; rfl)⟩

namespace Chain

theorem head_eq (h : Chain next a xs) : a = xs.head? := (chain_iff.mp h).1

/-- What follows a node. -/
theorem next_eq (h : Chain next a (xs ++ x :: ys)) : next x = ys.head? :=
  (chain_iff.mp h).2 xs x ys rfl

/-- Only the pointers of its own nodes matter. -/
theorem congr (h : Chain next a xs) (hn : ∀ x ∈ xs, next' x = next x) : Chain next' a xs := by
  rw [chain_iff] at h ⊢
  refine ⟨h.1, fun ys x zs he => ?_⟩
  rw [hn x (by simp [he]), h.2 ys x zs he]

/-- A suffix of a chain is the chain from its first node. -/
theorem suffix (h : Chain next a (xs ++ ys)) : Chain next ys.head? ys := by
  rw [chain_iff] at h ⊢
  exact ⟨rfl, fun zs x ws he => h.2 (xs ++ zs) x ws (by rw [he, List.append_assoc])⟩

/-- There is only one chain from a head. -/
theorem unique (hx : Chain next a xs) (hy : Chain next a ys) : xs = ys := by
  induction xs generalizing a ys with
  | nil =>
      cases ys with
      | nil => rfl
      | cons y ys => rw [Chain] at hx; rw [hx] at hy; exact absurd hy.1 (by simp)
  | cons x xs ih =>
      cases ys with
      | nil => rw [Chain] at hy; rw [hy] at hx; exact absurd hx.1 (by simp)
      | cons y ys =>
          obtain ⟨rfl, hx⟩ := hx
          obtain ⟨hxy, hy⟩ := hy
          obtain rfl := Option.some.inj hxy
          rw [ih hx hy]

/-- **Acyclic**: no node occurs twice.  From a second occurrence on, the chain
would be a shorter copy of itself. -/
theorem nodup (h : Chain next a xs) : xs.Nodup := by
  induction xs generalizing a with
  | nil => exact List.nodup_nil
  | cons x xs ih =>
      refine List.nodup_cons.mpr ⟨fun hmem => ?_, ih h.2⟩
      obtain ⟨ys, zs, rfl⟩ := List.append_of_mem hmem
      have hlong : Chain next (some x) (x :: (ys ++ x :: zs)) := h.1 ▸ h
      have hshort : Chain next (some x) (x :: zs) := suffix h.2
      have := congrArg List.length (hlong.unique hshort)
      simp only [List.length_cons, List.length_append] at this
      omega

variable [DecidableEq α]

/-- A new first node. -/
theorem cons (h : Chain next a xs) (hp : p ∉ xs) :
    Chain (Function.update next p a) (some p) (p :: xs) := by
  refine ⟨rfl, ?_⟩
  rw [Function.update_self]
  exact h.congr fun x hx => Function.update_of_ne (ne_of_mem_of_not_mem hx hp) _ _

/-- A new last node. -/
theorem concat (h : Chain next a (xs ++ [y])) (hp : p ∉ xs ++ [y]) :
    Chain (Function.update (Function.update next y (some p)) p none) a (xs ++ [y] ++ [p]) := by
  induction xs generalizing a with
  | nil =>
      have hyp : y ≠ p := fun e => hp (by simp [e])
      exact ⟨h.1, by rw [Function.update_of_ne hyp, Function.update_self],
        by rw [Function.update_self]; rfl⟩
  | cons x xs ih =>
      rw [List.cons_append, List.mem_cons, not_or] at hp
      have hxy : x ≠ y := fun e => (List.nodup_cons.mp h.nodup).1 (by simp [e])
      refine ⟨h.1, ?_⟩
      rw [Function.update_of_ne (Ne.symm hp.1), Function.update_of_ne hxy]
      exact ih h.2 hp.2

/-- Unlinking the first node. -/
theorem tail (h : Chain next a (p :: xs)) : Chain (Function.update next p none) (next p) xs := by
  have hp : p ∉ xs := (List.nodup_cons.mp h.nodup).1
  exact h.2.congr fun x hx => Function.update_of_ne (ne_of_mem_of_not_mem hx hp) _ _

/-- Unlinking a node behind another one. -/
theorem unlink (h : Chain next a (xs ++ y :: p :: ys)) :
    Chain (Function.update (Function.update next y (next p)) p none) a (xs ++ y :: ys) := by
  induction xs generalizing a with
  | nil =>
      obtain ⟨hy, hp⟩ := List.nodup_cons.mp h.nodup
      rw [List.mem_cons, not_or] at hy
      refine ⟨h.1, ?_⟩
      rw [Function.update_of_ne hy.1, Function.update_self]
      refine h.2.2.congr fun x hx => ?_
      rw [Function.update_of_ne (ne_of_mem_of_not_mem hx (List.nodup_cons.mp hp).1),
        Function.update_of_ne (ne_of_mem_of_not_mem hx hy.2)]
  | cons x xs ih =>
      have hx := (List.nodup_cons.mp h.nodup).1
      have hxp : x ≠ p := fun e => hx (by simp [e])
      have hxy : x ≠ y := fun e => hx (by simp [e])
      refine ⟨h.1, ?_⟩
      rw [Function.update_of_ne hxp, Function.update_of_ne hxy]
      exact ih h.2

end Chain
end Xv6
