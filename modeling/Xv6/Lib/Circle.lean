import Mathlib.Data.List.Nodup

/-!
# Xv6.Lib.Circle

Circular singly linked lists in a store.

`Path next xs b` says that the `next` pointers run through the nodes `xs` in order
and then on to `b`; a circle is a path back to its own first node.  A path is cut
and joined with `path_append`, and `Path.congr` says that only the pointers of its
own nodes matter, so that linking and unlinking a node is a rewrite.  A loop that
follows the pointers until a test succeeds is `seek`.
-/

namespace Xv6

variable {α : Type*}

/-- The `next` pointers run through `xs` and then on to `b`. -/
def Path (next : α → α) : List α → α → Prop
  | [], _ => True
  | x :: xs, b => next x = xs.headD b ∧ Path next xs b

variable {next next' : α → α} {xs ys : List α} {x y b c : α}

@[simp] theorem path_nil : Path next [] b := trivial

@[simp] theorem path_cons : Path next (x :: xs) b ↔ next x = xs.headD b ∧ Path next xs b := Iff.rfl

theorem path_append : Path next (xs ++ ys) b ↔ Path next xs (ys.headD b) ∧ Path next ys b := by
  induction xs with
  | nil => simp
  | cons x xs ih =>
      have hhead : (xs ++ ys).headD b = xs.headD (ys.headD b) := by
        cases xs <;> simp
      rw [List.cons_append, path_cons, path_cons, ih, hhead, and_assoc]

/-- Only the pointers of its own nodes matter. -/
theorem Path.congr (h : Path next xs b) (hn : ∀ x ∈ xs, next' x = next x) : Path next' xs b := by
  induction xs with
  | nil => trivial
  | cons x xs ih =>
      rw [path_cons] at h ⊢
      exact ⟨(hn x List.mem_cons_self).trans h.1,
        ih h.2 fun y hy => hn y (List.mem_cons_of_mem _ hy)⟩

theorem Path.update [DecidableEq α] (h : Path next xs b) (hx : x ∉ xs) (v : α) :
    Path (Function.update next x v) xs b :=
  h.congr fun _ hy => Function.update_of_ne (ne_of_mem_of_not_mem hy hx) ..

/-- A circle can be entered at every node. -/
theorem Path.rotate (h : Path next (xs ++ c :: ys) ((xs ++ [c]).headD c)) :
    Path next (c :: ys ++ xs) c := by
  rw [path_append] at h ⊢
  cases xs with
  | nil => exact ⟨h.2, trivial⟩
  | cons x xs => exact ⟨h.2, h.1⟩

/-! ## searching -/

/-- Follow the pointers from `c` up to the first node that passes the test. -/
def seek (next : α → α) (test : α → Bool) : Nat → α → Option α
  | 0, _ => none
  | n + 1, c => if test c then some c else seek next test n (next c)

/-- A node that alone passes the test is found from the first node of the path. -/
theorem Path.seek_eq {test : α → Bool} {n : Nat} (h : Path next xs b) (hc : xs.head? = some c)
    (hx : x ∈ xs) (htest : ∀ y ∈ xs, test y = true ↔ y = x) (hn : xs.length ≤ n) :
    seek next test n c = some x := by
  induction xs generalizing c n with
  | nil => simp at hc
  | cons y ys ih =>
      obtain rfl := Option.some.inj hc
      obtain ⟨n, rfl⟩ : ∃ m, n = m + 1 := ⟨n - 1, by rw [List.length_cons] at hn; omega⟩
      unfold seek
      split
      next ht => rw [(htest y List.mem_cons_self).mp ht]
      next ht =>
        have hne : x ≠ y := fun he => ht ((htest y List.mem_cons_self).mpr he.symm)
        have hmem : x ∈ ys := (List.mem_cons.mp hx).resolve_left hne
        obtain ⟨z, zs, rfl⟩ := List.exists_cons_of_ne_nil (List.ne_nil_of_mem hmem)
        refine ih h.2 ?_ hmem (fun w hw => htest w (List.mem_cons_of_mem _ hw)) ?_
        · rw [h.1]
          rfl
        · rw [List.length_cons] at hn
          omega

/-- A node that alone passes the test is found from every node of the circle. -/
theorem Path.seek_circle {test : α → Bool} {n : Nat} (h : Path next (b :: xs) b)
    (hc : c ∈ b :: xs) (hx : x ∈ b :: xs) (htest : ∀ y ∈ b :: xs, test y = true ↔ y = x)
    (hn : (b :: xs).length ≤ n) : seek next test n c = some x := by
  obtain ⟨pre, post, he⟩ := List.append_of_mem hc
  have hperm : ∀ y, y ∈ c :: post ++ pre ↔ y ∈ b :: xs := by
    intro y
    rw [he]
    simp only [List.cons_append, List.mem_cons, List.mem_append]
    tauto
  have hhead : b = (pre ++ [c]).headD c := by
    cases pre with
    | nil => exact (List.cons.inj he).1
    | cons a pre => exact (List.cons.inj he).1
  have hrot : Path next (c :: post ++ pre) c := by
    rw [he] at h
    exact Path.rotate (hhead ▸ h)
  have hlen := congrArg List.length he
  refine hrot.seek_eq rfl ((hperm x).mpr hx) (fun y hy => htest y ((hperm y).mp hy)) ?_
  simp only [List.length_cons, List.length_append] at hlen hn ⊢
  omega

end Xv6
