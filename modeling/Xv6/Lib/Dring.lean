import Mathlib.Data.List.Nodup

/-!
# Xv6.Lib.Dring

Doubly linked rings: nodes with `prev` and `next` pointers around a head, which is
`none` here.

* `Linked l a xs b`: from `a`, `next` runs through `xs` to `b`, and `prev` runs back;
* `Links.Ring l xs`: from the head through `xs` to the head, no node twice;
* `Links.unlink` and `Links.pushFront` are the assignments that take a node out and put
  one behind the head;
* `scan` follows one of the pointers until it finds something.
-/

namespace Xv6

variable {α : Type*}

/-- The pointers of the nodes and of the head. -/
structure Links (α : Type*) where
  prev : Option α → Option α
  next : Option α → Option α

/-- From `a` along `next` through `xs` to `b`, and back along `prev`. -/
def Linked (l : Links α) : Option α → List α → Option α → Prop
  | a, [], b => l.next a = b ∧ l.prev b = a
  | a, x :: xs, b => l.next a = some x ∧ l.prev (some x) = a ∧ Linked l (some x) xs b

/-- The nodes of a ring, from the head on. -/
structure Links.Ring (l : Links α) (xs : List α) : Prop where
  linked : Linked l none xs none
  nodup : xs.Nodup

namespace Linked

variable {l l' : Links α} {a b : Option α} {xs ys : List α} {x : α}

/-- A segment in two parts. -/
theorem append_cons : Linked l a (xs ++ x :: ys) b ↔
    Linked l a xs (some x) ∧ Linked l (some x) ys b := by
  induction xs generalizing a with
  | nil => exact ⟨fun h => ⟨⟨h.1, h.2.1⟩, h.2.2⟩, fun h => ⟨h.1.1, h.1.2, h.2⟩⟩
  | cons z zs ih =>
      simp only [List.cons_append, Linked, ih]
      exact ⟨fun h => ⟨⟨h.1, h.2.1, h.2.2.1⟩, h.2.2.2⟩, fun h => ⟨h.1.1, h.1.2.1, h.1.2.2, h.2⟩⟩

/-- Only the pointers inside the segment matter. -/
theorem congr (h : Linked l a xs b) (hn : ∀ c, c = a ∨ (∃ x ∈ xs, c = some x) → l'.next c = l.next c)
    (hp : ∀ c, c = b ∨ (∃ x ∈ xs, c = some x) → l'.prev c = l.prev c) : Linked l' a xs b := by
  induction xs generalizing a with
  | nil => exact ⟨(hn a (.inl rfl)).trans h.1, (hp b (.inl rfl)).trans h.2⟩
  | cons x xs ih =>
      refine ⟨(hn a (.inl rfl)).trans h.1, ?_, ih h.2.2 ?_ ?_⟩
      · exact (hp _ (.inr ⟨x, List.mem_cons_self, rfl⟩)).trans h.2.1
      · rintro c (rfl | ⟨y, hy, rfl⟩)
        · exact hn _ (.inr ⟨x, List.mem_cons_self, rfl⟩)
        · exact hn _ (.inr ⟨y, List.mem_cons_of_mem x hy, rfl⟩)
      · rintro c (rfl | ⟨y, hy, rfl⟩)
        · exact hp _ (.inl rfl)
        · exact hp _ (.inr ⟨y, List.mem_cons_of_mem x hy, rfl⟩)

/-- The segment in the other direction. -/
theorem reverse (h : Linked l a xs b) : Linked ⟨l.next, l.prev⟩ b xs.reverse a := by
  induction xs generalizing a with
  | nil => exact ⟨h.2, h.1⟩
  | cons x xs ih =>
      rw [List.reverse_cons]
      exact append_cons.mpr ⟨ih h.2.2, h.2.1, h.1⟩

/-- What follows the first end. -/
theorem next_eq (h : Linked l a xs b) : l.next a = b ∨ ∃ x ∈ xs, l.next a = some x := by
  cases xs with
  | nil => exact .inl h.1
  | cons x xs => exact .inr ⟨x, List.mem_cons_self, h.1⟩

/-- What stands before the last end. -/
theorem prev_eq (h : Linked l a xs b) : l.prev b = a ∨ ∃ x ∈ xs, l.prev b = some x := by
  rcases h.reverse.next_eq with h' | ⟨x, hx, h'⟩
  · exact .inl h'
  · exact .inr ⟨x, List.mem_reverse.mp hx, h'⟩

end Linked

namespace Links

/-- The head alone. -/
def empty : Links α := ⟨fun _ => none, fun _ => none⟩

theorem ring_empty : (empty : Links α).Ring [] := ⟨⟨rfl, rfl⟩, List.nodup_nil⟩

variable [DecidableEq α] {l : Links α} {xs ys : List α} {x : α}

/-- `x->next->prev = x->prev; x->prev->next = x->next;` -/
def unlink (l : Links α) (x : α) : Links α :=
  let l := { l with prev := Function.update l.prev (l.next (some x)) (l.prev (some x)) }
  { l with next := Function.update l.next (l.prev (some x)) (l.next (some x)) }

/-- `x->next = head.next; x->prev = &head; head.next->prev = x; head.next = x;` -/
def pushFront (l : Links α) (x : α) : Links α :=
  let l := { l with next := Function.update l.next (some x) (l.next none) }
  let l := { l with prev := Function.update l.prev (some x) none }
  let l := { l with prev := Function.update l.prev (l.next none) (some x) }
  { l with next := Function.update l.next none (some x) }

theorem unlink_next (h : l.next (some x) ≠ some x) :
    (l.unlink x).next = Function.update l.next (l.prev (some x)) (l.next (some x)) := by
  unfold unlink
  dsimp only
  rw [Function.update_of_ne h.symm]

/-- A node is taken out of a segment. -/
theorem linked_unlink {a b : Option α} (hl : Linked l a xs (some x)) (hr : Linked l (some x) ys b)
    (hb : b ≠ some x) (hnodup : (xs ++ x :: ys).Nodup) (hax : ∀ y ∈ xs ++ ys, a ≠ some y)
    (hbx : ∀ y ∈ xs ++ ys, b ≠ some y) : Linked (l.unlink x) a (xs ++ ys) b := by
  have hys : ∀ y ∈ ys, y ≠ x := fun y hy he =>
    (List.nodup_cons.mp (List.nodup_append.mp hnodup).2.1).1 (he ▸ hy)
  have hself : l.next (some x) ≠ some x := by
    rcases hr.next_eq with h | ⟨y, hy, h⟩
    · rw [h]
      exact hb
    · rw [h]
      exact fun he => hys y hy (Option.some.inj he)
  induction xs generalizing a with
  | nil =>
      obtain ⟨hnext, hprev⟩ := hl
      cases ys with
      | nil =>
          refine ⟨?_, ?_⟩
          · rw [unlink_next hself, hprev, Function.update_self, hr.1]
          · rw [unlink, hr.1]
            exact (Function.update_self b _ _).trans hprev
      | cons y ys =>
          have hy : y ∉ ys := (List.nodup_cons.mp (List.nodup_cons.mp hnodup).2).1
          refine ⟨?_, ?_, hr.2.2.congr ?_ ?_⟩
          · rw [unlink_next hself, hprev, Function.update_self, hr.1]
          · rw [unlink, hr.1]
            exact (Function.update_self (some y) _ _).trans hprev
          · rintro c (rfl | ⟨z, hz, rfl⟩)
            · rw [unlink_next hself, hprev,
                Function.update_of_ne (hax y List.mem_cons_self).symm]
            · rw [unlink_next hself, hprev,
                Function.update_of_ne (hax z (List.mem_cons_of_mem y hz)).symm]
          · rintro c (rfl | ⟨z, hz, rfl⟩)
            · rw [unlink, hr.1]
              exact Function.update_of_ne (hbx y List.mem_cons_self) _ _
            · rw [unlink, hr.1]
              exact Function.update_of_ne (fun he : some z = some y => hy (Option.some.inj he ▸ hz)) _ _
  | cons z zs ih =>
      obtain ⟨hz, hnodup'⟩ := List.nodup_cons.mp hnodup
      have hz' : ∀ y ∈ zs ++ ys, some z ≠ some y := by
        intro y hy he
        cases he
        rcases List.mem_append.mp hy with hy | hy
        · exact hz (List.mem_append_left _ hy)
        · exact hz (List.mem_append_right _ (List.mem_cons_of_mem x hy))
      refine ⟨?_, ?_, ih hl.2.2 hnodup' hz' fun y hy => hbx y (List.mem_cons_of_mem z hy)⟩
      · rw [unlink_next hself, Function.update_of_ne ?_]
        · exact hl.1
        · rcases hl.2.2.prev_eq with h | ⟨y, hy, h⟩
          · rw [h]
            exact hax z List.mem_cons_self
          · rw [h]
            exact hax y (List.mem_cons_of_mem z (List.mem_append_left ys hy))
      · refine Eq.trans (Function.update_of_ne ?_ _ _) hl.2.1
        rcases hr.next_eq with h | ⟨y, hy, h⟩
        · rw [h]
          exact (hbx z List.mem_cons_self).symm
        · rw [h]
          exact hz' y (List.mem_append_right zs hy)

/-- **Taking a node out** of the ring. -/
theorem Ring.unlink (h : l.Ring (xs ++ x :: ys)) : (l.unlink x).Ring (xs ++ ys) where
  linked := by
    obtain ⟨hl, hr⟩ := Linked.append_cons.mp h.linked
    exact linked_unlink hl hr (by simp) h.nodup (by simp) (by simp)
  nodup := h.nodup.sublist ((List.sublist_cons_self x ys).append_left xs)

/-- **Putting a node behind the head.** -/
theorem Ring.pushFront (h : l.Ring xs) (hx : x ∉ xs) : (l.pushFront x).Ring (x :: xs) where
  linked := by
    have hlinked := h.linked
    have hhead : l.next none ≠ some x := by
      rcases hlinked.next_eq with hn | ⟨y, hy, hn⟩
      · rw [hn]
        exact (Option.some_ne_none x).symm
      · rw [hn]
        exact fun he => hx (Option.some.inj he ▸ hy)
    have hnext (c : Option α) : (l.pushFront x).next c =
        if c = none then some x else if c = some x then l.next none else l.next c := by
      unfold Links.pushFront
      dsimp only
      simp only [Function.update_apply]
    have hprev (c : Option α) : (l.pushFront x).prev c =
        if c = l.next none then some x else if c = some x then none else l.prev c := by
      unfold Links.pushFront
      dsimp only
      simp only [Function.update_apply, reduceCtorEq, if_false]
    refine ⟨by rw [hnext, if_pos rfl], by rw [hprev, if_neg hhead.symm, if_pos rfl], ?_⟩
    cases xs with
    | nil =>
        exact ⟨by rw [hnext, if_neg (by simp), if_pos rfl, hlinked.1], by
          rw [hprev, if_pos hlinked.1.symm]⟩
    | cons y ys =>
        obtain ⟨hy, -⟩ := List.nodup_cons.mp h.nodup
        have hne {c : Option α} (hc : ∃ z ∈ y :: ys, c = some z) : c ≠ some x := by
          obtain ⟨z, hz, rfl⟩ := hc
          exact fun he => hx (Option.some.inj he ▸ hz)
        refine ⟨by rw [hnext, if_neg (by simp), if_pos rfl, hlinked.1], by
          rw [hprev, if_pos hlinked.1.symm], hlinked.2.2.congr (fun c hc => ?_) fun c hc => ?_⟩
        · have hmem : ∃ z ∈ y :: ys, c = some z := by
            rcases hc with rfl | ⟨z, hz, rfl⟩
            · exact ⟨y, List.mem_cons_self, rfl⟩
            · exact ⟨z, List.mem_cons_of_mem y hz, rfl⟩
          obtain ⟨z, -, rfl⟩ := id hmem
          rw [hnext, if_neg (Option.some_ne_none z), if_neg (hne hmem)]
        · rw [hprev, hlinked.1]
          rcases hc with rfl | ⟨z, hz, rfl⟩
          · rw [if_neg (by simp), if_neg (by simp)]
          · rw [if_neg (fun he : some z = some y => hy (Option.some.inj he ▸ hz)),
              if_neg (hne ⟨z, List.mem_cons_of_mem y hz, rfl⟩)]
  nodup := List.nodup_cons.mpr ⟨hx, h.nodup⟩

/-- Nodes are put behind the head one after the other. -/
theorem Ring.foldl_pushFront (h : l.Ring xs) (hnodup : ys.Nodup) (hys : ∀ y ∈ ys, y ∉ xs) :
    (ys.foldl Links.pushFront l).Ring (ys.reverse ++ xs) := by
  induction ys generalizing l xs with
  | nil => exact h
  | cons y ys ih =>
      obtain ⟨hy, hnodup⟩ := List.nodup_cons.mp hnodup
      rw [List.foldl_cons, List.reverse_cons, List.append_assoc]
      refine ih (h.pushFront (hys y List.mem_cons_self)) hnodup fun z hz hmem => ?_
      rcases List.mem_cons.mp hmem with rfl | hmem
      · exact hy hz
      · exact hys z (List.mem_cons_of_mem y hz) hmem

end Links

/-- Follow a pointer, at most `n` nodes, until the test holds or the head is reached. -/
def scan (step : Option α → Option α) (p : α → Bool) : Nat → Option α → Option α
  | 0, _ => none
  | _ + 1, none => none
  | n + 1, some a => if p a then some a else scan step p n (step (some a))

theorem scan_next {l : Links α} {p : α → Bool} {n : Nat} {a : Option α} {xs : List α}
    (h : Linked l a xs none) (hn : xs.length < n) : scan l.next p n (l.next a) = xs.find? p := by
  induction xs generalizing n a with
  | nil =>
      obtain ⟨m, rfl⟩ : ∃ m, n = m + 1 := ⟨n - 1, by omega⟩
      rw [h.1]
      rfl
  | cons x xs ih =>
      rw [List.length_cons] at hn
      obtain ⟨m, rfl⟩ : ∃ m, n = m + 1 := ⟨n - 1, by omega⟩
      rw [h.1, scan, List.find?_cons]
      cases p x with
      | true => rfl
      | false => exact ih h.2.2 (by omega)

theorem scan_prev {l : Links α} {p : α → Bool} {n : Nat} {b : Option α} {xs : List α}
    (h : Linked l none xs b) (hn : xs.length < n) :
    scan l.prev p n (l.prev b) = xs.reverse.find? p :=
  scan_next h.reverse (by rwa [List.length_reverse])

end Xv6
