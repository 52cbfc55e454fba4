import Mathlib.Data.Fintype.Card
import Xv6.Lib.Chain
import Xv6.Ptable

/-!
# Xv6.Ptable.StateList

The list primitives of `proc.c` act as list operations: with `xs` the nodes
reached from the head of a list,

* `addToStateListHead` makes it `p :: xs`,
* `addToStateListEnd` makes it `xs ++ [p]`,
* `removeFromStateList` makes it `xs.erase p`, or returns -1 and changes
  nothing when `p` is not there,
* `removeHead` makes it `xs.tail`.

`Relinked` says in addition that no other head and no node outside the list
is touched, which is what keeps the other lists intact.
-/

namespace Xv6.Ptable

variable {NPROC MAX : Nat}

/-- `sList` now holds `xs`; other heads, and the nodes other than `nodes`,
are as before. -/
structure Relinked (k k' : Links NPROC MAX) (sList : SList MAX) (nodes xs : List (Fin NPROC)) :
    Prop where
  chain : Chain k'.next (k'.head sList) xs
  heads : ∀ l, l ≠ sList → k'.head l = k.head l
  nexts : ∀ q, q ∉ nodes → k'.next q = k.next q

/-- A chain has room for each slot once. -/
theorem chain_length_le {next : Fin NPROC → Option (Fin NPROC)} {a : Option (Fin NPROC)}
    {xs : List (Fin NPROC)} (h : Chain next a xs) : xs.length ≤ NPROC := by
  have := h.nodup.length_le_card
  rwa [Fintype.card_fin] at this

@[simp] theorem wp_setHead {k : Links NPROC MAX} {l : SList MAX} {p : Option (Fin NPROC)}
    {Q : Unit → Links NPROC MAX → Prop} :
    wp (setHead l p) k Q ↔ Q () { k with head := Function.update k.head l p } := wp_modify

@[simp] theorem wp_setNext {k : Links NPROC MAX} {p : Fin NPROC} {q : Option (Fin NPROC)}
    {Q : Unit → Links NPROC MAX → Prop} :
    wp (setNext p q) k Q ↔ Q () { k with next := Function.update k.next p q } := wp_modify

variable {k : Links NPROC MAX} {sList : SList MAX} {xs : List (Fin NPROC)} {p : Fin NPROC}

/-! ## adding -/

theorem addToStateListHead_spec (h : Chain k.next (k.head sList) xs) (hp : p ∉ xs) :
    wp (addToStateListHead sList (some p)) k fun r k' =>
      r = 0 ∧ Relinked k k' sList (p :: xs) (p :: xs) := by
  have hcons := h.cons hp
  have hne : ∀ q, q ∉ p :: xs → q ≠ p := fun q hq e => hq (by simp [e])
  unfold addToStateListHead
  simp only [wp_bind, wp_get]
  cases hh : k.head sList with
  | none =>
      rw [hh] at hcons
      simp only [wp_bind, wp_setHead, wp_setNext, wp_pure, true_and]
      exact ⟨by simpa using hcons, fun l hl => Function.update_of_ne hl _ _,
        fun q hq => Function.update_of_ne (hne q hq) _ _⟩
  | some a =>
      rw [hh] at hcons
      simp only [wp_bind, wp_setHead, wp_setNext, wp_get, Function.update_self, ne_eq,
        not_true_eq_false, if_false, wp_pure, true_and]
      exact ⟨by simpa using hcons, fun l hl => Function.update_of_ne hl _ _,
        fun q hq => Function.update_of_ne (hne q hq) _ _⟩

/-- The loop of `addToStateListEnd` ends at the last node. -/
theorem lastFrom_spec (fuel : Nat) (x : Fin NPROC) (h : Chain k.next (k.next x) xs)
    (hfuel : xs.length < fuel) :
    wp (lastFrom fuel x) k fun y k' => k' = k ∧ ∃ ys, x :: xs = ys ++ [y] := by
  induction fuel generalizing x xs with
  | zero => omega
  | succ fuel ih =>
      simp only [lastFrom, wp_bind, wp_get]
      cases xs with
      | nil =>
          rw [h.head_eq]
          exact wp_pure.mpr ⟨rfl, [], rfl⟩
      | cons z xs =>
          rw [h.head_eq]
          refine (ih z h.2 (by simpa using hfuel)).mono ?_
          rintro y k' ⟨rfl, ys, hy⟩
          exact ⟨rfl, x :: ys, by rw [hy]; rfl⟩

theorem addToStateListEnd_spec (h : Chain k.next (k.head sList) xs) (hp : p ∉ xs) :
    wp (addToStateListEnd sList (some p)) k fun r k' =>
      r = 0 ∧ Relinked k k' sList (p :: xs) (xs ++ [p]) := by
  have hne : ∀ q, q ∉ p :: xs → q ≠ p := fun q hq e => hq (by simp [e])
  unfold addToStateListEnd
  simp only [wp_bind, wp_get]
  cases xs with
  | nil =>
      rw [show k.head sList = none from h]
      simp only [wp_bind, wp_setHead, wp_setNext, wp_pure, true_and]
      refine ⟨?_, fun l hl => Function.update_of_ne hl _ _,
        fun q hq => Function.update_of_ne (hne q hq) _ _⟩
      exact ⟨by simp, by simp [Chain]⟩
  | cons x xs =>
      have hlen : xs.length < NPROC := chain_length_le h
      rw [h.1]
      refine wp_bind_of (lastFrom_spec NPROC x h.2 hlen) ?_
      rintro y k' ⟨rfl, ys, hys⟩
      simp only [wp_bind, wp_setNext, wp_pure, true_and]
      rw [hys] at h hp hne ⊢
      refine ⟨h.concat hp, fun _ _ => rfl, fun q hq => ?_⟩
      have hqy : q ≠ y := fun e => hq (by simp [e])
      exact (Function.update_of_ne (hne q hq) _ _).trans (Function.update_of_ne hqy _ _)

/-! ## removing -/

/-- The search behind `prev`, when `p` is there. -/
theorem removeAfter_spec (fuel : Nat) (prev : Fin NPROC) (zs ws : List (Fin NPROC))
    (h : Chain k.next (k.next prev) (zs ++ p :: ws)) (hfuel : (zs ++ p :: ws).length ≤ fuel)
    (hp : p ∉ zs) :
    wp (removeAfter p fuel prev (k.next prev)) k fun r k' => r = 0 ∧
      ∃ ys y, prev :: zs = ys ++ [y] ∧
        k' = { k with next := Function.update (Function.update k.next y (k.next p)) p none } := by
  induction fuel generalizing prev zs with
  | zero => simp at hfuel
  | succ fuel ih =>
      rw [h.head_eq]
      cases zs with
      | nil =>
          simp only [List.nil_append, List.head?_cons, removeAfter, wp_bind, if_true, wp_get,
            wp_setNext, wp_pure, true_and]
          exact ⟨[], prev, rfl, rfl⟩
      | cons z zs =>
          have hzp : z ≠ p := fun e => hp (by simp [e])
          simp only [List.cons_append, List.head?_cons, removeAfter, if_neg hzp]
          simp only [wp_bind, wp_get]
          refine (ih z zs h.2 (by simpa using hfuel) (fun hm => hp (by simp [hm]))).mono ?_
          rintro r k' ⟨hr, ys, y, hys, hk'⟩
          exact ⟨hr, prev :: ys, y, by rw [hys]; rfl, hk'⟩

/-- The search behind `prev`, when `p` is not there. -/
theorem removeAfter_of_not_mem (fuel : Nat) (prev : Fin NPROC) (zs : List (Fin NPROC))
    (h : Chain k.next (k.next prev) zs) (hfuel : zs.length ≤ fuel) (hp : p ∉ zs) :
    wp (removeAfter p fuel prev (k.next prev)) k fun r k' => r = -1 ∧ k' = k := by
  induction fuel generalizing prev zs with
  | zero =>
      obtain rfl : zs = [] := List.length_eq_zero_iff.mp (by omega)
      rw [h.head_eq]
      exact wp_pure.mpr ⟨rfl, rfl⟩
  | succ fuel ih =>
      rw [h.head_eq]
      cases zs with
      | nil => exact wp_pure.mpr ⟨rfl, rfl⟩
      | cons z zs =>
          have hzp : z ≠ p := fun e => hp (by simp [e])
          simp only [List.head?_cons, removeAfter, if_neg hzp]
          simp only [wp_bind, wp_get]
          exact ih z zs h.2 (by simpa using hfuel) (fun hm => hp (by simp [hm]))

theorem removeFromStateList_spec (h : Chain k.next (k.head sList) xs) (hp : p ∈ xs) :
    wp (removeFromStateList sList (some p)) k fun r k' =>
      r = 0 ∧ Relinked k k' sList xs (xs.erase p) ∧ k'.next p = none := by
  have hne : ∀ q, q ∉ xs → q ≠ p := fun q hq e => hq (e ▸ hp)
  unfold removeFromStateList
  simp only [wp_bind, wp_get]
  cases xs with
  | nil => simp at hp
  | cons x xs =>
      rw [h.1]
      simp only
      by_cases hpx : p = x
      · subst hpx
        rw [if_pos rfl, List.erase_cons_head]
        have htail := h.tail
        simp only [wp_bind, wp_get]
        cases hn : k.next p with
        | none =>
            rw [hn] at htail
            simp only [wp_bind, wp_setHead, wp_setNext, wp_pure, true_and]
            exact ⟨⟨by simpa using htail, fun l hl => Function.update_of_ne hl _ _,
              fun q hq => Function.update_of_ne (hne q hq) _ _⟩, Function.update_self _ _ _⟩
        | some t =>
            rw [hn] at htail
            simp only [wp_bind, wp_setHead, wp_setNext, wp_pure, true_and]
            exact ⟨⟨by simpa using htail, fun l hl => Function.update_of_ne hl _ _,
              fun q hq => Function.update_of_ne (hne q hq) _ _⟩, Function.update_self _ _ _⟩
      · rw [if_neg hpx, List.erase_cons_tail (by simpa using Ne.symm hpx)]
        have hmem : p ∈ xs := (List.mem_cons.mp hp).resolve_left hpx
        obtain ⟨zs, ws, rfl⟩ := List.append_of_mem hmem
        have hzs : p ∉ zs := fun hm =>
          (List.nodup_cons.mp (List.nodup_middle.mp h.2.nodup)).1 (by simp [hm])
        simp only [wp_bind, wp_get]
        have hlen : (zs ++ p :: ws).length ≤ NPROC := by
          have := chain_length_le h
          rw [List.length_cons] at this
          omega
        refine (removeAfter_spec NPROC x zs ws h.2 hlen hzs).mono ?_
        rintro r k' ⟨rfl, ys, y, hys, rfl⟩
        have hsplit : x :: (zs ++ p :: ws) = ys ++ y :: p :: ws := by
          rw [← List.cons_append, hys, List.append_assoc, List.singleton_append]
        have herase : x :: (zs ++ p :: ws).erase p = ys ++ y :: ws := by
          rw [List.erase_append_right _ hzs, List.erase_cons_head, ← List.cons_append, hys,
            List.append_assoc, List.singleton_append]
        rw [herase]
        rw [hsplit] at h hne
        refine ⟨rfl, ⟨h.unlink, fun _ _ => rfl, fun q hq => ?_⟩, Function.update_self _ _ _⟩
        rw [hsplit] at hq
        have hqy : q ≠ y := fun e => hq (by simp [e])
        exact (Function.update_of_ne (hne q hq) _ _).trans (Function.update_of_ne hqy _ _)

/-- Nothing is found and nothing is changed. -/
theorem removeFromStateList_of_not_mem (h : Chain k.next (k.head sList) xs) (hp : p ∉ xs) :
    wp (removeFromStateList sList (some p)) k fun r k' => r = -1 ∧ k' = k := by
  unfold removeFromStateList
  simp only [wp_bind, wp_get]
  cases xs with
  | nil =>
      rw [show k.head sList = none from h]
      exact wp_pure.mpr ⟨rfl, rfl⟩
  | cons x xs =>
      rw [List.mem_cons, not_or] at hp
      rw [h.1]
      simp only [if_neg hp.1, wp_bind, wp_get]
      exact removeAfter_of_not_mem NPROC x xs h.2
        (by have := chain_length_le h; rw [List.length_cons] at this; omega) hp.2

theorem removeHead_spec {x : Fin NPROC} (h : Chain k.next (k.head sList) (x :: xs)) :
    wp (removeHead sList) k fun r k' => r = some x ∧ Relinked k k' sList (x :: xs) xs := by
  unfold removeHead
  simp only [wp_bind, wp_get]
  rw [h.1]
  simp only [wp_bind, wp_get, wp_setHead, wp_setNext, wp_pure, true_and]
  refine ⟨by simpa using h.tail, fun l hl => Function.update_of_ne hl _ _, fun q hq => ?_⟩
  exact Function.update_of_ne (fun e => hq (by simp [e])) _ _

/-! ## the four together -/

/-- A list with none of the nodes is as before. -/
theorem Relinked.other {k' : Links NPROC MAX} {nodes ys : List (Fin NPROC)} {l : SList MAX}
    (hr : Relinked k k' sList nodes xs) (hl : l ≠ sList) (h : Chain k.next (k.head l) ys)
    (hdisj : ∀ q ∈ ys, q ∉ nodes) : Chain k'.next (k'.head l) ys := by
  rw [hr.heads l hl]
  exact h.congr fun q hq => hr.nexts q (hdisj q hq)

/-- `Relinked`, and what it gives for the other lists. -/
def Links.ActsOn (k k' : Links NPROC MAX) (sList : SList MAX) (nodes xs : List (Fin NPROC)) :
    Prop :=
  Relinked k k' sList nodes xs ∧
    ∀ l, l ≠ sList → ∀ ys, Chain k.next (k.head l) ys → (∀ q ∈ ys, q ∉ nodes) →
      Chain k'.next (k'.head l) ys

theorem Relinked.actsOn {k' : Links NPROC MAX} {nodes : List (Fin NPROC)}
    (hr : Relinked k k' sList nodes xs) : k.ActsOn k' sList nodes xs :=
  ⟨hr, fun _ hl _ => hr.other hl⟩

/-- **The list primitives are list operations.** With `xs` the nodes reached from the head, each
of the four returns, its result and the new list are those of the operation on `xs`, and no other
`next` field and no other list changes. -/
theorem stateList_operations (k : Links NPROC MAX) (sList : SList MAX) (xs : List (Fin NPROC))
    (h : Chain k.next (k.head sList) xs) (p : Fin NPROC) :
    (p ∉ xs → wp (addToStateListEnd sList (some p)) k fun r k' =>
      r = 0 ∧ k.ActsOn k' sList (p :: xs) (xs ++ [p])) ∧
    (p ∉ xs → wp (addToStateListHead sList (some p)) k fun r k' =>
      r = 0 ∧ k.ActsOn k' sList (p :: xs) (p :: xs)) ∧
    (wp (removeFromStateList sList (some p)) k fun r k' =>
      (r = 0 ↔ p ∈ xs) ∧
      (p ∈ xs → k.ActsOn k' sList xs (xs.erase p) ∧ k'.next p = none) ∧
      (p ∉ xs → r = -1 ∧ k' = k)) ∧
    (wp (removeHead sList) k fun r k' =>
      r = xs.head? ∧ k.ActsOn k' sList xs xs.tail ∧ (xs = [] → k' = k)) := by
  refine ⟨fun hp => ?_, fun hp => ?_, ?_, ?_⟩
  · exact (addToStateListEnd_spec h hp).mono fun r k' hr => ⟨hr.1, hr.2.actsOn⟩
  · exact (addToStateListHead_spec h hp).mono fun r k' hr => ⟨hr.1, hr.2.actsOn⟩
  · by_cases hp : p ∈ xs
    · refine (removeFromStateList_spec h hp).mono ?_
      rintro r k' ⟨hr, hk', hnext⟩
      exact ⟨by simp [hr, hp], fun _ => ⟨hk'.actsOn, hnext⟩, fun hn => absurd hp hn⟩
    · refine (removeFromStateList_of_not_mem h hp).mono ?_
      rintro r k' ⟨hr, hk'⟩
      exact ⟨by simp [hr, hp], fun hm => absurd hm hp, fun _ => ⟨hr, hk'⟩⟩
  · cases xs with
    | nil =>
        have hnone : k.head sList = none := h
        simp only [removeHead, wp_bind, wp_get, hnone, wp_pure, List.head?_nil, List.tail_nil]
        exact ⟨trivial, Relinked.actsOn ⟨h, fun _ _ => rfl, fun _ _ => rfl⟩, fun _ => trivial⟩
    | cons x xs =>
        refine (removeHead_spec h).mono ?_
        rintro r k' ⟨hr, hk'⟩
        exact ⟨hr, hk'.actsOn, fun hn => absurd hn (List.cons_ne_nil x xs)⟩

/-- Two processes sleep and a third, a zombie, is the argument. -/
theorem stateList_operations_sleep :
    ∃ (k : Links 3 1) (xs : List (Fin 3)), Chain k.next (k.head .sleep) xs ∧ xs = [0, 1] ∧
      (wp (addToStateListEnd .sleep (some 2)) k fun r k' =>
        r = 0 ∧ k.ActsOn k' .sleep [2, 0, 1] [0, 1, 2]) := by
  let k : Links 3 1 :=
    { head := fun l => if l = .sleep then some 0 else none
      next := fun q => if q = 0 then some 1 else none }
  have h : Chain k.next (k.head .sleep) [0, 1] := ⟨rfl, rfl, rfl⟩
  exact ⟨k, [0, 1], h, rfl, (stateList_operations k .sleep [0, 1] h 2).1 (by decide)⟩

/-! ## all lists together -/

/-- From the head of each list, the `next` pointers run through `L`. -/
def Links.Reps (k : Links NPROC MAX) (L : SList MAX → List (Fin NPROC)) : Prop :=
  ∀ l, Chain k.next (k.head l) (L l)

/-- Relinking one list keeps the others, when none of them has a node that
was touched. -/
theorem Links.Reps.relinked {L : SList MAX → List (Fin NPROC)} {k k' : Links NPROC MAX}
    {nodes : List (Fin NPROC)} (h : k.Reps L) (hr : Relinked k k' sList nodes xs)
    (hdisj : ∀ l, l ≠ sList → ∀ q ∈ L l, q ∉ nodes) : k'.Reps (Function.update L sList xs) := by
  intro l
  by_cases hl : l = sList
  · subst hl
    rw [Function.update_self]
    exact hr.chain
  · rw [Function.update_of_ne hl]
    exact hr.other hl (h l) (hdisj l hl)

end Xv6.Ptable
