import Mathlib.Data.Finset.Card

/-!
# Xv6.Lib.Forest

Binary trees linked in place: `l` and `r` lead to the children of a node, `up`
to its parent, and `nil` ends a branch.  Each tree hangs off the right link of
a root, which is not a node itself.

`Forest l r up S` says that the nodes `S` form such trees.  Everything in it
is about single links, so that an operation which changes a few of them is
checked at these; that there are no cycles is said by a rank that grows
downwards, and that each node belongs under its root by a tag that does not
change downwards.

The operations are given by what they do to the links: hanging a new leaf
(`attachRight`, `attachLeft`), putting a new node in the place of another
(`replace`), and taking out a node that has a single child (`splice`).
-/

namespace Xv6

/-- The nodes `S` are linked as binary trees under the roots. -/
structure Forest {ν β : Type} (nil : ν) (root : ν → Prop) (tag : ν → β) (l r up : ν → ν)
    (S : Finset ν) : Prop where
  nil_not_mem : nil ∉ S
  not_root : ∀ p ∈ S, ¬ root p
  right : ∀ q, q ∈ S ∨ root q → r q ≠ nil → r q ∈ S ∧ up (r q) = q
  left : ∀ q ∈ S, l q ≠ nil → l q ∈ S ∧ up (l q) = q
  parent : ∀ p ∈ S, r (up p) = p ∧ (up p ∈ S ∨ root (up p)) ∨ l (up p) = p ∧ up p ∈ S
  apart : ∀ q ∈ S, l q = r q → l q = nil
  tagged : ∀ p ∈ S, tag (up p) = tag p
  ranked : ∃ rank : ν → Nat, ∀ p ∈ S, rank (up p) < rank p

namespace Forest

variable {ν β : Type} {nil : ν} {root : ν → Prop} {tag : ν → β}
  {l r up l' r' up' : ν → ν} {S : Finset ν} {p q n : ν}

theorem empty (h : ∀ q, root q → r q = nil) : Forest nil root tag l r up ∅ where
  nil_not_mem := by simp
  not_root := by simp
  right := fun q hq hr => by simp at hq; exact absurd (h q hq) hr
  left := by simp
  parent := by simp
  apart := by simp
  tagged := by simp
  ranked := ⟨fun _ => 0, by simp⟩

/-- Only the links of nodes, the right links of roots, and the tags of both
matter. -/
theorem congr {tag' : ν → β} (h : Forest nil root tag l r up S) (hl : ∀ q ∈ S, l' q = l q)
    (hr : ∀ q, q ∈ S ∨ root q → r' q = r q) (hup : ∀ q ∈ S, up' q = up q)
    (htag : ∀ q, q ∈ S ∨ root q → tag' q = tag q) : Forest nil root tag' l' r' up' S where
  nil_not_mem := h.nil_not_mem
  not_root := h.not_root
  right := by grind [h.right]
  left := by grind [h.left]
  parent := by grind [h.parent]
  apart := by grind [h.apart]
  tagged := by grind [h.tagged, h.parent]
  ranked := by
    obtain ⟨rank, hrank⟩ := h.ranked
    exact ⟨rank, fun p hp => by rw [hup p hp]; exact hrank p hp⟩

/-- The parent of a node is a node or a root. -/
theorem up_mem (h : Forest nil root tag l r up S) (hp : p ∈ S) : up p ∈ S ∨ root (up p) := by
  rcases h.parent p hp with h | h
  · exact h.2
  · exact .inl h.2

/-- The children of a node are those nodes whose parent it is. -/
theorem up_eq_iff (h : Forest nil root tag l r up S) (hp : p ∈ S) (hq : q ∈ S) :
    up q = p ↔ q = l p ∨ q = r p := by
  have hnil := h.nil_not_mem
  constructor
  · rintro rfl
    rcases h.parent q hq with hq | hq
    · exact .inr hq.1.symm
    · exact .inl hq.1.symm
  · rintro (rfl | rfl)
    · exact (h.left p hp fun e => hnil (e ▸ hq)).2
    · exact (h.right p (.inl hp) fun e => hnil (e ▸ hq)).2

theorem up_ne (h : Forest nil root tag l r up S) (hp : p ∈ S) : up p ≠ p := by
  obtain ⟨rank, hrank⟩ := h.ranked
  intro e
  have := hrank p hp
  rw [e] at this
  omega

/-- Who has `p` as right child is its parent. -/
theorem eq_up_of_right (h : Forest nil root tag l r up S) (hp : p ∈ S) (hq : q ∈ S ∨ root q)
    (e : r q = p) : q = up p := by
  subst e
  exact (h.right q hq fun e => h.nil_not_mem (e ▸ hp)).2.symm

theorem eq_up_of_left (h : Forest nil root tag l r up S) (hp : p ∈ S) (hq : q ∈ S)
    (e : l q = p) : q = up p ∧ r q ≠ p := by
  subst e
  have hnil : l q ≠ nil := fun e => h.nil_not_mem (e ▸ hp)
  exact ⟨(h.left q hq hnil).2.symm, fun e => hnil (h.apart q hq e.symm)⟩

/-! ## going down -/

/-- The nodes of higher rank than `p`, a bound on the way down from `p`. -/
def below (rank : ν → Nat) (S : Finset ν) (p : ν) : Nat := {x ∈ S | rank p < rank x}.card

theorem below_lt {rank : ν → Nat} (hq : q ∈ S) (h : rank p < rank q) :
    below rank S q < below rank S p := by
  refine Finset.card_lt_card ⟨fun x hx => ?_, fun hsub => ?_⟩
  · simp only [Finset.mem_filter] at hx ⊢
    exact ⟨hx.1, by omega⟩
  · have := hsub (Finset.mem_filter.mpr ⟨hq, h⟩)
    simp at this

theorem below_le (rank : ν → Nat) (S : Finset ν) (p : ν) : below rank S p ≤ S.card :=
  Finset.card_filter_le _ _

/-! ## operations -/

variable [DecidableEq ν]

theorem attachRight (h : Forest nil root tag l r up S) (hp : p ∈ S ∨ root p) (hnil : r p = nil)
    (hn : n ∉ S) (hn0 : n ≠ nil) (hroot : ¬ root n) (htag : tag p = tag n)
    (hln : l' n = nil) (hrn : r' n = nil) (hupn : up' n = p) (hl : ∀ q ∈ S, l' q = l q)
    (hr : ∀ q, q ∈ S ∨ root q → r' q = if q = p then n else r q)
    (hup : ∀ q ∈ S, up' q = up q) : Forest nil root tag l' r' up' (insert n S) where
  nil_not_mem := by grind [h.nil_not_mem]
  not_root := by grind [h.not_root]
  right := by grind [h.right]
  left := by grind [h.left]
  parent := by grind [h.parent, h.nil_not_mem]
  apart := by grind [h.apart, h.left]
  tagged := by grind [h.tagged]
  ranked := by
    obtain ⟨rank, hrank⟩ := h.ranked
    refine ⟨Function.update rank n (rank p + 1), ?_⟩
    grind [h.up_mem, Function.update_apply]

theorem attachLeft (h : Forest nil root tag l r up S) (hp : p ∈ S) (hnil : l p = nil)
    (hn : n ∉ S) (hn0 : n ≠ nil) (hroot : ¬ root n) (htag : tag p = tag n)
    (hln : l' n = nil) (hrn : r' n = nil) (hupn : up' n = p)
    (hl : ∀ q ∈ S, l' q = if q = p then n else l q) (hr : ∀ q, q ∈ S ∨ root q → r' q = r q)
    (hup : ∀ q ∈ S, up' q = up q) : Forest nil root tag l' r' up' (insert n S) where
  nil_not_mem := by grind [h.nil_not_mem]
  not_root := by grind [h.not_root]
  right := by grind [h.right]
  left := by grind [h.left]
  parent := by grind [h.parent, h.nil_not_mem]
  apart := by grind [h.apart, h.right]
  tagged := by grind [h.tagged]
  ranked := by
    obtain ⟨rank, hrank⟩ := h.ranked
    refine ⟨Function.update rank n (rank p + 1), ?_⟩
    grind [h.up_mem, Function.update_apply]

/-- `n` takes the place of `p`. -/
theorem replace (h : Forest nil root tag l r up S) (hp : p ∈ S)
    (hn : n ∉ S) (hn0 : n ≠ nil) (hroot : ¬ root n) (htag : tag n = tag p)
    (hln : l' n = l p) (hrn : r' n = r p) (hupn : up' n = up p)
    (hl : ∀ q ∈ S, q ≠ p → l' q = if q = up p ∧ r q ≠ p then n else l q)
    (hr : ∀ q, q ∈ S ∨ root q → q ≠ p → r' q = if q = up p ∧ r q = p then n else r q)
    (hup : ∀ q ∈ S, q ≠ p → up' q = if up q = p then n else up q) :
    Forest nil root tag l' r' up' (insert n (S.erase p)) := by
  have hnil := h.nil_not_mem
  have hne := h.up_ne hp
  have hmem : ∀ q, q ∈ insert n (S.erase p) ↔ q = n ∨ q ≠ p ∧ q ∈ S := by simp
  constructor
  case nil_not_mem => grind
  case not_root => grind [h.not_root]
  case right =>
    intro q hq hq0
    have hright := h.right p (.inl hp)
    by_cases hqn : q = n
    · grind
    · have hqS : q ∈ S ∨ root q := by grind
      have hqp : q ≠ p := by grind [h.not_root]
      have := h.right q hqS
      rw [hr q hqS hqp] at hq0 ⊢
      grind
  case left =>
    intro q hq hq0
    have hleft := h.left p hp
    by_cases hqn : q = n
    · grind
    · have hqS : q ∈ S := by grind
      have hqp : q ≠ p := by grind
      rw [hl q hqS hqp] at hq0 ⊢
      split
      next hc => grind
      next hc =>
        rw [if_neg hc] at hq0
        have := h.left q hqS hq0
        have := h.eq_up_of_left hp hqS
        grind
  case parent =>
    intro q hq
    have hpar := h.parent p hp
    have happ := h.apart (up p)
    by_cases hqn : q = n
    · grind
    · have hqS : q ∈ S := by grind
      have hqp : q ≠ p := by grind
      have hparq := h.parent q hqS
      rw [hup q hqS hqp]
      split
      next hc => grind
      next hc =>
        rcases hparq with ⟨hq', hS⟩ | ⟨hq', hS⟩
        · have := hr (up q) hS hc
          grind
        · have := hl (up q) hS hc
          grind
  case apart =>
    intro q hq heq
    have happ := h.apart p hp
    by_cases hqn : q = n
    · grind
    · have hqS : q ∈ S := by grind
      have hqp : q ≠ p := by grind
      have := h.apart q hqS
      have := h.left q hqS
      have := h.right q (.inl hqS)
      rw [hl q hqS hqp] at heq ⊢
      rw [hr q (.inl hqS) hqp] at heq
      split <;> grind
  case tagged => grind [h.tagged]
  case ranked =>
    obtain ⟨rank, hrank⟩ := h.ranked
    refine ⟨Function.update rank n (rank p), ?_⟩
    grind [h.up_mem, Function.update_apply]

/-- `p`, which has no child but `c`, is taken out. -/
theorem splice {c : ν} (h : Forest nil root tag l r up S) (hp : p ∈ S)
    (hc : r p = nil ∧ c = l p ∨ l p = nil ∧ c = r p)
    (hl : ∀ q ∈ S, q ≠ p → l' q = if q = up p ∧ r q ≠ p then c else l q)
    (hr : ∀ q, q ∈ S ∨ root q → q ≠ p → r' q = if q = up p ∧ r q = p then c else r q)
    (hup : ∀ q ∈ S, q ≠ p → up' q = if up q = p then up p else up q) :
    Forest nil root tag l' r' up' (S.erase p) := by
  have hnil := h.nil_not_mem
  have hne := h.up_ne hp
  have hroot := h.not_root p hp
  have hchild : c ≠ nil → c ∈ S ∧ up c = p := by
    rcases hc with ⟨-, rfl⟩ | ⟨-, rfl⟩
    · exact h.left p hp
    · exact h.right p (.inl hp)
  constructor
  case nil_not_mem => grind
  case not_root => grind [h.not_root]
  case right =>
    intro q hq hq0
    have hqS : q ∈ S ∨ root q := by grind
    have hqp : q ≠ p := by grind
    have := h.right q hqS
    rw [hr q hqS hqp] at hq0 ⊢
    split
    next hc => grind
    next hc =>
      rw [if_neg hc] at hq0
      have := h.eq_up_of_right hp hqS
      grind
  case left =>
    intro q hq hq0
    have hqS : q ∈ S := by grind
    have hqp : q ≠ p := by grind
    rw [hl q hqS hqp] at hq0 ⊢
    split
    next hc => grind
    next hc =>
      rw [if_neg hc] at hq0
      have := h.left q hqS hq0
      have := h.eq_up_of_left hp hqS
      grind
  case parent =>
    intro q hq
    have hqS : q ∈ S := by grind
    have hqp : q ≠ p := by grind
    have hpar := h.parent p hp
    have happ := h.apart (up p)
    have hparq := h.parent q hqS
    rw [hup q hqS hqp]
    split
    next hcq => grind
    next hcq =>
      rcases hparq with ⟨hq', hS⟩ | ⟨hq', hS⟩
      · have := hr (up q) hS hcq
        grind
      · have := hl (up q) hS hcq
        grind
  case apart =>
    intro q hq heq
    have hqS : q ∈ S := by grind
    have hqp : q ≠ p := by grind
    have := h.apart q hqS
    have := h.left q hqS
    have := h.right q (.inl hqS)
    rw [hl q hqS hqp] at heq ⊢
    rw [hr q (.inl hqS) hqp] at heq
    split <;> grind
  case tagged => grind [h.tagged]
  case ranked =>
    obtain ⟨rank, hrank⟩ := h.ranked
    refine ⟨rank, ?_⟩
    grind [h.up_mem]

end Forest

end Xv6
