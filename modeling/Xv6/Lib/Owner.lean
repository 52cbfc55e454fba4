import Mathlib.Data.Finset.Card

/-!
# Xv6.Lib.Owner

A pool of blocks handed out to slots: `busy` is the allocator's own record of
the blocks in use, `ref x` the block that slot `x` holds.  Some blocks are
`reserved` and belong to no slot.

* `Owned` is the agreement of the two records: a block is busy exactly when it
  is reserved or held, and no block is held twice;
* `Owned.alloc` and `Owned.release` are the two moves that keep it;
* `slack` counts the blocks that would be left if a set of slots were all
  given one, and `slack_alloc` says that giving one does not change it.
-/

namespace Xv6

variable {ι β : Type*}

/-- The blocks of `space` that are in use are the reserved ones and the ones
held by a slot; a slot holds a block of `space` that is not reserved and that
no other slot holds. -/
structure Owned (space : Finset β) (busy : β → Bool) (reserved : β → Prop)
    (ref : ι → Option β) : Prop where
  busy_iff : ∀ b ∈ space, busy b = true ↔ reserved b ∨ ∃ x, ref x = some b
  inj : ∀ {x y b}, ref x = some b → ref y = some b → x = y
  mem : ∀ {x b}, ref x = some b → b ∈ space
  not_reserved : ∀ {x b}, ref x = some b → ¬ reserved b

namespace Owned

variable {space : Finset β} {busy busy' : β → Bool} {reserved : β → Prop} {ref ref' : ι → Option β}

theorem congr (h : Owned space busy reserved ref) (hbusy : ∀ b ∈ space, busy' b = busy b)
    (href : ∀ x, ref' x = ref x) : Owned space busy' reserved ref' := by
  obtain rfl : ref' = ref := funext href
  exact ⟨fun b hb => by rw [hbusy b hb]; exact h.busy_iff b hb, h.inj, h.mem, h.not_reserved⟩

theorem busy_of_ref (h : Owned space busy reserved ref) {x : ι} {b : β} (hx : ref x = some b) :
    busy b = true :=
  (h.busy_iff b (h.mem hx)).mpr (.inr ⟨x, hx⟩)

/-- A block that is not busy is held by nobody. -/
theorem ref_ne_of_free (h : Owned space busy reserved ref) {b : β} (hb : busy b = false) (x : ι) :
    ref x ≠ some b := by
  intro hx
  rw [h.busy_of_ref hx] at hb
  exact absurd hb (by decide)

theorem not_reserved_of_free (h : Owned space busy reserved ref) {b : β} (hs : b ∈ space)
    (hb : busy b = false) : ¬ reserved b := by
  intro hr
  rw [(h.busy_iff b hs).mpr (.inl hr)] at hb
  exact absurd hb (by decide)

/-- **Giving a free block to an empty slot.** -/
theorem alloc [DecidableEq ι] [DecidableEq β] (h : Owned space busy reserved ref) {x : ι} {b : β}
    (hs : b ∈ space) (hb : busy b = false) (hx : ref x = none)
    (hbusy : ∀ c ∈ space, busy' c = (busy c || decide (c = b)))
    (href : ∀ y, ref' y = if y = x then some b else ref y) :
    Owned space busy' reserved ref' := by
  have hcases {y : ι} {c : β} (hy : ref' y = some c) : y = x ∧ c = b ∨ y ≠ x ∧ ref y = some c := by
    rw [href] at hy
    split at hy
    · next he => exact .inl ⟨he, (Option.some.inj hy).symm⟩
    · next he => exact .inr ⟨he, hy⟩
  constructor
  case busy_iff =>
    intro c hc
    rw [hbusy c hc, Bool.or_eq_true, decide_eq_true_eq, h.busy_iff c hc]
    constructor
    · rintro ((hr | ⟨y, hy⟩) | rfl)
      · exact .inl hr
      · have hne : y ≠ x := by
          rintro rfl
          rw [hx] at hy
          exact absurd hy (by simp)
        exact .inr ⟨y, by rw [href, if_neg hne]; exact hy⟩
      · exact .inr ⟨x, by rw [href, if_pos rfl]⟩
    · rintro (hr | ⟨y, hy⟩)
      · exact .inl (.inl hr)
      · rcases hcases hy with ⟨-, hcb⟩ | ⟨-, hy⟩
        · exact .inr hcb
        · exact .inl (.inr ⟨y, hy⟩)
  case inj =>
    intro y z c hy hz
    rcases hcases hy with ⟨rfl, rfl⟩ | ⟨-, hy⟩
    · rcases hcases hz with ⟨rfl, -⟩ | ⟨-, hz⟩
      · rfl
      · exact absurd hz (h.ref_ne_of_free hb z)
    · rcases hcases hz with ⟨-, rfl⟩ | ⟨-, hz⟩
      · exact absurd hy (h.ref_ne_of_free hb y)
      · exact h.inj hy hz
  case mem =>
    intro y c hy
    rcases hcases hy with ⟨-, rfl⟩ | ⟨-, hy⟩
    · exact hs
    · exact h.mem hy
  case not_reserved =>
    intro y c hy
    rcases hcases hy with ⟨-, rfl⟩ | ⟨-, hy⟩
    · exact h.not_reserved_of_free hs hb
    · exact h.not_reserved hy

/-- **Giving up** the blocks of all the slots in `P`. -/
theorem release (h : Owned space busy reserved ref) {P : ι → Prop}
    (hbusy : ∀ c ∈ space, busy' c = true ↔ busy c = true ∧ ∀ y, P y → ref y ≠ some c)
    (hgone : ∀ y, P y → ref' y = none) (hkept : ∀ y, ¬ P y → ref' y = ref y) :
    Owned space busy' reserved ref' := by
  have hsub {y : ι} {c : β} (hy : ref' y = some c) : ¬ P y ∧ ref y = some c := by
    by_cases hp : P y
    · rw [hgone y hp] at hy
      exact absurd hy (by simp)
    · exact ⟨hp, hkept y hp ▸ hy⟩
  constructor
  case busy_iff =>
    intro c hc
    rw [hbusy c hc, h.busy_iff c hc]
    constructor
    · rintro ⟨hr | ⟨y, hy⟩, hno⟩
      · exact .inl hr
      · have hp : ¬ P y := fun hp => hno y hp hy
        exact .inr ⟨y, by rw [hkept y hp]; exact hy⟩
    · rintro (hr | ⟨y, hy⟩)
      · exact ⟨.inl hr, fun y _ hy => h.not_reserved hy hr⟩
      · obtain ⟨hp, hy⟩ := hsub hy
        refine ⟨.inr ⟨y, hy⟩, fun z hz hzc => hp ?_⟩
        rw [h.inj hy hzc]
        exact hz
  case inj => exact fun hy hz => h.inj (hsub hy).2 (hsub hz).2
  case mem => exact fun hy => h.mem (hsub hy).2
  case not_reserved => exact fun hy => h.not_reserved (hsub hy).2

end Owned

/-! ## counting -/

/-- The blocks that are not busy. -/
def idle (space : Finset β) (busy : β → Bool) : Nat := {b ∈ space | busy b = false}.card

/-- The slots of `need` that hold nothing. -/
def lacking (need : Finset ι) (ref : ι → Option β) : Nat := {x ∈ need | (ref x).isNone}.card

/-- The free blocks that would be left if the slots of `need` were all given
one; negative when there are not enough. -/
def slack (space : Finset β) (busy : β → Bool) (need : Finset ι) (ref : ι → Option β) : Int :=
  idle space busy - lacking need ref

section Counting

variable {space : Finset β} {busy busy' : β → Bool} {need : Finset ι} {ref ref' : ι → Option β}

theorem slack_congr (hbusy : ∀ b ∈ space, busy' b = busy b) (href : ∀ x ∈ need, ref' x = ref x) :
    slack space busy' need ref' = slack space busy need ref := by
  have hidle : idle space busy' = idle space busy := by
    unfold idle
    rw [Finset.filter_congr fun b hb => by rw [hbusy b hb]]
  have hlack : lacking need ref' = lacking need ref := by
    unfold lacking
    rw [Finset.filter_congr fun x hx => by rw [href x hx]]
  rw [slack, slack, hidle, hlack]

/-- **Giving a free block to an empty slot of `need`** leaves the slack. -/
theorem slack_alloc [DecidableEq ι] [DecidableEq β] {x : ι} {b : β} (hs : b ∈ space)
    (hb : busy b = false) (hx : x ∈ need) (hnone : ref x = none)
    (hbusy : ∀ c ∈ space, busy' c = (busy c || decide (c = b)))
    (href : ∀ y ∈ need, ref' y = if y = x then some b else ref y) :
    slack space busy' need ref' = slack space busy need ref := by
  have hidle : idle space busy' + 1 = idle space busy := by
    have herase : {c ∈ space | busy' c = false} = {c ∈ space | busy c = false}.erase b := by
      ext c
      grind
    unfold idle
    rw [herase, Finset.card_erase_add_one (by grind)]
  have hlack : lacking need ref' + 1 = lacking need ref := by
    have herase : {y ∈ need | (ref' y).isNone} = {y ∈ need | (ref y).isNone}.erase x := by
      ext y
      grind
    unfold lacking
    rw [herase, Finset.card_erase_add_one (by grind)]
  unfold slack
  omega

/-- Nothing is lacking when the slots are all filled. -/
theorem lacking_eq_zero (hfull : ∀ x ∈ need, (ref x).isSome = true) : lacking need ref = 0 := by
  unfold lacking
  rw [Finset.card_eq_zero, Finset.filter_eq_empty_iff]
  intro x hx hnone
  have hsome := hfull x hx
  rw [Option.isNone_iff_eq_none.mp hnone] at hsome
  cases hsome

/-- When there are no more blocks in `held` than slots in `need`, and these are all filled
from `held`, then no other slot is. -/
theorem mem_of_card_le [DecidableEq β] {held : Finset β}
    (hinj : ∀ {x y b}, ref x = some b → ref y = some b → x = y)
    (hheld : ∀ {x b}, ref x = some b → b ∈ held)
    (hfull : ∀ x ∈ need, (ref x).isSome = true) (hcard : held.card ≤ need.card) {x : ι} {b : β}
    (hx : ref x = some b) : x ∈ need := by
  classical
  have hsub : need.image ref ⊆ held.image some := by
    intro o ho
    obtain ⟨y, hy, rfl⟩ := Finset.mem_image.mp ho
    obtain ⟨a, ha⟩ := Option.isSome_iff_exists.mp (hfull y hy)
    rw [ha]
    exact Finset.mem_image_of_mem some (hheld ha)
  have hone : (need.image ref).card = need.card := by
    refine Finset.card_image_of_injOn fun y hy z hz he => ?_
    obtain ⟨a, ha⟩ := Option.isSome_iff_exists.mp (hfull y hy)
    exact hinj ha ((show ref y = ref z from he) ▸ ha)
  have heq : need.image ref = held.image some := by
    refine Finset.eq_of_subset_of_card_le hsub ?_
    exact Finset.card_image_le.trans (hcard.trans hone.ge)
  have hmem : some b ∈ need.image ref := heq ▸ Finset.mem_image_of_mem some (hheld hx)
  obtain ⟨y, hy, he⟩ := Finset.mem_image.mp hmem
  exact hinj he hx ▸ hy

/-- When no block is free and a slot of `need` is empty, the blocks do not
suffice. -/
theorem slack_neg {x : ι} (hx : x ∈ need) (hnone : ref x = none)
    (hfull : ∀ b ∈ space, busy b = true) : slack space busy need ref < 0 := by
  have hidle : idle space busy = 0 := by
    unfold idle
    rw [Finset.card_eq_zero, Finset.filter_eq_empty_iff]
    intro b hb
    simp [hfull b hb]
  have hlack : 0 < lacking need ref := by
    unfold lacking
    rw [Finset.card_pos]
    exact ⟨x, by simp [hx, hnone]⟩
  unfold slack
  omega

end Counting

end Xv6
