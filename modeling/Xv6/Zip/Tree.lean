import Xv6.Lib.Forest
import Xv6.Zip

/-!
# Xv6.Zip.Tree

`InsertNode` and `DeleteNode` keep the search trees: the arrays `lson`,
`rson` and `dad` describe a binary tree for each byte, hanging off
`rson[N + 1 + byte]`, and a node of that tree is a position of the window that
holds this byte.  So every index stays in its array, the way down ends, and
the match that is reported is one.

Both come down to the operations of `Xv6.Lib.Forest`: `InsertNode` hangs a
leaf, or replaces the node that holds the same string, and `DeleteNode` takes
out a node with a single son, or first takes out the rightmost node of the
left subtree and then puts it in the place of the node to be deleted.
-/

namespace Xv6.Zip

/-! ## accesses -/

section Access

variable {g : Search} {i : Nat}

theorem wp_check {σ : Type} {s : σ} {size : Nat} (h : i < size) {Q : Unit → σ → Prop} :
    wp (check i size : Prog Fault σ Unit) s Q ↔ Q () s := by
  rw [check, if_pos h, wp_pure]

theorem wp_text (h : i < N + F - 1) {Q : UInt8 → Search → Prop} :
    wp (text i) g Q ↔ Q (g.textBuf i) g := by
  simp only [text, wp_bind, wp_check h, wp_get, wp_pure]

theorem wp_setText (h : i < N + F - 1) {c : UInt8} {Q : Unit → Search → Prop} :
    wp (setText i c) g Q ↔ Q () { g with textBuf := Function.update g.textBuf i c } := by
  simp only [setText, wp_bind, wp_check h, wp_modify]

theorem wp_lsonOf (h : i < N + 1) {Q : Nat → Search → Prop} :
    wp (lsonOf i) g Q ↔ Q (g.lson i) g := by
  simp only [lsonOf, wp_bind, wp_check h, wp_get, wp_pure]

theorem wp_setLson (h : i < N + 1) {v : Nat} {Q : Unit → Search → Prop} :
    wp (setLson i v) g Q ↔ Q () { g with lson := Function.update g.lson i v } := by
  simp only [setLson, wp_bind, wp_check h, wp_modify]

theorem wp_rsonOf (h : i < N + 257) {Q : Nat → Search → Prop} :
    wp (rsonOf i) g Q ↔ Q (g.rson i) g := by
  simp only [rsonOf, wp_bind, wp_check h, wp_get, wp_pure]

theorem wp_setRson (h : i < N + 257) {v : Nat} {Q : Unit → Search → Prop} :
    wp (setRson i v) g Q ↔ Q () { g with rson := Function.update g.rson i v } := by
  simp only [setRson, wp_bind, wp_check h, wp_modify]

theorem wp_dadOf (h : i < N + 1) {Q : Nat → Search → Prop} :
    wp (dadOf i) g Q ↔ Q (g.dad i) g := by
  simp only [dadOf, wp_bind, wp_check h, wp_get, wp_pure]

theorem wp_setDad (h : i < N + 1) {v : Nat} {Q : Unit → Search → Prop} :
    wp (setDad i v) g Q ↔ Q () { g with dad := Function.update g.dad i v } := by
  simp only [setDad, wp_bind, wp_check h, wp_modify]

end Access

/-! ## the invariant -/

/-- `N + 1 + byte` -/
def IsRoot (q : Nat) : Prop := N < q ∧ q < N + 257

/-- The byte a root stands for, and the first byte of the string at a node. -/
def tagOf (textBuf : Nat → UInt8) (p : Nat) : UInt8 :=
  if p < N then textBuf p else UInt8.ofNat (p - (N + 1))

/-- The arrays describe trees with the nodes `S`. -/
structure Trees (g : Search) (S : Finset Nat) : Prop where
  forest : Forest NIL IsRoot (tagOf g.textBuf) g.lson g.rson g.dad S
  lt : ∀ p ∈ S, p < N
  out : ∀ p < N, p ∉ S → g.dad p = NIL

namespace Trees

variable {g : Search} {S : Finset Nat} {p : Nat}

theorem nil_of_not_mem (h : Trees g S) (hp : p < N) : g.dad p = NIL ↔ p ∉ S := by
  refine ⟨fun hd hS => ?_, h.out p hp⟩
  rcases h.forest.up_mem hS with hup | hup
  · exact h.forest.nil_not_mem (hd ▸ hup)
  · rw [hd] at hup
    exact absurd hup.1 (Nat.lt_irrefl N)

theorem dad_lt (h : Trees g S) (hp : p ∈ S) : g.dad p < N + 257 := by
  rcases h.forest.up_mem hp with hup | hup
  · exact Nat.lt_of_lt_of_le (h.lt _ hup) (by simp)
  · exact hup.2

theorem lson_lt (h : Trees g S) (hp : p ∈ S) : g.lson p < N + 1 := by
  by_cases hl : g.lson p = NIL
  · simp [hl]
  · exact Nat.lt_succ_of_lt (h.lt _ (h.forest.left p hp hl).1)

theorem rson_lt (h : Trees g S) (hp : p ∈ S ∨ IsRoot p) : g.rson p < N + 1 := by
  by_cases hr : g.rson p = NIL
  · simp [hr]
  · exact Nat.lt_succ_of_lt (h.lt _ (h.forest.right p hp hr).1)

/-- A position that is not in the trees is not a son. -/
theorem not_son (h : Trees g S) (hp : p ∈ S) {q : Nat} (hq : q < N) (hqS : q ∉ S) :
    ¬ (q = g.lson p ∨ q = g.rson p) := by
  have hnil : q ≠ NIL := Nat.ne_of_lt hq
  rintro (rfl | rfl)
  · exact hqS (h.forest.left p hp hnil).1
  · exact hqS (h.forest.right p (.inl hp) hnil).1

theorem card_le (h : Trees g S) : S.card ≤ N := by
  have hsub : S ⊆ Finset.range N := fun p hp => Finset.mem_range.mpr (h.lt p hp)
  simpa using Finset.card_le_card hsub

end Trees

/-! ## InitTree -/

theorem initTree_spec (g : Search) : wp initTree g fun _ g' =>
    Trees g' ∅ ∧ g'.textBuf = g.textBuf := by
  unfold initTree
  refine wp_bind_of (wp_forM (fun done todo g' => done ++ todo = List.range 256 ∧
    (∀ i ∈ done, g'.rson (N + 1 + i) = NIL) ∧ g'.textBuf = g.textBuf) ?_
    ⟨List.nil_append _, by simp, rfl⟩) ?_
  · rintro done i todo g' ⟨hdone, hr, ht⟩
    have hi : i < 256 := List.mem_range.mp (hdone ▸ by simp)
    rw [wp_setRson (by omega)]
    refine ⟨by simp [hdone], fun j hj => ?_, ht⟩
    by_cases hji : j = i
    · simp [hji]
    · have hne : N + 1 + j ≠ N + 1 + i := by omega
      have hj : j ∈ done := by simpa [hji] using hj
      exact (Function.update_of_ne hne _ _).trans (hr j hj)
  · rintro - g₁ ⟨-, hr, ht⟩
    refine (wp_forM (fun done todo g' => done ++ todo = List.range N ∧
      (∀ i ∈ done, g'.dad i = NIL) ∧ g'.rson = g₁.rson ∧ g'.textBuf = g.textBuf) ?_
      ⟨List.nil_append _, by simp, rfl, ht⟩).mono ?_
    · rintro done i todo g' ⟨hdone, hd, hr', ht'⟩
      have hi : i < N := List.mem_range.mp (hdone ▸ by simp)
      rw [wp_setDad (by omega)]
      refine ⟨by simp [hdone], fun j hj => ?_, hr', ht'⟩
      by_cases hji : j = i
      · simp [hji]
      · have hj : j ∈ done := by simpa [hji] using hj
        simpa [hji] using hd j hj
    · rintro - g' ⟨-, hd, hr', ht'⟩
      refine ⟨⟨.empty fun q hq => ?_, by simp, fun p hp _ => hd p (List.mem_range.mpr hp)⟩, ht'⟩
      obtain ⟨h1, h2⟩ := hq
      have hroot := hr (q - (N + 1)) (List.mem_range.mpr (by omega))
      rw [hr']
      rwa [show N + 1 + (q - (N + 1)) = q by omega] at hroot

/-! ## InsertNode -/

/-- The match found last is one: a node in the trees whose string begins like
that at `r`. -/
structure Match (g : Search) (S : Finset Nat) (r : Nat) : Prop where
  le : g.matchLength ≤ F
  mem : 0 < g.matchLength → g.matchPosition ∈ S
  eq : ∀ j < g.matchLength, g.textBuf (g.matchPosition + j) = g.textBuf (r + j)

theorem compareFrom_spec {g : Search} {r p : Nat} (n i : Nat) (cmp : Int)
    (hr : r < N) (hp : p < N) (hin : i + n ≤ F) :
    wp (compareFrom r p n i cmp) g fun a g' => g' = g ∧ i ≤ a.1 ∧ a.1 ≤ i + n ∧
      ∀ j, i ≤ j → j < a.1 → g.textBuf (p + j) = g.textBuf (r + j) := by
  induction n generalizing i cmp with
  | zero => exact wp_pure.mpr ⟨rfl, le_rfl, le_rfl, fun j h1 h2 => by omega⟩
  | succ n ih =>
      rw [compareFrom, wp_bind, wp_text (by omega), wp_bind, wp_text (by omega)]
      simp only
      split
      next hcmp => exact wp_pure.mpr ⟨rfl, le_rfl, by omega, fun j h1 h2 => by omega⟩
      next hcmp =>
        have heq : g.textBuf (p + i) = g.textBuf (r + i) := by
          rw [← UInt8.toNat_inj]
          omega
        refine (ih (i + 1) _ (by omega)).mono ?_
        rintro a g' ⟨hg, h1, h2, h3⟩
        refine ⟨hg, by omega, by omega, fun j hj1 hj2 => ?_⟩
        rcases Nat.eq_or_lt_of_le hj1 with rfl | hlt
        · exact heq
        · exact h3 j hlt hj2

section Insert

variable {g : Search} {S : Finset Nat} {r p : Nat}

theorem tagOf_of_lt {textBuf : Nat → UInt8} (h : p < N) : tagOf textBuf p = textBuf p := if_pos h

theorem tagOf_root {textBuf : Nat → UInt8} (c : UInt8) : tagOf textBuf (N + 1 + c.toNat) = c := by
  have h : ¬ N + 1 + c.toNat < N := by omega
  rw [tagOf, if_neg h, Nat.add_sub_cancel_left, UInt8.ofNat_toNat]

theorem not_isRoot_of_lt (h : p < N) : ¬ IsRoot p := fun hr => by have := hr.1; omega

/-- A new position is neither a node nor a root. -/
theorem ne_of_new (hr : r < N) (hrS : r ∉ S) (hp : p ∈ S ∨ IsRoot p) : p ≠ r := by
  rintro rfl
  exact hp.elim hrS (not_isRoot_of_lt hr)

/-- What `InsertNode(r)` does to the trees. -/
structure Inserted (g g' : Search) (S : Finset Nat) (r : Nat) : Prop where
  trees : ∃ S' ⊆ insert r S, Trees g' S'
  text : g'.textBuf = g.textBuf
  found : Match g' S r

/-- A new node in the trees, when no other gets another father. -/
theorem Trees.grow {g' : Search} (h : Trees g S) (hr : r < N)
    (hforest : Forest NIL IsRoot (tagOf g'.textBuf) g'.lson g'.rson g'.dad (insert r S))
    (hdad : ∀ q, q ≠ r → g'.dad q = g.dad q) : Trees g' (insert r S) where
  forest := hforest
  lt := fun q hq => by
    rcases Finset.mem_insert.mp hq with rfl | hq
    · exact hr
    · exact h.lt q hq
  out := fun q hq hqS => by
    rw [Finset.mem_insert, not_or] at hqS
    exact (hdad q hqS.1).trans (h.out q hq hqS.2)

/-- `r` becomes a son of `p`, on the right. -/
theorem Trees.hangRight (h : Trees g S) (hr : r < N) (hrS : r ∉ S) (hp : p ∈ S ∨ IsRoot p)
    (htag : tagOf g.textBuf p = tagOf g.textBuf r) (hl : g.lson r = NIL) (hr0 : g.rson r = NIL)
    (hson : g.rson p = NIL) :
    Trees { g with rson := Function.update g.rson p r, dad := Function.update g.dad r p }
      (insert r S) := by
  refine h.grow hr ?_ fun q hq => Function.update_of_ne hq _ _
  refine h.forest.attachRight hp hson hrS (Nat.ne_of_lt hr) (not_isRoot_of_lt hr) htag hl ?_ ?_
    (fun _ _ => rfl) (fun q _ => ?_) fun q hq => ?_
  · exact (Function.update_of_ne (ne_of_new hr hrS hp).symm _ _).trans hr0
  · exact Function.update_self _ _ _
  · exact Function.update_apply _ _ _ _
  · exact Function.update_of_ne (ne_of_mem_of_not_mem hq hrS) _ _

/-- `r` becomes a son of `p`, on the left. -/
theorem Trees.hangLeft (h : Trees g S) (hr : r < N) (hrS : r ∉ S) (hp : p ∈ S)
    (htag : tagOf g.textBuf p = tagOf g.textBuf r) (hl0 : g.lson r = NIL) (hr0 : g.rson r = NIL)
    (hson : g.lson p = NIL) :
    Trees { g with lson := Function.update g.lson p r, dad := Function.update g.dad r p }
      (insert r S) := by
  refine h.grow hr ?_ fun q hq => Function.update_of_ne hq _ _
  refine h.forest.attachLeft hp hson hrS (Nat.ne_of_lt hr) (not_isRoot_of_lt hr) htag ?_ hr0 ?_
    (fun q _ => ?_) (fun _ _ => rfl) fun q hq => ?_
  · exact (Function.update_of_ne (ne_of_mem_of_not_mem hp hrS).symm _ _).trans hl0
  · exact Function.update_self _ _ _
  · exact Function.update_apply _ _ _ _
  · exact Function.update_of_ne (ne_of_mem_of_not_mem hq hrS) _ _

/-- The way down from `p`: `r` is hung up, or there is a son to go on with. -/
theorem descend_spec (h : Trees g S) (hr : r < N) (hrS : r ∉ S) {cmp : Int}
    (hp : p ∈ S ∨ IsRoot p ∧ 0 ≤ cmp) (htag : tagOf g.textBuf p = tagOf g.textBuf r)
    (hl0 : g.lson r = NIL) (hr0 : g.rson r = NIL) :
    wp (descend r p cmp) g fun a g' =>
      (a = none ∧ Trees g' (insert r S) ∧ g'.textBuf = g.textBuf ∧
        g'.matchPosition = g.matchPosition ∧ g'.matchLength = g.matchLength) ∨
      ∃ q ∈ S, a = some q ∧ g.dad q = p ∧ g' = g := by
  unfold descend
  split
  next hcmp =>
    have hp' : p ∈ S ∨ IsRoot p := hp.imp_right And.left
    have hlt : p < N + 257 := hp'.elim (fun hp => by have := h.lt p hp; omega) And.right
    rw [wp_bind, wp_rsonOf hlt]
    split
    next hson =>
      rw [wp_bind, wp_rsonOf hlt, wp_pure]
      obtain ⟨hmem, hdad⟩ := h.forest.right p hp' hson
      exact .inr ⟨_, hmem, rfl, hdad, rfl⟩
    next hson =>
      rw [wp_bind, wp_setRson hlt, wp_bind, wp_setDad (by omega), wp_pure]
      exact .inl ⟨rfl, h.hangRight hr hrS hp' htag hl0 hr0 (not_not.mp hson), rfl, rfl, rfl⟩
  next hcmp =>
    have hp' : p ∈ S := hp.resolve_right fun hp => hcmp hp.2
    have hlt : p < N + 1 := by have := h.lt p hp'; omega
    rw [wp_bind, wp_lsonOf hlt]
    split
    next hson =>
      rw [wp_bind, wp_lsonOf hlt, wp_pure]
      obtain ⟨hmem, hdad⟩ := h.forest.left p hp' hson
      exact .inr ⟨_, hmem, rfl, hdad, rfl⟩
    next hson =>
      rw [wp_bind, wp_setLson hlt, wp_bind, wp_setDad (by omega), wp_pure]
      exact .inl ⟨rfl, h.hangLeft hr hrS hp' htag hl0 hr0 (not_not.mp hson), rfl, rfl, rfl⟩

/-- `if (rson[dad[p]] == p) rson[dad[p]] = q; else lson[dad[p]] = q;` -/
def Search.relink (g : Search) (p q : Nat) : Search :=
  if g.rson (g.dad p) = p then { g with rson := Function.update g.rson (g.dad p) q }
  else { g with lson := Function.update g.lson (g.dad p) q }

@[simp] theorem relink_dad (q : Nat) : (g.relink p q).dad = g.dad := by
  unfold Search.relink; split <;> rfl

@[simp] theorem relink_textBuf (q : Nat) : (g.relink p q).textBuf = g.textBuf := by
  unfold Search.relink; split <;> rfl

@[simp] theorem relink_matchPosition (q : Nat) :
    (g.relink p q).matchPosition = g.matchPosition := by
  unfold Search.relink; split <;> rfl

@[simp] theorem relink_matchLength (q : Nat) : (g.relink p q).matchLength = g.matchLength := by
  unfold Search.relink; split <;> rfl

theorem relink_lson (q x : Nat) :
    (g.relink p q).lson x = if x = g.dad p ∧ g.rson x ≠ p then q else g.lson x := by
  unfold Search.relink
  split <;> grind [Function.update_apply]

theorem relink_rson (q x : Nat) :
    (g.relink p q).rson x = if x = g.dad p ∧ g.rson x = p then q else g.rson x := by
  unfold Search.relink
  split <;> grind [Function.update_apply]

theorem wp_relinkDad {q : Nat} (hp : p < N + 1) (hd : g.dad p < N + 257)
    (hl : g.rson (g.dad p) ≠ p → g.dad p < N + 1) {Q : Unit → Search → Prop} :
    wp (relinkDad p q) g Q ↔ Q () (g.relink p q) := by
  unfold relinkDad Search.relink
  rw [wp_bind, wp_dadOf hp, wp_bind, wp_rsonOf hd]
  split
  next h => rw [wp_bind, wp_dadOf hp, wp_setRson hd]
  next h => rw [wp_bind, wp_dadOf hp, wp_setLson (hl h)]

theorem Trees.dad_lt_of_left (h : Trees g S) (hp : p ∈ S) (hr : g.rson (g.dad p) ≠ p) :
    g.dad p < N + 1 := by
  rcases h.forest.parent p hp with hpar | hpar
  · exact absurd hpar.1 hr
  · exact Nat.lt_succ_of_lt (h.lt _ hpar.2)

theorem replaceNode_spec (h : Trees g S) (hr : r < N) (hrS : r ∉ S) (hp : p ∈ S)
    (htag : tagOf g.textBuf r = tagOf g.textBuf p) :
    wp (replaceNode r p) g fun _ g' => Trees g' (insert r (S.erase p)) ∧
      g'.textBuf = g.textBuf ∧ g'.matchPosition = g.matchPosition ∧
      g'.matchLength = g.matchLength := by
  have hpN := h.lt p hp
  have hpr : p ≠ r := ne_of_mem_of_not_mem hp hrS
  have hl := h.lson_lt hp
  have hr' := h.rson_lt (.inl hp)
  unfold replaceNode
  rw [wp_bind, wp_dadOf (by omega), wp_bind, wp_setDad (by omega), wp_bind, wp_lsonOf (by omega),
    wp_bind, wp_setLson (by omega), wp_bind, wp_rsonOf (by omega), wp_bind, wp_setRson (by omega)]
  simp only
  rw [wp_bind, wp_lsonOf (by omega)]
  simp only [Function.update_of_ne hpr]
  rw [wp_bind, wp_setDad hl, wp_bind, wp_rsonOf (by omega)]
  simp only [Function.update_of_ne hpr]
  rw [wp_bind, wp_setDad hr', wp_bind]
  -- the links before the parent of `p` is told
  generalize hg₁ : ({ g with
    lson := Function.update g.lson r (g.lson p), rson := Function.update g.rson r (g.rson p)
    dad := Function.update (Function.update (Function.update g.dad r (g.dad p)) (g.lson p) r)
      (g.rson p) r } : Search) = g₁
  have hL : ∀ x, g₁.lson x = if x = r then g.lson p else g.lson x := fun x => by
    rw [← hg₁]; exact Function.update_apply _ _ _ _
  have hR : ∀ x, g₁.rson x = if x = r then g.rson p else g.rson x := fun x => by
    rw [← hg₁]; exact Function.update_apply _ _ _ _
  have hD : ∀ x, g₁.dad x =
      if x = g.lson p ∨ x = g.rson p then r else if x = r then g.dad p else g.dad x := fun x => by
    simp only [← hg₁, Function.update_apply]
    grind
  have htext : g₁.textBuf = g.textBuf := by rw [← hg₁]
  have hmatch : g₁.matchPosition = g.matchPosition ∧ g₁.matchLength = g.matchLength := by
    rw [← hg₁]; exact ⟨rfl, rfl⟩
  clear hg₁
  have hsons : ∀ x ∈ S, g.dad x = p ↔ x = g.lson p ∨ x = g.rson p := fun x hx =>
    h.forest.up_eq_iff hp hx
  have hne := h.forest.up_ne hp
  have hdp : g₁.dad p = g.dad p := by
    rw [hD p, if_neg (fun hs => hne ((hsons p hp).mpr hs)), if_neg hpr]
  have hdr : g.dad p ≠ r := ne_of_new hr hrS (h.forest.up_mem hp)
  have hrdad : g₁.rson (g₁.dad p) = g.rson (g.dad p) := by rw [hdp, hR, if_neg hdr]
  rw [wp_relinkDad (by omega) (by rw [hdp]; exact h.dad_lt hp)
    (by rw [hrdad, hdp]; exact h.dad_lt_of_left hp), wp_setDad (by omega)]
  have hforest : Forest NIL IsRoot (tagOf g.textBuf) (g₁.relink p r).lson (g₁.relink p r).rson
      (Function.update g₁.dad p NIL) (insert r (S.erase p)) := by
    refine h.forest.replace hp hrS (Nat.ne_of_lt hr) (not_isRoot_of_lt hr) htag ?_ ?_ ?_
      (fun q hq hqp => ?_) (fun q hq hqp => ?_) fun q hq hqp => ?_
    · rw [relink_lson, hdp, if_neg fun hc => hdr hc.1.symm, hL, if_pos rfl]
    · rw [relink_rson, hdp, if_neg fun hc => hdr hc.1.symm, hR, if_pos rfl]
    · rw [Function.update_of_ne hpr.symm, hD, if_neg (h.not_son hp hr hrS), if_pos rfl]
    · have hqr := ne_of_mem_of_not_mem hq hrS
      rw [relink_lson, hdp, hR, hL, if_neg hqr, if_neg hqr]
    · rw [relink_rson, hdp, hR, if_neg (ne_of_new hr hrS hq)]
    · have hqr := ne_of_mem_of_not_mem hq hrS
      rw [Function.update_of_ne hqp, hD, if_neg hqr]
      simp only [hsons q hq]
  refine ⟨⟨by simpa [htext] using hforest, fun q hq => ?_, fun q hq hqS => ?_⟩, by simpa using htext,
    by simpa using hmatch.1, by simpa using hmatch.2⟩
  · rcases Finset.mem_insert.mp hq with rfl | hq
    · exact hr
    · exact h.lt q (Finset.mem_of_mem_erase hq)
  · rw [Finset.mem_insert, Finset.mem_erase, not_or, not_and] at hqS
    simp only [relink_dad]
    by_cases hqp : q = p
    · rw [hqp, Function.update_self]
    · have hqS' := hqS.2 hqp
      rw [Function.update_of_ne hqp, hD, if_neg (h.not_son hp hq hqS'), if_neg hqS.1, h.out q hq hqS']

theorem Match.congr {g' : Search} (h : Match g S r) (htext : g'.textBuf = g.textBuf)
    (hpos : g'.matchPosition = g.matchPosition) (hlen : g'.matchLength = g.matchLength) :
    Match g' S r :=
  ⟨hlen ▸ h.le, fun h0 => hpos ▸ h.mem (hlen ▸ h0), by rw [htext, hpos, hlen]; exact h.eq⟩

/-- A longer match has been noted. -/
theorem Match.note {n : Nat} (hp : p ∈ S) (hn : n ≤ F)
    (heq : ∀ j < n, g.textBuf (p + j) = g.textBuf (r + j)) :
    Match { g with matchPosition := p, matchLength := n } S r :=
  ⟨hn, fun _ => hp, heq⟩

theorem insertFrom_spec {rank : Nat → Nat} (h : Trees g S) (hr : r < N) (hrS : r ∉ S)
    (hl0 : g.lson r = NIL) (hr0 : g.rson r = NIL) (hm : Match g S r)
    (hrank : ∀ q ∈ S, rank (g.dad q) < rank q) (fuel : Nat) {p : Nat} {cmp : Int}
    (hp : p ∈ S ∨ IsRoot p ∧ 0 ≤ cmp) (htag : tagOf g.textBuf p = g.textBuf r)
    (hfuel : Forest.below rank S p < fuel) :
    wp (insertFrom r fuel p cmp) g fun _ g' => Inserted g g' S r := by
  induction fuel generalizing g p cmp with
  | zero => omega
  | succ fuel ih =>
      have htag' : tagOf g.textBuf r = g.textBuf r := tagOf_of_lt hr
      unfold insertFrom
      refine wp_bind_of (descend_spec h hr hrS hp (htag.trans htag'.symm) hl0 hr0) ?_
      rintro a g' (⟨rfl, htrees, htext, hpos, hlen⟩ | ⟨q, hq, rfl, hdad, rfl⟩)
      · refine wp_pure.mpr ⟨⟨_, Finset.Subset.refl _, htrees⟩, htext, ?_⟩
        exact hm.congr htext hpos hlen
      · have hqN := h.lt q hq
        have hqtag : tagOf g'.textBuf q = g'.textBuf r := by
          rw [← h.forest.tagged q hq, hdad, htag]
        refine wp_bind_of (compareFrom_spec (F - 1) 1 cmp hr hqN (by decide)) ?_
        rintro ⟨i, cmp'⟩ g ⟨rfl, h1, h2, h3⟩
        have heq : ∀ j < i, g.textBuf (q + j) = g.textBuf (r + j) := fun j hj => by
          rcases Nat.eq_zero_or_pos j with rfl | hj0
          · rw [Nat.add_zero, Nat.add_zero, ← hqtag, tagOf_of_lt hqN]
          · exact h3 j hj0 hj
        have hbelow : Forest.below rank S q < fuel := by
          have hlt : rank p < rank q := by rw [← hdad]; exact hrank q hq
          have := Forest.below_lt hq hlt
          omega
        simp only [wp_bind, wp_get]
        split
        next hlong =>
          rw [wp_bind, wp_modify]
          have hm' : Match { g with matchPosition := q, matchLength := i } S r :=
            .note hq (by simp only at h2; omega) heq
          have h' : Trees { g with matchPosition := q, matchLength := i } S := ⟨h.forest, h.lt, h.out⟩
          split
          next hfull =>
            have htag'' : tagOf g.textBuf r = tagOf g.textBuf q := htag'.trans hqtag.symm
            refine (replaceNode_spec h' hr hrS hq htag'').mono ?_
            rintro _ g' ⟨htrees, htext, hpos, hlen⟩
            refine ⟨⟨_, Finset.insert_subset_insert r (Finset.erase_subset q S), htrees⟩, htext, ?_⟩
            exact hm'.congr htext hpos hlen
          next hfull =>
            exact (ih h' hl0 hr0 hm' hrank (.inl hq) hqtag hbelow).mono fun _ _ hi =>
              ⟨hi.trees, hi.text, hi.found⟩
        next hlong => exact ih h hl0 hr0 hm hrank (.inl hq) hqtag hbelow

/-- **`InsertNode`**: every index is in range, the loop ends, the trees gain
`r`, and the match is one. -/
theorem insertNode_spec (h : Trees g S) (hr : r < N) (hrS : r ∉ S) :
    wp (insertNode r) g fun _ g' => Inserted g g' S r := by
  unfold insertNode
  rw [wp_bind, wp_text (by simp only [F]; omega)]
  simp only
  rw [wp_bind, wp_setLson (by omega), wp_bind, wp_setRson (by omega), wp_bind, wp_modify]
  obtain ⟨rank, hrank⟩ := h.forest.ranked
  have hroot : IsRoot (N + 1 + (g.textBuf r).toNat) := by
    have := (g.textBuf r).toNat_lt
    exact ⟨by omega, by omega⟩
  have h' : Trees { g with
      lson := Function.update g.lson r NIL, rson := Function.update g.rson r NIL
      matchLength := 0 } S := by
    refine ⟨h.forest.congr (fun q hq => ?_) (fun q hq => ?_) (fun _ _ => rfl) fun _ _ => rfl,
      h.lt, h.out⟩
    · exact Function.update_of_ne (ne_of_mem_of_not_mem hq hrS) _ _
    · exact Function.update_of_ne (ne_of_new hr hrS hq) _ _
  refine (insertFrom_spec h' hr hrS (Function.update_self _ _ _) (Function.update_self _ _ _)
    ⟨Nat.zero_le F, fun h0 => absurd h0 (Nat.lt_irrefl 0), fun j hj => absurd hj (Nat.not_lt_zero j)⟩
    hrank (N + 1) (.inr ⟨hroot, Int.one_nonneg⟩) (tagOf_root _)
    (Nat.lt_succ_of_le ((Forest.below_le rank S _).trans h.card_le))).mono ?_
  exact fun _ _ hi => ⟨hi.trees, hi.text, hi.found⟩

end Insert

/-! ## DeleteNode -/

section Delete

variable {g : Search} {S : Finset Nat} {p q : Nat}

/-- The rightmost node under `q` has no right son and is one itself. -/
theorem rightmost_spec {rank : Nat → Nat} (h : Trees g S)
    (hrank : ∀ x ∈ S, rank (g.dad x) < rank x) (fuel : Nat) (hq : q ∈ S) (hson : g.rson q ≠ NIL)
    (hfuel : Forest.below rank S q ≤ fuel) :
    wp (rightmost fuel q) g fun x g' => g' = g ∧ x ∈ S ∧ g.rson x = NIL ∧ g.dad x ∈ S ∧
      g.rson (g.dad x) = x ∧ rank q ≤ rank (g.dad x) ∧
      tagOf g.textBuf x = tagOf g.textBuf q := by
  induction fuel generalizing q with
  | zero =>
      obtain ⟨hmem, hdad⟩ := h.forest.right q (.inl hq) hson
      have hlt : rank q < rank (g.rson q) := by have := hrank _ hmem; rwa [hdad] at this
      have := Forest.below_lt hmem hlt
      omega
  | succ fuel ih =>
      obtain ⟨hmem, hdad⟩ := h.forest.right q (.inl hq) hson
      have hlt : rank q < rank (g.rson q) := by have := hrank _ hmem; rwa [hdad] at this
      have hbelow := Forest.below_lt hmem hlt
      have hqN := h.lt q hq
      have hsonN := h.lt _ hmem
      have htag : tagOf g.textBuf (g.rson q) = tagOf g.textBuf q := by
        rw [← h.forest.tagged _ hmem, hdad]
      rw [rightmost, wp_bind, wp_rsonOf (by omega), wp_bind, wp_rsonOf (by omega)]
      split
      next hson' =>
        refine (ih hmem hson' (by omega)).mono ?_
        rintro x g' ⟨hg, h1, h2, h3, h4, h5, h6⟩
        exact ⟨hg, h1, h2, h3, h4, by omega, by rw [h6, htag]⟩
      next hson' =>
        refine wp_pure.mpr ⟨rfl, hmem, not_not.mp hson', ?_⟩
        rw [hdad]
        exact ⟨hq, rfl, le_rfl, htag⟩

/-- `q` has been taken out of its place and has the sons of `p`, but not yet
its father. -/
structure Raised (g g' : Search) (S : Finset Nat) (p q : Nat) : Prop where
  mem : q ∈ S
  ne : q ≠ p
  leaf : g.rson q = NIL
  tag : tagOf g.textBuf q = tagOf g.textBuf p
  dad_ne : g.dad p ≠ q
  apart : g.dad p ≠ g.dad q
  lson_self : g'.lson q = if p = g.dad q ∧ g.rson p ≠ q then g.lson q else g.lson p
  rson_self : g'.rson q = if p = g.dad q ∧ g.rson p = q then g.lson q else g.rson p
  lson_eq : ∀ x ∈ S, x ≠ q → x ≠ p → g'.lson x = if x = g.dad q ∧ g.rson x ≠ q then g.lson q else g.lson x
  rson_eq : ∀ x, x ∈ S ∨ IsRoot x → x ≠ q → x ≠ p →
    g'.rson x = if x = g.dad q ∧ g.rson x = q then g.lson q else g.rson x
  dad_eq : ∀ x ∈ S, x ≠ q → x ≠ p →
    g'.dad x = if (if g.dad x = q then g.dad q else g.dad x) = p then q
      else if g.dad x = q then g.dad q else g.dad x
  dad_out : ∀ x, x = p ∨ x < N ∧ x ∉ S → g'.dad x = g.dad x
  text : g'.textBuf = g.textBuf

theorem successor_spec (h : Trees g S) (hp : p ∈ S) (hl : g.lson p ≠ NIL) (hr : g.rson p ≠ NIL) :
    wp (successor p) g fun q g' => Raised g g' S p q := by
  obtain ⟨hlS, hldad⟩ := h.forest.left p hp hl
  obtain ⟨hrS, hrdad⟩ := h.forest.right p (.inl hp) hr
  have hpN := h.lt p hp
  have hlN := h.lt _ hlS
  have hrN := h.lt _ hrS
  have hapart : g.lson p ≠ g.rson p := fun e => hl (h.forest.apart p hp e)
  have hne := h.forest.up_ne hp
  have hlp : p ≠ g.lson p := fun e => hne (by rw [← e] at hldad; exact hldad)
  have hson_iff : ∀ x ∈ S, g.dad x = p ↔ x = g.lson p ∨ x = g.rson p := fun x hx =>
    h.forest.up_eq_iff hp hx
  obtain ⟨rank, hrank⟩ := h.forest.ranked
  unfold successor
  rw [wp_bind, wp_lsonOf (by omega), wp_bind, wp_rsonOf (by omega)]
  split
  next hson =>
    -- further down
    rw [wp_bind]
    refine (rightmost_spec h hrank (N + 1) hlS hson
      ((Forest.below_le rank S _).trans (h.card_le.trans (Nat.le_succ N)))).mono ?_
    rintro q g ⟨rfl, hqS, hleaf, hdS, hright, hdrank, htag⟩
    have hqN := h.lt q hqS
    have hdN := h.lt _ hdS
    have hlq := h.lson_lt hqS
    have hrankl : rank p < rank (g.lson p) := by have := hrank _ hlS; rwa [hldad] at this
    have hrankq := hrank q hqS
    have hrankp := hrank p hp
    have hdp : p ≠ g.dad q := fun e => by rw [← e] at hdrank; omega
    have hqp : q ≠ p := fun e => by rw [e] at hrankq; rw [e] at hdrank; omega
    have hqd : q ≠ g.dad q := fun e => by rw [← e] at hrankq; omega
    rw [wp_bind, wp_dadOf (by omega), wp_bind, wp_lsonOf (by omega), wp_bind, wp_setRson (by omega),
      wp_bind, wp_lsonOf (by omega), wp_bind, wp_dadOf (by omega), wp_bind, wp_setDad (by omega),
      wp_bind, wp_lsonOf (by omega), wp_bind, wp_setLson (by omega), wp_bind, wp_lsonOf (by omega)]
    simp only [Function.update_of_ne hqp.symm]
    rw [wp_bind, wp_setDad (by omega), wp_bind, wp_rsonOf (by omega)]
    simp only [Function.update_of_ne hdp]
    rw [wp_bind, wp_setRson (by omega), wp_bind, wp_rsonOf (by omega)]
    simp only [Function.update_of_ne hdp, Function.update_of_ne hqp.symm]
    rw [wp_bind, wp_setDad (by omega), wp_pure]
    exact
      { mem := hqS
        ne := hqp
        leaf := hleaf
        tag := by rw [htag, ← h.forest.tagged _ hlS, hldad]
        dad_ne := fun e => by rw [e] at hrankp; omega
        apart := fun e => by rw [e] at hrankp; omega
        lson_self := by
          rw [if_neg fun hc => hdp hc.1]
          exact Function.update_self _ _ _
        rson_self := by
          rw [if_neg fun hc => hdp hc.1]
          exact Function.update_self _ _ _
        lson_eq := fun x _ hxq _ => by
          simp only [Function.update_of_ne hxq]
          grind
        rson_eq := fun x _ hxq _ => by
          simp only [Function.update_of_ne hxq, Function.update_apply]
          grind
        dad_eq := fun x hx hxq hxp => by
          have := hson_iff x hx
          have := h.forest.up_eq_iff hqS hx
          have hxN := h.lt x hx
          simp only [Function.update_apply]
          grind
        dad_out := fun x hx => by
          have hleft := h.forest.left q hqS
          simp only [Function.update_apply]
          grind
        text := rfl }
  next hson =>
    rw [wp_bind, wp_rsonOf (by omega), wp_bind, wp_setRson (by omega), wp_bind, wp_rsonOf (by omega)]
    simp only [Function.update_of_ne hlp]
    rw [wp_bind, wp_setDad (by omega), wp_pure]
    exact
      { mem := hlS
        ne := hlp.symm
        leaf := not_not.mp hson
        tag := by rw [← h.forest.tagged _ hlS, hldad]
        dad_ne := fun e => by
          have h1 := hrank p hp
          have h2 := hrank _ hlS
          rw [hldad] at h2
          rw [e] at h1
          omega
        apart := by rw [hldad]; exact hne
        lson_self := by rw [if_pos ⟨hldad.symm, hapart.symm⟩]
        rson_self := by
          rw [if_neg fun hc => hapart hc.2.symm]
          exact Function.update_self _ _ _
        lson_eq := fun x _ _ hxp => by rw [hldad, if_neg fun hc => hxp hc.1]
        rson_eq := fun x _ hxq hxp => by
          rw [hldad, if_neg fun hc => hxp hc.1]
          exact Function.update_of_ne hxq _ _
        dad_eq := fun x hx hxq hxp => by
          have := hson_iff x hx
          grind [Function.update_apply]
        dad_out := fun x hx => by
          refine Function.update_of_ne ?_ _ _
          rintro rfl
          rcases hx with hx | hx
          · rw [hx] at hrdad
            exact hne hrdad
          · exact hx.2 hrS
        text := rfl }

/-- `q` is where `p` was below its father. -/
structure Closed (g g' : Search) (p q : Nat) : Prop where
  lson : ∀ x, g'.lson x = if x = g.dad p ∧ g.rson x ≠ p then q else g.lson x
  rson : ∀ x, g'.rson x = if x = g.dad p ∧ g.rson x = p then q else g.rson x
  dad : ∀ x, g'.dad x = if x = p then NIL else if x = q then g.dad p else g.dad x
  text : g'.textBuf = g.textBuf

/-- The end of `DeleteNode`: `q` gets the father of `p`. -/
theorem wp_closeGap (hqp : q ≠ p) (hp : p < N + 1) (hq : q < N + 1) (hd : g.dad p < N + 257)
    (hl : g.rson (g.dad p) ≠ p → g.dad p < N + 1) {Q : Unit → Search → Prop}
    (hQ : ∀ g', Closed g g' p q → Q () g') :
    wp (do
      setDad q (← dadOf p)
      relinkDad p q
      setDad p NIL) g Q := by
  have hdp : Function.update g.dad q (g.dad p) p = g.dad p := Function.update_of_ne hqp.symm _ _
  rw [wp_bind, wp_dadOf hp, wp_bind, wp_setDad hq, wp_bind,
    wp_relinkDad hp (by simp only [hdp]; exact hd) (by simp only [hdp]; exact hl), wp_setDad hp]
  refine hQ _ ⟨fun x => ?_, fun x => ?_, fun x => ?_, ?_⟩
  · rw [relink_lson]; simp only [hdp]
  · rw [relink_rson]; simp only [hdp]
  · simp only [relink_dad, Function.update_apply]
  · rw [relink_textBuf]

/-- A node with at most one son. -/
theorem Trees.dropSingle {g' : Search} (h : Trees g S) (hp : p ∈ S)
    (hq : g.rson p = NIL ∧ q = g.lson p ∨ g.lson p = NIL ∧ q = g.rson p)
    (hc : Closed g g' p q) : Trees g' (S.erase p) where
  forest := by
    rw [hc.text]
    refine h.forest.splice hp hq (fun x _ _ => hc.lson x) (fun x _ _ => hc.rson x) fun x hx hxp => ?_
    have := h.forest.up_eq_iff hp hx
    have := h.lt x hx
    rw [hc.dad, if_neg hxp]
    grind
  lt := fun x hx => h.lt x (Finset.mem_of_mem_erase hx)
  out := fun x hxN hx => by
    rw [hc.dad]
    split
    next => rfl
    next hxp =>
      have hxS : x ∉ S := fun hxS => hx (Finset.mem_erase.mpr ⟨hxp, hxS⟩)
      have := h.not_son hp hxN hxS
      rw [if_neg (by grind), h.out x hxN hxS]

/-- A node with two sons. -/
theorem Trees.dropDouble {g₁ g' : Search} (h : Trees g S) (hp : p ∈ S) (hg : Raised g g₁ S p q)
    (hc : Closed g₁ g' p q) : Trees g' (S.erase p) where
  forest := by
    have hdad : g₁.dad p = g.dad p := hg.dad_out p (.inl rfl)
    have hpS : p ∈ S.erase q := Finset.mem_erase.mpr ⟨hg.ne.symm, hp⟩
    have hqN := h.lt q hg.mem
    -- first `q` is taken out, then it takes the place of `p`
    have hsplice : Forest NIL IsRoot (tagOf g.textBuf)
        (fun x => if x = g.dad q ∧ g.rson x ≠ q then g.lson q else g.lson x)
        (fun x => if x = g.dad q ∧ g.rson x = q then g.lson q else g.rson x)
        (fun x => if g.dad x = q then g.dad q else g.dad x) (S.erase q) :=
      h.forest.splice hg.mem (.inl ⟨hg.leaf, rfl⟩) (fun _ _ _ => rfl) (fun _ _ _ => rfl)
        fun _ _ _ => rfl
    have hset : S.erase p = insert q ((S.erase q).erase p) := by
      rw [Finset.erase_right_comm, Finset.insert_erase (Finset.mem_erase.mpr ⟨hg.ne, hg.mem⟩)]
    rw [hc.text, hg.text, hset]
    refine hsplice.replace hpS (Finset.notMem_erase q S) (Nat.ne_of_lt hqN) (not_isRoot_of_lt hqN)
      hg.tag ?_ ?_ ?_ (fun x hx hxp => ?_) (fun x hx hxp => ?_) fun x hx hxp => ?_
    · rw [hc.lson, hdad, if_neg fun hc => hg.dad_ne hc.1.symm, hg.lson_self]
    · rw [hc.rson, hdad, if_neg fun hc => hg.dad_ne hc.1.symm, hg.rson_self]
    · simp only [hc.dad, if_neg hg.ne, if_true, hdad, if_neg hg.dad_ne]
    · obtain ⟨hxq, hxS⟩ := Finset.mem_erase.mp hx
      simp only [hc.lson, hdad, if_neg hg.dad_ne, hg.rson_eq x (.inl hxS) hxq hxp,
        hg.lson_eq x hxS hxq hxp]
    · have hx' : x ≠ q ∧ (x ∈ S ∨ IsRoot x) := by
        rcases hx with hx | hx
        · exact ⟨Finset.ne_of_mem_erase hx, .inl (Finset.mem_of_mem_erase hx)⟩
        · exact ⟨fun e => not_isRoot_of_lt hqN (e ▸ hx), .inr hx⟩
      simp only [hc.rson, hdad, if_neg hg.dad_ne, hg.rson_eq x hx'.2 hx'.1 hxp]
    · obtain ⟨hxq, hxS⟩ := Finset.mem_erase.mp hx
      simp only [hc.dad, if_neg hxp, if_neg hxq, hg.dad_eq x hxS hxq hxp]
  lt := fun x hx => h.lt x (Finset.mem_of_mem_erase hx)
  out := fun x hxN hx => by
    rw [hc.dad]
    split
    next => rfl
    next hxp =>
      have hxS : x ∉ S := fun hxS => hx (Finset.mem_erase.mpr ⟨hxp, hxS⟩)
      rw [if_neg (ne_of_mem_of_not_mem hg.mem hxS).symm, hg.dad_out x (.inr ⟨hxN, hxS⟩),
        h.out x hxN hxS]

theorem heir_spec (h : Trees g S) (hp : p ∈ S) :
    wp (heir p) g fun q g' => q < N + 1 ∧ q ≠ p ∧
      (g' = g ∧ (g.rson p = NIL ∧ q = g.lson p ∨ g.lson p = NIL ∧ q = g.rson p) ∨
        Raised g g' S p q) := by
  have hpN := h.lt p hp
  have hl := h.lson_lt hp
  have hr := h.rson_lt (.inl hp)
  have hson : ¬ (p = g.lson p ∨ p = g.rson p) := fun hq =>
    h.forest.up_ne hp ((h.forest.up_eq_iff hp hp).mpr hq)
  rw [not_or] at hson
  unfold heir
  rw [wp_bind, wp_rsonOf (by omega)]
  split
  next hrson =>
    rw [wp_lsonOf (by omega)]
    exact ⟨hl, Ne.symm hson.1, .inl ⟨rfl, .inl ⟨hrson, rfl⟩⟩⟩
  next hrson =>
    rw [wp_bind, wp_lsonOf (by omega)]
    split
    next hlson =>
      rw [wp_rsonOf (by omega)]
      exact ⟨hr, Ne.symm hson.2, .inl ⟨rfl, .inr ⟨hlson, rfl⟩⟩⟩
    next hlson =>
      refine (successor_spec h hp hlson hrson).mono fun q g' hq => ?_
      exact ⟨Nat.lt_succ_of_lt (h.lt q hq.mem), hq.ne, .inr hq⟩

/-- **`DeleteNode`**: every index is in range, the loop ends, and `p` is in no
tree any more. -/
theorem deleteNode_spec (h : Trees g S) (hp : p < N) :
    wp (deleteNode p) g fun _ g' => Trees g' (S.erase p) ∧ g'.textBuf = g.textBuf := by
  unfold deleteNode
  rw [wp_bind, wp_dadOf (by omega)]
  split
  next hnil =>
    have hpS := (h.nil_of_not_mem hp).mp hnil
    rw [wp_pure, Finset.erase_eq_of_notMem hpS]
    exact ⟨h, rfl⟩
  next hnil =>
    have hpS : p ∈ S := by
      by_contra hpS
      exact hnil (h.out p hp hpS)
    have hdad := h.dad_lt hpS
    have hleft := h.dad_lt_of_left hpS
    have hl := h.lson_lt hpS
    have hr := h.rson_lt (.inl hpS)
    refine wp_bind_of (heir_spec h hpS) ?_
    rintro q g₁ ⟨hqN, hqp, ⟨rfl, hq⟩ | hq⟩
    · refine wp_closeGap hqp (by omega) hqN hdad hleft fun g' hc => ?_
      exact ⟨h.dropSingle hpS hq hc, hc.text⟩
    · have hdp : g₁.dad p = g.dad p := hq.dad_out p (.inl rfl)
      have hrd : g₁.rson (g.dad p) = g.rson (g.dad p) := by
        rw [hq.rson_eq _ (h.forest.up_mem hpS) hq.dad_ne (h.forest.up_ne hpS),
          if_neg fun hc => hq.apart hc.1]
      refine wp_closeGap hqp (by omega) hqN (by rwa [hdp]) (by rwa [hdp, hrd]) fun g' hc => ?_
      exact ⟨h.dropDouble hpS hq hc, hc.text.trans hq.text⟩

end Delete

end Xv6.Zip
