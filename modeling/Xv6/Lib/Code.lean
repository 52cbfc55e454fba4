import Mathlib.Data.List.Basic

/-!
# Xv6.Lib.Code

Code that runs one statement at a time, so that a scheduler of the model can
stop it between any two statements and go on with something else.

* `Code A α` is a tree of statements `A`, a statement of type `A β` having a
  result in `β`; loops are nodes of the tree, so that code need not end;
* `hoist` takes code of one language of statements into another;
* `next` is the statement that comes next, and the code behind it;
* `Spec A G` says when a statement may be executed and what is known behind it,
  in terms of knowledge `G` about the thread that executes it;
* `Safe` says that no statement of the code is reached where the specification
  does not allow it, whatever the results of the statements before.
-/

namespace Xv6

/-- Code with statements `A` and a result. -/
inductive Code (A : Type → Type 1) : Type → Type 1
  | pure {α : Type} (a : α) : Code A α
  | act {α β : Type} (x : A β) (k : β → Code A α) : Code A α
  /-- `body` is repeated on its own result until it leaves the loop -/
  | loop {α β σ : Type} (body : σ → Code A (σ ⊕ β)) (s : σ) (k : β → Code A α) : Code A α

namespace Code

variable {A : Type → Type 1} {G α β σ : Type}

def bind : Code A α → (α → Code A β) → Code A β
  | .pure a, f => f a
  | .act x k, f => .act x fun b => (k b).bind f
  | .loop body s k, f => .loop body s fun b => (k b).bind f

instance : Monad (Code A) where
  pure := .pure
  bind := .bind

/-- A single statement. -/
def once (x : A α) : Code A α := .act x .pure

/-- A loop and nothing behind it. -/
def iterate (body : σ → Code A (σ ⊕ β)) (s : σ) : Code A β := .loop body s .pure

/-- Statements of one kind as statements of another. -/
def hoist {B : Type → Type 1} (φ : {β : Type} → A β → B β) : {α : Type} → Code A α → Code B α
  | _, .pure a => .pure a
  | _, .act x k => .act (φ x) fun b => (k b).hoist φ
  | _, .loop body s k => .loop (fun s => (body s).hoist φ) s fun b => (k b).hoist φ

/-- Try one after the other until there is a result. -/
def firstOf {ι ρ : Type} (f : ι → Code A (Option ρ)) : List ι → Code A (Option ρ)
  | [] => .pure none
  | i :: is => (f i).bind fun
      | some r => .pure (some r)
      | none => firstOf f is

/-- What happens when code goes on. -/
inductive Next (A : Type → Type 1) (α : Type) : Type 1
  | done (a : α)
  | act {β : Type} (x : A β) (k : β → Code A α)
  /-- a loop begins its body -/
  | again (m : Code A α)

def next : Code A α → Next A α
  | .pure a => .done a
  | .act x k => .act x k
  | .loop body s k => .again ((body s).bind fun
      | .inl s' => .loop body s' k
      | .inr b => k b)

end Code

/-- For each statement, a transformer of what is to hold behind it into what has
to hold before. -/
structure Spec (A : Type → Type 1) (G : Type) where
  pre : {β : Type} → A β → G → (β → G → Prop) → Prop
  mono : ∀ {β : Type} (x : A β) {g : G} {P Q : β → G → Prop},
    (∀ b g', P b g' → Q b g') → pre x g P → pre x g Q

namespace Code

variable {A : Type → Type 1} {G α β σ : Type}

/-- Every statement is allowed where it is reached, and `Q` holds at the end, if
there is one. -/
def Safe (S : Spec A G) : {α : Type} → Code A α → G → (α → G → Prop) → Prop
  | _, .pure a, g, Q => Q a g
  | _, .act x k, g, Q => S.pre x g fun b g' => (k b).Safe S g' Q
  | _, .loop (σ := σ) body s k, g, Q => ∃ I : σ → G → Prop, I s g ∧ ∀ s g, I s g →
      (body s).Safe S g fun r g' =>
        match r with
        | .inl s' => I s' g'
        | .inr b => (k b).Safe S g' Q

section Rules

variable {S : Spec A G} {g : G}

theorem Safe.mono {m : Code A α} {P Q : α → G → Prop} (h : m.Safe S g P)
    (hQ : ∀ a g', P a g' → Q a g') : m.Safe S g Q := by
  induction m generalizing g with
  | pure a => exact hQ a g h
  | act x k ih => exact S.mono x (fun b g' hb => ih b hb hQ) h
  | loop body s k ihbody ih =>
      obtain ⟨I, hI, hbody⟩ := h
      refine ⟨I, hI, fun s g hs => ihbody s (hbody s g hs) fun r g' hr => ?_⟩
      cases r with
      | inl s' => exact hr
      | inr b => exact ih b hr hQ

@[simp] theorem safe_pure {a : α} {Q : α → G → Prop} :
    (Pure.pure a : Code A α).Safe S g Q ↔ Q a g := Iff.rfl

/-- **Rule of sequence.** -/
theorem safe_bind' {m : Code A α} {f : α → Code A β} {Q : β → G → Prop} :
    (m.bind f).Safe S g Q ↔ m.Safe S g fun a g' => (f a).Safe S g' Q := by
  induction m generalizing g with
  | pure a => exact Iff.rfl
  | act x k ih =>
      have hiff : (fun b g' => ((k b).bind f).Safe S g' Q) =
          fun b g' => (k b).Safe S g' fun a g' => (f a).Safe S g' Q := by
        funext b g'
        exact propext (ih b)
      exact iff_of_eq (congrArg (S.pre x g) hiff)
  | loop body s k ihbody ih =>
      refine exists_congr fun I => and_congr_right fun _ => forall₃_congr fun s g _ => ?_
      constructor
      · refine fun h => h.mono fun r g' hr => ?_
        cases r with
        | inl s' => exact hr
        | inr b => exact (ih b).mp hr
      · refine fun h => h.mono fun r g' hr => ?_
        cases r with
        | inl s' => exact hr
        | inr b => exact (ih b).mpr hr

@[simp] theorem safe_bind {m : Code A α} {f : α → Code A β} {Q : β → G → Prop} :
    (m >>= f).Safe S g Q ↔ m.Safe S g fun a g' => (f a).Safe S g' Q := safe_bind'

/-- **Loop rule.** -/
theorem safe_iterate {body : σ → Code A (σ ⊕ β)} {s : σ} {Q : β → G → Prop} (I : σ → G → Prop)
    (hbody : ∀ s g, I s g → (body s).Safe S g fun r g' =>
      match r with
      | .inl s' => I s' g'
      | .inr b => Q b g') (hs : I s g) : (iterate body s).Safe S g Q :=
  ⟨I, hs, hbody⟩

/-- **Loop rule** for a loop over a given list. -/
theorem safe_forM {ι : Type} {f : ι → Code A PUnit} {xs : List ι}
    (hf : ∀ x ∈ xs, (f x).Safe S g fun _ g' => g' = g) :
    (xs.forM f).Safe S g fun _ g' => g' = g := by
  induction xs with
  | nil => exact safe_pure.mpr rfl
  | cons x xs ih =>
      rw [List.forM, safe_bind]
      refine (hf x List.mem_cons_self).mono ?_
      rintro _ g' rfl
      exact ih fun y hy => hf y (List.mem_cons_of_mem x hy)

theorem safe_firstOf {ι ρ : Type} {f : ι → Code A (Option ρ)} {is : List ι}
    (hf : ∀ i ∈ is, (f i).Safe S g fun _ g' => g' = g) :
    (firstOf f is).Safe S g fun _ g' => g' = g := by
  induction is with
  | nil => exact safe_pure.mpr rfl
  | cons i is ih =>
      rw [firstOf, safe_bind']
      refine (hf i List.mem_cons_self).mono ?_
      rintro r g' rfl
      cases r with
      | some r => exact safe_pure.mpr rfl
      | none => exact ih fun j hj => hf j (List.mem_cons_of_mem i hj)

/-- **Frame rule**: code whose statements are always allowed and change nothing
that is known. -/
theorem safe_hoist {B : Type → Type 1} {φ : {β : Type} → B β → A β}
    (hφ : ∀ {β : Type} (x : B β) (P : β → G → Prop), (∀ b, P b g) → S.pre (φ x) g P)
    (m : Code B α) {Q : α → G → Prop} (hQ : ∀ a, Q a g) : (m.hoist φ).Safe S g Q := by
  induction m with
  | pure a => exact hQ a
  | act x k ih => exact hφ x _ fun b => ih b hQ
  | loop body s k ihbody ih =>
      refine ⟨fun _ g' => g' = g, rfl, ?_⟩
      rintro s g' rfl
      refine ihbody s fun r => ?_
      cases r with
      | inl s' => rfl
      | inr b => exact ih b hQ

/-- The next statement of safe code is allowed. -/
theorem Safe.act {m : Code A α} {x : A β} {k : β → Code A α} {Q : α → G → Prop}
    (h : m.Safe S g Q) (hm : m.next = .act x k) : S.pre x g fun b g' => (k b).Safe S g' Q := by
  cases m with
  | pure a => simp [next] at hm
  | act x k =>
      cases hm
      exact h
  | loop body s k => simp [next] at hm

/-- Safe code that enters a loop stays safe. -/
theorem Safe.again {m m' : Code A α} {Q : α → G → Prop} (h : m.Safe S g Q)
    (hm : m.next = .again m') : m'.Safe S g Q := by
  cases m with
  | pure a => simp [next] at hm
  | act x k => simp [next] at hm
  | loop body s k =>
      obtain rfl := Next.again.inj hm
      obtain ⟨I, hI, hbody⟩ := h
      rw [safe_bind']
      refine (hbody s g hI).mono fun r g' hr => ?_
      cases r with
      | inl s' => exact ⟨I, hr, hbody⟩
      | inr b => exact hr

end Rules

end Code

end Xv6
