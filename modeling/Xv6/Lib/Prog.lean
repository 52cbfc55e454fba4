import Mathlib.Data.List.Basic

/-!
# Xv6.Lib.Prog

Imperative code as programs over an explicit state that may stop with an
error, and total-correctness reasoning about them.

* `Prog ε σ α` is `StateT σ (Except ε) α`, so that code is written in
  `do` notation;
* `wp m s Q` says that `m`, started in `s`, returns (no error, no endless
  loop), and that `Q` holds of its result and of the state it leaves;
* `walk` is the loop `while (p) { … }` along a linked structure, with a bound
  on its number of passes, and `wp_walk` its invariant rule;
* `focus` runs a program on a part of the state;
* `wpE m s Q E` says what `wp` does of a run that returns, and `E` of the error
  of one that stops;
* `Mirrors m s n t R` says that when `m` returns from `s`, so does `n` from `t`, with
  results and states in the relation `R`.
-/

namespace Xv6

/-- Code that reads and changes a state and may stop. -/
abbrev Prog (ε σ α : Type) := StateT σ (Except ε) α

variable {ε σ τ α β ρ : Type}

/-- `m` returns from `s`, with a result and a state that satisfy `Q`. -/
def wp (m : Prog ε σ α) (s : σ) (Q : α → σ → Prop) : Prop :=
  ∃ a s', m s = .ok (a, s') ∧ Q a s'

section Rules

variable {m : Prog ε σ α} {s : σ} {Q : α → σ → Prop}

/-- **Rule of consequence.** -/
theorem wp.mono {R : α → σ → Prop} (h : wp m s R) (hQ : ∀ a s', R a s' → Q a s') : wp m s Q := by
  obtain ⟨a, s', hm, hr⟩ := h
  exact ⟨a, s', hm, hQ a s' hr⟩

/-- A program that returns to a state with a decidable property, computed. -/
theorem exists_of_result_any {m : Prog ε σ Unit} {p : Unit × σ → Bool}
    (h : (m s).toOption.any p = true) : ∃ s', m s = .ok ((), s') ∧ p ((), s') = true := by
  cases hm : m s with
  | error e => simp [hm, Except.toOption] at h
  | ok r => exact ⟨r.2, rfl, by simpa [hm, Except.toOption] using h⟩

/-- A program has one outcome. -/
theorem wp.det {R : α → σ → Prop} (h : wp m s Q) (hR : wp m s R) : ∃ a s', Q a s' ∧ R a s' := by
  obtain ⟨a, s', hm, hq⟩ := h
  obtain ⟨b, t, hm', hr⟩ := hR
  obtain ⟨rfl, rfl⟩ := Prod.mk.inj (Except.ok.inj (hm.symm.trans hm'))
  exact ⟨a, s', hq, hr⟩

theorem wp.of_ok {a : α} {s' : σ} (h : wp m s Q) (hm : m s = .ok (a, s')) : Q a s' := by
  obtain ⟨b, t, hm', hq⟩ := h
  obtain ⟨rfl, rfl⟩ := Prod.mk.inj (Except.ok.inj (hm.symm.trans hm'))
  exact hq

theorem wp.of_result {s₁ : σ} {P : σ → Prop} (h : wp m s fun _ s' => s' = s₁)
    (hP : wp m s fun _ s' => P s') : P s₁ := by
  obtain ⟨_, _, rfl, hp⟩ := h.det hP
  exact hp

@[simp] theorem wp_pure {a : α} : wp (pure a : Prog ε σ α) s Q ↔ Q a s := by
  constructor
  · rintro ⟨b, t, h, hq⟩
    obtain ⟨rfl, rfl⟩ := Prod.mk.inj (Except.ok.inj h)
    exact hq
  · exact fun h => ⟨a, s, rfl, h⟩

theorem get_bind (f : σ → Prog ε σ α) (s : σ) : (get >>= f) s = f s s := rfl

theorem bind_of_ok {m : Prog ε σ β} {b : β} {t : σ} (h : m s = .ok (b, t)) (f : β → Prog ε σ α) :
    (m >>= f) s = f b t := by
  change (m s).bind (fun r => f r.1 r.2) = _
  rw [h]
  rfl

theorem bind_of_error {m : Prog ε σ β} {e : ε} (h : m s = .error e) (f : β → Prog ε σ α) :
    (m >>= f) s = .error e := by
  change (m s).bind (fun r => f r.1 r.2) = _
  rw [h]
  rfl

/-- **Rule of sequence.** -/
@[simp] theorem wp_bind {m : Prog ε σ β} {f : β → Prog ε σ α} :
    wp (m >>= f) s Q ↔ wp m s fun b t => wp (f b) t Q := by
  constructor
  · rintro ⟨a, s', h, hq⟩
    change (m s).bind (fun r => f r.1 r.2) = _ at h
    cases hm : m s with
    | error e => rw [hm] at h; exact absurd h (by simp [Except.bind])
    | ok r =>
        rw [hm] at h
        exact ⟨r.1, r.2, hm, a, s', h, hq⟩
  · rintro ⟨b, t, hm, a, s', hf, hq⟩
    refine ⟨a, s', ?_, hq⟩
    change (m s).bind (fun r => f r.1 r.2) = _
    rw [hm]
    exact hf

/-- One statement, by what is known about it, and then the rest. -/
theorem wp_bind_of {m : Prog ε σ β} {f : β → Prog ε σ α} {R : β → σ → Prop} (h : wp m s R)
    (hf : ∀ b t, R b t → wp (f b) t Q) : wp (m >>= f) s Q :=
  wp_bind.mpr (h.mono hf)

@[simp] theorem wp_get {Q : σ → σ → Prop} : wp (get : Prog ε σ σ) s Q ↔ Q s s := wp_pure

@[simp] theorem wp_modify {f : σ → σ} {Q : PUnit → σ → Prop} :
    wp (modify f : Prog ε σ PUnit) s Q ↔ Q ⟨⟩ (f s) := by
  constructor
  · rintro ⟨b, t, h, hq⟩
    obtain ⟨-, rfl⟩ := Prod.mk.inj (Except.ok.inj h)
    exact hq
  · exact fun h => ⟨⟨⟩, f s, rfl, h⟩

@[simp] theorem wp_throw {e : ε} : wp (throw e : Prog ε σ α) s Q ↔ False := by
  constructor
  · rintro ⟨a, t, h, -⟩
    exact absurd h (by simp [throw, throwThe, MonadExceptOf.throw, StateT.lift])
  · exact False.elim

end Rules

/-! ## loops along pointers -/

/-- `while (p) { … }`: the body gets the current pointer and says where to go
on, or leaves the loop with a result.  The loop stops with `e` when it has
not ended after `fuel` passes. -/
def walk (e : ε) (body : α → Prog ε σ (Option α ⊕ ρ)) : Nat → Option α → Prog ε σ (Option ρ)
  | _, none => pure none
  | 0, some _ => throw e
  | fuel + 1, some p => do
      match ← body p with
      | .inl q => walk e body fuel q
      | .inr r => return some r

/-- **Loop rule**: the loop follows a list.  The invariant speaks about the
nodes that are done and those still to come; each pass moves one node from
the second part to the first, or leaves the loop. -/
theorem wp_walk {e : ε} {body : α → Prog ε σ (Option α ⊕ ρ)} {Q : Option ρ → σ → Prop}
    (I : List α → List α → σ → Prop)
    (hend : ∀ done s, I done [] s → Q none s)
    (hstep : ∀ done x todo s, I done (x :: todo) s → wp (body x) s fun r s' =>
      (r = .inl todo.head? ∧ I (done ++ [x]) todo s') ∨ ∃ b, r = .inr b ∧ Q (some b) s')
    {fuel : Nat} {todo : List α} {s : σ} (hfuel : todo.length ≤ fuel) (h : I [] todo s) :
    wp (walk e body fuel todo.head?) s Q := by
  have main : ∀ (fuel : Nat) (done todo : List α) (s : σ), todo.length ≤ fuel → I done todo s →
      wp (walk e body fuel todo.head?) s Q := by
    intro fuel
    induction fuel with
    | zero =>
        intro done todo s hlen hi
        obtain rfl : todo = [] := List.length_eq_zero_iff.mp (by omega)
        exact wp_pure.mpr (hend done s hi)
    | succ fuel ih =>
        intro done todo s hlen hi
        cases todo with
        | nil => exact wp_pure.mpr (hend done s hi)
        | cons x todo =>
            rw [List.length_cons] at hlen
            refine wp_bind_of (hstep done x todo s hi) ?_
            rintro r s' (⟨rfl, hi'⟩ | ⟨b, rfl, hq⟩)
            · exact ih (done ++ [x]) todo s' (by omega) hi'
            · exact wp_pure.mpr hq
  exact main fuel [] todo s hfuel h

/-! ## a part of the state -/

/-- Run a program on a part of the state. -/
def focus (get : σ → τ) (put : τ → σ → σ) (m : Prog ε τ α) : Prog ε σ α := fun s =>
  match m (get s) with
  | .ok (a, t) => .ok (a, put t s)
  | .error e => .error e

@[simp] theorem wp_focus {get : σ → τ} {put : τ → σ → σ} {m : Prog ε τ α} {s : σ}
    {Q : α → σ → Prop} :
    wp (focus get put m) s Q ↔ wp m (get s) fun a t => Q a (put t s) := by
  unfold wp focus
  constructor
  · rintro ⟨a, s', h, hq⟩
    cases hm : m (get s) with
    | error e => rw [hm] at h; exact absurd h (by simp)
    | ok r =>
        rw [hm] at h
        obtain ⟨rfl, rfl⟩ := Prod.mk.inj (Except.ok.inj h)
        exact ⟨r.1, r.2, rfl, hq⟩
  · rintro ⟨a, t, hm, hq⟩
    exact ⟨a, put t s, by rw [hm], hq⟩

/-! ## with a condition on errors -/

/-- From `s`, either `m` returns with a result and a state that satisfy `Q`,
or it stops with an error that satisfies `E`. -/
def wpE (m : Prog ε σ α) (s : σ) (Q : α → σ → Prop) (E : ε → Prop) : Prop :=
  match m s with
  | .ok r => Q r.1 r.2
  | .error e => E e

section Errors

variable {m : Prog ε σ α} {s : σ} {Q : α → σ → Prop} {E : ε → Prop}

theorem wpE.mono {R : α → σ → Prop} {F : ε → Prop} (h : wpE m s R F)
    (hQ : ∀ a s', R a s' → Q a s') (hE : ∀ e, F e → E e) : wpE m s Q E := by
  unfold wpE at h ⊢
  cases hm : m s with
  | error e => rw [hm] at h; exact hE e h
  | ok r => rw [hm] at h; exact hQ r.1 r.2 h

theorem wpE.and {R : α → σ → Prop} {F : ε → Prop} (h : wpE m s Q E) (h' : wpE m s R F) :
    wpE m s (fun a s' => Q a s' ∧ R a s') fun e => E e ∧ F e := by
  unfold wpE at h h' ⊢
  cases hm : m s with
  | error e =>
      rw [hm] at h h'
      exact ⟨h, h'⟩
  | ok r =>
      rw [hm] at h h'
      exact ⟨h, h'⟩

/-- A program that cannot stop returns. -/
theorem wpE.returns (h : wpE m s Q E) (hE : ∀ e, ¬ E e) : wp m s Q := by
  unfold wpE at h
  cases hm : m s with
  | error e => rw [hm] at h; exact absurd h (hE e)
  | ok r => rw [hm] at h; exact ⟨r.1, r.2, hm, h⟩

theorem wp_iff_wpE : wp m s Q ↔ wpE m s Q fun _ => False := by
  refine ⟨fun ⟨a, s', hm, hq⟩ => ?_, fun h => h.returns fun _ => id⟩
  unfold wpE
  rw [hm]
  exact hq

theorem wpE.of_ok {a : α} {s' : σ} (h : wpE m s Q E) (hm : m s = .ok (a, s')) : Q a s' := by
  unfold wpE at h
  rw [hm] at h
  exact h

theorem wpE.of_error {e : ε} (h : wpE m s Q E) (hm : m s = .error e) : E e := by
  unfold wpE at h
  rw [hm] at h
  exact h

@[simp] theorem wpE_pure {a : α} : wpE (pure a : Prog ε σ α) s Q E ↔ Q a s := Iff.rfl

@[simp] theorem wpE_get {Q : σ → σ → Prop} : wpE (get : Prog ε σ σ) s Q E ↔ Q s s := Iff.rfl

@[simp] theorem wpE_modify {f : σ → σ} {Q : PUnit → σ → Prop} :
    wpE (modify f : Prog ε σ PUnit) s Q E ↔ Q ⟨⟩ (f s) := Iff.rfl

@[simp] theorem wpE_throw {e : ε} : wpE (throw e : Prog ε σ α) s Q E ↔ E e := Iff.rfl

@[simp] theorem wpE_bind {m : Prog ε σ β} {f : β → Prog ε σ α} :
    wpE (m >>= f) s Q E ↔ wpE m s (fun b t => wpE (f b) t Q E) E := by
  have hbind : (m >>= f) s = (m s).bind fun r => f r.1 r.2 := rfl
  unfold wpE
  rw [hbind]
  cases m s with
  | error e => exact Iff.rfl
  | ok r => exact Iff.rfl

/-- One statement, by what is known about it, and then the rest. -/
theorem wpE_bind_of {m : Prog ε σ β} {f : β → Prog ε σ α} {R : β → σ → Prop} (h : wpE m s R E)
    (hf : ∀ b t, R b t → wpE (f b) t Q E) : wpE (m >>= f) s Q E :=
  wpE_bind.mpr (h.mono hf fun _ he => he)

/-- **Loop rule** for a loop over a given list. -/
theorem wpE_forM {ι : Type} {f : ι → Prog ε σ PUnit} (I : List ι → List ι → σ → Prop)
    (hstep : ∀ done x todo s, I done (x :: todo) s →
      wpE (f x) s (fun _ s' => I (done ++ [x]) todo s') E)
    {xs : List ι} {s : σ} (h : I [] xs s) : wpE (xs.forM f) s (fun _ s' => I xs [] s') E := by
  have main : ∀ (todo done : List ι) (s : σ), I done todo s →
      wpE (todo.forM f) s (fun _ s' => I (done ++ todo) [] s') E := by
    intro todo
    induction todo with
    | nil => exact fun done s hi => wpE_pure.mpr (by rwa [List.append_nil])
    | cons x todo ih =>
        intro done s hi
        rw [List.forM]
        refine wpE_bind_of (hstep done x todo s hi) fun _ s' hi' => ?_
        rw [← List.singleton_append, ← List.append_assoc]
        exact ih (done ++ [x]) s' hi'
  exact main xs [] s h

theorem wp_forM {ι : Type} {f : ι → Prog ε σ PUnit} (I : List ι → List ι → σ → Prop)
    (hstep : ∀ done x todo s, I done (x :: todo) s → wp (f x) s fun _ s' => I (done ++ [x]) todo s')
    {xs : List ι} {s : σ} (h : I [] xs s) : wp (xs.forM f) s fun _ s' => I xs [] s' :=
  wp_iff_wpE.mpr (wpE_forM I (fun done x todo s hi => wp_iff_wpE.mp (hstep done x todo s hi)) h)

end Errors

/-! ## a program next to another -/

/-- If `m` returns from `s`, then `n` returns from `t`, and `R` holds between them. -/
def Mirrors {δ : Type} (m : Prog ε σ α) (s : σ) (n : Prog δ τ β) (t : τ)
    (R : α → σ → β → τ → Prop) : Prop :=
  wpE m s (fun a s' => wp n t fun b t' => R a s' b t') fun _ => True

section Mirrors

variable {δ : Type} {m : Prog ε σ α} {s : σ} {n : Prog δ τ β} {t : τ}
  {R Q : α → σ → β → τ → Prop}

theorem Mirrors.mono (h : Mirrors m s n t R)
    (hQ : ∀ a s' b t', R a s' b t' → Q a s' b t') : Mirrors m s n t Q :=
  wpE.mono h (fun a s' hw => hw.mono fun b t' hr => hQ a s' b t' hr) fun _ he => he

/-- What is known of `m` alone. -/
theorem Mirrors.and {P : α → σ → Prop} {E : ε → Prop} (h : Mirrors m s n t R) (hP : wpE m s P E) :
    Mirrors m s n t fun a s' b t' => P a s' ∧ R a s' b t' := by
  refine wpE.mono (hP.and h) (fun a s' hw => ?_) fun _ _ => trivial
  exact hw.2.mono fun b t' hr => ⟨hw.1, hr⟩

/-- **Rule of sequence**, on both sides. -/
theorem Mirrors.bind {α' β' : Type} {f : α → Prog ε σ α'} {g : β → Prog δ τ β'}
    {Q : α' → σ → β' → τ → Prop} (h : Mirrors m s n t R)
    (hf : ∀ a s' b t', R a s' b t' → Mirrors (f a) s' (g b) t' Q) :
    Mirrors (m >>= f) s (n >>= g) t Q := by
  refine wpE_bind_of h fun a s' hw => ?_
  obtain ⟨b, t', hn, hr⟩ := hw
  refine wpE.mono (hf a s' b t' hr) (fun a' s'' hg => ?_) fun _ he => he
  exact wp_bind.mpr ⟨b, t', hn, hg⟩

/-- The other program goes on alone. -/
theorem Mirrors.bind_right {β' : Type} {g : β → Prog δ τ β'} {Q : α → σ → β' → τ → Prop}
    (h : Mirrors m s n t R) (hg : ∀ a s' b t', R a s' b t' → wp (g b) t' (Q a s')) :
    Mirrors m s (n >>= g) t Q :=
  wpE.mono h (fun a s' hw => wp_bind_of hw fun b t' hr => hg a s' b t' hr) fun _ he => he

/-- The other program does something first. -/
theorem Mirrors.skip_right {β' : Type} {n : Prog δ τ β'} {g : β' → Prog δ τ β} {P : β' → τ → Prop}
    (hn : wp n t P) (h : ∀ b t', P b t' → Mirrors m s (g b) t' R) :
    Mirrors m s (n >>= g) t R := by
  obtain ⟨b, t', hn, hp⟩ := hn
  exact wpE.mono (h b t' hp) (fun a s' hw => wp_bind.mpr ⟨b, t', hn, hw⟩) fun _ he => he

/-- A mirrored program returns when the other does. -/
theorem Mirrors.returns {P : α → σ → Prop} (h : Mirrors m s n t R) (hm : wp m s P) :
    wp n t fun b t' => ∃ a s', P a s' ∧ R a s' b t' := by
  obtain ⟨a, s', hm, hp⟩ := hm
  exact (wpE.of_ok h hm).mono fun b t' hr => ⟨a, s', hp, hr⟩

end Mirrors

end Xv6
