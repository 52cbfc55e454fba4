import Xv6.Lib.Prog

/-!
# Xv6.Lib.Ghost

Programs that take notes: the state has a part that the program works on, `view`, and
notes beside it.

* `Forgets view m' m` says that `m'`, with its notes forgotten, is `m`; it has a rule for
  each way to write a program;
* `Forgets.wpE` carries over what is known about `m`.
-/

namespace Xv6

variable {ε σ τ α β : Type} {view : τ → σ}

/-- Without the notes, `m'` is `m`. -/
def Forgets (view : τ → σ) (m' : Prog ε τ α) (m : Prog ε σ α) : Prop :=
  ∀ t, (m' t).map (fun r => (r.1, view r.2)) = m (view t)

theorem forgets_pure (a : α) : Forgets (ε := ε) view (pure a) (pure a) := fun _ => rfl

theorem forgets_throw (e : ε) :
    Forgets view (throw e : Prog ε τ α) (throw e : Prog ε σ α) := fun _ => rfl

theorem forgets_focus {put : σ → τ → τ} (hput : ∀ s t, view (put s t) = s) (m : Prog ε σ α) :
    Forgets view (focus view put m) m := by
  intro t
  unfold focus
  cases m (view t) with
  | error e => rfl
  | ok r => simp [Except.map, hput]

/-- A note leaves no trace. -/
theorem forgets_note {f : τ → τ} (hf : ∀ t, view (f t) = view t) :
    Forgets (ε := ε) view (modify f) (pure ⟨⟩) := by
  intro t
  change Except.ok (PUnit.unit, view (f t)) = Except.ok (PUnit.unit, view t)
  rw [hf]

theorem Forgets.bind {m' : Prog ε τ α} {m : Prog ε σ α} {f' : α → Prog ε τ β}
    {f : α → Prog ε σ β} (hm : Forgets view m' m) (hf : ∀ a, Forgets view (f' a) (f a)) :
    Forgets view (m' >>= f') (m >>= f) := by
  intro t
  have hbind : (m' >>= f') t = (m' t).bind fun r => f' r.1 r.2 := rfl
  have hbind' : (m >>= f) (view t) = (m (view t)).bind fun r => f r.1 r.2 := rfl
  rw [hbind, hbind', ← hm t]
  cases m' t with
  | error e => rfl
  | ok r => exact hf r.1 r.2

theorem Forgets.wpE {m' : Prog ε τ α} {m : Prog ε σ α} {t : τ} {Q : α → σ → Prop}
    {E : ε → Prop} (h : Forgets view m' m) (hm : wpE m (view t) Q E) :
    Xv6.wpE m' t (fun a t' => Q a (view t')) E := by
  have ht := h t
  unfold Xv6.wpE at hm ⊢
  rw [← ht] at hm
  cases hm' : m' t with
  | error e => rwa [hm'] at hm
  | ok r => rwa [hm'] at hm

end Xv6
