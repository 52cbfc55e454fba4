import Mathlib.Data.List.Basic

/-!
# Xv6.Lib.Run

Runs of a transition system given by a partial step function
`step : σ → ι → Option σ` — a label is either enabled and has one successor,
or it is not enabled.  A *schedule* is a list of labels, so "every
interleaving" is "every schedule".

* `exec` replays a schedule;
* `Guarded` says that every step of a run meets a condition on its label and
  the state before it;
* `Along` says that every state of a run, the first and the last included,
  has a property;
* `Each` says that every step of a run stands in a relation;
* `Until` says that every state of a run has a property up to a step that
  stands in a relation;
* `exec_invariant`, `guarded_of_along`, `along_of_guarded`, `each_iff_guarded`
  and `until_of_step` are the induction rules, proved once here.
-/

namespace Xv6.Run

variable {σ : Type*} {ι : Type*}

/-- Replay a schedule; `none` as soon as a label is not enabled. -/
def exec (step : σ → ι → Option σ) : σ → List ι → Option σ
  | s, [] => some s
  | s, l :: ls => (step s l).bind fun s' => exec step s' ls

/-- Every step of the run meets `Ok`, a condition on the state before the
step and on its label. -/
def Guarded (step : σ → ι → Option σ) (Ok : σ → ι → Prop) : σ → List ι → Prop
  | _, [] => True
  | s, l :: ls => Ok s l ∧ ∀ s', step s l = some s' → Guarded step Ok s' ls

/-- Every state of the run has the property `P`. -/
def Along (step : σ → ι → Option σ) (P : σ → Prop) : σ → List ι → Prop
  | s, [] => P s
  | s, l :: ls => P s ∧ ∀ s', step s l = some s' → Along step P s' ls

/-- Every step of the run, from the state before it to the one after, is in `R`. -/
def Each (step : σ → ι → Option σ) (R : σ → ι → σ → Prop) : σ → List ι → Prop
  | _, [] => True
  | s, l :: ls => ∀ s', step s l = some s' → R s l s' ∧ Each step R s' ls

/-- Every state of the run has the property `P` up to a step in `R`, if there is one. -/
def Until (step : σ → ι → Option σ) (P : σ → Prop) (R : σ → ι → σ → Prop) : σ → List ι → Prop
  | s, [] => P s
  | s, l :: ls => P s ∧ ∀ s', step s l = some s' → R s l s' ∨ Until step P R s' ls

/-- A run can be checked against a decidable condition. -/
instance decidableGuarded (step : σ → ι → Option σ) (Ok : σ → ι → Prop)
    [∀ s l, Decidable (Ok s l)] : ∀ s ls, Decidable (Guarded step Ok s ls)
  | _, [] => isTrue trivial
  | s, l :: ls =>
      match h : step s l with
      | none => decidable_of_iff (Ok s l) (by simp [Guarded, h])
      | some t =>
          have := decidableGuarded step Ok t ls
          decidable_of_iff (Ok s l ∧ Guarded step Ok t ls) (by simp [Guarded, h])

/-- Some schedule leads from `s` to `s'`. -/
def Reachable (step : σ → ι → Option σ) (s s' : σ) : Prop :=
  ∃ ls, exec step s ls = some s'

section Rules

variable {step : σ → ι → Option σ} {G N : σ → ι → Prop} {P I : σ → Prop} {R : σ → ι → σ → Prop}

@[simp] theorem exec_nil (s : σ) : exec step s [] = some s := rfl

theorem exec_cons (s : σ) (l : ι) (ls : List ι) :
    exec step s (l :: ls) = (step s l).bind fun s' => exec step s' ls := rfl

/-- A run of a non-empty schedule is a step followed by a run. -/
theorem exec_cons_eq_some {s s' : σ} {l : ι} {ls : List ι} :
    exec step s (l :: ls) = some s' ↔ ∃ t, step s l = some t ∧ exec step t ls = some s' := by
  rw [exec_cons, Option.bind_eq_some_iff]

theorem exec_append (s : σ) (ls ms : List ι) :
    exec step s (ls ++ ms) = (exec step s ls).bind fun s' => exec step s' ms := by
  induction ls generalizing s with
  | nil => rfl
  | cons l ls ih =>
      rw [List.cons_append, exec_cons, exec_cons, Option.bind_assoc]
      congr 1
      funext s'
      exact ih s'

/-- A run that ends in a state with a decidable property, computed. -/
theorem exists_of_exec_any (step : σ → ι → Option σ) (s : σ) (ls : List ι) (p : σ → Bool)
    (h : (exec step s ls).any p = true) : ∃ s', exec step s ls = some s' ∧ p s' = true := by
  cases he : exec step s ls with
  | none => simp [he] at h
  | some s' => exact ⟨s', rfl, by simpa [he] using h⟩

/-- **Invariant rule**: what one step meeting `G` preserves, a run whose
steps all meet `G` preserves. -/
theorem exec_invariant
    (hstep : ∀ s l s', I s → G s l → step s l = some s' → I s')
    {s s' : σ} {ls : List ι} (hs : I s) (hg : Guarded step G s ls)
    (h : exec step s ls = some s') : I s' := by
  induction ls generalizing s with
  | nil =>
      rw [exec_nil, Option.some.injEq] at h
      exact h ▸ hs
  | cons l ls ih =>
      obtain ⟨t, ht, h⟩ := exec_cons_eq_some.mp h
      exact ih (hstep s l t hs hg.1 ht) (hg.2 t ht) h

/-- A condition on labels alone is met step by step. -/
theorem guarded_of_forall_mem {s : σ} {ls : List ι} (h : ∀ l ∈ ls, ∀ t, G t l) :
    Guarded step G s ls := by
  induction ls generalizing s with
  | nil => trivial
  | cons l ls ih =>
      exact ⟨h l List.mem_cons_self s, fun t _ => ih fun m hm => h m (List.mem_cons_of_mem l hm)⟩

theorem Guarded.and {s : σ} {ls : List ι} (h : Guarded step G s ls) (h' : Guarded step N s ls) :
    Guarded step (fun s l => G s l ∧ N s l) s ls := by
  induction ls generalizing s with
  | nil => trivial
  | cons l ls ih => exact ⟨⟨h.1, h'.1⟩, fun t ht => ih (h.2 t ht) (h'.2 t ht)⟩

/-- The invariant rule without a condition on the steps. -/
theorem reachable_invariant (hstep : ∀ s l s', I s → step s l = some s' → I s')
    {s s' : σ} (hs : I s) (h : Reachable step s s') : I s' := by
  obtain ⟨ls, h⟩ := h
  exact exec_invariant (G := fun _ _ => True) (fun s l s' hs _ h => hstep s l s' hs h) hs
    (guarded_of_forall_mem fun _ _ _ => trivial) h

/-- A property that follows from an invariant holds in every state of a run
whose steps all meet `G`. -/
theorem along_of_guarded
    (hstep : ∀ s l s', I s → G s l → step s l = some s' → I s')
    (hP : ∀ s, I s → P s) {s : σ} {ls : List ι} (hs : I s) (hg : Guarded step G s ls) :
    Along step P s ls := by
  induction ls generalizing s with
  | nil => exact hP s hs
  | cons l ls ih => exact ⟨hP s hs, fun t ht => ih (hstep s l t hs hg.1 ht) (hg.2 t ht)⟩

/-- The same without a condition on the steps. -/
theorem along_of_step (hstep : ∀ s l s', I s → step s l = some s' → I s') (hP : ∀ s, I s → P s)
    {s : σ} {ls : List ι} (hs : I s) : Along step P s ls :=
  along_of_guarded (G := fun _ _ => True) (fun s l s' hs _ h => hstep s l s' hs h) hP hs
    (guarded_of_forall_mem fun _ _ _ => trivial)

/-- The converse rule: when a step that fails `G` always leads out of `P`,
a run that stays in `P` has met `G` at every step. -/
theorem guarded_of_along
    (hstep : ∀ s l s', I s → G s l → step s l = some s' → I s')
    (hbad : ∀ s l, I s → ¬ G s l → ∃ s', step s l = some s' ∧ ¬ P s')
    {s : σ} {ls : List ι} (hs : I s) (h : Along step P s ls) : Guarded step G s ls := by
  induction ls generalizing s with
  | nil => trivial
  | cons l ls ih =>
      have hok : G s l := by
        by_contra hn
        obtain ⟨t, ht, hnt⟩ := hbad s l hs hn
        have hP : P t := by
          have hAt := h.2 t ht
          cases ls with
          | nil => exact hAt
          | cons m ms => exact hAt.1
        exact hnt hP
      exact ⟨hok, fun t ht => ih (hstep s l t hs hok ht) (h.2 t ht)⟩

/-- On runs whose steps all meet `N`: the steps are in `R` exactly if they meet `G`,
when it is so for a single step. -/
theorem each_iff_guarded
    (hstep : ∀ s l s', I s → N s l → G s l → step s l = some s' → R s l s' ∧ I s')
    (hbad : ∀ s l, I s → ¬ G s l → ∃ s', step s l = some s' ∧ ¬ R s l s')
    {s : σ} {ls : List ι} (hs : I s) (hn : Guarded step N s ls) :
    Each step R s ls ↔ Guarded step G s ls := by
  induction ls generalizing s with
  | nil => exact Iff.rfl
  | cons l ls ih =>
      constructor
      · intro heach
        have hok : G s l := by
          by_contra hno
          obtain ⟨t, ht, hnt⟩ := hbad s l hs hno
          exact hnt (heach t ht).1
        refine ⟨hok, fun t ht => ?_⟩
        exact (ih (hstep s l t hs hn.1 hok ht).2 (hn.2 t ht)).mp (heach t ht).2
      · intro hg t ht
        obtain ⟨hR, hI⟩ := hstep s l t hs hn.1 hg.1 ht
        exact ⟨hR, (ih hI (hn.2 t ht)).mpr (hg.2 t ht)⟩

/-- A run whose steps all meet `G` does not stop, if no step that meets `G` does. -/
theorem exec_total (hstep : ∀ s l, I s → G s l → ∃ s', step s l = some s' ∧ I s')
    {s : σ} {ls : List ι} (hs : I s) (hg : Guarded step G s ls) :
    ∃ s', exec step s ls = some s' := by
  induction ls generalizing s with
  | nil => exact ⟨s, rfl⟩
  | cons l ls ih =>
      obtain ⟨t, ht, hI⟩ := hstep s l hs hg.1
      obtain ⟨s', h⟩ := ih hI (hg.2 t ht)
      exact ⟨s', exec_cons_eq_some.mpr ⟨t, ht, h⟩⟩

/-- What one step meeting `G` gives and keeps, every step of a run whose steps all
meet `G` gives. -/
theorem each_of_guarded (hstep : ∀ s l s', I s → G s l → step s l = some s' → R s l s' ∧ I s')
    {s : σ} {ls : List ι} (hs : I s) (hg : Guarded step G s ls) : Each step R s ls := by
  induction ls generalizing s with
  | nil => trivial
  | cons l ls ih =>
      intro t ht
      obtain ⟨hR, hI⟩ := hstep s l t hs hg.1 ht
      exact ⟨hR, ih hI (hg.2 t ht)⟩

/-- What one step gives and keeps, every step of a run gives. -/
theorem each_of_step (hstep : ∀ s l s', I s → step s l = some s' → R s l s' ∧ I s') {s : σ}
    {ls : List ι} (hs : I s) : Each step R s ls := by
  induction ls generalizing s with
  | nil => trivial
  | cons l ls ih => exact fun t ht => ⟨(hstep s l t hs ht).1, ih (hstep s l t hs ht).2⟩

/-- What every step keeps, but for those in `R`, holds until one of those. -/
theorem until_of_step (hstep : ∀ s l s', I s → step s l = some s' → R s l s' ∨ I s')
    (hP : ∀ s, I s → P s) {s : σ} {ls : List ι} (hs : I s) : Until step P R s ls := by
  induction ls generalizing s with
  | nil => exact hP s hs
  | cons l ls ih => exact ⟨hP s hs, fun t ht => (hstep s l t hs ht).imp_right ih⟩

/-- The last state of a run has the property its states all have. -/
theorem Along.last {s s' : σ} {ls : List ι} (h : Along step P s ls)
    (hr : exec step s ls = some s') : P s' := by
  induction ls generalizing s with
  | nil =>
      rw [exec_nil, Option.some.injEq] at hr
      exact hr ▸ h
  | cons l ls ih =>
      obtain ⟨t, ht, hr⟩ := exec_cons_eq_some.mp hr
      exact ih (h.2 t ht) hr

end Rules

end Xv6.Run
