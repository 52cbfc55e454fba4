import Xv6.Lib.Prog

/-!
# Xv6.Lib.Footprint

Programs that use a memory, with a record of the addresses they use.

* `Memory A V σ` is a memory with addresses `A` and values `V`, the addresses used
  so far, and other state;
* `MemProg` is a program over it; when it stops, its error has the state it stopped
  in, so that the record is not lost;
* `accesses m s` are the addresses that `m` uses from `s`, whether it returns or
  stops;
* `WithinAt P m s` says that they all satisfy `P`;
* `Within P m` says so for every state `s`, and has a rule for each way to write a
  program.
-/

namespace Xv6

/-- A memory, the addresses used so far, and other state. -/
structure Memory (A V σ : Type) where
  mem : A → V
  touched : List A
  rest : σ

/-- A program over a memory. -/
abbrev MemProg (ε A V σ α : Type) := Prog (ε × Memory A V σ) (Memory A V σ) α

namespace MemProg

variable {ε A V σ α β ι : Type}

/-- Stop where the program is. -/
def stop (e : ε) : MemProg ε A V σ α := fun s => .error (e, s)

def load (a : A) : MemProg ε A V σ V := fun s => .ok (s.mem a, { s with touched := s.touched ++ [a] })

def store [DecidableEq A] (a : A) (v : V) : MemProg ε A V σ Unit := fun s =>
  .ok ((), { s with mem := Function.update s.mem a v, touched := s.touched ++ [a] })

/-- The other state. -/
def rest : MemProg ε A V σ σ := fun s => .ok (s.rest, s)

def modifyRest (f : σ → σ) : MemProg ε A V σ Unit := fun s => .ok ((), { s with rest := f s.rest })

/-- Code that does not know about the memory; when it stops, the other state is as
it was before. -/
def onRest {δ τ : Type} (err : δ → ε) (get : σ → τ) (put : τ → σ → σ) (m : Prog δ τ α) :
    MemProg ε A V σ α := fun s =>
  match m (get s.rest) with
  | .ok (a, t) => .ok (a, { s with rest := put t s.rest })
  | .error e => .error (err e, s)

/-- Where the program ends or stops. -/
def final (m : MemProg ε A V σ α) (s : Memory A V σ) : Memory A V σ :=
  match m s with
  | .ok (_, s') => s'
  | .error (_, s') => s'

/-- The addresses that a program uses. -/
def accesses (m : MemProg ε A V σ α) (s : Memory A V σ) : List A :=
  (final m { s with touched := [] }).touched

/-- Every address that was used from `s` to `s'` satisfies `P`. -/
def Grew (P : A → Prop) (s s' : Memory A V σ) : Prop := ∀ a ∈ s'.touched, a ∈ s.touched ∨ P a

/-- From `s`, the program uses addresses that satisfy `P` only. -/
structure WithinAt (P : A → Prop) (m : MemProg ε A V σ α) (s : Memory A V σ) : Prop where
  grew : wpE m s (fun _ s' => Grew P s s') fun e => Grew P s e.2

/-- From every state, the program uses addresses that satisfy `P` only. -/
def Within (P : A → Prop) (m : MemProg ε A V σ α) : Prop := ∀ s, WithinAt P m s

section Rules

variable {P : A → Prop} {m : MemProg ε A V σ α} {s s' : Memory A V σ}

theorem Grew.of_eq (h : s'.touched = s.touched) : Grew P s s' := fun _ ha => .inl (h ▸ ha)

theorem Grew.snoc {a : A} (h : s'.touched = s.touched ++ [a]) (ha : P a) : Grew P s s' := by
  intro b hb
  rw [h, List.mem_append, List.mem_singleton] at hb
  cases hb with
  | inl hb => exact .inl hb
  | inr hb => exact .inr (hb ▸ ha)

theorem Grew.trans {s'' : Memory A V σ} (h : Grew P s s') (h' : Grew P s' s'') : Grew P s s'' :=
  fun a ha => (h' a ha).elim (h a) .inr

theorem WithinAt.of_accesses (h : WithinAt P m { s with touched := [] }) :
    ∀ a ∈ accesses m s, P a := by
  intro a ha
  have hs := h.grew
  unfold accesses final at ha
  unfold wpE at hs
  cases hm : m { s with touched := [] } with
  | ok r =>
      rw [hm] at ha hs
      exact (hs a ha).resolve_left List.not_mem_nil
  | error e =>
      rw [hm] at ha hs
      exact (hs a ha).resolve_left List.not_mem_nil

/-- What a program that returns has used. -/
theorem accesses_of_wp {xs : List A}
    (h : wp m { s with touched := [] } fun _ s' => s'.touched = xs) : accesses m s = xs := by
  obtain ⟨a, s', hm, rfl⟩ := h
  rw [accesses, final, hm]

theorem within_pure (a : α) : Within P (pure a : MemProg ε A V σ α) :=
  fun _ => ⟨.of_eq rfl⟩

/-- **Rule of sequence.** -/
theorem WithinAt.bind {f : α → MemProg ε A V σ β} (hm : WithinAt P m s)
    (hf : ∀ a s', m s = .ok (a, s') → WithinAt P (f a) s') : WithinAt P (m >>= f) s := by
  constructor
  have h := hm.grew
  rw [wpE_bind]
  unfold wpE at h ⊢
  cases hr : m s with
  | error e =>
      rw [hr] at h
      exact h
  | ok r =>
      rw [hr] at h
      exact (hf r.1 r.2 hr).grew.mono (fun _ _ h' => h.trans h') fun _ h' => h.trans h'

theorem Within.bind {f : α → MemProg ε A V σ β} (hm : Within P m) (hf : ∀ a, Within P (f a)) :
    Within P (m >>= f) := fun s => (hm s).bind fun a s' _ => hf a s'

theorem withinAt_get_bind {f : Memory A V σ → MemProg ε A V σ α} (h : WithinAt P (f s) s) :
    WithinAt P (get >>= f) s := ⟨h.grew⟩

theorem within_stop (e : ε) : Within P (stop e : MemProg ε A V σ α) :=
  fun _ => ⟨.of_eq rfl⟩

theorem within_load {a : A} (ha : P a) : Within P (load a : MemProg ε A V σ V) :=
  fun _ => ⟨.snoc rfl ha⟩

theorem within_store [DecidableEq A] {a : A} (ha : P a) (v : V) :
    Within P (store a v : MemProg ε A V σ Unit) := fun _ => ⟨.snoc rfl ha⟩

theorem within_rest : Within P (rest : MemProg ε A V σ σ) := fun _ => ⟨.of_eq rfl⟩

theorem within_modifyRest (f : σ → σ) : Within P (modifyRest f : MemProg ε A V σ Unit) :=
  fun _ => ⟨.of_eq rfl⟩

theorem within_onRest {δ τ : Type} (err : δ → ε) (get : σ → τ) (put : τ → σ → σ)
    (m : Prog δ τ α) : Within P (onRest err get put m : MemProg ε A V σ α) := by
  intro s
  constructor
  unfold wpE onRest
  cases m (get s.rest) with
  | ok r => exact .of_eq rfl
  | error e => exact .of_eq rfl

/-- What code on the rest does. -/
theorem wp_onRest {δ τ : Type} {err : δ → ε} {get : σ → τ} {put : τ → σ → σ} {m : Prog δ τ α}
    {Q : α → Memory A V σ → Prop}
    (h : wp m (get s.rest) fun a t => Q a { s with rest := put t s.rest }) :
    wp (onRest err get put m) s Q := by
  obtain ⟨a, t, hm, hq⟩ := h
  refine ⟨a, _, ?_, hq⟩
  unfold onRest
  rw [hm]

theorem Within.ite {c : Prop} [Decidable c] {n : MemProg ε A V σ α} (hm : c → Within P m)
    (hn : ¬ c → Within P n) : Within P (if c then m else n) := by
  split
  · next h => exact hm h
  · next h => exact hn h

/-- **Loop rule** for a loop over a given list. -/
theorem within_forM {f : ι → MemProg ε A V σ PUnit} {xs : List ι}
    (hf : ∀ x ∈ xs, Within P (f x)) : Within P (xs.forM f) := by
  induction xs with
  | nil => exact within_pure _
  | cons x xs ih =>
      rw [List.forM]
      exact (hf x List.mem_cons_self).bind fun _ => ih fun y hy => hf y (List.mem_cons_of_mem x hy)

end Rules

end MemProg

end Xv6
