import Mathlib.Data.List.Chain
import Xv6.Ids

/-!
# Xv6.Ids.Interleave

Users and groups at the same time.

The two families share `dir` and `current_line`, so they can be used one after the
other only.  `getid_after_getgroup` is what happens otherwise: a `getgroup` between
two `getid`s reads a line of the users.  When a family is left only by its `endid` or
`endgroup` (`TakesTurns`), each family sees what it would see alone (`alone_of_turns`).
-/

namespace Xv6.Ids

/-- After another family's call, that call was its `endid` or `endgroup`. -/
def TakesTurns (a b : Call) : Prop := a.family = b.family ∨ a = .fin a.family

/-- The name in a record is the one that was returned. -/
def Kept (s : State) : Prop :=
  ∀ fam i name, s.held fam = some (i, name) → cstr s.current_line i = name

variable {files : Files} {s s' t : State} {c : Call}

/-- What a call adds to the history, and where it leaves the file, depends on the file
that is open only. -/
theorem step_congr (hdir : t.dir = s.dir) (h : step files s c = some s') :
    ∃ t' o, step files t c = some t' ∧ t'.dir = s'.dir ∧ s'.out = s.out ++ o ∧ t'.out = t.out ++ o ∧
      ∀ a ∈ o, a.1 = c.family := by
  cases c with
  | set fam =>
      obtain rfl := Option.some.inj h
      exact ⟨_, [], rfl, rfl, by simp, by simp, by simp⟩
  | fin fam =>
      obtain rfl := Option.some.inj h
      exact ⟨_, [], rfl, rfl, by simp, by simp, by simp⟩
  | get fam =>
      simp only [step] at h ⊢
      rw [hdir]
      cases hf : s.dir <|> files fam with
      | none =>
          simp only [hf] at h
          obtain rfl := Option.some.inj h
          exact ⟨_, [(fam, none)], rfl, rfl, rfl, rfl, by simp [Call.family]⟩
      | some f =>
          simp only [hf, State.read] at h ⊢
          cases he : getEntry fam f with
          | none => simp [he] at h
          | some e =>
              simp only [he, Option.bind_eq_bind, Option.bind_some, Option.pure_def,
                Option.some.injEq] at h ⊢
              subst h
              exact ⟨_, [(fam, e.record.map Prod.snd)], rfl, rfl, rfl, rfl, by simp [Call.family]⟩

/-! ## each family alone -/

/-- The run `t` of the calls of one family, next to the run `s` of all of them; `last` is
the last call of `s`. -/
structure Beside (fam : Family) (last : Option Call) (s t : State) : Prop where
  out : t.out = s.out.filter fun a => a.1 = fam
  same : (∀ c, last = some c → c.family = fam) → t.dir = s.dir
  other : ∀ c, last = some c → c.family ≠ fam → t.dir = none
  closed : (∀ c, last = some c → c = .fin c.family) → s.dir = none

theorem step_fin_dir {g : Family} (h : step files s (.fin g) = some s') : s'.dir = none := by
  obtain rfl := Option.some.inj h
  rfl

/-- A call of the other family. -/
theorem Beside.skip {fam : Family} {last : Option Call} (hb : Beside fam last s t)
    (hturn : ∀ a, last = some a → TakesTurns a c) (hc : c.family ≠ fam)
    (h : step files s c = some s') : Beside fam (some c) s' t := by
  obtain ⟨-, o, -, -, hout, -, ho⟩ := step_congr (t := s) rfl h
  refine ⟨?_, fun hall => absurd (hall c rfl) hc, fun _ _ _ => ?_, ?_⟩
  · have hnone : o.filter (fun a => a.1 = fam) = [] := by
      rw [List.filter_eq_nil_iff]
      intro a ha
      simpa [ho a ha] using hc
    rw [hout, List.filter_append, hnone, List.append_nil]
    exact hb.out
  · -- the family was left by its own end, or before
    cases last with
    | none =>
        rw [hb.same (by simp)]
        exact hb.closed (by simp)
    | some a =>
        by_cases ha : a.family = fam
        · have hfin := (hturn a rfl).resolve_left fun he => hc (he ▸ ha)
          rw [hb.same (by rintro _ ⟨⟩; exact ha)]
          exact hb.closed (by rintro _ ⟨⟩; exact hfin)
        · exact hb.other a rfl ha
  · intro hfin
    rw [hfin c rfl] at h
    exact step_fin_dir h

/-- A call of the family, in both runs. -/
theorem Beside.step {last : Option Call} (hb : Beside c.family last s t)
    (hturn : ∀ a, last = some a → TakesTurns a c) (h : Ids.step files s c = some s') :
    ∃ t', Ids.step files t c = some t' ∧ Beside c.family (some c) s' t' := by
  have hdir : t.dir = s.dir := by
    cases last with
    | none => exact hb.same (by simp)
    | some a =>
        by_cases ha : a.family = c.family
        · exact hb.same (by rintro _ ⟨⟩; exact ha)
        · have hfin := (hturn a rfl).resolve_left ha
          rw [hb.other a rfl ha, hb.closed (by rintro _ ⟨⟩; exact hfin)]
  obtain ⟨t', o, ht, hdir', hout, hout', ho⟩ := step_congr hdir h
  refine ⟨t', ht, ?_, fun _ => hdir', ?_, ?_⟩
  · have hall : o.filter (fun a => a.1 = c.family) = o := by
      rw [List.filter_eq_self]
      intro a ha
      simpa using ho a ha
    rw [hout, hout', List.filter_append, hall, hb.out]
  · rintro _ ⟨⟩ hne
    exact absurd rfl hne
  · intro hfin
    rw [hfin c rfl] at h
    exact step_fin_dir h

theorem isChain_tail {last : Option Call} {calls : List Call}
    (h : (last.toList ++ c :: calls).IsChain TakesTurns) :
    (∀ a, last = some a → TakesTurns a c) ∧ ((some c).toList ++ calls).IsChain TakesTurns := by
  cases last with
  | none => exact ⟨by simp, h⟩
  | some a =>
      obtain ⟨hturn, hrest⟩ := List.isChain_cons_cons.mp h
      exact ⟨by rintro _ ⟨⟩; exact hturn, hrest⟩

theorem Beside.run {fam : Family} {last : Option Call} {calls : List Call}
    (hb : Beside fam last s t) (hturns : (last.toList ++ calls).IsChain TakesTurns)
    (h : Run.exec (Ids.step files) s calls = some s') :
    ∃ t', Run.exec (Ids.step files) t (calls.filter fun c => c.family = fam) = some t' ∧
      t'.out = s'.out.filter fun a => a.1 = fam := by
  induction calls generalizing last s t with
  | nil =>
      obtain rfl := Option.some.inj h
      exact ⟨t, rfl, hb.out⟩
  | cons c calls ih =>
      obtain ⟨u, hu, h⟩ := Run.exec_cons_eq_some.mp h
      obtain ⟨hturn, hrest⟩ := isChain_tail hturns
      by_cases hc : c.family = fam
      · subst hc
        obtain ⟨t', ht, hb'⟩ := hb.step hturn hu
        obtain ⟨t'', ht', hout⟩ := ih hb' hrest h
        refine ⟨t'', ?_, hout⟩
        rw [List.filter_cons_of_pos (by simp), Run.exec_cons_eq_some]
        exact ⟨t', ht, ht'⟩
      · rw [List.filter_cons_of_neg (by simpa using hc)]
        exact ih (hb.skip hturn hc hu) hrest h

/-! ## names -/

theorem toRecord_name {line : List UInt8} {fam : Family} {tokens : List Nat}
    {r : Nat × Record} (h : toRecord line fam tokens = some r) : cstr line r.1 = r.2.name := by
  unfold toRecord at h
  split at h <;> simp only [Option.some.injEq, reduceCtorEq] at h
  all_goals
    subst h
    rfl

theorem getEntry_name {fam : Family} {f : List UInt8} {e : Entry} {r : Nat × Record}
    (h : getEntry fam f = some e) (hr : e.record = some r) : cstr e.line r.1 = r.2.name := by
  simp only [getEntry, Option.bind_eq_bind, Option.bind_eq_some_iff] at h
  obtain ⟨tokens, -, h⟩ := h
  split at h
  · obtain rfl := Option.some.inj h
    cases hr
  · simp only [Option.bind_eq_some_iff, Option.pure_def, Option.some.injEq] at h
    obtain ⟨r', hr', rfl⟩ := h
    obtain rfl := Option.some.inj hr
    exact toRecord_name hr'

/-- The names that are held are as they were returned, and belong to the last call. -/
structure Holding (last : Option Call) (s : State) : Prop where
  kept : Kept s
  last : ∀ fam, s.held fam ≠ none → last = some (.get fam)

theorem Holding.of_none {last : Option Call} (h : ∀ fam, s.held fam = none) : Holding last s where
  kept fam i name hheld := by simp [h fam] at hheld
  last fam hheld := absurd (h fam) hheld

theorem Holding.step {last : Option Call} (hh : Holding last s)
    (hturn : ∀ a, last = some a → TakesTurns a c) (h : Ids.step files s c = some s') :
    Holding (some c) s' := by
  -- the other family holds nothing
  have hother : ∀ fam, fam ≠ c.family → s.held fam = none := by
    intro fam hne
    by_contra hheld
    cases hturn _ (hh.last fam hheld) with
    | inl he => exact hne he
    | inr he => cases he
  have hdrop : ∀ fam, Function.update s.held c.family none fam = none := by
    intro fam
    by_cases hfam : fam = c.family
    · rw [hfam, Function.update_self]
    · rw [Function.update_of_ne hfam, hother fam hfam]
  cases c with
  | set fam =>
      obtain rfl := Option.some.inj h
      exact .of_none hdrop
  | fin fam =>
      obtain rfl := Option.some.inj h
      exact .of_none hdrop
  | get fam =>
      simp only [Ids.step] at h
      split at h
      next f _ =>
        simp only [State.read, Option.bind_eq_bind, Option.bind_eq_some_iff, Option.pure_def,
          Option.some.injEq] at h
        obtain ⟨e, he, rfl⟩ := h
        -- only the record of this call is held
        have hheld : ∀ g p, Function.update s.held fam (e.record.map fun r => (r.1, r.2.name)) g
            = some p → g = fam ∧ ∃ r, e.record = some r ∧ (r.1, r.2.name) = p := by
          intro g p hp
          by_cases hg : g = fam
          · subst hg
            rw [Function.update_self, Option.map_eq_some_iff] at hp
            exact ⟨rfl, hp⟩
          · rw [Function.update_of_ne hg, hother g hg] at hp
            cases hp
        constructor
        · intro g i name hp
          obtain ⟨-, r, hr, hri⟩ := hheld g _ hp
          cases hri
          exact getEntry_name he hr
        · intro g hg
          obtain ⟨p, hp⟩ := Option.ne_none_iff_exists'.mp hg
          rw [(hheld g p hp).1]
      next =>
        obtain rfl := Option.some.inj h
        exact .of_none hdrop

theorem Holding.along {last : Option Call} {calls : List Call} (hh : Holding last s)
    (hturns : (last.toList ++ calls).IsChain TakesTurns) :
    Run.Along (Ids.step files) Kept s calls := by
  induction calls generalizing last s with
  | nil => exact hh.kept
  | cons c calls ih =>
      obtain ⟨hturn, hrest⟩ := isChain_tail hturns
      exact ⟨hh.kept, fun t ht => ih (hh.step hturn ht) hrest⟩

/-! ## interference -/

/-- Two users and a group: `"a 1 1\nb 2 2\n"` and `"g 5\n"`. -/
def sample : Files
  | .id => some [0x61, 0x20, 0x31, 0x20, 0x31, 0x0a, 0x62, 0x20, 0x32, 0x20, 0x32, 0x0a]
  | .group => some [0x67, 0x20, 0x35, 0x0a]

/-- A `getgroup` between two `getid`s returns the second user as a group, and the second
`getid` is at the end of the file. -/
theorem getid_after_getgroup :
    (Run.exec (step sample) init [.get .id, .get .group, .get .id]).map State.out =
        some [(.id, some (.user [0x61] 1 1)), (.group, some (.group [0x62] 2)), (.id, none)] ∧
      (Run.exec (step sample) init [.get .id, .get .id]).map State.out =
        some [(.id, some (.user [0x61] 1 1)), (.id, some (.user [0x62] 2 2))] ∧
      ¬ Run.Along (step sample) Kept init [.get .id, .get .group] := by
  refine ⟨by decide +kernel, by decide +kernel, fun h => ?_⟩
  -- the first name is now that of the second user
  obtain ⟨s', hs, hheld⟩ := Run.exists_of_exec_any (step sample) init [.get .id, .get .group]
    (fun s' => s'.held .id = some (0, [0x61]) ∧ cstr s'.current_line 0 = [0x62])
    (by decide +kernel)
  simp only [decide_eq_true_eq] at hheld
  have hkept := h.last hs .id 0 [0x61] hheld.1
  rw [hheld.2] at hkept
  cases hkept

/-- **Each family sees what it would see alone**, and its names stay, when a family is
left only by its `endid` or `endgroup`. -/
theorem alone_of_turns (files : Files) (calls : List Call) (hturns : calls.IsChain TakesTurns) :
    (∀ s', Run.exec (step files) init calls = some s' → ∀ fam,
      ∃ t, Run.exec (step files) init (calls.filter fun c => c.family = fam) = some t ∧
        t.out = s'.out.filter fun a => a.1 = fam) ∧
    Run.Along (step files) Kept init calls := by
  constructor
  · intro s' h fam
    have hb : Beside fam none init init := by
      refine ⟨rfl, fun _ => rfl, ?_, fun _ => rfl⟩
      intro c hlast
      cases hlast
    exact hb.run hturns h
  · have hh : Holding none init := .of_none fun _ => rfl
    exact hh.along hturns

/-- Both users, and then the group. -/
theorem alone_of_turns_sample :
    [Call.get .id, .get .id, .fin .id, .set .group, .get .group].IsChain TakesTurns ∧
      ∃ s', Run.exec (step sample) init
          [.get .id, .get .id, .fin .id, .set .group, .get .group] = some s' ∧
        ∃ t, Run.exec (step sample) init [.set .group, .get .group] = some t ∧
          t.out = s'.out.filter (fun a => a.1 = .group) ∧
          t.out = [(.group, some (.group [0x67] 5))] := by
  have hturns : [Call.get .id, .get .id, .fin .id, .set .group, .get .group].IsChain
      TakesTurns := by
    simp [TakesTurns, Call.family]
  obtain ⟨s', hs, hout⟩ := Run.exists_of_exec_any (step sample) init
    [.get .id, .get .id, .fin .id, .set .group, .get .group]
    (fun s' => (s'.out.filter fun a => a.1 = .group) = [(.group, some (.group [0x67] 5))])
    (by decide +kernel)
  obtain ⟨t, ht, heq⟩ := (alone_of_turns sample _ hturns).1 s' hs .group
  exact ⟨hturns, s', hs, t, ht, heq, heq.trans (by simpa using hout)⟩

end Xv6.Ids
