import Xv6.Ptable.Clean
import Xv6.Ptable.Counters

/-!
# Xv6.Ptable.Pids

Pids and the counter `nextpid` they are taken from.  The counter is never compared
with the pids in use, and after 2 ^ 32 allocations it comes round to 0 and to the
pids of processes that are still there.

* `pids_unique_iff`: in a run from the boot on, pids identify processes in every
  state exactly if every new process is given a pid that is not 0 and not in use, and
  so it is as long as the counter has not come round;
* `pids_collide`: a run in which a child of the first process has its pid.
-/

namespace Xv6.Ptable

open Run

variable {NPROC MAX NCPU : Nat}

/-! ## the property -/

/-- The pids of slots in use are not 0, and no two slots in use share one. -/
structure Lives.PidsUnique (v : Lives NPROC) : Prop where
  nonzero : ∀ p, (v p).state ≠ .UNUSED → (v p).pid ≠ 0
  unique : ∀ p q, (v p).state ≠ .UNUSED → (v q).state ≠ .UNUSED → (v p).pid = (v q).pid → p = q

/-- **Pids identify processes**: what `kill`, `setpriority` and the result of `wait`
rely on. -/
def PidsUnique (s : Kern NPROC MAX NCPU) : Prop := s.lives.PidsUnique

/-- A process is made: a pid is taken, and there is memory. -/
def Makes (s : Kern NPROC MAX NCPU) (op : Op NPROC MAX NCPU) : Prop :=
  TakesPid s op ∧
    match op with
    | .allocproc kalloc => kalloc ≠ none
    | .fork _ kalloc copyuvm => kalloc ≠ none ∧ copyuvm ≠ none
    | _ => False

/-- The next pid is not 0, and nobody has it. -/
def Kern.FreshPid (s : Kern NPROC MAX NCPU) : Prop :=
  s.nextpid ≠ 0 ∧ ∀ p, (s.proc p).state ≠ .UNUSED → (s.proc p).pid ≠ s.nextpid

/-- An operation that makes a process finds a fresh pid. -/
def FreshStep (s : Kern NPROC MAX NCPU) (op : Op NPROC MAX NCPU) : Prop :=
  Makes s op → s.FreshPid

/-- The counter has not come round when a pid is taken. -/
def NotRound (s : Kern NPROC MAX NCPU) (op : Op NPROC MAX NCPU) : Prop :=
  TakesPid s op → s.nextpid ≠ 0

/-! ## what keeps it -/

section Keep

variable {v w : Lives NPROC} {p : Fin NPROC} {l : Life NPROC}

/-- A slot in use in `w` was in use in `v`, with the same pid. -/
def Lives.OldPids (v w : Lives NPROC) : Prop :=
  ∀ q, (w q).state ≠ .UNUSED → (v q).state ≠ .UNUSED ∧ (w q).pid = (v q).pid

theorem Lives.OldPids.refl (v : Lives NPROC) : v.OldPids v := fun _ hq => ⟨hq, rfl⟩

theorem Lives.OldPids.trans {u : Lives NPROC} (h : u.OldPids v) (h' : v.OldPids w) :
    u.OldPids w := fun q hq =>
  ⟨(h q (h' q hq).1).1, (h' q hq).2.trans (h q (h' q hq).1).2⟩

/-- One process changes and keeps its pid. -/
theorem Lives.OldPids.update
    (hl : l.state ≠ .UNUSED → (v p).state ≠ .UNUSED ∧ l.pid = (v p).pid) :
    v.OldPids (Function.update v p l) := by
  intro q hq
  by_cases hqp : q = p
  · subst hqp
    rw [Function.update_self] at hq ⊢
    exact hl hq
  · rw [Function.update_of_ne hqp] at hq ⊢
    exact ⟨hq, rfl⟩

@[simp] theorem Lives.wake_pid {c : Option (Chan NPROC)} : (v.wake c p).pid = (v p).pid := by
  unfold Lives.wake
  split <;> rfl

@[simp] theorem Lives.tell_pid {me : Fin NPROC} {init : Option (Fin NPROC)} :
    (v.tell me init p).pid = (v p).pid := by
  unfold Lives.tell
  split
  · exact Lives.wake_pid
  · rfl

@[simp] theorem Lives.adopt_pid {me : Fin NPROC} {init : Option (Fin NPROC)} :
    (v.adopt me init p).pid = (v p).pid := by
  unfold Lives.adopt
  split <;> rfl

theorem Lives.oldPids_wake (c : Option (Chan NPROC)) : v.OldPids (v.wake c) := by
  intro q hq
  refine ⟨?_, Lives.wake_pid⟩
  unfold Lives.wake at hq
  split at hq
  · next hc =>
    rw [hc.1]
    decide
  · exact hq

theorem Lives.oldPids_tell (me : Fin NPROC) (init : Option (Fin NPROC)) :
    v.OldPids (v.tell me init) := by
  unfold Lives.tell
  split
  · exact Lives.oldPids_wake _
  · exact .refl v

theorem Lives.oldPids_adopt (me : Fin NPROC) (init : Option (Fin NPROC)) :
    v.OldPids (v.adopt me init) := by
  intro q hq
  refine ⟨?_, Lives.adopt_pid⟩
  unfold Lives.adopt at hq
  split at hq
  · exact hq
  · exact hq

theorem Lives.oldPids_exit {me : Fin NPROC} {init : Option (Fin NPROC)}
    (hrun : (v me).state = .RUNNING) : v.OldPids (v.exit me init) := by
  have hclose : v.OldPids (v.close me) := .update fun hl => ⟨hl, rfl⟩
  have hothers := ((hclose.trans (Lives.oldPids_wake ((v me).parent.map .proc))).trans
    (Lives.oldPids_tell me init)).trans (Lives.oldPids_adopt me init)
  intro q hq
  by_cases hqm : q = me
  · subst hqm
    refine ⟨by rw [hrun]; decide, ?_⟩
    simp [Lives.exit, Lives.close]
  · simp only [Lives.exit, Function.update_of_ne hqm] at hq ⊢
    exact hothers q hq

theorem Lives.PidsUnique.old (h : v.PidsUnique) (hw : v.OldPids w) : w.PidsUnique := by
  constructor
  · intro p hp
    rw [(hw p hp).2]
    exact h.nonzero p (hw p hp).1
  · intro p q hp hq heq
    rw [(hw p hp).2, (hw q hq).2] at heq
    exact h.unique p q (hw p hp).1 (hw q hq).1 heq

/-- A slot comes into use with a fresh pid. -/
theorem Lives.PidsUnique.add (h : v.PidsUnique) (hzero : l.pid ≠ 0)
    (hfresh : ∀ q, (v q).state ≠ .UNUSED → (v q).pid ≠ l.pid) :
    Lives.PidsUnique (Function.update v p l) := by
  constructor
  · intro q hq
    by_cases hqp : q = p
    · subst hqp
      rw [Function.update_self]
      exact hzero
    · rw [Function.update_of_ne hqp] at hq ⊢
      exact h.nonzero q hq
  · intro q r hq hr heq
    by_cases hqp : q = p
    · by_cases hrp : r = p
      · rw [hqp, hrp]
      · rw [hqp, Function.update_self, Function.update_of_ne hrp] at heq
        rw [Function.update_of_ne hrp] at hr
        exact absurd heq.symm (hfresh r hr)
    · by_cases hrp : r = p
      · rw [hrp, Function.update_self, Function.update_of_ne hqp] at heq
        rw [Function.update_of_ne hqp] at hq
        exact absurd heq (hfresh q hq)
      · rw [Function.update_of_ne hqp] at hq heq
        rw [Function.update_of_ne hrp] at hr heq
        exact h.unique q r hq hr heq

end Keep

/-! ## steps -/

section Steps

variable {s s' : Kern NPROC MAX NCPU} {t : Table NPROC MAX} {op : Op NPROC MAX NCPU}

/-- **What a step does to pids**: nothing, or a new process has the next one. -/
theorem step_pids (h : Inv s t) (hs : step s op = some s') :
    s.lives.OldPids s'.lives ∨ Makes s op ∧ ∃ p l, (s.lives p).state = .UNUSED ∧
      s'.lives = Function.update s.lives p l ∧ l.state ≠ .UNUSED ∧ l.pid = s.nextpid := by
  have heffect := (step_effect h hs).1
  have hrun {c : Fin NCPU} {me : Fin NPROC} (hme : s.cpus c = some me) :
      (s.lives me).state ≠ .UNUSED := by
    rw [h.state_eq, h.running c me hme]
    decide
  generalize s'.lives = v at heffect
  cases heffect with
  | same => exact .inl (.refl _)
  | alloc hp =>
      exact .inr ⟨⟨head_free_ne_none h hp, by simp⟩, _, _, hp, rfl, by simp [Life.alloc], rfl⟩
  | allocFail hp => exact .inl (.update fun hl => absurd rfl hl)
  | forkAllocFail hp => exact .inl (.update fun hl => absurd rfl hl)
  | forkFail hp => exact .inl (.update fun hl => absurd rfl hl)
  | fork hme hp =>
      exact .inr ⟨⟨⟨by simp [hme], head_free_ne_none h hp⟩, by simp⟩, _, _, hp, rfl, by simp, rfl⟩
  | exit hme hinit =>
      refine .inl (Lives.oldPids_exit ?_)
      rw [h.state_eq]
      exact h.running _ _ hme
  | reap hme hp hpar => exact .inl (.update fun hl => absurd rfl hl)
  | wait hme hkids => exact .inl (.update fun _ => ⟨hrun hme, rfl⟩)
  | dispatch hp chan hchan => exact .inl (.update fun _ => ⟨by rw [hp]; decide, rfl⟩)
  | yield hme => exact .inl (.update fun _ => ⟨hrun hme, rfl⟩)
  | sleep hme => exact .inl (.update fun _ => ⟨hrun hme, rfl⟩)
  | wakeup => exact .inl (Lives.oldPids_wake _)
  | @kill pid p hp =>
      refine .inl (.update fun hl => ⟨fun hfree => hl ?_, rfl⟩)
      unfold Life.kill
      dsimp only
      rw [if_neg (by rw [hfree]; decide)]
      exact hfree

theorem step_pidsUnique (h : Inv s t) (hpids : PidsUnique s) (hop : FreshStep s op)
    (hs : step s op = some s') : PidsUnique s' := by
  unfold PidsUnique at hpids ⊢
  cases step_pids h hs with
  | inl hold => exact hpids.old hold
  | inr hnew =>
      obtain ⟨hmakes, p, l, -, hlives, -, hpid⟩ := hnew
      obtain ⟨hzero, hfresh⟩ := hop hmakes
      rw [hlives]
      rw [← hpid] at hzero hfresh
      exact hpids.add hzero hfresh

/-- **Making a process** succeeds and gives it the next pid. -/
theorem step_makes (h : Inv s t) (hop : Makes s op) : ∃ s', step s op = some s' ∧
    ∃ p l, (s.lives p).state = .UNUSED ∧ s'.lives = Function.update s.lives p l ∧
      l.state ≠ .UNUSED ∧ l.pid = s.nextpid := by
  cases op with
  | allocproc kalloc =>
      obtain ⟨hfree, hsome⟩ := hop
      refine step_intro rfl (wp_discard ((allocproc_spec h.becomes h.wf.listed kalloc).mono ?_))
      rintro _ s' (⟨hnil, -, -⟩ | ⟨p, zs, hcons, hnone, -⟩ | ⟨p, zs, a, hcons, rfl, -, hb⟩)
      · exact absurd (by rw [h.becomes.head_eq, hnil]; rfl) hfree
      · exact absurd hnone hsome
      · refine ⟨p, (s.lives p).alloc s.nextpid a, h.unused hcons, ?_, by simp [Life.alloc], rfl⟩
        rw [hb.lives_eq, Table.lives_alloc, ← h.lives_eq]
  | fork c kalloc copyuvm =>
      obtain ⟨⟨hidle, hfree⟩, hsome, hsome'⟩ := hop
      obtain ⟨me, hme⟩ := Option.ne_none_iff_exists'.mp hidle
      refine step_intro (by simp only [Op.code, hme, Option.map_some])
        (wp_discard ((fork_spec h.becomes h.wf (h.running c me hme) kalloc copyuvm).mono ?_))
      rintro _ s' (⟨hnil, -, -⟩ | ⟨p, zs, hcons, hnone, -⟩ | ⟨p, zs, a, hcons, -, hnone, -⟩ |
        ⟨p, zs, a, d, hcons, rfl, rfl, -, hb⟩)
      · exact absurd (by rw [h.becomes.head_eq, hnil]; rfl) hfree
      · exact absurd hnone hsome
      · exact absurd hnone hsome'
      · have hlives : s'.lives = Function.update s.lives p
            { ((s.lives p).alloc s.nextpid a).assign me
              ((t.alloc p s.nextpid a s.ticks).lives me) with state := .RUNNABLE } := by
          rw [hb.lives_eq, Table.lives_forkDone, Table.lives_alloc, Function.update_idem,
            Function.update_self, ← h.lives_eq]
        exact ⟨p, _, h.unused hcons, hlives, by simp, rfl⟩
  | _ => exact hop.1.elim

/-- Without a fresh pid two processes share one, or one has pid 0. -/
theorem not_pidsUnique_of_makes (h : Inv s t) (hop : ¬ FreshStep s op) :
    ∃ s', step s op = some s' ∧ ¬ PidsUnique s' := by
  unfold FreshStep at hop
  rw [Classical.not_imp] at hop
  obtain ⟨hmakes, hfresh⟩ := hop
  obtain ⟨s', hs, p, l, hp, hlives, hl, hpid⟩ := step_makes h hmakes
  refine ⟨s', hs, fun hpids => hfresh ⟨fun hzero => ?_, fun q hq heq => ?_⟩⟩
  · refine hpids.nonzero p ?_ ?_
    · rwa [hlives, Function.update_self]
    · rw [hlives, Function.update_self, hpid, hzero]
  · have hne : q ≠ p := by
      rintro rfl
      exact hq hp
    refine hne (hpids.unique q p ?_ ?_ ?_)
    · rwa [hlives, Function.update_of_ne hne]
    · rwa [hlives, Function.update_self]
    · rw [hlives, Function.update_of_ne hne, Function.update_self, hpid]
      exact heq

/-! ### the counter -/

/-- The counter has passed every pid in use; it is at 0 when it has passed all. -/
def Passed (s : Kern NPROC MAX NCPU) : Prop :=
  ∀ p, (s.lives p).state ≠ .UNUSED → s.nextpid = 0 ∨ (s.lives p).pid.toNat < s.nextpid.toNat

/-- What the counter has passed or is at, it has passed a step later. -/
theorem passed_succ {pid n : UInt32} (hle : pid.toNat ≤ n.toNat) :
    n + 1 = 0 ∨ pid.toNat < (n + 1).toNat := by
  have hlt := n.toNat_lt
  have hsum : (n + 1).toNat = (n.toNat + 1) % 2 ^ 32 := by rw [UInt32.toNat_add, UInt32.toNat_one]
  by_cases hwrap : n.toNat + 1 = 2 ^ 32
  · left
    rw [← UInt32.toNat_inj, hsum, hwrap]
    rfl
  · right
    omega

theorem Passed.freshPid (hpassed : Passed s) (hne : s.nextpid ≠ 0) : s.FreshPid := by
  refine ⟨hne, fun p hp heq => ?_⟩
  have hlt := (hpassed p hp).resolve_left hne
  change (s.proc p).pid.toNat < _ at hlt
  rw [heq] at hlt
  exact absurd hlt (Nat.lt_irrefl _)

theorem step_passed (h : Inv s t) (hpassed : Passed s) (hop : NotRound s op)
    (hs : step s op = some s') : Passed s' := by
  intro p hp
  cases step_pids h hs with
  | inl hold =>
      obtain ⟨hp', hpid⟩ := hold p hp
      rw [hpid]
      rcases (step_counters h hs).1 with ⟨-, hnext⟩ | ⟨htakes, hnext⟩
      · rw [hnext]
        exact hpassed p hp'
      · rw [hnext]
        exact passed_succ (Nat.le_of_lt ((hpassed p hp').resolve_left (hop htakes)))
  | inr hnew =>
      obtain ⟨hmakes, q, l, -, hlives, -, hl⟩ := hnew
      have hnext : s'.nextpid = s.nextpid + 1 := by
        rcases (step_counters h hs).1 with ⟨htakes, -⟩ | ⟨-, hnext⟩
        · exact absurd hmakes.1 htakes
        · exact hnext
      rw [hnext]
      refine passed_succ ?_
      by_cases hpq : p = q
      · subst hpq
        rw [hlives, Function.update_self, hl]
      · rw [hlives, Function.update_of_ne hpq] at hp ⊢
        exact Nat.le_of_lt ((hpassed p hp).resolve_left (hop hmakes.1))

end Steps

/-! ## runs -/

section Runs

variable {s₀ s s' : Kern NPROC MAX NCPU} {kalloc setupkvm namei : Option Nat} {ticks : UInt32}
  {op : Op NPROC MAX NCPU} {ops : List (Op NPROC MAX NCPU)}

theorem userinit_pidsUnique (hboot : userinit kalloc setupkvm namei (boot ticks) = .ok ((), s₀)) :
    PidsUnique s₀ := by
  obtain ⟨p, kstack, -, hlives⟩ := userinit_lives hboot
  have hzero : Lives.PidsUnique (fun _ => Life.zero : Lives NPROC) :=
    ⟨fun _ hp => absurd rfl hp, fun _ _ hp => absurd rfl hp⟩
  unfold PidsUnique
  rw [hlives]
  exact hzero.add (by simp [Life.first]) fun _ hq => absurd rfl hq

theorem userinit_passed (hboot : userinit kalloc setupkvm namei (boot ticks) = .ok ((), s₀)) :
    Passed s₀ := by
  obtain ⟨p, kstack, -, hlives⟩ := userinit_lives hboot
  obtain ⟨_, _, hb⟩ := userinit_spec hboot
  intro q hq
  right
  have htwo : s₀.nextpid = 2 := hb.nextpid_eq
  rw [htwo, hlives]
  rw [hlives] at hq
  by_cases hqp : q = p
  · subst hqp
    rw [Function.update_self]
    show (1 : UInt32).toNat < _
    decide
  · rw [Function.update_of_ne hqp] at hq
    exact absurd rfl hq

theorem step_inv_pidsUnique (h : (∃ t, Inv s t) ∧ PidsUnique s) (hop : FreshStep s op)
    (hs : step s op = some s') : (∃ t, Inv s' t) ∧ PidsUnique s' := by
  obtain ⟨⟨t, ht⟩, hpids⟩ := h
  exact ⟨step_inv ⟨t, ht⟩ hs, step_pidsUnique ht hpids hop hs⟩

theorem guarded_fresh_of_notRound (h : ∃ t, Inv s t) (hpassed : Passed s)
    (hround : Guarded step NotRound s ops) : Guarded step FreshStep s ops := by
  induction ops generalizing s with
  | nil => trivial
  | cons op ops ih =>
      obtain ⟨t, ht⟩ := h
      refine ⟨fun hmakes => hpassed.freshPid (hround.1 hmakes.1), fun s' hs => ?_⟩
      exact ih (step_inv ⟨t, ht⟩ hs) (step_passed ht hpassed hround.1 hs) (hround.2 s' hs)

/-- **Pids identify processes** in every state of a run exactly if every operation that
makes a process finds a fresh pid; and it does while the counter has not come round. -/
theorem pids_unique_iff (hboot : userinit kalloc setupkvm namei (boot ticks) = .ok ((), s₀)) :
    (Along step PidsUnique s₀ ops ↔ Guarded step FreshStep s₀ ops) ∧
      (Guarded step NotRound s₀ ops → Guarded step FreshStep s₀ ops) := by
  have hstart : (∃ t, Inv s₀ t) ∧ PidsUnique s₀ := ⟨userinit_inv hboot, userinit_pidsUnique hboot⟩
  refine ⟨⟨?_, ?_⟩, guarded_fresh_of_notRound hstart.1 (userinit_passed hboot)⟩
  · refine guarded_of_along (fun _ _ _ => step_inv_pidsUnique) ?_ hstart
    rintro s op ⟨⟨t, ht⟩, -⟩ hop
    exact not_pidsUnique_of_makes ht hop
  · exact along_of_guarded (fun _ _ _ => step_inv_pidsUnique) (fun _ h => h.2) hstart

end Runs

/-! ### two runs -/

instance (s : Kern NPROC MAX NCPU) : DecidablePred (TakesPid s)
  | .allocproc _ => inferInstanceAs (Decidable (s.links.head .free ≠ none))
  | .fork c _ _ => inferInstanceAs (Decidable (s.cpus c ≠ none ∧ s.links.head .free ≠ none))
  | .tick | .exit _ | .wait _ | .scheduler _ | .promoteAll | .yield _ | .sleep _ _ | .wakeup _
  | .kill _ | .setpriority _ _ => inferInstanceAs (Decidable False)

instance (s : Kern NPROC MAX NCPU) : DecidablePred (NotRound s) := fun op =>
  inferInstanceAs (Decidable (TakesPid s op → s.nextpid ≠ 0))

theorem pids_unique_family : ∃ s₀ : Kern 3 1 1,
    userinit (some 0) (some 0) (some 0) (boot 0) = .ok ((), s₀) ∧
      Guarded step NotRound s₀ family ∧ (exec step s₀ family).isSome = true ∧
      Along step PidsUnique s₀ family := by
  obtain ⟨s₀, hboot, hrun⟩ := exists_booted 0 (p := fun s₀ =>
    decide (Guarded step NotRound s₀ family) && (exec step s₀ family).isSome) (by decide +kernel)
  simp only [Bool.and_eq_true, decide_eq_true_eq] at hrun
  obtain ⟨hiff, hfresh⟩ : (Along step PidsUnique s₀ family ↔ Guarded step FreshStep s₀ family) ∧
      (Guarded step NotRound s₀ family → Guarded step FreshStep s₀ family) := pids_unique_iff hboot
  exact ⟨s₀, hboot, hrun.1, hrun.2, hiff.mpr (hfresh hrun.1)⟩

section Wrap

variable {s : Kern NPROC MAX NCPU} {c : Fin NCPU} {me : Fin NPROC}

/-- `fork` without memory for a kernel stack, again and again: the counter moves on,
and that is all that happens to the slots in use. -/
theorem starved_forks (h : ∃ t, Inv s t) (hme : s.cpus c = some me)
    (hfree : s.links.head .free ≠ none) (n : Nat) :
    ∃ s', exec step s (List.replicate n (.fork c none none)) = some s' ∧ (∃ t, Inv s' t) ∧
      s'.cpus c = some me ∧ s'.links.head .free ≠ none ∧
      s'.nextpid = s.nextpid + UInt32.ofNat n ∧ s'.lives me = s.lives me := by
  induction n generalizing s with
  | zero => exact ⟨s, rfl, h, hme, hfree, by simp, rfl⟩
  | succ n ih =>
      obtain ⟨t, ht⟩ := h
      have hstep : ∃ s₁, step s (.fork c none none) = some s₁ ∧ s₁.cpus c = some me ∧
          s₁.links.head .free ≠ none ∧ s₁.nextpid = s.nextpid + 1 ∧ s₁.lives me = s.lives me := by
        refine step_intro (by simp only [Op.code, hme, Option.map_some])
          (wp_discard ((fork_spec ht.becomes ht.wf (ht.running c me hme) none none).mono ?_))
        rintro _ s₁ (⟨hnil, -, -⟩ | ⟨p, zs, hcons, -, -, hb⟩ | ⟨_, _, _, -, hsome, -⟩ |
          ⟨_, _, _, _, -, hsome, -⟩)
        · exact absurd (by rw [ht.becomes.head_eq, hnil]; rfl) hfree
        · have hne : me ≠ p := by
            rintro rfl
            have hrun := ht.running c me hme
            rw [← ht.state_eq, ht.unused hcons] at hrun
            contradiction
          refine ⟨?_, ?_, hb.nextpid_eq, ?_⟩
          · rw [hb.cpus_eq]
            exact hme
          · rw [hb.head_eq, Table.allocFail, ne_eq, List.head?_eq_none_iff]
            exact List.ne_nil_of_mem Table.mem_moveHead_self
          · rw [hb.lives_eq, Table.lives_allocFail, ← ht.lives_eq, Function.update_of_ne hne]
        · exact absurd hsome (by simp)
        · exact absurd hsome (by simp)
      obtain ⟨s₁, hs, hme₁, hfree₁, hnext, hlife⟩ := hstep
      obtain ⟨s', hexec, hinv, hme', hfree', hnext', hlife'⟩ :=
        ih (step_inv ⟨t, ht⟩ hs) hme₁ hfree₁
      refine ⟨s', ?_, hinv, hme', hfree', ?_, hlife'.trans hlife⟩
      · rw [List.replicate_succ]
        exact exec_cons_eq_some.mpr ⟨s₁, hs, hexec⟩
      · rw [hnext', hnext, UInt32.ofNat_add, UInt32.add_assoc, UInt32.add_comm 1]
        rfl

end Wrap

/-- The first process runs out of memory for kernel stacks as often as it takes the
counter to come round, and then has a child. -/
def roundTrip : List (Op 3 1 1) :=
  .scheduler 0 :: (List.replicate (2 ^ 32 - 1) (.fork 0 none none) ++ [.fork 0 (some 1) (some 2)])

/-- **The counter comes round**: the child has the pid of the first process. -/
theorem pids_collide : ∃ s₀ s : Kern 3 1 1,
    userinit (some 0) (some 0) (some 0) (boot 0) = .ok ((), s₀) ∧
      exec step s₀ roundTrip = some s ∧ ¬ PidsUnique s := by
  obtain ⟨s₀, s₁, hboot, hs₁, hp⟩ := exists_run step id [.scheduler 0]
    (p := fun s => decide (s.cpus 0 = some 0 ∧ s.links.head .free ≠ none ∧ s.nextpid = 2 ∧
      (s.proc 0).pid = 1)) (by decide +kernel)
  simp only [decide_eq_true_eq] at hp
  obtain ⟨hme, hfree, hnext, hpid⟩ := hp
  obtain ⟨t, ht, hnil⟩ := exec_cons_eq_some.mp hs₁
  obtain rfl := Option.some.inj hnil
  have hinv := step_inv (userinit_inv hboot) ht
  obtain ⟨s₂, hs₂, ⟨t₂, hinv₂⟩, hme₂, hfree₂, hnext₂, hlife⟩ :=
    starved_forks hinv hme hfree (2 ^ 32 - 1)
  have hpid₂ : (s₂.proc 0).pid = s₂.nextpid := by
    rw [hnext₂, hnext]
    exact (congrArg Life.pid hlife).trans hpid
  have hused : (s₂.proc 0).state ≠ .UNUSED := by
    have hstate := hinv₂.state_eq 0
    rw [hinv₂.running 0 0 hme₂] at hstate
    change (s₂.lives 0).state ≠ _
    rw [hstate]
    decide
  have hstale : ¬ FreshStep s₂ (.fork 0 (some 1) (some 2)) := fun hfresh =>
    (hfresh ⟨⟨by simp [hme₂], hfree₂⟩, by simp⟩).2 0 hused hpid₂
  obtain ⟨s, hs, hnot⟩ := not_pidsUnique_of_makes hinv₂ hstale
  refine ⟨s₀, s, hboot, ?_, hnot⟩
  refine exec_cons_eq_some.mpr ⟨t, ht, ?_⟩
  rw [exec_append, hs₂]
  exact exec_cons_eq_some.mpr ⟨s, hs, rfl⟩

end Xv6.Ptable
