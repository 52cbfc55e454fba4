import Xv6.Ptable.Life

/-!
# Xv6.Ptable.Clean

Slots on the free list and the processes that `fork` makes of them.

`allocproc` takes a free slot as it is and sets few of its fields, so what it
finds there matters: `CleanSlots` says that a free slot is as the boot left it.
Three things spoil that (`CleanStep` rules them out): `fork` that fails for want
of a kernel stack or of an address space leaves a pid behind, and `kill(0)` finds
the free slots, whose pid is 0, and marks the first of them.

* `free_slots_clean`: in a run without these, free slots are clean and children
  are not killed;
* `kill_zero_dirties`: a run with `kill(0)` in which a child starts killed.
-/

namespace Xv6.Ptable

open Run

variable {NPROC MAX NCPU : Nat}

/-! ## steps -/

/-- An operation of `proc.c`, or the current process of a CPU opens or closes a
file. -/
inductive Act (NPROC MAX NCPU : Nat)
  | op (op : Op NPROC MAX NCPU)
  | fd (c : Fin NCPU) (i : Fin NOFILE) (f : Option Nat)

/-- `proc->ofile[fd] = f` -/
def Proc.setFd (i : Fin NOFILE) (f : Option Nat) (pr : Proc NPROC) : Proc NPROC :=
  { pr with ofile := Function.update pr.ofile i f }

def Kern.setFd (s : Kern NPROC MAX NCPU) (me : Fin NPROC) (i : Fin NOFILE) (f : Option Nat) :
    Kern NPROC MAX NCPU :=
  { s with proc := Function.update s.proc me ((s.proc me).setFd i f) }

def act (s : Kern NPROC MAX NCPU) : Act NPROC MAX NCPU → Option (Kern NPROC MAX NCPU)
  | .op op => step s op
  | .fd c i f => (s.cpus c).map fun me => s.setFd me i f

/-- What an operation must not do: fail in `fork` with a slot in its hands, or
kill a free slot. -/
def CleanStep (s : Kern NPROC MAX NCPU) : Act NPROC MAX NCPU → Prop
  | .op (.allocproc kalloc) => s.links.head .free = none ∨ kalloc ≠ none
  | .op (.fork _ kalloc copyuvm) =>
      s.links.head .free = none ∨ (kalloc ≠ none ∧ copyuvm ≠ none)
  | .op (.kill pid) => s.links.head .free = none ∨ pid.toUInt32 ≠ 0
  | _ => True

/-! ## free slots -/

structure Life.Clean (l : Life NPROC) : Prop where
  pid : l.pid = 0
  parent : l.parent = none
  killed : l.killed = false
  kstack : l.kstack = none
  ofile : ∀ i, l.ofile i = none

/-- Free slots are clean, and the dead have closed their files. -/
structure CleanSlots (v : Lives NPROC) : Prop where
  free : ∀ p, (v p).state = .UNUSED → (v p).Clean
  closed : ∀ p, (v p).state = .ZOMBIE → ∀ i, (v p).ofile i = none

section Invariant

variable {s s' : Kern NPROC MAX NCPU} {t : Table NPROC MAX} {v : Lives NPROC} {p : Fin NPROC}
  {l : Life NPROC}

/-- One process changes. -/
theorem CleanSlots.update (h : CleanSlots v) (hfree : l.state = .UNUSED → l.Clean)
    (hclosed : l.state = .ZOMBIE → ∀ i, l.ofile i = none) :
    CleanSlots (Function.update v p l) := by
  constructor
  · intro q hq
    by_cases hqp : q = p
    · subst hqp
      rw [Function.update_self] at hq ⊢
      exact hfree hq
    · rw [Function.update_of_ne hqp] at hq ⊢
      exact h.free q hq
  · intro q hq
    by_cases hqp : q = p
    · subst hqp
      rw [Function.update_self] at hq ⊢
      exact hclosed hq
    · rw [Function.update_of_ne hqp] at hq ⊢
      exact h.closed q hq

/-- A change to a process that then is neither free nor dead. -/
theorem CleanSlots.update_alive (h : CleanSlots v) (hfree : l.state ≠ .UNUSED)
    (hzombie : l.state ≠ .ZOMBIE) : CleanSlots (Function.update v p l) :=
  h.update (fun hl => absurd hl hfree) fun hl => absurd hl hzombie

theorem CleanSlots.wake (h : CleanSlots v) (c : Option (Chan NPROC)) : CleanSlots (v.wake c) := by
  constructor
  · intro q hq
    unfold Lives.wake at hq ⊢
    split at hq
    · exact absurd hq (by simp)
    · next hc =>
      rw [if_neg hc]
      exact h.free q hq
  · intro q hq
    unfold Lives.wake at hq ⊢
    split at hq
    · exact absurd hq (by simp)
    · next hc =>
      rw [if_neg hc]
      exact h.closed q hq

theorem CleanSlots.exit (h : CleanSlots v) {me : Fin NPROC} {init : Option (Fin NPROC)}
    (hrun : (v me).state = .RUNNING) : CleanSlots (v.exit me init) := by
  have hclose : CleanSlots (v.close me) :=
    h.update_alive (by rw [hrun]; decide) (by rw [hrun]; decide)
  have htell : CleanSlots (((v.close me).wake ((v me).parent.map .proc)).tell me init) := by
    unfold Lives.tell
    split
    · exact (hclose.wake _).wake _
    · exact hclose.wake _
  have hadopt : CleanSlots
      ((((v.close me).wake ((v me).parent.map .proc)).tell me init).adopt me init) := by
    constructor
    · intro q hq
      unfold Lives.adopt at hq ⊢
      split at hq
      · next hpar => exact absurd ((htell.free q hq).parent.symm.trans hpar) (by simp)
      · next hpar =>
        rw [if_neg hpar]
        exact htell.free q hq
    · intro q hq
      unfold Lives.adopt at hq ⊢
      split at hq
      · next hpar =>
        rw [if_pos hpar]
        exact htell.closed q hq
      · next hpar =>
        rw [if_neg hpar]
        exact htell.closed q hq
  refine hadopt.update (fun hl => absurd hl (by simp)) fun _ i => ?_
  -- the files were closed first, and nothing since has opened one
  have hofile : ∀ w : Lives NPROC, ∀ c, (w.wake c me).ofile = (w me).ofile := by
    intro w c
    unfold Lives.wake
    split <;> rfl
  have hofile' : ∀ w : Lives NPROC, (w.adopt me init me).ofile = (w me).ofile := by
    intro w
    unfold Lives.adopt
    split <;> rfl
  have hofile'' : ∀ w : Lives NPROC, (w.tell me init me).ofile = (w me).ofile := by
    intro w
    unfold Lives.tell
    split
    · exact hofile w _
    · rfl
  rw [hofile', hofile'', hofile, Lives.close, Function.update_self]

theorem head_free_ne_none (h : Inv s t) (hp : (s.lives p).state = .UNUSED) :
    s.links.head .free ≠ none := by
  rw [h.state_eq] at hp
  have hmem : p ∈ t.list .free := h.wf.listed.mem_iff.mpr hp
  rw [h.becomes.head_eq, ne_eq, List.head?_eq_none_iff]
  exact List.ne_nil_of_mem hmem

/-- **Step lemma.** -/
theorem step_clean (h : Inv s t) (hclean : CleanSlots s.lives) {op : Op NPROC MAX NCPU}
    (hop : CleanStep s (.op op)) (hs : step s op = some s') : CleanSlots s'.lives := by
  have heffect := (step_effect h hs).1
  generalize s'.lives = v at heffect
  cases heffect with
  | same => exact hclean
  | alloc hp => exact hclean.update_alive (by simp [Life.alloc]) (by simp [Life.alloc])
  | allocFail hp =>
      rcases hop with hfree | hsome
      · exact absurd hfree (head_free_ne_none h hp)
      · exact absurd rfl hsome
  | forkAllocFail hp =>
      rcases hop with hfree | hsome
      · exact absurd hfree (head_free_ne_none h hp)
      · exact absurd rfl hsome.1
  | forkFail hp =>
      rcases hop with hfree | hsome
      · exact absurd hfree (head_free_ne_none h hp)
      · exact absurd rfl hsome.2
  | fork hme hp => exact hclean.update_alive (by simp) (by simp)
  | exit hme hinit =>
      refine hclean.exit ?_
      rw [h.state_eq]
      exact h.running _ _ hme
  | reap hme hp hpar =>
      refine hclean.update (fun _ => ⟨rfl, rfl, rfl, rfl, hclean.closed _ hp⟩) fun hl => ?_
      exact absurd hl (by simp [Life.reap])
  | wait hme hkids => exact hclean.update_alive (by simp) (by simp)
  | dispatch hp chan hchan => exact hclean.update_alive (by simp) (by simp)
  | yield hme => exact hclean.update_alive (by simp) (by simp)
  | sleep hme => exact hclean.update_alive (by simp) (by simp)
  | wakeup => exact hclean.wake _
  | @kill pid p hp =>
      refine hclean.update ?_ ?_
      · intro hl
        -- a free slot has pid 0, which is not the one looked for
        have hp' : (s.lives p).state = .UNUSED := by
          unfold Life.kill at hl
          dsimp only at hl
          split at hl
          · exact absurd hl (by decide)
          · exact hl
        rcases hop with hfree | hpid
        · exact absurd hfree (head_free_ne_none h hp')
        · exact absurd (hp.symm.trans (hclean.free p hp').pid) hpid
      · intro hl
        refine hclean.closed p ?_
        unfold Life.kill at hl
        dsimp only at hl
        split at hl
        · exact absurd hl (by decide)
        · exact hl

end Invariant

/-! ## runs -/

section Runs

variable {s s' : Kern NPROC MAX NCPU} {t : Table NPROC MAX} {a : Act NPROC MAX NCPU}

theorem setFd_inv (h : Inv s t) {me : Fin NPROC} {i : Fin NOFILE} {f : Option Nat} :
    Inv (s.setFd me i f) (t.set me ((t.proc me).setFd i f)) where
  becomes := (h.becomes.setProc me (Proc.setFd i f)).self
  wf := h.wf.set rfl rfl rfl
  running := fun c p hp => by
    have hkeeps : t.Keeps (t.set me ((t.proc me).setFd i f)) := Table.Keeps.set fun hr => hr
    exact hkeeps p (h.running c p hp)
  once := h.once
  quiet := h.quiet

/-- A running process may open and close files. -/
theorem setFd_clean (h : Inv s t) (hclean : CleanSlots s.lives) {me : Fin NPROC}
    {i : Fin NOFILE} {f : Option Nat} (hrun : (t.proc me).state = .RUNNING) :
    CleanSlots (s.setFd me i f).lives := by
  have hstate : ((t.proc me).setFd i f).life.state = .RUNNING := hrun
  rw [(setFd_inv h).lives_eq, Table.lives_set, ← h.lives_eq]
  exact hclean.update_alive (by rw [hstate]; decide) (by rw [hstate]; decide)

theorem act_clean (h : (∃ t, Inv s t) ∧ CleanSlots s.lives) (ha : CleanStep s a)
    (hs : act s a = some s') : (∃ t, Inv s' t) ∧ CleanSlots s'.lives := by
  obtain ⟨⟨t, h⟩, hclean⟩ := h
  cases a with
  | op op => exact ⟨step_inv ⟨t, h⟩ hs, step_clean h hclean ha hs⟩
  | fd c i f =>
      obtain ⟨me, hme, rfl⟩ := Option.map_eq_some_iff.mp hs
      exact ⟨⟨_, setFd_inv h⟩, setFd_clean h hclean (h.running c me hme)⟩

/-- What `allocproc` relies on, and what follows for `fork`: the free list holds
clean slots only, and a child that `fork` makes `RUNNABLE` is not killed. -/
structure FreshStart (s : Kern NPROC MAX NCPU) : Prop where
  free : ∃ L, Partition s L ∧ ∀ p ∈ L .free, (s.proc p).life.Clean
  child : ∀ c kalloc copyuvm s', step s (.fork c kalloc copyuvm) = some s' → ∀ p,
    (s.proc p).state ≠ .RUNNABLE → (s'.proc p).state = .RUNNABLE → (s'.proc p).killed = false

theorem freshStart (h : Inv s t) (hclean : CleanSlots s.lives) : FreshStart s where
  free := by
    refine ⟨t.list, h.partition, fun p hp => hclean.free p ?_⟩
    exact (h.partition.named p .free).mp hp
  child := by
    intro c kalloc copyuvm s' hs p hold hnew
    have heffect := (step_effect h hs).1
    have hsame {q : Fin NPROC} {l : Life NPROC} (hv : s'.lives = Function.update s.lives q l)
        (hpq : p ≠ q) : False := by
      have hp : s'.lives p = s.lives p := by rw [hv, Function.update_of_ne hpq]
      have hstate : (s'.proc p).state = (s.proc p).state := congrArg Life.state hp
      exact hold (hstate.symm.trans hnew)
    generalize hv : s'.lives = v at heffect
    have hp : s'.lives p = v p := by rw [hv]
    cases heffect with
    | same => exact absurd ((congrArg Life.state hp).symm.trans hnew) hold
    | @forkAllocFail _ q _ hq =>
        by_cases hpq : p = q
        · subst hpq
          rw [Function.update_self] at hp
          exact absurd ((congrArg Life.state hp).symm.trans hnew) (by simp [Life.allocFail])
        · exact (hsame hv hpq).elim
    | @forkFail _ q _ hq =>
        by_cases hpq : p = q
        · subst hpq
          rw [Function.update_self] at hp
          exact absurd ((congrArg Life.state hp).symm.trans hnew) (by simp [Life.forkFail])
        · exact (hsame hv hpq).elim
    | @fork _ me q _ _ hme hq =>
        by_cases hpq : p = q
        · subst hpq
          rw [Function.update_self] at hp
          exact (congrArg Life.killed hp).trans (hclean.free p hq).killed
        · exact (hsame hv hpq).elim

/-- **Free slots are clean and children start unkilled**, in every run in which
no `fork` fails with a slot in its hands and `kill(0)` finds no free slot. -/
theorem free_slots_clean {kalloc setupkvm namei : Option Nat} {ticks : UInt32}
    {s₀ : Kern NPROC MAX NCPU} {acts : List (Act NPROC MAX NCPU)}
    (hboot : userinit kalloc setupkvm namei (boot ticks) = .ok ((), s₀))
    (hclean : Guarded act CleanStep s₀ acts) : Along act FreshStart s₀ acts := by
  refine along_of_guarded (I := fun s => (∃ t, Inv s t) ∧ CleanSlots s.lives)
    (fun _ _ _ => act_clean) (fun s hs => ?_) ⟨userinit_inv hboot, ?_⟩ hclean
  · obtain ⟨⟨t, h⟩, hclean⟩ := hs
    exact freshStart h hclean
  · obtain ⟨p, kstack, -, hlives⟩ := userinit_lives hboot
    rw [hlives]
    have hzero : CleanSlots (fun _ => Life.zero : Lives NPROC) :=
      ⟨fun _ _ => ⟨rfl, rfl, rfl, rfl, fun _ => rfl⟩, fun _ _ _ => rfl⟩
    exact hzero.update_alive (by simp [Life.first]) (by simp [Life.first])

end Runs

/-! ### two runs -/

instance (s : Kern NPROC MAX NCPU) : DecidablePred (CleanStep s)
  | .op (.allocproc kalloc) =>
      inferInstanceAs (Decidable (s.links.head .free = none ∨ kalloc ≠ none))
  | .op (.fork _ kalloc copyuvm) =>
      inferInstanceAs (Decidable (s.links.head .free = none ∨ (kalloc ≠ none ∧ copyuvm ≠ none)))
  | .op (.kill pid) =>
      inferInstanceAs (Decidable (s.links.head .free = none ∨ pid.toUInt32 ≠ 0))
  | .op .tick | .op (.exit _) | .op (.wait _) | .op (.scheduler _) | .op .promoteAll
  | .op (.yield _) | .op (.sleep _ _) | .op (.wakeup _) | .op (.setpriority _ _) | .fd _ _ _ =>
      inferInstanceAs (Decidable True)

/-- The first process opens a file, forks, kills the child and reaps it. -/
def raised : List (Act 3 1 1) :=
  [.op (.scheduler 0), .fd 0 ⟨0, by decide⟩ (some 7), .op (.fork 0 (some 1) (some 2)), .op (.kill 2),
    .op (.wait 0), .op (.scheduler 0), .op (.exit 0), .op (.scheduler 0), .op (.wait 0)]

theorem free_slots_clean_raised : ∃ s₀ : Kern 3 1 1,
    userinit (some 0) (some 0) (some 0) (boot 0) = .ok ((), s₀) ∧
      Guarded act CleanStep s₀ raised ∧ (exec act s₀ raised).isSome = true ∧
      Along act FreshStart s₀ raised := by
  obtain ⟨s₀, hboot, hrun⟩ := exists_booted 0 (p := fun s₀ =>
    decide (Guarded act CleanStep s₀ raised) && (exec act s₀ raised).isSome) (by decide +kernel)
  simp only [Bool.and_eq_true, decide_eq_true_eq] at hrun
  exact ⟨s₀, hboot, hrun.1, hrun.2, free_slots_clean hboot hrun.1⟩

/-- **`kill(0)`**: the first free slot is killed, and with it the next child. -/
theorem kill_zero_dirties : ∃ s₀ s : Kern 3 1 1,
    userinit (some 0) (some 0) (some 0) (boot 0) = .ok ((), s₀) ∧
      exec act s₀ [.op (.scheduler 0), .op (.kill 0)] = some s ∧
      (∃ p, (s.proc p).state = .UNUSED ∧ (s.proc p).killed = true) ∧ ¬ FreshStart s := by
  obtain ⟨s₀, s, hboot, hs, hp⟩ := exists_run act id [.op (.scheduler 0), .op (.kill 0)]
    (p := fun s => decide ((s.proc 1).state = .UNUSED) && (s.proc 1).killed &&
      (step s (.fork 0 (some 1) (some 2))).any fun s' : Kern 3 1 1 =>
        decide ((s'.proc 1).state = .RUNNABLE) && (s'.proc 1).killed) (by decide +kernel)
  simp only [Bool.and_eq_true, decide_eq_true_eq] at hp
  obtain ⟨⟨hunused, hkilled⟩, hfork⟩ := hp
  refine ⟨s₀, s, hboot, hs, ⟨1, hunused, hkilled⟩, fun hfresh => ?_⟩
  cases hs' : step s (.fork 0 (some 1) (some 2)) with
  | none => simp [hs'] at hfork
  | some s' =>
      simp only [hs', Option.any_some, Bool.and_eq_true, decide_eq_true_eq] at hfork
      have hchild := hfresh.child 0 _ _ s' hs' 1 (by rw [hunused]; decide) hfork.1
      exact absurd (hfork.2.symm.trans hchild) (by decide)

end Xv6.Ptable
