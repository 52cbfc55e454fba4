import Xv6.Ptable.Contract
import Xv6.Ptable.Scan

/-!
# Xv6.Ptable.Wait

The contract of `wait`: a pass of its loop reaps a dead child, or says that there is
nothing to wait for, or sleeps.

`wait` does not search the lists `embryo` and `free`.  That is right as long as no child
is on them, and between the sections of `fork` the only `EMBRYO` whose parent is known is
the one that its parent is just forking (`Unborn`): a caller of `wait` has none.

`userinit` makes the first process its own parent, and `wait` finds it on the running
list; so `init` without children sleeps where everybody else gets -1
(`wait_finds_itself`).
-/

namespace Xv6.Ptable

open Run

variable {NPROC MAX NCPU : Nat}

/-! ## children under way -/

/-- A child under way is its parent's own affair. -/
def Unborn (v : Lives NPROC) (pend : Fin NPROC → Pending NPROC) : Prop :=
  ∀ p q, (v p).state = .EMBRYO → (v p).parent = some q → pend q = .copied p

section Unborn

variable {v v' : Lives NPROC} {pend : Fin NPROC → Pending NPROC} {p me np : Fin NPROC}
  {l : Life NPROC}

theorem Unborn.mono (h : Unborn v pend)
    (hv : ∀ p, (v' p).state = .EMBRYO → (v p).state = .EMBRYO ∧ (v' p).parent = (v p).parent) :
    Unborn v' pend := by
  intro p q hp hpar
  obtain ⟨hold, hsame⟩ := hv p hp
  exact h p q hold (hsame ▸ hpar)

/-- One process changes, without becoming a new one. -/
theorem Unborn.update (h : Unborn v pend)
    (hl : l.state = .EMBRYO → (v p).state = .EMBRYO ∧ l.parent = (v p).parent) :
    Unborn (Function.update v p l) pend :=
  h.mono ((Function.forall_update_iff v fun q l => l.state = .EMBRYO →
    (v q).state = .EMBRYO ∧ l.parent = (v q).parent).mpr ⟨hl, fun _ _ hq => ⟨hq, rfl⟩⟩)

/-- A new process without a parent. -/
theorem Unborn.update_orphan (h : Unborn v pend) (hl : l.parent = none) :
    Unborn (Function.update v p l) pend := by
  intro q r hq hpar
  by_cases hqp : q = p
  · subst hqp
    rw [Function.update_self, hl] at hpar
    contradiction
  · rw [Function.update_of_ne hqp] at hq hpar
    exact h q r hq hpar

/-- `fork` goes on where there is no parent yet. -/
theorem Unborn.pend_update (h : Unborn v pend) (hme : ∀ p, pend me ≠ .copied p)
    (pc : Pending NPROC) : Unborn v (Function.update pend me pc) := by
  intro p q hp hpar
  have hq := h p q hp hpar
  have hne : q ≠ me := by
    rintro rfl
    exact hme p hq
  rw [Function.update_of_ne hne, hq]

/-- The child gets its parent. -/
theorem Unborn.assign (h : Unborn v pend) (hnp : pend me = .alloced np) (proc : Life NPROC) :
    Unborn (Function.update v np ((v np).assign me proc)) (Function.update pend me (.copied np)) := by
  have hfree : ∀ p, pend me ≠ .copied p := by simp [hnp]
  have hrest := h.pend_update hfree (.copied np)
  intro p q hp hpar
  by_cases hpn : p = np
  · subst hpn
    rw [Function.update_self] at hpar
    obtain rfl : me = q := Option.some.inj hpar
    exact Function.update_self _ _ _
  · rw [Function.update_of_ne hpn] at hp hpar
    exact hrest p q hp hpar

/-- The child is born. -/
theorem Unborn.ready (h : Unborn v pend) (hnp : pend me = .copied np) :
    Unborn (Function.update v np { v np with state := .RUNNABLE })
      (Function.update pend me .idle) := by
  intro p q hp hpar
  by_cases hpn : p = np
  · subst hpn
    rw [Function.update_self] at hp
    contradiction
  · rw [Function.update_of_ne hpn] at hp hpar
    have hq := h p q hp hpar
    have hne : q ≠ me := by
      rintro rfl
      rw [hnp] at hq
      exact hpn (Pending.copied.inj hq).symm
    rw [Function.update_of_ne hne, hq]

end Unborn

section Sections

variable {s : Kern NPROC MAX NCPU} {t : Table NPROC MAX} {S S' : Sys NPROC MAX NCPU}

theorem Unborn.effect {op : Op NPROC MAX NCPU} {v : Lives NPROC} (hinv : Inv S.kern t)
    (h : Unborn S.kern.lives S.pending) (hmay : S.MayRun op) (heffect : Effect S.kern op v) :
    Unborn v S.pending := by
  cases heffect with
  | same => exact h
  | alloc hp => exact hmay.elim
  | allocFail hp => exact hmay.elim
  | forkAllocFail hp => exact hmay.elim
  | forkFail hp => exact hmay.elim
  | fork hme hp => exact hmay.elim
  | @exit c me hme hne =>
      have hrun : (S.kern.lives me).state = .RUNNING := by
        rw [hinv.state_eq]
        exact hinv.running c me hme
      refine h.mono fun p hp => ?_
      have hpm : p ≠ me := by
        rintro rfl
        rw [Lives.exit_state_self] at hp
        contradiction
      have hstirs := (Lives.exit_of_ne S.kern.initproc hrun hpm).1
      rw [hstirs.state_iff (by decide) (by decide) (by decide)] at hp
      refine ⟨hp, ?_⟩
      rw [Lives.exit_parent]
      split
      · next hpar =>
          -- the child of a fork under way, but who exits is in none
          have hidle := hmay me hme
          rw [h p me hp hpar] at hidle
          contradiction
      · rfl
  | reap hme hp hpar => exact h.update fun hl => absurd hl (by simp [Life.reap])
  | wait hme hkids => exact h.update fun hl => absurd hl (by simp)
  | dispatch hp chan hchan => exact h.update fun hl => absurd hl (by simp)
  | yield hme => exact h.update fun hl => absurd hl (by simp)
  | sleep hme => exact h.update fun hl => absurd hl (by simp)
  | wakeup =>
      refine h.mono fun p hp => ⟨?_, Lives.wake_parent⟩
      rwa [Lives.wake_stirs.1.state_iff (by decide) (by decide) (by decide)] at hp
  | @kill pid p hp =>
      refine h.update fun hl => ⟨?_, rfl⟩
      unfold Life.kill at hl
      by_cases hsleep : (S.kern.lives p).state = .SLEEPING
      · simp [hsleep] at hl
      · simpa [hsleep] using hl

theorem Unborn.part {me : Fin NPROC} {pc : Pending NPROC} {s₁ : Kern NPROC MAX NCPU}
    {t' : Table NPROC MAX} {pend : Fin NPROC → Pending NPROC} {i : Fin NPROC} (hinv : Inv s t)
    (hfam : Family s.lives i pend) (h : Unborn s.lives pend)
    (hp : ForkPart me s t (pend me) pc s₁ t') : Unborn t'.lives (Function.update pend me pc) := by
  have hlives := hinv.lives_eq
  generalize hpc : pend me = pc₀ at hp
  cases hp with
  | noSlot =>
      rw [← hpc, Function.update_eq_self, ← hlives]
      exact h
  | noStack hfree =>
      rw [← hpc, Function.update_eq_self, Table.lives_allocFail, ← hlives]
      exact h.update fun hl => absurd hl (by simp [Life.allocFail])
  | alloc hfree =>
      rw [Table.lives_alloc, ← hlives]
      exact (h.pend_update (by simp [hpc]) _).update_orphan
        ((hfam.orphan _).mpr (.inl (hinv.unused hfree)))
  | noMemory =>
      rw [Table.lives_forkFail, ← hlives]
      exact (h.pend_update (by simp [hpc]) _).update fun hl => absurd hl (by simp [Life.forkFail])
  | assign =>
      rw [Table.lives_assign, ← hlives]
      exact h.assign hpc _
  | ready =>
      rw [Table.lives_ready, ← hlives]
      exact h.ready hpc

theorem advance_unborn {x : Sect NPROC MAX NCPU} (h : SysInv S)
    (hu : Unborn S.kern.lives S.pending) (hs : advance S x = some S') :
    Unborn S'.kern.lives S'.pending := by
  obtain ⟨t, hinv, hcases⟩ := advance_cases h hs
  obtain ⟨-, i, hinit, hfam⟩ := h
  rcases hcases with ⟨op, -, hmay, hstep, hpend⟩ | ⟨c, me, pc, s₁, t', -, hme, hp, hb, hpend⟩
  · rw [hpend]
    exact hu.effect hinv hmay (step_effect hinv hstep).1
  · rw [hpend, hb.lives_eq]
    exact Unborn.part hinv hfam hu hp

/-- At the start nothing is under way. -/
theorem userinit_unborn {kalloc setupkvm namei : Option Nat} {ticks : UInt32}
    (hboot : userinit kalloc setupkvm namei (boot ticks) = .ok ((), s)) :
    Unborn (Sys.start s).kern.lives (Sys.start s).pending := by
  obtain ⟨i, kstack, -, hlives⟩ := userinit_lives hboot
  have hkern : (Sys.start s).kern.lives =
      Function.update (fun _ => Life.zero) i (Life.first i kstack) := hlives
  have hzero : Unborn (fun _ => Life.zero) (Sys.start s).pending :=
    fun _ _ hp => absurd hp (by simp [Life.zero, Proc.life, Proc.zero])
  rw [hkern]
  exact hzero.update fun hl => absurd hl (by simp [Life.first])

theorem reach_unborn {kalloc setupkvm namei : Option Nat} {ticks : UInt32}
    {xs : List (Sect NPROC MAX NCPU)}
    (hboot : userinit kalloc setupkvm namei (boot ticks) = .ok ((), s))
    (hrun : exec advance (Sys.start s) xs = some S) :
    SysInv S ∧ Unborn S.kern.lives S.pending :=
  reachable_invariant (I := fun S => SysInv S ∧ Unborn S.kern.lives S.pending)
    (fun _ _ _ h hs => ⟨advance_inv h.1 hs, advance_unborn h.1 h.2 hs⟩)
    ⟨userinit_sysInv hboot, userinit_unborn hboot⟩ ⟨xs, hrun⟩

end Sections

/-! ## the contract -/

/-- `z` is a child of `q`. -/
def Kern.Child (s : Kern NPROC MAX NCPU) (q z : Fin NPROC) : Prop :=
  z ≠ q ∧ (s.proc z).state ≠ .UNUSED ∧ (s.proc z).parent = some q

/-- A dead one. -/
def Kern.DeadChild (s : Kern NPROC MAX NCPU) (q z : Fin NPROC) : Prop :=
  s.Child q z ∧ (s.proc z).state = .ZOMBIE

/-- The contract of a pass of `wait` by `q`, from `s` with the lists `L`; it returns
`none` when it has slept and will search again. -/
inductive WaitContract (s : Kern NPROC MAX NCPU) (L : SList MAX → List (Fin NPROC))
    (q : Fin NPROC) : Option Int32 → Kern NPROC MAX NCPU → Prop
  /-- one dead child is reaped -/
  | reaped {z s'} (hz : s.DeadChild q z)
      (hs : (s.record [.kfree (s.proc z).kstack, .freevm (s.proc z).pgdir]).Rewrites z
        { s.proc z with
          kstack := none, state := .UNUSED, pid := 0, parent := none, name := [], killed := false }
        (toFront L z .free) s') : WaitContract s L q (some (s.proc z).pid.toInt32) s'
  /-- there is no point in waiting -/
  | nothing (hz : ∀ z, ¬ s.DeadChild q z)
      (hno : (∀ z, ¬ s.Child q z) ∨ (s.proc q).killed = true) : WaitContract s L q (some (-1)) s
  /-- wait for children to exit -/
  | waits {s'} (hz : ∀ z, ¬ s.DeadChild q z) (hkid : ∃ z, s.Child q z)
      (hkill : (s.proc q).killed = false) (hlists : Partition s' (toEnd L q .sleep))
      (hstate : (s'.proc q).state = .SLEEPING) (hchan : (s'.proc q).chan = some (.proc q))
      (hothers : ∀ p, p ≠ q → s'.proc p = s.proc p) : WaitContract s L q none s'

section Wait

variable {s s' : Kern NPROC MAX NCPU} {q : Fin NPROC} {c : Fin NCPU}
  {L : SList MAX → List (Fin NPROC)}

theorem deadChild_of_find (h : Inv s ⟨s.proc, L⟩) (hrun : (s.proc q).state = .RUNNING)
    {z : Fin NPROC}
    (hfind : (L .zombie).find? (fun p => (s.proc p).parent = some q) = some z) :
    s.DeadChild q z := by
  have hzombie : (s.proc z).state = .ZOMBIE :=
    h.wf.listed.onList (List.mem_of_find?_eq_some hfind)
  have hpar : (s.proc z).parent = some q := by simpa using List.find?_some hfind
  refine ⟨⟨?_, by simp [hzombie], hpar⟩, hzombie⟩
  rintro rfl
  simp [hrun] at hzombie

theorem no_deadChild (h : Inv s ⟨s.proc, L⟩)
    (hnone : (L .zombie).find? (fun p => (s.proc p).parent = some q) = none) (z : Fin NPROC) :
    ¬ s.DeadChild q z := fun hz =>
  (Table.find?_zombie_none_iff h.wf.listed).mp hnone ⟨z, hz.2, hz.1.2.2⟩

/-- Children that are not dead are where `wait` searches. -/
theorem no_child (h : Inv s ⟨s.proc, L⟩) (hdead : ∀ z, ¬ s.DeadChild q z)
    (hborn : ∀ p, (s.proc p).parent = some q → (s.proc p).state ≠ .EMBRYO)
    (hall : ∀ l ∈ aliveLists MAX, ∀ p ∈ L l, (s.proc p).parent ≠ some q) (z : Fin NPROC) :
    ¬ s.Child q z := by
  intro hz
  obtain ⟨hne, hused, hpar⟩ := hz
  have hzombie : (s.proc z).state ≠ .ZOMBIE := fun hs => hdead z ⟨⟨hne, hused, hpar⟩, hs⟩
  have hembryo := hborn z hpar
  have halive : (s.proc z).state = .RUNNABLE ∨ (s.proc z).state = .RUNNING ∨
      (s.proc z).state = .SLEEPING := by
    cases hs : (s.proc z).state <;> simp_all
  obtain ⟨l, hl, p, hp, hpar'⟩ := (exists_aliveLists_iff h.wf.fit).mpr ⟨z, hpar, halive⟩
  exact hall l hl p hp hpar'

/-- A pass of `wait` by a process without children under way. -/
theorem wait_contract (h : Inv s ⟨s.proc, L⟩) (hq : s.cpus c = some q)
    (hself : (s.proc q).parent = some q ↔ s.initproc = some q)
    (hborn : ∀ p, (s.proc p).parent = some q →
      (s.proc p).state ≠ .EMBRYO ∧ (s.proc p).state ≠ .UNUSED) :
    wp (wait c q) s (WaitContract s L q) ↔
      s.initproc ≠ some q ∨ (∃ z, s.Child q z) ∨ (s.proc q).killed = true := by
  have hrun : (s.proc q).state = .RUNNING := h.running c q hq
  have hspec := wait_spec (c := c) h.becomes h.wf.listed hrun
  constructor
  · -- the first process without children finds itself
    intro hc
    by_contra hnot
    rw [not_or, not_or, not_not] at hnot
    obtain ⟨hinit, hnokid, hkilled⟩ := hnot
    obtain ⟨r, s', hspec, hc⟩ := hspec.det hc
    rcases hspec with ⟨z, hfind, -, -⟩ | ⟨-, ⟨hk | hall, -, -, -⟩ | ⟨-, rfl, -⟩⟩
    · exact hnokid ⟨z, (deadChild_of_find h hrun hfind).1⟩
    · exact hkilled hk
    · have hmem : q ∈ L .running := h.wf.listed.mem_iff.mpr hrun
      exact hall .running (by simp [aliveLists]) q hmem (hself.mpr hinit)
    · cases hc with
      | waits hz hkid => exact hnokid hkid
  · intro hcond
    refine hspec.mono ?_
    rintro r s' (⟨z, hfind, rfl, hb⟩ | ⟨hnone, ⟨hgive, rfl, rfl, -⟩ |
      ⟨⟨hkilled, l, hl, p, hp, hpar⟩, rfl, hb⟩⟩)
    · refine .reaped (deadChild_of_find h hrun hfind) ?_
      have hpart := (Table.reap_wf h.wf z).placed.partition hb
      rw [Table.reap, Table.moveHead_list] at hpart
      refine ⟨hpart, ?_⟩
      obtain ⟨k, rfl, -⟩ := hb
      exact ⟨k, by simp [Kern.record]; rfl⟩
    · have hdead := no_deadChild h hnone
      refine .nothing hdead ?_
      rcases hgive with hk | hall
      · exact .inr hk
      · exact .inl (no_child h hdead (fun p hp => (hborn p hp).1) hall)
    · have hkid : ∃ z, s.Child q z := by
        by_cases hpq : p = q
        · subst hpq
          rcases hcond with hne | hkid | hk
          · exact absurd (hself.mp hpar) hne
          · exact hkid
          · rw [hk] at hkilled
            contradiction
        · exact ⟨p, hpq, (hborn p hpar).2, hpar⟩
      have hpart := (Table.sleep_wf h.wf hrun (some (.proc q)) s.ticks).placed.partition hb
      rw [Table.sleep, Table.moveEnd_list] at hpart
      refine .waits (no_deadChild h hnone) hkid hkilled hpart ?_ ?_ fun p hp => ?_
      · rw [hb.proc_eq, Table.sleep, Table.moveEnd_proc, Table.set_proc_self]
        simp [Proc.leave]
      · rw [hb.proc_eq, Table.sleep, Table.moveEnd_proc, Table.set_proc_self]
        simp only [Proc.leave, Proc.charge]
        split <;> rfl
      · rw [hb.proc_eq, Table.sleep, Table.moveEnd_proc, Table.set_proc_of_ne hp]

end Wait

/-- **The contract of `wait`**, for every process that calls it in a state that is
reached: it is kept exactly if the process is not the first one, or has a child, or is
killed. -/
theorem wait_contract_iff {kalloc setupkvm namei : Option Nat} {ticks : UInt32}
    {s₀ : Kern NPROC MAX NCPU} {xs : List (Sect NPROC MAX NCPU)} {S : Sys NPROC MAX NCPU}
    (hboot : userinit kalloc setupkvm namei (boot ticks) = .ok ((), s₀))
    (hrun : exec advance (Sys.start s₀) xs = some S) {c : Fin NCPU} {q : Fin NPROC}
    (hq : S.kern.cpus c = some q) (hidle : S.pending q = .idle) :
    ∃ L, Partition S.kern L ∧
      (wp (wait c q) S.kern (WaitContract S.kern L q) ↔
        S.kern.initproc ≠ some q ∨ (∃ z, S.kern.Child q z) ∨
          (S.kern.proc q).killed = true) := by
  obtain ⟨⟨⟨t, h⟩, i, hinit, hfam⟩, hunborn⟩ := reach_unborn hboot hrun
  refine ⟨t.list, h.partition, wait_contract h.lists hq ?_ fun p hpar => ⟨fun hp => ?_, fun hp => ?_⟩⟩
  · rw [hinit]
    constructor
    · intro hpar
      rw [hfam.noself q hpar]
    · intro hiq
      obtain rfl := Option.some.inj hiq
      exact hfam.init_parent
  · have hcopied := hunborn p q hp hpar
    rw [hidle] at hcopied
    contradiction
  · have hnone : (S.kern.proc p).parent = none := (hfam.orphan p).mpr (.inl hp)
    rw [hnone] at hpar
    contradiction

/-- The first process waits for its child. -/
theorem wait_contract_iff_parent : ∃ (s₀ : Kern 3 1 1) (S : Sys 3 1 1) (L : SList 1 → List (Fin 3)),
    userinit (some 0) (some 0) (some 0) (boot 0) = .ok ((), s₀) ∧
      exec advance (Sys.start s₀) (grandchild.take 4) = some S ∧ S.kern.cpus 0 = some 0 ∧
      S.pending 0 = .idle ∧ S.kern.Child 0 1 ∧ wp (wait 0 0) S.kern (WaitContract S.kern L 0) := by
  obtain ⟨s₀, S, hboot, hS, hp⟩ := exists_run advance Sys.start (grandchild.take 4)
    (p := fun S => decide (S.kern.cpus 0 = some 0 ∧ S.pending 0 = .idle ∧
      (S.kern.proc 1).state ≠ .UNUSED ∧ (S.kern.proc 1).parent = some 0)) (by decide +kernel)
  obtain ⟨hq, hidle, hused, hpar⟩ := of_decide_eq_true hp
  obtain ⟨L, -, hiff⟩ := wait_contract_iff hboot hS hq hidle
  have hchild : S.kern.Child 0 1 := ⟨by decide, hused, hpar⟩
  exact ⟨s₀, S, L, hboot, hS, hq, hidle, hchild, hiff.mpr (.inr (.inl ⟨1, hchild⟩))⟩

/-- **The first process waits for itself**: it has no child and is not killed, and `wait`
puts it to sleep. -/
theorem wait_finds_itself : ∃ (s₀ : Kern 3 1 1) (S : Sys 3 1 1) (s' : Kern 3 1 1),
    userinit (some 0) (some 0) (some 0) (boot 0) = .ok ((), s₀) ∧
      exec advance (Sys.start s₀) [.op (.scheduler 0)] = some S ∧ S.kern.cpus 0 = some 0 ∧
      (∀ z, ¬ S.kern.Child 0 z) ∧ wait 0 0 S.kern = .ok (none, s') ∧
      (s'.proc 0).state = .SLEEPING ∧ ∀ L, ¬ wp (wait 0 0) S.kern (WaitContract S.kern L 0) := by
  obtain ⟨s₀, S, hboot, hS, hp⟩ := exists_run advance Sys.start [.op (.scheduler 0)]
    (p := fun S => (wait 0 0 S.kern).toOption.any fun x : Option Int32 × Kern 3 1 1 =>
      decide (S.kern.cpus 0 = some 0 ∧ x.1 = none ∧ (x.2.proc 0).state = .SLEEPING ∧
        ∀ z, ¬ (z ≠ 0 ∧ (S.kern.proc z).state ≠ .UNUSED ∧ (S.kern.proc z).parent = some 0)))
    (by decide +kernel)
  cases hwait : wait 0 0 S.kern with
  | error e => simp [hwait, Except.toOption] at hp
  | ok x =>
      obtain ⟨r, s'⟩ := x
      simp only [hwait, Except.toOption, Option.any_some, decide_eq_true_eq] at hp
      obtain ⟨hq, rfl, hsleep, hnokid⟩ := hp
      refine ⟨s₀, S, s', hboot, hS, hq, hnokid, hwait, hsleep, fun L hc => ?_⟩
      cases hc.of_ok hwait with
      | waits hz hkid =>
          obtain ⟨z, hz⟩ := hkid
          exact hnokid z hz

end Xv6.Ptable
