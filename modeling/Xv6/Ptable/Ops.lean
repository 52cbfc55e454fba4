import Xv6.Ptable.Refine

/-!
# Xv6.Ptable.Ops

Each operation of `proc.c`, followed through: it returns, and what it leaves
behind represents the table that the operation's moves lead to.
-/

namespace Xv6.Ptable

variable {NPROC MAX NCPU : Nat} {s s₀ : Kern NPROC MAX NCPU} {t : Table NPROC MAX}

/-! ## wakeup -/

theorem wakeup1_spec (h : s₀.Becomes t s) (hfit : t.Fit) (c : Option (Chan NPROC)) :
    wp (wakeup1 c) s fun _ s' => s₀.Becomes (t.wake c) s' := by
  unfold wakeup1
  refine h.walkAll (Table.wakeOne_follows c hfit) ?_ ⟨.refl hfit.listed, fun _ _ _ => rfl⟩
  intro t p ys zs s hw hl h
  have hfit := hfit.eased hw.eased
  have hp : p ∈ t.list .sleep := by simp [hl]
  have hsleep : (t.proc p).state = .SLEEPING := hfit.listed.onList hp
  have hstate : (s.proc p).state = .SLEEPING := by rw [h.proc_eq]; exact hsleep
  simp only [wp_bind, wp_nextOf, wp_assertState hstate, wp_procOf]
  rw [h.next_eq hl, h.proc_eq]
  unfold Table.wakeOne
  split
  · rw [← t.set_self (p := p)] at h
    exact h.makeRunnable hfit.listed hp (hfit.priority p (.inl hsleep)) fun s' h' =>
      wp_pure.mpr ⟨rfl, h'⟩
  · exact wp_pure.mpr ⟨rfl, h⟩

/-! ## yield and sleep -/

theorem sched_spec (h : s₀.Becomes t s) {c : Fin NCPU} {me : Fin NPROC} {resume : Context}
    (hme : (t.proc me).state ≠ .RUNNING) :
    wp (sched c me resume) s fun _ s' =>
      (s₀.setCpu c none).Becomes (t.set me ((t.proc me).leave s₀.ticks resume)) s' := by
  have hstate : (s.proc me).state ≠ .RUNNING := by rwa [h.proc_eq]
  unfold sched
  simp only [wp_bind, wp_procOf, if_neg hstate, wp_get, wp_setProc, wp_modify]
  obtain ⟨k, rfl, hk⟩ := h
  exact ⟨k, rfl, hk⟩

theorem yield_spec (h : s₀.Becomes t s) (hwf : t.WF) {c : Fin NCPU} {me : Fin NPROC}
    (hrun : (t.proc me).state = .RUNNING) :
    wp (yield c me) s fun _ s' =>
      (s₀.setCpu c none).Becomes (t.yield me s₀.ticks) s' := by
  have hme : me ∈ t.list .running := hwf.listed.mem_iff.mpr hrun
  have hsane : Proc.Sane MAX { t.proc me with state := .RUNNABLE } :=
    ⟨(hwf.sane me).priority, fun hc => absurd ((hwf.sane me).context hc) (by simp [hrun])⟩
  unfold yield
  rw [wp_bind, wp_assertState (by rw [h.proc_eq]; exact hrun)]
  refine h.remove_bind hwf.listed.disjoint hme fun s₁ h₁ => ?_
  rw [wp_bind, wp_warnIf_lt]
  refine h₁.setProc_bind fun s₂ h₂ => ?_
  rw [wp_bind, wp_get]
  refine h₂.setProc_bind fun s₃ h₃ => ?_
  rw [wp_bind, wp_procOf, h₃.proc_eq]
  rw [Table.set_proc_self, Table.set_set, h₂.ticks_eq] at h₃
  rw [Table.set_proc_self, Table.set_proc_self, h₂.ticks_eq]
  refine wp_readyList_bind (hsane.charge s₀.ticks).priority ?_
  refine h₃.addEnd_bind (hwf.listed.remove me) rfl fun s₄ h₄ => ?_
  rw [wp_bind, wp_warnIf_lt]
  refine (sched_spec (t := t.moveEnd me _ _) h₄ (by simp)).mono fun _ s₅ h₅ => ?_
  rw [Table.moveEnd_set, Table.moveEnd_proc, Table.set_proc_self] at h₅
  exact h₅

theorem sleep_spec (h : s₀.Becomes t s) (hl : t.Listed none) {c : Fin NCPU} {me : Fin NPROC}
    (hrun : (t.proc me).state = .RUNNING) (chan : Option (Chan NPROC)) :
    wp (sleep c me chan) s fun _ s' =>
      (s₀.setCpu c none).Becomes (t.sleep me chan s₀.ticks) s' := by
  unfold sleep
  refine h.setProc_bind fun s₁ h₁ => ?_
  have hme : me ∈ t.list .running := hl.mem_iff.mpr hrun
  rw [wp_bind, wp_assertState (by rw [h₁.proc_eq, Table.set_proc_self]; exact hrun)]
  refine h₁.remove_bind hl.disjoint hme fun s₂ h₂ => ?_
  rw [wp_bind, wp_warnIf_lt]
  refine h₂.setProc_bind fun s₃ h₃ => ?_
  rw [wp_bind, wp_get]
  refine h₃.setProc_bind fun s₄ h₄ => ?_
  rw [Table.set_proc_self, Table.set_set, Table.set_remove, Table.set_set, Table.set_proc_self,
    h₃.ticks_eq] at h₄
  refine h₄.addEnd_bind (hl.remove me) rfl fun s₅ h₅ => ?_
  rw [wp_bind, wp_warnIf_lt]
  refine (sched_spec (t := t.moveEnd me _ _) h₅ (by simp)).mono fun _ s₆ h₆ => ?_
  rw [Table.moveEnd_set, Table.moveEnd_proc, Table.set_proc_self] at h₆
  exact h₆

/-! ## allocproc and fork -/

/-- `allocproc` takes the first free slot, if there is one; without memory for
a kernel stack the slot goes back. -/
theorem allocproc_spec (h : s₀.Becomes t s) (hl : t.Listed none) (kalloc : Option Nat) :
    wp (allocproc kalloc) s fun r s' =>
      (t.list .free = [] ∧ r = none ∧ s₀.Becomes t s') ∨
      (∃ p zs, t.list .free = p :: zs ∧ kalloc = none ∧ r = none ∧
        s₀.takePid.Becomes (t.allocFail p s₀.nextpid) s') ∨
      (∃ p zs a, t.list .free = p :: zs ∧ kalloc = some a ∧ r = some p ∧
        s₀.takePid.Becomes (t.alloc p s₀.nextpid a s₀.ticks) s') := by
  unfold allocproc
  rw [wp_bind, wp_headOf, h.head_eq]
  cases hfree : t.list .free with
  | nil => exact wp_pure.mpr (.inl ⟨rfl, rfl, h⟩)
  | cons p zs =>
      have hp : p ∈ t.list .free := by simp [hfree]
      have hstate : (s.proc p).state = .UNUSED := by rw [h.proc_eq]; exact hl.onList hp
      simp only [List.head?_cons]
      rw [wp_bind, wp_assertState hstate]
      refine h.remove_bind hl.disjoint hp fun s₁ h₁ => ?_
      rw [wp_bind, wp_warnIf_beq]
      refine h₁.setProc_bind fun s₂ h₂ => ?_
      refine h₂.addHead_bind (hl.remove p) rfl fun s₃ h₃ => ?_
      rw [wp_bind, wp_warnIf_beq, wp_bind, wp_get]
      replace h₃ : s₀.Becomes (t.moveHead p .embryo { t.proc p with state := .EMBRYO }) s₃ := h₃
      refine h₃.setProc_bind fun s₄ h₄ => ?_
      rw [Table.moveHead_proc, Table.set_proc_self, Table.moveHead_set, h₃.nextpid_eq] at h₄
      rw [wp_bind, wp_modify]
      have h₅ := h₄.takePid
      refine h₅.setProc_bind fun s₆ h₆ => ?_
      rw [Table.moveHead_proc, Table.set_proc_self, Table.moveHead_set] at h₆
      cases kalloc with
      | none =>
          dsimp only
          rw [wp_bind, wp_assertState (by rw [h₆.proc_eq, Table.moveHead_proc, Table.set_proc_self])]
          refine h₆.remove_bind (hl.moveHead (by rfl)).disjoint Table.mem_moveHead_self
            fun s₇ h₇ => ?_
          rw [Table.moveHead_remove hl] at h₇
          refine h₇.setProc_bind fun s₈ h₈ => ?_
          rw [Table.set_proc_self, Table.set_set] at h₈
          refine h₈.addHead_bind (hl.remove p) rfl fun s₉ h₉ => ?_
          rw [wp_bind, wp_warnIf_beq]
          exact wp_pure.mpr (.inr (.inl ⟨p, zs, rfl, rfl, rfl, h₉⟩))
      | some a =>
          dsimp only
          rw [wp_bind, wp_get]
          refine h₆.setProc_bind fun s₇ h₇ => ?_
          rw [Table.moveHead_proc, Table.set_proc_self, Table.moveHead_set, h₆.ticks_eq] at h₇
          exact wp_pure.mpr (.inr (.inr ⟨p, zs, a, rfl, rfl, rfl, h₇⟩))

theorem forkFail_spec {np : Fin NPROC} {pr : Proc NPROC} (h : s₀.Becomes (t.set np pr) s)
    (hl : t.Listed none) (hnp : np ∈ t.list .embryo) (hpr : pr.state = .EMBRYO) :
    wp (forkFail np) s fun r s' => r = -1 ∧
      (s₀.record [.kfree pr.kstack]).Becomes
        (t.moveHead np .free { pr with kstack := none, state := .UNUSED }) s' := by
  unfold forkFail
  rw [wp_bind, wp_procOf, h.proc_eq, Table.set_proc_self]
  refine h.calls_bind fun s₁ h₁ => ?_
  refine h₁.setProc_bind fun s₂ h₂ => ?_
  rw [Table.set_set, Table.set_proc_self] at h₂
  refine wp_assertState_bind (by rw [h₂.proc_eq, Table.set_proc_self]; exact hpr) ?_
  refine h₂.remove_bind hl.disjoint hnp fun s₃ h₃ => ?_
  rw [if_neg (by decide)]
  refine h₃.setProc_bind fun s₄ h₄ => ?_
  rw [Table.set_remove, Table.set_set, Table.set_proc_self] at h₄
  refine h₄.addHead_bind (hl.remove np) rfl fun s₅ h₅ => ?_
  rw [if_neg (by decide)]
  exact wp_pure.mpr ⟨rfl, h₅⟩

theorem forkDone_spec {me np : Fin NPROC} {pr : Proc NPROC} (h : s₀.Becomes (t.set np pr) s)
    (hl : t.Listed none) (hnp : np ∈ t.list .embryo) (hpr : pr.state = .EMBRYO)
    (hprio : pr.priority ≤ MAX) (hme : me ≠ np) :
    wp (forkDone me np) s fun r s' => r = pr.pid.toInt32 ∧
      (s₀.record ((t.proc me).openFiles.map .filedup ++ [.idup (t.proc me).cwd])).Becomes
        (t.moveEnd np (readyOf pr.priority) (Proc.child me (t.proc me) pr)) s' := by
  unfold forkDone
  rw [wp_bind, wp_procOf, h.proc_eq, Table.set_proc_of_ne hme]
  refine h.calls_bind fun s₁ h₁ => ?_
  refine h₁.setProc_bind fun s₂ h₂ => ?_
  rw [Table.set_set, Table.set_proc_self] at h₂
  rw [wp_bind, wp_procOf, h₂.proc_eq, Table.set_proc_self]
  refine wp_assertState_bind (by rw [h₂.proc_eq, Table.set_proc_self]; exact hpr) ?_
  exact h₂.makeRunnable hl hnp hprio fun s₃ h₃ => wp_pure.mpr ⟨rfl, h₃⟩

/-- The table after `fork` with the free slot `p`. -/
theorem fork_spec (h : s₀.Becomes t s) (hwf : t.WF) {me : Fin NPROC}
    (hme : (t.proc me).state = .RUNNING) (kalloc copyuvm : Option Nat) :
    wp (fork me kalloc copyuvm) s fun r s' =>
      (t.list .free = [] ∧ r = -1 ∧ s₀.Becomes t s') ∨
      (∃ p zs, t.list .free = p :: zs ∧ kalloc = none ∧ r = -1 ∧
        s₀.takePid.Becomes (t.allocFail p s₀.nextpid) s') ∨
      (∃ p zs a, t.list .free = p :: zs ∧ kalloc = some a ∧ copyuvm = none ∧ r = -1 ∧
        (s₀.takePid.record [.kfree (some a)]).Becomes
          ((t.alloc p s₀.nextpid a s₀.ticks).forkFail p) s') ∨
      (∃ p zs a d, t.list .free = p :: zs ∧ kalloc = some a ∧ copyuvm = some d ∧
        r = s₀.nextpid.toInt32 ∧
        (s₀.takePid.record ((t.proc me).openFiles.map .filedup ++ [.idup (t.proc me).cwd])).Becomes
          ((t.alloc p s₀.nextpid a s₀.ticks).forkDone me p d) s') := by
  unfold fork
  refine wp_bind_of (allocproc_spec h hwf.listed kalloc) fun r s₁ hr => ?_
  rcases hr with ⟨hfree, rfl, h₁⟩ | ⟨p, zs, hfree, rfl, rfl, h₁⟩ | ⟨p, zs, a, hfree, rfl, rfl, h₁⟩
  · exact wp_pure.mpr (.inl ⟨hfree, rfl, h₁⟩)
  · exact wp_pure.mpr (.inr (.inl ⟨p, zs, hfree, rfl, rfl, h₁⟩))
  · have hl : (t.alloc p s₀.nextpid a s₀.ticks).Listed none := hwf.listed.moveHead rfl
    have hp : p ∈ (t.alloc p s₀.nextpid a s₀.ticks).list .embryo := Table.mem_moveHead_self
    have hunused : (t.proc p).state = .UNUSED :=
      hwf.listed.onList (show p ∈ t.list .free by simp [hfree])
    have hne : me ≠ p := by
      rintro rfl
      rw [hme] at hunused
      contradiction
    refine h₁.setProc_bind fun s₂ h₂ => ?_
    cases copyuvm with
    | none =>
        refine (forkFail_spec h₂ hl hp ?_).mono ?_
        · simp [Table.alloc]
        · rintro r s' ⟨rfl, h'⟩
          refine .inr (.inr (.inl ⟨p, zs, a, hfree, rfl, rfl, rfl, ?_⟩))
          simpa [Table.alloc, Table.forkFail] using h'
    | some d =>
        refine (forkDone_spec h₂ hl hp ?_ ?_ hne).mono ?_
        · simp [Table.alloc]
        · simp [Table.alloc]
        · rintro r s' ⟨rfl, h'⟩
          refine .inr (.inr (.inr ⟨p, zs, a, d, hfree, rfl, rfl, ?_, ?_⟩))
          · simp [Table.alloc]
          · simpa [Table.alloc, Table.forkDone, Table.set_proc_of_ne hne] using h'

/-! ## exit -/

theorem reparent_spec (h : s₀.Becomes t s) (hl : t.Listed none) (me : Fin NPROC) (l : SList MAX) :
    wp (reparent me l) s fun _ s' => s₀.Becomes (Table.reparent me s₀.initproc t l) s' := by
  unfold reparent
  refine h.walkAll (Table.adopt_follows me s₀.initproc t l) ?_ (.refl hl)
  intro t p ys zs s _ hl h
  rw [wp_bind, wp_get, wp_bind, wp_procOf, h.proc_eq, h.initproc_eq]
  unfold Table.adopt
  split
  · refine h.setProc_bind fun s₁ h₁ => ?_
    rw [wp_nextOf]
    exact ⟨h₁.next_eq hl, h₁⟩
  · rw [wp_nextOf]
    exact ⟨h.next_eq hl, h⟩

theorem inheritZombies_spec (h : s₀.Becomes t s) (hfit : t.Fit) (me : Fin NPROC) :
    wp (inheritZombies me) s fun _ s' => s₀.Becomes (Table.inherit me s₀.initproc t) s' := by
  unfold inheritZombies
  refine h.walkAll (Table.inheritOne_follows me s₀.initproc hfit) ?_ (.refl hfit.listed)
  intro t p ys zs s hk hl h
  rw [wp_bind, wp_nextOf, h.next_eq hl, wp_bind, wp_get, wp_bind, wp_procOf, h.proc_eq,
    h.initproc_eq]
  unfold Table.inheritOne
  split
  · refine h.setProc_bind fun s₁ h₁ => ?_
    have hset : (t.set p { t.proc p with parent := s₀.initproc }).Fit :=
      (hfit.eased hk).eased (.set hk.listed rfl rfl rfl)
    refine wp_bind_of (wakeup1_spec h₁ hset _) fun _ s₂ h₂ => ?_
    exact wp_pure.mpr ⟨rfl, h₂⟩
  · exact wp_pure.mpr ⟨rfl, h⟩

theorem exit_spec (h : s₀.Becomes t s) (hfit : t.Fit) {c : Fin NCPU} {me : Fin NPROC}
    (hrun : (t.proc me).state = .RUNNING) (hinit : some me ≠ s₀.initproc) :
    wp (exit c me) s fun _ s' =>
      (((s₀.record ((t.proc me).openFiles.map .fileclose)).record
        [.iput (t.proc me).cwd]).setCpu c none).Becomes (t.exit me s₀.initproc s₀.ticks) s' := by
  have heased := Table.bequeath_eased hfit me s₀.initproc
  unfold exit
  rw [wp_bind, wp_get, h.initproc_eq, if_neg hinit]
  rw [wp_bind, wp_procOf, h.proc_eq]
  refine h.calls_bind fun s₁ h₁ => ?_
  refine h₁.setProc_bind fun s₂ h₂ => ?_
  rw [wp_bind, wp_procOf, h₂.proc_eq, Table.set_proc_self]
  refine h₂.calls_bind fun s₃ h₃ => ?_
  refine h₃.setProc_bind fun s₄ h₄ => ?_
  rw [Table.set_set, Table.set_proc_self] at h₄
  rw [wp_bind, wp_procOf, h₄.proc_eq]
  have hfit₄ : (t.set me { t.proc me with ofile := fun _ => none, cwd := none }).Fit :=
    hfit.eased (.set hfit.listed rfl rfl rfl)
  refine wp_bind_of (wakeup1_spec h₄ hfit₄ _) fun _ s₅ h₅ => ?_
  have hfit₅ := hfit₄.eased (Table.wake_woken hfit₄
    (((t.set me { t.proc me with ofile := fun _ => none, cwd := none }).proc me).parent.map
      .proc)).eased
  refine wp_bind_of (inheritZombies_spec h₅ hfit₅ me) fun _ s₆ h₆ => ?_
  have hl₆ := (Table.inherit_eased me s₀.initproc hfit₅).listed
  refine wp_bind_of (reparent_spec h₆ hl₆ me .running) fun _ s₇ h₇ => ?_
  have hl₇ := (Table.reparent_eased me s₀.initproc .running hl₆).listed
  refine wp_bind_of (Kern.Becomes.forLevels (levels MAX)
    (fun t i _ ht => (Table.reparent_eased me s₀.initproc (.ready i) ht).listed)
    (fun t s i _ ht hs => reparent_spec hs ht me (.ready i)) h₇ hl₇) ?_
  rintro _ s₈ ⟨h₈, hl₈⟩
  refine wp_bind_of (reparent_spec h₈ hl₈ me .sleep) fun _ s₉ h₉ => ?_
  have hl₉ := (Table.reparent_eased me s₀.initproc .sleep hl₈).listed
  refine wp_bind_of (reparent_spec h₉ hl₉ me .embryo) fun _ s₁₀ h₁₀ => ?_
  have hl₁₀ := (Table.reparent_eased me s₀.initproc .embryo hl₉).listed
  refine wp_bind_of (reparent_spec h₁₀ hl₁₀ me .free) fun _ s₁₁ h₁₁ => ?_
  -- everybody else is provided for: the process itself goes
  replace h₁₁ : Kern.Becomes _ (t.bequeath me s₀.initproc) s₁₁ := h₁₁
  have hrun' := heased.keeps me hrun
  refine wp_assertState_bind (by rw [h₁₁.proc_eq]; exact hrun') ?_
  have hme : me ∈ (t.bequeath me s₀.initproc).list .running := heased.listed.mem_iff.mpr hrun'
  refine h₁₁.remove_bind heased.listed.disjoint hme fun s₁₂ h₁₂ => ?_
  rw [wp_bind, wp_warnIf_lt]
  refine h₁₂.setProc_bind fun s₁₃ h₁₃ => ?_
  refine h₁₃.addHead_bind (heased.listed.remove me) rfl fun s₁₄ h₁₄ => ?_
  rw [wp_bind, wp_warnIf_lt]
  refine (sched_spec (t := (t.bequeath me s₀.initproc).moveHead me _ _) h₁₄ (by simp)).mono
    fun _ s₁₅ h₁₅ => ?_
  rw [Table.moveHead_set, Table.moveHead_proc, Table.set_proc_self] at h₁₅
  exact h₁₅

/-! ## wait -/

/-- The first loop of `wait` reaps the first zombie child. -/
theorem reap_spec (h : s₀.Becomes t s) (hl : t.Listed none) (me : Fin NPROC) :
    wp (reap me) s fun r s' =>
      ((t.list .zombie).find? (fun p => (t.proc p).parent = some me) = none ∧ r = none ∧ s' = s) ∨
      (∃ p, (t.list .zombie).find? (fun p => (t.proc p).parent = some me) = some p ∧
        r = some (t.proc p).pid.toInt32 ∧
        ((s₀.record [.kfree (t.proc p).kstack]).record [.freevm (t.proc p).pgdir]).Becomes
          (t.reap p) s') := by
  unfold reap
  refine h.walkList (P := fun p => (t.proc p).parent = some me) ?_ ?_ fun hnone =>
    .inl ⟨hnone, rfl, rfl⟩
  · intro p hp
    rw [decide_eq_false_iff_not] at hp
    rw [wp_bind, wp_procOf, h.proc_eq, if_neg hp, wp_bind, wp_nextOf]
    exact wp_pure.mpr ⟨rfl, rfl⟩
  · intro p hfind
    have hpar : (t.proc p).parent = some me := by simpa using List.find?_some hfind
    have hp : p ∈ t.list .zombie := List.mem_of_find?_eq_some hfind
    have hzombie : (t.proc p).state = .ZOMBIE := hl.onList hp
    rw [wp_bind, wp_procOf, h.proc_eq, if_pos hpar, wp_bind, wp_procOf, wp_bind, wp_procOf, h.proc_eq]
    refine h.calls_bind fun s₁ h₁ => ?_
    refine h₁.setProc_bind fun s₂ h₂ => ?_
    rw [wp_bind, wp_procOf, h₂.proc_eq, Table.set_proc_self]
    refine h₂.calls_bind fun s₃ h₃ => ?_
    refine wp_assertState_bind (by rw [h₃.proc_eq, Table.set_proc_self]; exact hzombie) ?_
    refine h₃.remove_bind hl.disjoint hp fun s₄ h₄ => ?_
    rw [wp_bind, wp_warnIf_lt]
    refine h₄.setProc_bind fun s₅ h₅ => ?_
    rw [Table.set_remove, Table.set_set, Table.set_proc_self] at h₅
    refine h₅.addHead_bind (hl.remove p) rfl fun s₆ h₆ => ?_
    rw [wp_bind, wp_warnIf_lt]
    replace h₆ : Kern.Becomes _ (t.moveHead p .free _) s₆ := h₆
    refine h₆.setProc_bind fun s₇ h₇ => ?_
    rw [Table.moveHead_set, Table.moveHead_proc, Table.set_proc_self] at h₇
    exact wp_pure.mpr ⟨_, rfl, .inr ⟨p, hfind, rfl, h₇⟩⟩

/-- Whether some process of `l` is a child. -/
theorem haveKids_spec (h : s₀.Becomes t s) (me : Fin NPROC) (l : SList MAX) :
    wp (haveKids me l) s fun r s' => s' = s ∧
      ((r = none ∧ ∀ p ∈ t.list l, (t.proc p).parent ≠ some me) ∨
        (r = some () ∧ ∃ p ∈ t.list l, (t.proc p).parent = some me)) := by
  unfold haveKids
  refine h.walkList (P := fun p => (t.proc p).parent = some me) ?_ ?_ fun hnone => ⟨rfl, .inl ⟨rfl, ?_⟩⟩
  · intro p hp
    rw [decide_eq_false_iff_not] at hp
    rw [wp_bind, wp_procOf, h.proc_eq, if_neg hp, wp_bind, wp_nextOf]
    exact wp_pure.mpr ⟨rfl, rfl⟩
  · intro p hfind
    have hpar : (t.proc p).parent = some me := by simpa using List.find?_some hfind
    rw [wp_bind, wp_procOf, h.proc_eq, if_pos hpar]
    exact wp_pure.mpr ⟨(), rfl, rfl, .inr ⟨rfl, p, List.mem_of_find?_eq_some hfind, hpar⟩⟩
  · simpa using hnone

/-- The lists that `wait` searches for children that are alive. -/
def aliveLists (MAX : Nat) : List (SList MAX) := (levels MAX).map .ready ++ [.running, .sleep]

theorem haveKids_alive_spec (h : s₀.Becomes t s) (me : Fin NPROC) :
    wp (firstOf (haveKids me) (aliveLists MAX)) s fun r s' => s' = s ∧
      ((r = none ∧ ∀ l ∈ aliveLists MAX, ∀ p ∈ t.list l, (t.proc p).parent ≠ some me) ∨
        (r = some () ∧ ∃ l ∈ aliveLists MAX, ∃ p ∈ t.list l, (t.proc p).parent = some me)) := by
  refine wp_firstOf (fun l => ∀ p ∈ t.list l, (t.proc p).parent ≠ some me) _ ?_ fun hall =>
    ⟨rfl, .inl ⟨rfl, hall⟩⟩
  intro as l bs hls _
  refine (haveKids_spec h me l).mono ?_
  rintro r s' ⟨rfl, ⟨rfl, hno⟩ | ⟨rfl, p, hp, hpar⟩⟩
  · exact .inl ⟨rfl, rfl, hno⟩
  · exact .inr ⟨(), rfl, rfl, .inr ⟨rfl, l, by simp [hls], p, hp, hpar⟩⟩

/-- One pass of `wait`: reap, give up, or sleep. -/
theorem wait_spec (h : s₀.Becomes t s) (hl : t.Listed none) {c : Fin NCPU} {me : Fin NPROC}
    (hrun : (t.proc me).state = .RUNNING) :
    wp (wait c me) s fun r s' =>
      (∃ p, (t.list .zombie).find? (fun p => (t.proc p).parent = some me) = some p ∧
        r = some (t.proc p).pid.toInt32 ∧
        ((s₀.record [.kfree (t.proc p).kstack]).record [.freevm (t.proc p).pgdir]).Becomes
          (t.reap p) s') ∨
      (t.list .zombie).find? (fun p => (t.proc p).parent = some me) = none ∧
        ((((t.proc me).killed = true ∨
            ∀ l ∈ aliveLists MAX, ∀ p ∈ t.list l, (t.proc p).parent ≠ some me) ∧
          r = some (-1) ∧ s' = s ∧ s₀.Becomes t s') ∨
        (((t.proc me).killed = false ∧
            ∃ l ∈ aliveLists MAX, ∃ p ∈ t.list l, (t.proc p).parent = some me) ∧
          r = none ∧ (s₀.setCpu c none).Becomes (t.sleep me (some (.proc me)) s₀.ticks) s')) := by
  unfold wait
  refine wp_bind_of (reap_spec h hl me) fun r s₁ hr => ?_
  rcases hr with ⟨hnone, rfl, rfl⟩ | ⟨p, hfind, rfl, h₁⟩
  · have hkids := haveKids_alive_spec h me
    refine wp_bind_of hkids ?_
    rintro r s' ⟨rfl, hr⟩
    rw [wp_bind, wp_procOf, h.proc_eq]
    rcases hr with ⟨rfl, hno⟩ | ⟨rfl, hyes⟩
    · rw [if_pos (by simp)]
      exact wp_pure.mpr (.inr ⟨hnone, .inl ⟨.inr hno, rfl, rfl, h⟩⟩)
    · cases hk : (t.proc me).killed with
      | true =>
          rw [if_pos (by simp)]
          exact wp_pure.mpr (.inr ⟨hnone, .inl ⟨.inl rfl, rfl, rfl, h⟩⟩)
      | false =>
          rw [if_neg (by simp)]
          refine wp_bind_of (sleep_spec h hl hrun (some (.proc me))) fun _ s₂ h₂ => ?_
          exact wp_pure.mpr (.inr ⟨hnone, .inr ⟨⟨rfl, hyes⟩, rfl, h₂⟩⟩)
  · exact wp_pure.mpr (.inl ⟨p, hfind, rfl, h₁⟩)

end Xv6.Ptable
