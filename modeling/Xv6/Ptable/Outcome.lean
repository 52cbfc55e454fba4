import Xv6.Ptable.Partition

/-!
# Xv6.Ptable.Outcome

Everything an operation can do, in one place: `Outcome s t op s₁ t'` lists, for each
operation, the tables it can end with and what else of the kernel state it changes.  The
invariants of the modules that follow are case analyses of it; none of them looks at the
code of an operation again.
-/

namespace Xv6.Ptable

variable {NPROC MAX NCPU : Nat}

/-- It is time to promote. -/
def Kern.due (s : Kern NPROC MAX NCPU) : Bool := s.promoteAtTime = s.ticks

/-- From `s`, with the table `t`, the operation leads to the table `t'`; outside the table
the state is that of `s₁`. -/
inductive Outcome (s : Kern NPROC MAX NCPU) (t : Table NPROC MAX) :
    Op NPROC MAX NCPU → Kern NPROC MAX NCPU → Table NPROC MAX → Prop
  | tick : Outcome s t .tick { s with ticks := s.ticks + 1 } t
  | noSlot {kalloc} (hfree : t.list .free = []) : Outcome s t (.allocproc kalloc) s t
  | noStack {p zs} (hfree : t.list .free = p :: zs) :
      Outcome s t (.allocproc none) s.takePid (t.allocFail p s.nextpid)
  | alloc {p zs a} (hfree : t.list .free = p :: zs) :
      Outcome s t (.allocproc (some a)) s.takePid (t.alloc p s.nextpid a s.ticks)
  | forkNoSlot {c me kalloc copyuvm} (hme : s.cpus c = some me) (hfree : t.list .free = []) :
      Outcome s t (.fork c kalloc copyuvm) s t
  | forkNoStack {c me copyuvm p zs} (hme : s.cpus c = some me) (hfree : t.list .free = p :: zs) :
      Outcome s t (.fork c none copyuvm) s.takePid (t.allocFail p s.nextpid)
  | forkNoMemory {c me p zs a} (hme : s.cpus c = some me) (hfree : t.list .free = p :: zs) :
      Outcome s t (.fork c (some a) none) (s.takePid.record [.kfree (some a)])
        ((t.alloc p s.nextpid a s.ticks).forkFail p)
  | fork {c me p zs a d} (hme : s.cpus c = some me) (hfree : t.list .free = p :: zs) :
      Outcome s t (.fork c (some a) (some d))
        (s.takePid.record ((t.proc me).openFiles.map .filedup ++ [.idup (t.proc me).cwd]))
        ((t.alloc p s.nextpid a s.ticks).forkDone me p d)
  | exit {c me} (hme : s.cpus c = some me) (hinit : some me ≠ s.initproc) :
      Outcome s t (.exit c)
        (((s.record ((t.proc me).openFiles.map .fileclose)).record
          [.iput (t.proc me).cwd]).setCpu c none)
        (t.exit me s.initproc s.ticks)
  | reap {c me z} (hme : s.cpus c = some me)
      (hfind : (t.list .zombie).find? (fun p => (t.proc p).parent = some me) = some z) :
      Outcome s t (.wait c)
        ((s.record [.kfree (t.proc z).kstack]).record [.freevm (t.proc z).pgdir]) (t.reap z)
  | waitNone {c me} (hme : s.cpus c = some me)
      (hnone : (t.list .zombie).find? (fun p => (t.proc p).parent = some me) = none)
      (hgive : (t.proc me).killed = true ∨
        ∀ l ∈ aliveLists MAX, ∀ p ∈ t.list l, (t.proc p).parent ≠ some me) :
      Outcome s t (.wait c) s t
  | wait {c me} (hme : s.cpus c = some me)
      (hnone : (t.list .zombie).find? (fun p => (t.proc p).parent = some me) = none)
      (hkids : (t.proc me).killed = false ∧
        ∃ l ∈ aliveLists MAX, ∃ p ∈ t.list l, (t.proc p).parent = some me) :
      Outcome s t (.wait c) (s.setCpu c none) (t.sleep me (some (.proc me)) s.ticks)
  | idle {c} (hcpu : s.cpus c = none) (hall : ∀ i, (t.promoted s.due).list (.ready i) = []) :
      Outcome s t (.scheduler c) (s.promoted s.due) (t.promoted s.due)
  | dispatch {c i p zs} (hcpu : s.cpus c = none)
      (hlist : (t.promoted s.due).list (.ready i) = p :: zs)
      (hfirst : ∀ j < i, (t.promoted s.due).list (.ready j) = []) :
      Outcome s t (.scheduler c) ((s.promoted s.due).setCpu c (some p))
        ((t.promoted s.due).dispatch p s.ticks)
  | promoteAll : Outcome s t .promoteAll s t.promoteAll
  | yield {c me} (hme : s.cpus c = some me) :
      Outcome s t (.yield c) (s.setCpu c none) (t.yield me s.ticks)
  | sleep {c me chan} (hme : s.cpus c = some me) :
      Outcome s t (.sleep c chan) (s.setCpu c none) (t.sleep me chan s.ticks)
  | wakeup {chan} : Outcome s t (.wakeup chan) s (t.wake chan)
  | killSleeper {pid p} (hp : t.found pid .sleep = some p) :
      Outcome s t (.kill pid) s
        (t.moveEnd p (readyOf (t.proc p).priority)
          { t.proc p with killed := true, state := .RUNNABLE })
  | kill {pid l p} (hsleep : t.found pid .sleep = none)
      (hfirst : t.FirstOn pid (killLists MAX) l) (hp : t.found pid l = some p) :
      Outcome s t (.kill pid) s (t.set p { t.proc p with killed := true })
  | killNone {pid} (hsleep : t.found pid .sleep = none)
      (hrest : ∀ l ∈ killLists MAX, t.found pid l = none) : Outcome s t (.kill pid) s t
  | setReady {pid priority i p} (hfirst : ∀ j < i, t.found pid (.ready j) = none)
      (hp : t.found pid (.ready i) = some p) :
      Outcome s t (.setpriority pid priority) s
        (t.moveEnd p (readyOf priority) { t.proc p with priority := priority, budget := BUDGET })
  | setOther {pid priority l p} (hready : ∀ i, t.found pid (.ready i) = none)
      (hfirst : l = .running ∨ l = .sleep ∧ t.found pid .running = none)
      (hp : t.found pid l = some p) :
      Outcome s t (.setpriority pid priority) s
        (t.set p { t.proc p with priority := priority, budget := BUDGET })
  | setNone {pid priority} (hready : ∀ i, t.found pid (.ready i) = none)
      (hrunning : t.found pid .running = none) (hsleep : t.found pid .sleep = none) :
      Outcome s t (.setpriority pid priority) s t

section Steps

variable {s s' : Kern NPROC MAX NCPU} {t : Table NPROC MAX} {op : Op NPROC MAX NCPU}

/-- A step is a run of the code of the operation. -/
theorem step_elim (hs : step s op = some s') : ∃ m, op.code s = some m ∧
    ∀ P : Kern NPROC MAX NCPU → Prop, (wp m s fun _ => P) → P s' := by
  obtain ⟨r, hr, hs⟩ := Option.bind_eq_some_iff.mp hs
  obtain ⟨m, hm, rfl⟩ := Option.map_eq_some_iff.mp hr
  refine ⟨m, hm, ?_⟩
  rintro P ⟨a, s'', hok, hP⟩
  simp only [hok, Except.map, Except.toOption, Option.some.injEq] at hs
  exact hs ▸ hP

theorem exit_ne_init {c : Fin NCPU} {me : Fin NPROC} (hme : s.cpus c = some me)
    (hs : step s (.exit c) = some s') : some me ≠ s.initproc := by
  intro hinit
  have hcode : (Ptable.exit c me : K NPROC MAX NCPU Unit) s = .error (.panic "init exiting") := by
    simp only [Ptable.exit]
    change (if some me = s.initproc then _ else _ : K NPROC MAX NCPU Unit) s = _
    rw [if_pos hinit]
    rfl
  simp [step, attempt, Op.code, hme, hcode, Except.map, Except.toOption] at hs

/-- **Inversion of a step.** -/
theorem step_outcome (h : Inv s t) (hs : step s op = some s') :
    ∃ s₁ t', Outcome s t op s₁ t' ∧ s₁.Becomes t' s' := by
  obtain ⟨m, hm, helim⟩ := step_elim hs
  apply helim fun s' => ∃ s₁ t', Outcome s t op s₁ t' ∧ s₁.Becomes t' s'
  cases op with
  | tick =>
      obtain rfl := Option.some.inj hm
      exact wp_modify.mpr ⟨_, t, .tick, .refl h.becomes.proc_eq h.becomes.reps⟩
  | allocproc kalloc =>
      obtain rfl := Option.some.inj hm
      refine wp_discard ((allocproc_spec h.becomes h.wf.listed kalloc).mono ?_)
      rintro _ s' (⟨hfree, -, hb⟩ | ⟨p, zs, hfree, rfl, -, hb⟩ | ⟨p, zs, a, hfree, rfl, -, hb⟩)
      · exact ⟨s, t, .noSlot hfree, hb⟩
      · exact ⟨_, _, .noStack hfree, hb⟩
      · exact ⟨_, _, .alloc hfree, hb⟩
  | fork c kalloc copyuvm =>
      obtain ⟨me, hme, rfl⟩ := Option.map_eq_some_iff.mp hm
      refine wp_discard ((fork_spec h.becomes h.wf (h.running c me hme) kalloc copyuvm).mono ?_)
      rintro _ s' (⟨hfree, -, hb⟩ | ⟨p, zs, hfree, rfl, -, hb⟩ |
        ⟨p, zs, a, hfree, rfl, rfl, -, hb⟩ | ⟨p, zs, a, d, hfree, rfl, rfl, -, hb⟩)
      · exact ⟨s, t, .forkNoSlot hme hfree, hb⟩
      · exact ⟨_, _, .forkNoStack hme hfree, hb⟩
      · exact ⟨_, _, .forkNoMemory hme hfree, hb⟩
      · exact ⟨_, _, .fork hme hfree, hb⟩
  | exit c =>
      obtain ⟨me, hme, rfl⟩ := Option.map_eq_some_iff.mp hm
      have hinit := exit_ne_init hme hs
      exact (exit_spec h.becomes h.wf.fit (h.running c me hme) hinit).mono fun _ s' hb =>
        ⟨_, _, .exit hme hinit, hb⟩
  | wait c =>
      obtain ⟨me, hme, rfl⟩ := Option.map_eq_some_iff.mp hm
      refine wp_discard ((wait_spec h.becomes h.wf.listed (h.running c me hme)).mono ?_)
      rintro _ s' (⟨z, hfind, -, hb⟩ | ⟨hnone, ⟨hgive, -, -, hb⟩ | ⟨hkids, -, hb⟩⟩)
      · exact ⟨_, _, .reap hme hfind, hb⟩
      · exact ⟨s, t, .waitNone hme hnone hgive, hb⟩
      · exact ⟨_, _, .wait hme hnone hkids, hb⟩
  | scheduler c =>
      obtain ⟨hcpu, hm⟩ := Option.ite_none_right_eq_some.mp hm
      obtain rfl := Option.some.inj hm
      have hnow : s.promoteAtTime = s.ticks ↔ s.due = true := by simp [Kern.due]
      refine (scheduler_spec h.becomes h.wf c hnow).mono ?_
      rintro _ s' (⟨hall, hb⟩ | ⟨i, p, zs, hlist, hfirst, hb⟩)
      · exact ⟨_, _, .idle hcpu hall, hb⟩
      · exact ⟨_, _, .dispatch hcpu hlist hfirst, hb⟩
  | promoteAll =>
      obtain rfl := Option.some.inj hm
      exact (promoteAll_spec h.becomes h.wf.placed).mono fun _ s' hb => ⟨s, _, .promoteAll, hb⟩
  | yield c =>
      obtain ⟨me, hme, rfl⟩ := Option.map_eq_some_iff.mp hm
      exact (yield_spec h.becomes h.wf (h.running c me hme)).mono fun _ s' hb =>
        ⟨_, _, .yield hme, hb⟩
  | sleep c chan =>
      obtain ⟨me, hme, rfl⟩ := Option.map_eq_some_iff.mp hm
      exact (sleep_spec h.becomes h.wf.listed (h.running c me hme) chan).mono fun _ s' hb =>
        ⟨_, _, .sleep hme, hb⟩
  | wakeup chan =>
      obtain rfl := Option.some.inj hm
      exact (wakeup1_spec h.becomes h.wf.fit chan).mono fun _ s' hb => ⟨s, _, .wakeup, hb⟩
  | kill pid =>
      obtain rfl := Option.some.inj hm
      refine wp_discard ((kill_spec h.becomes h.wf.fit pid).mono ?_)
      rintro _ s' (⟨-, p, hp, hb⟩ | ⟨-, hsleep, l, hfirst, p, hp, hb⟩ |
        ⟨-, hsleep, hrest, -, hb⟩)
      · exact ⟨s, _, .killSleeper hp, hb⟩
      · exact ⟨s, _, .kill hsleep hfirst hp, hb⟩
      · exact ⟨s, t, .killNone hsleep hrest, hb⟩
  | setpriority pid priority =>
      obtain rfl := Option.some.inj hm
      refine wp_discard ((setpriority_spec h.becomes h.wf pid
        (Nat.le_of_lt_succ priority.isLt)).mono ?_)
      rintro _ s' (⟨-, i, hfirst, p, hp, hb⟩ | ⟨-, hready, l, hfirst, p, hp, hb⟩ |
        ⟨-, hready, hrunning, hsleep, -, hb⟩)
      · exact ⟨s, _, .setReady hfirst hp, hb⟩
      · exact ⟨s, _, .setOther hready hfirst hp, hb⟩
      · exact ⟨s, t, .setNone hready hrunning hsleep, hb⟩

end Steps

end Xv6.Ptable
