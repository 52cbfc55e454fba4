import Xv6.Lib.Run
import Xv6.Ptable.Sched

/-!
# Xv6.Ptable.Partition

The operations of `proc.c` run one after the other, by any processes on any
CPUs, from the end of `userinit` on: in every state that is reached the state
lists partition the process table.

`Inv s t` ties a kernel state to the table it represents; besides the
partition it says that the current process of each CPU is `RUNNING` and is
current nowhere else, which is what the assertions of `yield`, `sleep` and
`exit` rely on.
-/

namespace Xv6.Ptable

variable {NPROC MAX NCPU : Nat}

/-! ## the invariant -/

structure Inv (s : Kern NPROC MAX NCPU) (t : Table NPROC MAX) : Prop where
  becomes : s.Becomes t s
  wf : t.WF
  running : ∀ c p, s.cpus c = some p → (t.proc p).state = .RUNNING
  once : ∀ c c' p, s.cpus c = some p → s.cpus c' = some p → c = c'
  quiet : ∀ msg, Call.cprintf msg ∉ s.trace

section Keep

variable {s s₁ s' : Kern NPROC MAX NCPU} {t t' : Table NPROC MAX}

theorem Kern.Becomes.cpus_eq (h : s.Becomes t s') : s'.cpus = s.cpus := by
  obtain ⟨k, rfl, -⟩ := h
  rfl

theorem Kern.Becomes.trace_eq (h : s.Becomes t s') : s'.trace = s.trace := by
  obtain ⟨k, rfl, -⟩ := h
  rfl

theorem Kern.Becomes.self (h : s.Becomes t s') : s'.Becomes t s' :=
  .refl h.proc_eq h.reps

/-- All CPUs idle. -/
theorem Inv.first (hb : s.Becomes t s') (hidle : ∀ c, s.cpus c = none)
    (hquiet : ∀ msg, Call.cprintf msg ∉ s.trace) (hwf : t.WF) : Inv s' t where
  becomes := hb.self
  wf := hwf
  running := fun c p hp => by simp [hb.cpus_eq, hidle] at hp
  once := fun c c' p hp => by simp [hb.cpus_eq, hidle] at hp
  quiet := by rw [hb.trace_eq]; exact hquiet

/-- An operation that leaves the CPUs alone and prints nothing. -/
theorem Inv.step (h : Inv s t) (hb : s₁.Becomes t' s') (hcpus : s₁.cpus = s.cpus)
    (hquiet : ∀ msg, Call.cprintf msg ∉ s₁.trace) (hwf : t'.WF) (hkeeps : t.Keeps t') :
    Inv s' t' where
  becomes := hb.self
  wf := hwf
  running := fun c p hp => by
    rw [hb.cpus_eq, hcpus] at hp
    exact hkeeps p (h.running c p hp)
  once := fun c c' p hc hc' => by
    rw [hb.cpus_eq, hcpus] at hc hc'
    exact h.once c c' p hc hc'
  quiet := by rw [hb.trace_eq]; exact hquiet

/-- The current process of `c` gives up the CPU. -/
theorem Inv.leave (h : Inv s t) {c : Fin NCPU} {me : Fin NPROC} (hme : s.cpus c = some me)
    (hb : s₁.Becomes t' s') (hcpus : s₁.cpus = Function.update s.cpus c none)
    (hquiet : ∀ msg, Call.cprintf msg ∉ s₁.trace) (hwf : t'.WF)
    (hkeeps : ∀ q, q ≠ me → (t.proc q).state = .RUNNING → (t'.proc q).state = .RUNNING) :
    Inv s' t' where
  becomes := hb.self
  wf := hwf
  running := fun d p hp => by
    rw [hb.cpus_eq, hcpus] at hp
    by_cases hd : d = c
    · subst hd; simp at hp
    · rw [Function.update_of_ne hd] at hp
      refine hkeeps p ?_ (h.running d p hp)
      rintro rfl
      exact hd (h.once d c p hp hme)
  once := fun d d' p hd hd' => by
    rw [hb.cpus_eq, hcpus] at hd hd'
    by_cases hdc : d = c
    · subst hdc; simp at hd
    · by_cases hdc' : d' = c
      · subst hdc'; simp at hd'
      · rw [Function.update_of_ne hdc] at hd
        rw [Function.update_of_ne hdc'] at hd'
        exact h.once d d' p hd hd'
  quiet := by rw [hb.trace_eq]; exact hquiet

/-- A process that was not running becomes current on the idle CPU `c`. -/
theorem Inv.enter (h : Inv s t) {c : Fin NCPU} {p : Fin NPROC}
    (hp : (t.proc p).state ≠ .RUNNING) (hb : s₁.Becomes t' s')
    (hcpus : s₁.cpus = Function.update s.cpus c (some p))
    (hquiet : ∀ msg, Call.cprintf msg ∉ s₁.trace) (hwf : t'.WF)
    (hnew : (t'.proc p).state = .RUNNING) (hkeeps : t.Keeps t') : Inv s' t' where
  becomes := hb.self
  wf := hwf
  running := fun d q hq => by
    rw [hb.cpus_eq, hcpus] at hq
    by_cases hd : d = c
    · subst hd
      rw [Function.update_self, Option.some.injEq] at hq
      rw [← hq]; exact hnew
    · rw [Function.update_of_ne hd] at hq
      exact hkeeps q (h.running d q hq)
  once := fun d d' q hd hd' => by
    have hother : ∀ e, e ≠ c → Function.update s.cpus c (some p) e = some q → q ≠ p := by
      rintro e he hq rfl
      rw [Function.update_of_ne he] at hq
      exact hp (h.running e q hq)
    rw [hb.cpus_eq, hcpus] at hd hd'
    by_cases hdc : d = c
    · by_cases hdc' : d' = c
      · rw [hdc, hdc']
      · have hq := hother d' hdc' hd'
        subst hdc
        rw [Function.update_self, Option.some.injEq] at hd
        exact absurd hd.symm hq
    · by_cases hdc' : d' = c
      · have hq := hother d hdc hd
        subst hdc'
        rw [Function.update_self, Option.some.injEq] at hd'
        exact absurd hd'.symm hq
      · rw [Function.update_of_ne hdc] at hd
        rw [Function.update_of_ne hdc'] at hd'
        exact h.once d d' q hd hd'
  quiet := by rw [hb.trace_eq]; exact hquiet

end Keep

/-! ## the operations keep it -/

section Operations

variable {s : Kern NPROC MAX NCPU} {t : Table NPROC MAX}

theorem quiet_record {es : List Call} (h : ∀ msg, Call.cprintf msg ∉ s.trace)
    (hes : ∀ msg, Call.cprintf msg ∉ es) (msg : String) :
    Call.cprintf msg ∉ (s.record es).trace := by
  rw [Kern.record, List.mem_append, not_or]
  exact ⟨h msg, hes msg⟩

theorem wakeup_inv (h : Inv s t) (chan : Option (Chan NPROC)) :
    wp (wakeup chan) s fun _ s' => ∃ t', Inv s' t' := by
  refine (wakeup1_spec h.becomes h.wf.fit chan).mono fun _ s' hb => ?_
  have hw := (Table.wake_woken h.wf.fit chan).eased
  exact ⟨_, h.step hb rfl h.quiet (h.wf.eased hw) hw.keeps⟩

theorem yield_inv (h : Inv s t) {c : Fin NCPU} {me : Fin NPROC} (hme : s.cpus c = some me) :
    wp (yield c me) s fun _ s' => ∃ t', Inv s' t' := by
  have hrun := h.running c me hme
  refine (yield_spec h.becomes h.wf hrun).mono fun _ s' hb => ?_
  refine ⟨_, h.leave hme hb rfl h.quiet (Table.yield_wf h.wf hrun _) fun q hq hr => ?_⟩
  simpa [Table.yield, Table.set_proc_of_ne hq] using hr

theorem sleep_inv (h : Inv s t) {c : Fin NCPU} {me : Fin NPROC} (hme : s.cpus c = some me)
    (chan : Option (Chan NPROC)) : wp (sleep c me chan) s fun _ s' => ∃ t', Inv s' t' := by
  have hrun := h.running c me hme
  refine (sleep_spec h.becomes h.wf.listed hrun chan).mono fun _ s' hb => ?_
  refine ⟨_, h.leave hme hb rfl h.quiet (Table.sleep_wf h.wf hrun _ _) fun q hq hr => ?_⟩
  simpa [Table.sleep, Table.set_proc_of_ne hq] using hr

theorem promoteAll_inv (h : Inv s t) : wp promoteAll s fun _ s' => ∃ t', Inv s' t' := by
  refine (promoteAll_spec h.becomes h.wf.placed).mono fun _ s' hb => ?_
  have hk := Table.promoteAll_kept h.wf
  exact ⟨_, h.step hb rfl h.quiet hk.wf hk.keeps⟩

theorem not_running_of_free (h : t.WF) {p : Fin NPROC} {zs : List (Fin NPROC)}
    (hfree : t.list .free = p :: zs) : (t.proc p).state ≠ .RUNNING := by
  have hp : (t.proc p).state = .UNUSED := h.listed.onList (show p ∈ t.list .free by simp [hfree])
  simp [hp]

theorem allocproc_inv (h : Inv s t) (kalloc : Option Nat) :
    wp (allocproc kalloc) s fun _ s' => ∃ t', Inv s' t' := by
  refine (allocproc_spec h.becomes h.wf.listed kalloc).mono fun _ s' hb => ?_
  rcases hb with ⟨-, -, hb⟩ | ⟨p, zs, hfree, -, -, hb⟩ | ⟨p, zs, a, hfree, -, -, hb⟩
  · exact ⟨t, h.step hb rfl h.quiet h.wf (.refl t)⟩
  · exact ⟨_, h.step hb rfl h.quiet (Table.allocFail_wf h.wf _ _)
      (Table.Keeps.move (not_running_of_free h.wf hfree))⟩
  · exact ⟨_, h.step hb rfl h.quiet (Table.alloc_wf h.wf _ _ _ _)
      (Table.Keeps.move (not_running_of_free h.wf hfree))⟩

theorem fork_inv (h : Inv s t) {c : Fin NCPU} {me : Fin NPROC} (hme : s.cpus c = some me)
    (kalloc copyuvm : Option Nat) :
    wp (fork me kalloc copyuvm) s fun _ s' => ∃ t', Inv s' t' := by
  refine (fork_spec h.becomes h.wf (h.running c me hme) kalloc copyuvm).mono fun _ s' hb => ?_
  have halloc : ∀ {p zs} a, t.list .free = p :: zs →
      t.Keeps (t.alloc p s.nextpid a s.ticks) := fun _ hfree =>
    Table.Keeps.move (not_running_of_free h.wf hfree)
  have hembryo : ∀ p a, ((t.alloc p s.nextpid a s.ticks).proc p).state = .EMBRYO := fun p a => by
    simp [Table.alloc]
  rcases hb with ⟨-, -, hb⟩ | ⟨p, zs, hfree, -, -, hb⟩ | ⟨p, zs, a, hfree, -, -, -, hb⟩ |
    ⟨p, zs, a, d, hfree, -, -, -, hb⟩
  · exact ⟨t, h.step hb rfl h.quiet h.wf (.refl t)⟩
  · exact ⟨_, h.step hb rfl h.quiet (Table.allocFail_wf h.wf _ _)
      (Table.Keeps.move (not_running_of_free h.wf hfree))⟩
  · refine ⟨_, h.step hb rfl (quiet_record h.quiet (by simp)) ?_ ?_⟩
    · exact Table.forkFail_wf (Table.alloc_wf h.wf _ _ _ _) _
    · exact (halloc a hfree).trans (Table.Keeps.move (by simp [hembryo p a]))
  · refine ⟨_, h.step hb rfl (quiet_record h.quiet (by simp)) ?_ ?_⟩
    · exact Table.forkDone_wf (Table.alloc_wf h.wf _ _ _ _) (hembryo p a) _
    · exact (halloc a hfree).trans (Table.Keeps.move (by simp [hembryo p a]))

theorem exit_inv (h : Inv s t) {c : Fin NCPU} {me : Fin NPROC} (hme : s.cpus c = some me)
    (hinit : some me ≠ s.initproc) : wp (exit c me) s fun _ s' => ∃ t', Inv s' t' := by
  have hrun := h.running c me hme
  refine (exit_spec h.becomes h.wf.fit hrun hinit).mono fun _ s' hb => ?_
  refine ⟨_, h.leave hme hb rfl ?_ (Table.exit_wf h.wf _ _ _) fun q hq hr => ?_⟩
  · exact quiet_record (quiet_record h.quiet (by simp)) (by simp)
  · have hk := (Table.bequeath_eased h.wf.fit me s.initproc).keeps q hr
    simpa [Table.exit, Table.set_proc_of_ne hq] using hk

theorem wait_inv (h : Inv s t) {c : Fin NCPU} {me : Fin NPROC} (hme : s.cpus c = some me) :
    wp (wait c me) s fun _ s' => ∃ t', Inv s' t' := by
  have hrun := h.running c me hme
  refine (wait_spec h.becomes h.wf.listed hrun).mono fun _ s' hb => ?_
  rcases hb with ⟨p, hfind, -, hb⟩ | ⟨-, ⟨-, -, -, hb⟩ | ⟨-, -, hb⟩⟩
  · have hp : (t.proc p).state = .ZOMBIE :=
      h.wf.listed.onList (List.mem_of_find?_eq_some hfind)
    refine ⟨_, h.step hb rfl ?_ (Table.reap_wf h.wf p) (Table.Keeps.move (by simp [hp]))⟩
    exact quiet_record (quiet_record h.quiet (by simp)) (by simp)
  · exact ⟨t, h.step hb rfl h.quiet h.wf (.refl t)⟩
  · refine ⟨_, h.leave hme hb rfl h.quiet (Table.sleep_wf h.wf hrun _ _) fun q hq hr => ?_⟩
    simpa [Table.sleep, Table.set_proc_of_ne hq] using hr

theorem scheduler_inv (h : Inv s t) (c : Fin NCPU) :
    wp (scheduler c) s fun _ s' => ∃ t', Inv s' t' := by
  have hnow : s.promoteAtTime = s.ticks ↔ decide (s.promoteAtTime = s.ticks) = true := by simp
  have hspec := scheduler_spec h.becomes h.wf c hnow
  generalize decide (s.promoteAtTime = s.ticks) = now at hspec hnow
  have hkept : Table.Kept t (t.promoted now) := by
    cases now with
    | false => exact ⟨h.wf, .refl t⟩
    | true => exact Table.promoteAll_kept h.wf
  have hcpus : (s.promoted now).cpus = s.cpus := by cases now <;> rfl
  have htrace : (s.promoted now).trace = s.trace := by cases now <;> rfl
  refine hspec.mono fun _ s' hb => ?_
  rcases hb with ⟨-, hb⟩ | ⟨i, p, zs, hlist, -, hb⟩
  · exact ⟨_, h.step hb hcpus (htrace ▸ h.quiet) hkept.wf hkept.keeps⟩
  · obtain ⟨hp, -⟩ := hkept.wf.listed.onList (show p ∈ (t.promoted now).list (.ready i) by simp [hlist])
    have hold : (t.proc p).state ≠ .RUNNING := fun hr => by
      rw [hkept.keeps p hr] at hp
      contradiction
    have hnew : (((t.promoted now).dispatch p s.ticks).proc p).state = .RUNNING := by
      simp only [Table.dispatch, Table.moveEnd_proc, Table.set_proc_self]
      split <;> rfl
    refine ⟨_, h.enter hold hb (by rw [← hcpus]; rfl) (by rw [Kern.setCpu, htrace]; exact h.quiet)
      (Table.dispatch_wf hkept.wf hp _) hnew ?_⟩
    exact hkept.keeps.trans (Table.Keeps.move (by simp [hp]))

theorem kill_inv (h : Inv s t) (pid : Int32) : wp (kill pid) s fun _ s' => ∃ t', Inv s' t' := by
  refine (kill_spec h.becomes h.wf.fit pid).mono fun _ s' hb => ?_
  rcases hb with ⟨-, p, hp, hb⟩ | ⟨-, -, l, -, p, -, hb⟩ | ⟨-, -, -, -, hb⟩
  · have hstate : (t.proc p).state = .SLEEPING := h.wf.listed.onList (Table.mem_of_found hp).1
    have hsane := h.wf.sane p
    refine ⟨_, h.step hb rfl h.quiet (h.wf.moveEnd (Proc.onList_readyOf rfl hsane.priority)
      ⟨hsane.priority, fun hc => ?_⟩) (Table.Keeps.move (by simp [hstate]))⟩
    rcases hsane.context hc with h' | h' <;> simp [hstate] at h'
  · exact ⟨_, h.step hb rfl h.quiet (h.wf.set rfl rfl rfl) (Table.Keeps.set fun hr => hr)⟩
  · exact ⟨t, h.step hb rfl h.quiet h.wf (.refl t)⟩

theorem setpriority_inv (h : Inv s t) (pid : Int32) {priority : Nat} (hprio : priority ≤ MAX) :
    wp (setpriority pid priority) s fun _ s' => ∃ t', Inv s' t' := by
  refine (setpriority_spec h.becomes h.wf pid hprio).mono fun _ s' hb => ?_
  rcases hb with ⟨-, i, -, p, hp, hb⟩ | ⟨-, -, l, hl, p, hp, hb⟩ | ⟨-, -, -, -, -, hb⟩
  · obtain ⟨hstate, -⟩ := h.wf.listed.onList (Table.mem_of_found hp).1
    exact ⟨_, h.step hb rfl h.quiet (h.wf.moveEnd (Proc.onList_readyOf hstate hprio)
      ⟨hprio, (h.wf.sane p).context⟩) (Table.Keeps.set fun hr => hr)⟩
  · -- off the ready lists the priority is just a field
    have hon := h.wf.listed.onList (Table.mem_of_found hp).1
    have hnot : (t.proc p).state ≠ .RUNNABLE := fun hr => by
      have := hon.unique (Proc.onList_readyOf hr (h.wf.sane p).priority)
      rcases hl with rfl | ⟨rfl, -⟩ <;> simp [readyOf] at this
    exact ⟨_, h.step hb rfl h.quiet
      ⟨h.wf.listed.set_of_onList fun m =>
        Proc.onList_congr (by rfl) (fun hr => absurd hr hnot) m,
        h.wf.sane.set ⟨hprio, (h.wf.sane p).context⟩⟩ (Table.Keeps.set fun hr => hr)⟩
  · exact ⟨t, h.step hb rfl h.quiet h.wf (.refl t)⟩

end Operations

/-! ## the first process -/

section Userinit

variable {s s₀ : Kern NPROC MAX NCPU} {t : Table NPROC MAX}

/-- A table with nothing but `xs` on the free list. -/
def Table.onlyFree (pr : Proc NPROC) (xs : List (Fin NPROC)) : Table NPROC MAX :=
  ⟨fun _ => pr, Function.update (fun _ => []) .free xs⟩

@[simp] theorem Table.onlyFree_free (pr : Proc NPROC) (xs : List (Fin NPROC)) :
    (Table.onlyFree pr xs : Table NPROC MAX).list .free = xs := by
  simp [Table.onlyFree]

@[simp] theorem Table.onlyFree_of_ne (pr : Proc NPROC) (xs : List (Fin NPROC)) {l : SList MAX}
    (hl : l ≠ .free) : (Table.onlyFree pr xs : Table NPROC MAX).list l = [] := by
  simp [Table.onlyFree, hl]

theorem Table.onlyFree_wf {pr : Proc NPROC} (hstate : pr.state = .UNUSED) (hpr : pr.Sane MAX) :
    (Table.onlyFree pr (List.finRange NPROC) : Table NPROC MAX).WF where
  listed :=
    { mem := fun q l => by
        by_cases hl : l = .free
        · subst hl; simpa [Table.onlyFree, Proc.OnList] using hstate
        · simp only [Table.onlyFree_of_ne pr _ hl, List.not_mem_nil, false_iff, not_and]
          exact fun _ ho => hl (ho.unique (m := .free) hstate)
      nodup := fun l => by
        by_cases hl : l = .free
        · subst hl; simpa using List.nodup_finRange NPROC
        · simp [hl] }
  sane := fun _ => hpr

/-- The loop of `userinit` puts every slot on the free list. -/
theorem freeAll_spec {pr : Proc NPROC} (hstate : pr.state = .UNUSED)
    (h : s₀.Becomes (Table.onlyFree pr []) s) :
    wp ((List.finRange NPROC).forM fun p => do
      assertState (some p) .UNUSED
      if (← onLinks (addToStateListEnd .free (some p))) == -1 then
        throw (.panic "Failed to add proc to UNUSED list.\n")) s
      fun _ s' => s₀.Becomes (Table.onlyFree pr (List.finRange NPROC)) s' := by
  refine (wp_forM (fun done todo s => done ++ todo = List.finRange NPROC ∧
    s₀.Becomes (Table.onlyFree pr done) s) ?_ ⟨rfl, h⟩).mono fun _ s' hr => hr.2
  rintro done p todo s ⟨hdone, hb⟩
  have hnodup := List.nodup_finRange NPROC
  rw [← hdone] at hnodup
  have hp : p ∉ done := fun hp => (List.nodup_cons.mp (List.nodup_middle.mp hnodup)).1 (by simp [hp])
  have hmem : ∀ l q, q ∈ (Table.onlyFree pr done : Table NPROC MAX).list l → l = .free ∧ q ∈ done := by
    intro l q hq
    by_cases hl : l = .free
    · subst hl; exact ⟨rfl, by simpa using hq⟩
    · simp [hl] at hq
  refine wp_assertState_bind (by rw [hb.proc_eq]; exact hstate) ?_
  refine wp_bind_of (hb.addEnd (fun l m q hl hm => (hmem l q hl).1.trans (hmem m q hm).1.symm)
    (fun m hm => hp (hmem m p hm).2) .free) ?_
  rintro r s' ⟨rfl, hb'⟩
  refine wp_pure.mpr ⟨by simp [hdone], ?_⟩
  have heq : (Table.onlyFree pr done : Table NPROC MAX).pushEnd .free p =
      Table.onlyFree pr (done ++ [p]) := by
    simp [Table.onlyFree, Table.pushEnd]
  rwa [heq] at hb'

theorem wp_setHead_none {k : Links NPROC MAX} {l : SList MAX} {Q : Unit → Links NPROC MAX → Prop}
    (h : k.head l = none) : wp (setHead l none) k Q ↔ Q () k := by
  rw [wp_setHead, ← h, Function.update_eq_self]

/-- The assignments at the end of `userinit`: most of them find what they
write. -/
theorem firstLists_spec {k : Links NPROC MAX} (hk : ∀ l, l ≠ .free → k.head l = none)
    (p : Fin NPROC) :
    wp (do
      setHead (.ready 0) (some p)
      setNext p none
      ((levels MAX).drop 1).forM fun i => setHead (.ready i) none
      setHead .sleep none
      setHead .zombie none
      setHead .running none
      setHead .embryo none) k fun r k' => r = () ∧ Relinked k k' (.ready 0) [p] [p] := by
  rw [wp_bind, wp_setHead, wp_bind, wp_setNext, wp_bind]
  generalize hk₁ : Links.mk (Function.update k.head (.ready 0) (some p))
    (Function.update k.next p none) = k₁
  have hhead : ∀ l, l ≠ .free → l ≠ .ready 0 → k₁.head l = none := fun l hf h0 => by
    rw [← hk₁]
    exact (Function.update_of_ne h0 _ _).trans (hk l hf)
  refine wp.mono (wp_forM (fun done todo k' => done ++ todo = (levels MAX).drop 1 ∧ k' = k₁)
    ?_ ⟨rfl, rfl⟩) ?_
  · rintro done i todo k' ⟨hdone, rfl⟩
    have hi : i ∈ (levels MAX).drop 1 := by simp [← hdone]
    have hne : SList.ready i ≠ .ready 0 := fun e => by
      have := Table.mem_drop_levels.mp hi
      simp [SList.ready.inj e] at this
    exact (wp_setHead_none (hhead _ (by simp) hne)).mpr ⟨by simp [hdone], rfl⟩
  · rintro _ k' ⟨-, rfl⟩
    rw [wp_bind, wp_setHead_none (hhead _ (by simp) (by simp)),
      wp_bind, wp_setHead_none (hhead _ (by simp) (by simp)),
      wp_bind, wp_setHead_none (hhead _ (by simp) (by simp)),
      wp_setHead_none (hhead _ (by simp) (by simp)), ← hk₁]
    exact ⟨rfl, ⟨by simp [Chain], fun l hl => Function.update_of_ne hl _ _,
      fun q hq => Function.update_of_ne (by simpa using hq) _ _⟩⟩

/-- The first process as `userinit` leaves it. -/
def Proc.first (p : Fin NPROC) (setupkvm namei : Option Nat) (pr : Proc NPROC) : Proc NPROC :=
  { pr with
    pgdir := setupkvm, sz := 4096, uid := UID, gid := GID, parent := some p, name := initcode
    cwd := namei, state := .RUNNABLE }

theorem initFirst_spec (h : s₀.Becomes t s) (hl : t.Listed none) {p : Fin NPROC}
    (hp : p ∈ t.list .embryo) (hempty : ∀ l, l ≠ .free → (t.list l).erase p = [])
    {setupkvm : Option Nat} (hsome : setupkvm ≠ none) (namei : Option Nat) :
    wp (initFirst p setupkvm namei) s fun _ s' =>
      s₀.Becomes (t.moveEnd p (.ready 0) (Proc.first p setupkvm namei (t.proc p))) s' := by
  unfold initFirst
  refine h.setProc_bind fun s₁ h₁ => ?_
  rw [if_neg hsome]
  refine h₁.setProc_bind fun s₂ h₂ => ?_
  rw [Table.set_set, Table.set_proc_self] at h₂
  refine wp_assertState_bind (by rw [h₂.proc_eq, Table.set_proc_self]; exact hl.onList hp) ?_
  refine h₂.remove_bind hl.disjoint hp fun s₃ h₃ => ?_
  rw [wp_bind, wp_warnIf_lt]
  refine h₃.setProc_bind fun s₄ h₄ => ?_
  rw [Table.set_remove, Table.set_set, Table.set_proc_self] at h₄
  replace h₄ : s₀.Becomes ((t.remove p).set p (Proc.first p setupkvm namei (t.proc p))) s₄ := h₄
  have hhead : ∀ l, l ≠ .free → s₄.links.head l = none := fun l hl => by
    rw [h₄.head_eq, Table.set_list, show (t.remove p).list l = [] from hempty l hl, List.head?_nil]
  refine (h₄.relink (firstLists_spec hhead p) fun m hm q hq hqp => ?_).mono fun _ s' hr => ?_
  · rw [List.mem_singleton.mp hqp] at hq
    exact (hl.remove p).not_mem_out m hq
  · have heq : ((t.remove p).list (.ready 0)) = [] := hempty _ (by simp)
    rw [Table.moveEnd, Table.pushEnd, Table.set_list, heq]
    exact hr.2

theorem Kern.Becomes.setInitproc (h : s₀.Becomes t s) (p : Option (Fin NPROC)) :
    Kern.Becomes { s₀ with initproc := p } t { s with initproc := p } := by
  obtain ⟨k, rfl, hk⟩ := h
  exact ⟨k, rfl, hk⟩

/-- The table at the end of `userinit`, when the first process has slot `p`. -/
def Table.first (p : Fin NPROC) (kstack : Nat) (ticks : UInt32) (setupkvm namei : Option Nat) :
    Table NPROC MAX :=
  let t := (Table.onlyFree .zero (List.finRange NPROC) : Table NPROC MAX).alloc p 1 kstack ticks
  t.moveEnd p (.ready ⟨0, MAX.succ_pos⟩) (Proc.first p setupkvm namei (t.proc p))

theorem Table.first_wf (p : Fin NPROC) (kstack : Nat) (ticks : UInt32)
    (setupkvm namei : Option Nat) :
    (Table.first p kstack ticks setupkvm namei : Table NPROC MAX).WF := by
  have hwf : (Table.onlyFree .zero (List.finRange NPROC) : Table NPROC MAX).WF :=
    Table.onlyFree_wf rfl ⟨Nat.zero_le MAX, fun hc => by simp [Proc.zero] at hc⟩
  refine (Table.alloc_wf hwf p 1 kstack ticks).moveEnd ⟨rfl, ?_⟩ ⟨?_, fun hc => ?_⟩
  · simp [Proc.first, Table.alloc]
  · simp [Proc.first, Table.alloc]
  · simp [Proc.first, Table.alloc] at hc

/-- **At the end of `userinit`** the first process is `RUNNABLE` and all
other slots are free. -/
theorem userinit_spec {kalloc setupkvm namei : Option Nat} {ticks : UInt32}
    (hboot : userinit kalloc setupkvm namei (boot ticks) = .ok ((), s)) :
    ∃ p kstack, Kern.Becomes
      ({ (boot ticks : Kern NPROC MAX NCPU) with
        promoteAtTime := TIME_TO_PROMOTE, nextpid := 2, initproc := some p })
      (Table.first p kstack ticks setupkvm namei) s := by
  have h : wp (userinit kalloc setupkvm namei) (boot ticks) fun _ s' => s' = s :=
    ⟨(), s, hboot, rfl⟩
  unfold userinit at h
  rw [wp_bind, wp_modify, wp_bind] at h
  have hzero : Kern.Becomes { boot ticks with promoteAtTime := TIME_TO_PROMOTE }
      (Table.onlyFree (.zero : Proc NPROC) [])
      ({ boot ticks with promoteAtTime := TIME_TO_PROMOTE } : Kern NPROC MAX NCPU) :=
    .refl rfl fun l => by simp [Table.onlyFree, boot, Chain]
  have hwf : (Table.onlyFree .zero (List.finRange NPROC) : Table NPROC MAX).WF :=
    Table.onlyFree_wf rfl ⟨Nat.zero_le MAX, fun hc => by simp [Proc.zero] at hc⟩
  obtain ⟨_, s₂, h, hfree⟩ := h.det (freeAll_spec rfl hzero)
  rw [wp_bind] at h
  obtain ⟨r, s₃, h, halloc⟩ := h.det (allocproc_spec hfree hwf.listed kalloc)
  rw [wp_bind, wp_modify] at h
  rcases halloc with ⟨-, rfl, -⟩ | ⟨_, _, -, -, rfl, -⟩ | ⟨p, zs, a, hlist, -, rfl, hb⟩
  · simp at h
  · simp at h
  · have hsome : setupkvm ≠ none := by
      rintro rfl
      simp [initFirst] at h
    have hwf' := Table.alloc_wf hwf p (boot ticks : Kern NPROC MAX NCPU).nextpid a ticks
    have hempty : ∀ l, l ≠ .free → (((Table.onlyFree .zero (List.finRange NPROC)).alloc p
        (boot ticks : Kern NPROC MAX NCPU).nextpid a ticks).list l).erase p = [] := fun l hl => by
      change (Table.remove (Table.alloc _ p _ a ticks) p).list l = []
      rw [Table.alloc, Table.moveHead_remove hwf.listed, Table.set_list]
      change (Table.list (Table.onlyFree _ _) l).erase p = []
      rw [Table.onlyFree_of_ne _ _ hl, List.erase_nil]
    refine h.of_result (P := fun s => ∃ p kstack, Kern.Becomes
      ({ (boot ticks : Kern NPROC MAX NCPU) with
        promoteAtTime := TIME_TO_PROMOTE, nextpid := 2, initproc := some p })
      (Table.first p kstack ticks setupkvm namei) s) ?_
    exact (initFirst_spec (hb.setInitproc (some p)) hwf'.listed Table.mem_moveHead_self hempty
      hsome namei).mono fun _ s' hb' => ⟨p, a, hb'⟩

theorem userinit_inv {kalloc setupkvm namei : Option Nat} {ticks : UInt32}
    (hboot : userinit kalloc setupkvm namei (boot ticks) = .ok ((), s)) : ∃ t, Inv s t := by
  obtain ⟨p, kstack, hb⟩ := userinit_spec hboot
  exact ⟨_, .first hb (fun _ => rfl) (by simp [boot]) (Table.first_wf p kstack ticks setupkvm namei)⟩

end Userinit

/-! ## the operations as steps -/

/-- The operations, each executed whole; `c` is the CPU whose current process
executes it. -/
inductive Op (NPROC MAX NCPU : Nat)
  /-- the timer interrupt -/
  | tick
  | allocproc (kalloc : Option Nat)
  | fork (c : Fin NCPU) (kalloc copyuvm : Option Nat)
  | exit (c : Fin NCPU)
  | wait (c : Fin NCPU)
  | scheduler (c : Fin NCPU)
  | promoteAll
  | yield (c : Fin NCPU)
  | sleep (c : Fin NCPU) (chan : Option (Chan NPROC))
  | wakeup (chan : Option (Chan NPROC))
  | kill (pid : Int32)
  | setpriority (pid : Int32) (priority : Fin (MAX + 1))

/-- The code of an operation, if it can be executed in `s`: a process
executes on the CPU where it is current, and the scheduler on an idle one. -/
def Op.code (s : Kern NPROC MAX NCPU) : Op NPROC MAX NCPU → Option (K NPROC MAX NCPU Unit)
  | .tick => some (modify fun s => { s with ticks := s.ticks + 1 })
  | .allocproc kalloc => some (discard (Ptable.allocproc kalloc))
  | .fork c kalloc copyuvm =>
      (s.cpus c).map fun me => discard (Ptable.fork me kalloc copyuvm)
  | .exit c => (s.cpus c).map fun me => Ptable.exit c me
  | .wait c => (s.cpus c).map fun me => discard (Ptable.wait c me)
  | .scheduler c => if s.cpus c = none then some (Ptable.scheduler c) else none
  | .promoteAll => some Ptable.promoteAll
  | .yield c => (s.cpus c).map fun me => Ptable.yield c me
  | .sleep c chan => (s.cpus c).map fun me => Ptable.sleep c me chan
  | .wakeup chan => some (Ptable.wakeup chan)
  | .kill pid => some (discard (Ptable.kill pid))
  | .setpriority pid priority => some (discard (Ptable.setpriority pid priority))

/-- What comes of an operation that can be executed. -/
def attempt (s : Kern NPROC MAX NCPU) (op : Op NPROC MAX NCPU) :
    Option (Except Stop (Kern NPROC MAX NCPU)) :=
  (op.code s).map fun m => (m s).map Prod.snd

def step (s : Kern NPROC MAX NCPU) (op : Op NPROC MAX NCPU) : Option (Kern NPROC MAX NCPU) :=
  (attempt s op).bind Except.toOption

section Steps

variable {s s' : Kern NPROC MAX NCPU} {t : Table NPROC MAX} {op : Op NPROC MAX NCPU}

theorem wp_discard {α : Type} {m : K NPROC MAX NCPU α} {P : Kern NPROC MAX NCPU → Prop}
    (h : wp m s fun _ s' => P s') : wp (discard m) s fun _ s' => P s' := by
  obtain ⟨a, s', hm, hp⟩ := h
  refine ⟨(), s', ?_, hp⟩
  simp [discard, Functor.mapConst, StateT.map, hm]

/-- **Step lemma**: an operation keeps the invariant, or it is `exit` of the
first process. -/
theorem code_inv (h : Inv s t) {m : K NPROC MAX NCPU Unit} (hm : op.code s = some m) :
    (wp m s fun _ s' => ∃ t', Inv s' t') ∨
      ∃ c me, op = .exit c ∧ s.cpus c = some me ∧ s.initproc = some me ∧
        m s = .error (.panic "init exiting") := by
  cases op with
  | tick =>
      obtain rfl := Option.some.inj hm
      refine .inl (wp_modify.mpr ⟨t, ?_⟩)
      exact ⟨.refl h.becomes.proc_eq h.becomes.reps, h.wf, h.running, h.once, h.quiet⟩
  | allocproc kalloc =>
      obtain rfl := Option.some.inj hm
      exact .inl (wp_discard (allocproc_inv h kalloc))
  | fork c kalloc copyuvm =>
      obtain ⟨me, hme, rfl⟩ := Option.map_eq_some_iff.mp hm
      exact .inl (wp_discard (fork_inv h hme kalloc copyuvm))
  | exit c =>
      obtain ⟨me, hme, rfl⟩ := Option.map_eq_some_iff.mp hm
      by_cases hinit : some me = s.initproc
      · refine .inr ⟨c, me, rfl, hme, hinit.symm, ?_⟩
        simp only [Ptable.exit]
        change (if some me = s.initproc then _ else _ : K NPROC MAX NCPU Unit) s = _
        rw [if_pos hinit]
        rfl
      · exact .inl (exit_inv h hme hinit)
  | wait c =>
      obtain ⟨me, hme, rfl⟩ := Option.map_eq_some_iff.mp hm
      exact .inl (wp_discard (wait_inv h hme))
  | scheduler c =>
      obtain ⟨-, hm⟩ := Option.ite_none_right_eq_some.mp hm
      obtain rfl := Option.some.inj hm
      exact .inl (scheduler_inv h c)
  | promoteAll =>
      obtain rfl := Option.some.inj hm
      exact .inl (promoteAll_inv h)
  | yield c =>
      obtain ⟨me, hme, rfl⟩ := Option.map_eq_some_iff.mp hm
      exact .inl (yield_inv h hme)
  | sleep c chan =>
      obtain ⟨me, hme, rfl⟩ := Option.map_eq_some_iff.mp hm
      exact .inl (sleep_inv h hme chan)
  | wakeup chan =>
      obtain rfl := Option.some.inj hm
      exact .inl (wakeup_inv h chan)
  | kill pid =>
      obtain rfl := Option.some.inj hm
      exact .inl (wp_discard (kill_inv h pid))
  | setpriority pid priority =>
      obtain rfl := Option.some.inj hm
      exact .inl (wp_discard (setpriority_inv h pid (Nat.le_of_lt_succ priority.isLt)))

theorem step_inv (h : ∃ t, Inv s t) (hs : step s op = some s') : ∃ t, Inv s' t := by
  obtain ⟨t, h⟩ := h
  obtain ⟨r, hr, hs⟩ := Option.bind_eq_some_iff.mp hs
  obtain ⟨m, hm, rfl⟩ := Option.map_eq_some_iff.mp hr
  rcases code_inv h hm with ⟨a, s'', hok, hinv⟩ | ⟨_, _, -, -, -, herr⟩
  · simp only [hok, Except.map, Except.toOption, Option.some.injEq] at hs
    exact hs ▸ hinv
  · simp [herr, Except.map, Except.toOption] at hs

/-- The only way to stop is `exit` of the first process. -/
theorem attempt_error (h : Inv s t) {e : Stop} (he : attempt s op = some (.error e)) :
    ∃ c me, op = .exit c ∧ s.cpus c = some me ∧ s.initproc = some me ∧
      e = .panic "init exiting" := by
  obtain ⟨m, hm, he⟩ := Option.map_eq_some_iff.mp he
  rcases code_inv h hm with ⟨a, s'', hok, -⟩ | ⟨c, me, hop, hc, hinit, herr⟩
  · simp [hok, Except.map] at he
  · simp only [herr, Except.map, Except.error.injEq] at he
    exact ⟨c, me, hop, hc, hinit, he.symm⟩

end Steps

/-! ## the partition -/

/-- The state lists hold `L`, and each slot is on the one list its state
names, once. -/
structure Partition (s : Kern NPROC MAX NCPU) (L : SList MAX → List (Fin NPROC)) : Prop where
  /-- from its head, `next` runs through a list and ends in NULL -/
  chain : ∀ l, Chain s.links.next (s.links.head l) (L l)
  nodup : ∀ l, (L l).Nodup
  exactlyOne : ∀ p, ∃! l, p ∈ L l
  named : ∀ p l, p ∈ L l ↔ (s.proc p).OnList l
  priority : ∀ p, (s.proc p).state = .RUNNABLE → (s.proc p).priority ≤ MAX

/-- A process is on one list if it is on the list that its state names. -/
theorem Partition.of_named {s : Kern NPROC MAX NCPU} {L : SList MAX → List (Fin NPROC)}
    (hchain : ∀ l, Chain s.links.next (s.links.head l) (L l)) (hnodup : ∀ l, (L l).Nodup)
    (hnamed : ∀ p l, p ∈ L l ↔ (s.proc p).OnList l)
    (hprio : ∀ p, (s.proc p).state = .RUNNABLE → (s.proc p).priority ≤ MAX) : Partition s L where
  chain := hchain
  nodup := hnodup
  exactlyOne := fun p => by
    obtain ⟨l, hl⟩ := Proc.exists_onList (hprio p)
    exact ⟨l, (hnamed p l).mpr hl, fun m hm => ((hnamed p m).mp hm).unique hl⟩
  named := hnamed
  priority := hprio

section

variable {s s' : Kern NPROC MAX NCPU} {t : Table NPROC MAX} {L : SList MAX → List (Fin NPROC)}

theorem Table.Placed.partition (h : t.Placed) (hb : s.Becomes t s') : Partition s' t.list := by
  refine .of_named hb.reps h.listed.nodup (fun p l => ?_) fun p hp => ?_
  · rw [hb.proc_eq]
    exact h.listed.mem_iff
  · rw [hb.proc_eq] at hp ⊢
    exact h.priority p hp

theorem Inv.partition (h : Inv s t) : Partition s t.list := h.wf.placed.partition h.becomes

/-- A state with the partition represents a table. -/
theorem Partition.placed (h : Partition s L) : Table.Placed ⟨s.proc, L⟩ :=
  ⟨⟨fun q l => by simp [h.named q l], h.nodup⟩, h.priority⟩

theorem Partition.becomes (h : Partition s L) : s.Becomes ⟨s.proc, L⟩ s := .refl rfl h.chain

end

/-- **The state lists partition the process table** in every state that the
operations reach from the end of `userinit`.  So no branch that prints a
failure has been taken, and no operation can stop but for `exit` of the first
process: no assertion fails, no list is left or walked in vain. -/
theorem state_lists_partition {kalloc setupkvm namei : Option Nat} {ticks : UInt32}
    {s₀ s : Kern NPROC MAX NCPU} {ops : List (Op NPROC MAX NCPU)}
    (hboot : userinit kalloc setupkvm namei (boot ticks) = .ok ((), s₀))
    (hrun : Run.exec step s₀ ops = some s) :
    (∃ L, Partition s L) ∧ (∀ msg, Call.cprintf msg ∉ s.trace) ∧
      ∀ op e, attempt s op = some (.error e) →
        ∃ c me, op = .exit c ∧ s.cpus c = some me ∧ s.initproc = some me ∧
          e = .panic "init exiting" := by
  obtain ⟨t, h⟩ : ∃ t, Inv s t :=
    Run.reachable_invariant (fun _ _ _ => step_inv) (userinit_inv hboot) ⟨ops, hrun⟩
  exact ⟨⟨t.list, h.partition⟩, h.quiet, fun _ _ => attempt_error h⟩

/-- The first process forks, sleeps, is woken by the exit of its child and
reaps it. -/
def family : List (Op 3 1 1) :=
  [.scheduler 0, .fork 0 (some 1) (some 2), .wait 0, .tick, .scheduler 0, .setpriority 2 1,
    .yield 0, .promoteAll, .scheduler 0, .exit 0, .scheduler 0, .wait 0]

/-- What is computed of a small machine when it has started. -/
theorem exists_booted (ticks : UInt32) {p : Kern 3 1 1 → Bool}
    (h : ((userinit (some 0) (some 0) (some 0) (boot ticks) :
      Except Stop (Unit × Kern 3 1 1)).toOption.any fun r => p r.2) = true) :
    ∃ s₀, userinit (some 0) (some 0) (some 0) (boot ticks) = .ok ((), s₀) ∧ p s₀ = true :=
  exists_of_result_any h

/-- What is computed of it after a run. -/
theorem exists_run {σ : Type*} {ι : Type} (f : σ → ι → Option σ) (start : Kern 3 1 1 → σ) (xs : List ι)
    {p : σ → Bool} (h : ((userinit (some 0) (some 0) (some 0) (boot 0) :
      Except Stop (Unit × Kern 3 1 1)).toOption.any fun r =>
        (Run.exec f (start r.2) xs).any p) = true) :
    ∃ s₀ s, userinit (some 0) (some 0) (some 0) (boot 0) = .ok ((), s₀) ∧
      Run.exec f (start s₀) xs = some s ∧ p s = true := by
  obtain ⟨s₀, hboot, hrun⟩ := exists_booted 0 (p := fun s₀ => (Run.exec f (start s₀) xs).any p) h
  obtain ⟨s, hs, hp⟩ := Run.exists_of_exec_any f (start s₀) xs p hrun
  exact ⟨s₀, s, hboot, hs, hp⟩

theorem state_lists_partition_family : ∃ s₀ s : Kern 3 1 1,
    userinit (some 0) (some 0) (some 0) (boot 0) = .ok ((), s₀) ∧
      Run.exec step s₀ family = some s ∧ (s.proc 1).state = .UNUSED ∧ s.nextpid = 3 ∧
      ∃ L, Partition s L := by
  obtain ⟨s₀, s, hboot, hs, hp⟩ := exists_run step id family
    (p := fun s => decide ((s.proc 1).state = .UNUSED ∧ s.nextpid = 3)) (by decide +kernel)
  obtain ⟨hstate, hpid⟩ := of_decide_eq_true hp
  exact ⟨s₀, s, hboot, hs, hstate, hpid, (state_lists_partition hboot hs).1⟩

/-- **No process runs on two processors**: in the same states, what a processor runs is `RUNNING`,
and no other processor runs it. -/
theorem cpus_apart {kalloc setupkvm namei : Option Nat} {ticks : UInt32}
    {s₀ : Kern NPROC MAX NCPU}
    (hboot : userinit kalloc setupkvm namei (boot ticks) = .ok ((), s₀))
    (ops : List (Op NPROC MAX NCPU)) :
    Run.Along step (fun s => ∀ c p, s.cpus c = some p →
      (s.proc p).state = .RUNNING ∧ ∀ c', s.cpus c' = some p → c' = c) s₀ ops := by
  refine Run.along_of_step (fun _ _ _ => step_inv) ?_ (userinit_inv hboot)
  rintro s ⟨t, h⟩ c p hc
  refine ⟨?_, fun c' hc' => h.once c' c p hc' hc⟩
  rw [h.becomes.proc_eq]
  exact h.running c p hc

theorem cpus_apart_family : ∃ s₀ : Kern 3 1 1,
    userinit (some 0) (some 0) (some 0) (boot 0) = .ok ((), s₀) ∧
      Run.Along step (fun s => ∀ c p, s.cpus c = some p →
        (s.proc p).state = .RUNNING ∧ ∀ c', s.cpus c' = some p → c' = c) s₀ family := by
  obtain ⟨s₀, hboot, -⟩ := exists_booted 0 (p := fun _ => true) (by decide +kernel)
  exact ⟨s₀, hboot, cpus_apart hboot family⟩

end Xv6.Ptable
