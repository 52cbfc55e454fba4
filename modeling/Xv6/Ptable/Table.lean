import Xv6.Ptable

/-!
# Xv6.Ptable.Table

What the process table means: the processes, and for each state list the
processes on it in order.  The operations of `proc.c` are moves here — take a
process off the list it is on, change it, and put it on another list — and
folds of moves along a list.

`Listed out t` is the partition: every process is on exactly the list named
by its state (and, for a `RUNNABLE` one, its priority), once.  The process
`out` is in transit, on no list.
-/

namespace Xv6.Ptable

variable {NPROC MAX : Nat}

/-- The list named by the state of a process. -/
def Proc.OnList (pr : Proc NPROC) : SList MAX → Prop
  | .ready i => pr.state = .RUNNABLE ∧ pr.priority = i
  | .free => pr.state = .UNUSED
  | .sleep => pr.state = .SLEEPING
  | .zombie => pr.state = .ZOMBIE
  | .running => pr.state = .RUNNING
  | .embryo => pr.state = .EMBRYO

/-- A priority is an index of `ready`, and only a process that is gone has
left for good. -/
structure Proc.Sane (MAX : Nat) (pr : Proc NPROC) : Prop where
  priority : pr.priority ≤ MAX
  context : pr.context = .exit → pr.state = .ZOMBIE ∨ pr.state = .UNUSED

/-- `&ptable.pLists.ready[n]` -/
def readyOf (n : Nat) : SList MAX := .ready ⟨min n MAX, by omega⟩

theorem Proc.OnList.unique {pr : Proc NPROC} {l m : SList MAX} (hl : pr.OnList l)
    (hm : pr.OnList m) : l = m := by
  cases l <;> cases m <;> simp_all [Proc.OnList, Fin.ext_iff]

theorem Proc.onList_readyOf {pr : Proc NPROC} (hs : pr.state = .RUNNABLE)
    (hp : pr.priority ≤ MAX) : pr.OnList (readyOf pr.priority : SList MAX) :=
  ⟨hs, by simp [hp]⟩

theorem Proc.onList_ready_iff {pr : Proc NPROC} {i : Fin (MAX + 1)} :
    pr.OnList (.ready i) ↔ pr.state = .RUNNABLE ∧ pr.priority = i := Iff.rfl

/-- Somewhere. -/
theorem Proc.exists_onList {pr : Proc NPROC} (hp : pr.state = .RUNNABLE → pr.priority ≤ MAX) :
    ∃ l : SList MAX, pr.OnList l := by
  cases hs : pr.state with
  | UNUSED => exact ⟨.free, hs⟩
  | EMBRYO => exact ⟨.embryo, hs⟩
  | SLEEPING => exact ⟨.sleep, hs⟩
  | RUNNABLE => exact ⟨_, Proc.onList_readyOf hs (hp hs)⟩
  | RUNNING => exact ⟨.running, hs⟩
  | ZOMBIE => exact ⟨.zombie, hs⟩

/-- Two processes in the same state and, if `RUNNABLE`, of the same priority
belong on the same list. -/
theorem Proc.onList_congr {pr pr' : Proc NPROC} (hs : pr'.state = pr.state)
    (hp : pr.state = .RUNNABLE → pr'.priority = pr.priority) (l : SList MAX) :
    pr'.OnList l ↔ pr.OnList l := by
  cases l with
  | ready i =>
      simp only [Proc.OnList, hs]
      constructor
      · rintro ⟨h1, h2⟩; exact ⟨h1, by rw [← hp h1]; exact h2⟩
      · rintro ⟨h1, h2⟩; exact ⟨h1, by rw [hp h1]; exact h2⟩
  | _ => simp only [Proc.OnList, hs]

theorem Proc.Sane.charge {pr : Proc NPROC} (h : pr.Sane MAX) (ticks : UInt32) :
    (pr.charge MAX ticks).Sane MAX := by
  have := h.priority
  simp only [Proc.charge]
  split
  · refine ⟨?_, h.context⟩
    simp only
    split <;> omega
  · exact ⟨h.priority, h.context⟩

@[simp] theorem Proc.charge_state (pr : Proc NPROC) (ticks : UInt32) :
    (pr.charge MAX ticks).state = pr.state := by
  simp only [Proc.charge]; split <;> rfl

/-- `pr` becomes `pr'`, which is scheduled as before unless it wakes up. -/
structure Proc.Eased (pr pr' : Proc NPROC) : Prop where
  priority : pr'.priority = pr.priority
  context : pr'.context = pr.context
  state : pr'.state = pr.state ∨ pr.state = .SLEEPING ∧ pr'.state = .RUNNABLE

theorem Proc.Eased.refl (pr : Proc NPROC) : pr.Eased pr := ⟨rfl, rfl, .inl rfl⟩

theorem Proc.Eased.trans {pr pr' pr'' : Proc NPROC} (h : pr.Eased pr') (h' : pr'.Eased pr'') :
    pr.Eased pr'' where
  priority := h'.priority.trans h.priority
  context := h'.context.trans h.context
  state := by
    have h₁ := h.state
    have h₂ := h'.state
    grind

/-- `sched()`: the time slice is booked and the place to resume noted. -/
def Proc.leave (ticks : UInt32) (resume : Context) (pr : Proc NPROC) : Proc NPROC :=
  { pr with cpuTicksTotal := pr.cpuTicksTotal + (ticks - pr.cpuTicksIn), context := resume }

/-- What `fork` gives the child. -/
def Proc.child (me : Fin NPROC) (proc pr : Proc NPROC) : Proc NPROC :=
  { pr with
    sz := proc.sz, parent := some me, ofile := fun i => (proc.ofile i).or (pr.ofile i)
    cwd := proc.cwd, name := proc.name, uid := proc.uid, gid := proc.gid, state := .RUNNABLE }

/-! ## tables and moves -/

structure Table (NPROC MAX : Nat) where
  proc : Fin NPROC → Proc NPROC
  list : SList MAX → List (Fin NPROC)

namespace Table

def remove (t : Table NPROC MAX) (p : Fin NPROC) : Table NPROC MAX :=
  { t with list := fun l => (t.list l).erase p }

def set (t : Table NPROC MAX) (p : Fin NPROC) (pr : Proc NPROC) : Table NPROC MAX :=
  { t with proc := Function.update t.proc p pr }

def pushEnd (t : Table NPROC MAX) (l : SList MAX) (p : Fin NPROC) : Table NPROC MAX :=
  { t with list := Function.update t.list l (t.list l ++ [p]) }

def pushHead (t : Table NPROC MAX) (l : SList MAX) (p : Fin NPROC) : Table NPROC MAX :=
  { t with list := Function.update t.list l (p :: t.list l) }

/-- `p` becomes `pr`, last on `l`. -/
def moveEnd (t : Table NPROC MAX) (p : Fin NPROC) (l : SList MAX) (pr : Proc NPROC) :
    Table NPROC MAX := ((t.remove p).set p pr).pushEnd l p

/-- `p` becomes `pr`, first on `l`. -/
def moveHead (t : Table NPROC MAX) (p : Fin NPROC) (l : SList MAX) (pr : Proc NPROC) :
    Table NPROC MAX := ((t.remove p).set p pr).pushHead l p

/-- No process is on two lists. -/
def Disjoint (t : Table NPROC MAX) : Prop :=
  ∀ l m p, p ∈ t.list l → p ∈ t.list m → l = m

/-- **The partition**, with `out` in transit. -/
structure Listed (out : Option (Fin NPROC)) (t : Table NPROC MAX) : Prop where
  mem : ∀ q l, q ∈ t.list l ↔ out ≠ some q ∧ (t.proc q).OnList l
  nodup : ∀ l, (t.list l).Nodup

def Sane (t : Table NPROC MAX) : Prop := ∀ q, (t.proc q).Sane MAX

variable {t : Table NPROC MAX} {out : Option (Fin NPROC)} {p q : Fin NPROC} {pr : Proc NPROC}
  {l m : SList MAX}

@[simp] theorem set_list : (t.set p pr).list = t.list := rfl

@[simp] theorem set_proc_self : (t.set p pr).proc p = pr := Function.update_self _ _ _

theorem set_proc_of_ne (h : q ≠ p) : (t.set p pr).proc q = t.proc q :=
  Function.update_of_ne h _ _

theorem set_set (pr' : Proc NPROC) : (t.set p pr).set p pr' = t.set p pr' := by
  simp [set]

@[simp] theorem moveEnd_proc : (t.moveEnd p l pr).proc = (t.set p pr).proc := rfl

@[simp] theorem moveHead_proc : (t.moveHead p l pr).proc = (t.set p pr).proc := rfl

theorem Sane.set (h : t.Sane) (hpr : pr.Sane MAX) : (t.set p pr).Sane := by
  intro q
  by_cases hq : q = p
  · subst hq; rw [set_proc_self]; exact hpr
  · rw [set_proc_of_ne hq]; exact h q

namespace Listed

theorem onList (h : t.Listed out) (hp : p ∈ t.list l) : (t.proc p).OnList l :=
  ((h.mem p l).mp hp).2

theorem mem_iff (h : t.Listed none) : p ∈ t.list l ↔ (t.proc p).OnList l := by
  simp [h.mem p l]

theorem disjoint (h : t.Listed out) : t.Disjoint :=
  fun _ _ _ hl hm => (h.onList hl).unique (h.onList hm)

theorem eq_of_mem (h : t.Listed out) (hl : p ∈ t.list l) (hm : p ∈ t.list m) : l = m :=
  (h.onList hl).unique (h.onList hm)

theorem not_mem_of_ne (h : t.Listed out) (hl : p ∈ t.list l) (hm : m ≠ l) : p ∉ t.list m :=
  fun hp => hm (h.eq_of_mem hp hl)

theorem not_mem_out (h : t.Listed (some p)) (l : SList MAX) : p ∉ t.list l :=
  fun hp => ((h.mem p l).mp hp).1 rfl

theorem remove (h : t.Listed none) (p : Fin NPROC) : (t.remove p).Listed (some p) where
  mem := fun q l => by
    simp only [Table.remove, (h.nodup l).mem_erase_iff, h.mem_iff, ne_eq, Option.some.injEq,
      eq_comm]
  nodup := fun l => (h.nodup l).erase p

theorem set (h : t.Listed (some p)) (pr : Proc NPROC) : (t.set p pr).Listed (some p) where
  mem := fun q l => by
    by_cases hq : q = p
    · subst hq
      simpa using h.not_mem_out l
    · rw [set_proc_of_ne hq]
      exact h.mem q l
  nodup := h.nodup

/-- A change that does not affect where the process belongs. -/
theorem set_of_onList (h : t.Listed out)
    (hpr : ∀ l : SList MAX, pr.OnList l ↔ (t.proc p).OnList l) : (t.set p pr).Listed out where
  mem := fun q l => by
    by_cases hq : q = p
    · subst hq
      rw [set_proc_self, hpr l]
      exact h.mem q l
    · rw [set_proc_of_ne hq]
      exact h.mem q l
  nodup := h.nodup

/-- The process in transit arrives: `l` gains it, wherever in the list. -/
theorem arrive (h : t.Listed (some p)) (hl : (t.proc p).OnList l) {xs : List (Fin NPROC)}
    (hxs : ∀ q, q ∈ xs ↔ q = p ∨ q ∈ t.list l) (hnodup : xs.Nodup) :
    Listed none { t with list := Function.update t.list l xs } where
  mem := fun q m => by
    have hq := h.mem q m
    simp only [ne_eq, Option.some.injEq] at hq
    by_cases hm : m = l
    · subst hm
      simp only [Function.update_self, hxs, hq, ne_eq, reduceCtorEq, not_false_eq_true, true_and]
      constructor
      · rintro (rfl | h')
        · exact hl
        · exact h'.2
      · intro h'
        by_cases hqp : q = p
        · exact .inl hqp
        · exact .inr ⟨fun e => hqp e.symm, h'⟩
    · simp only [Function.update_of_ne hm, hq, ne_eq, reduceCtorEq, not_false_eq_true, true_and]
      constructor
      · exact fun h' => h'.2
      · refine fun h' => ⟨?_, h'⟩
        rintro rfl
        exact hm (h'.unique hl)
  nodup := fun m => by
    by_cases hm : m = l
    · subst hm; simpa only [Function.update_self] using hnodup
    · simpa only [Function.update_of_ne hm] using h.nodup m

theorem pushEnd (h : t.Listed (some p)) (hl : (t.proc p).OnList l) :
    (t.pushEnd l p).Listed none :=
  h.arrive hl (fun q => by simp [or_comm])
    (List.nodup_append.mpr ⟨h.nodup l, List.nodup_singleton p, fun a ha b hb hab =>
      h.not_mem_out l (by rw [List.mem_singleton] at hb; rwa [← hb, ← hab])⟩)

theorem pushHead (h : t.Listed (some p)) (hl : (t.proc p).OnList l) :
    (t.pushHead l p).Listed none :=
  h.arrive hl (fun _ => List.mem_cons) (List.nodup_cons.mpr ⟨h.not_mem_out l, h.nodup l⟩)

theorem moveEnd (h : t.Listed none) (hl : pr.OnList l) : (t.moveEnd p l pr).Listed none :=
  ((h.remove p).set pr).pushEnd (by rwa [set_proc_self])

theorem moveHead (h : t.Listed none) (hl : pr.OnList l) : (t.moveHead p l pr).Listed none :=
  ((h.remove p).set pr).pushHead (by rwa [set_proc_self])

end Listed

/-! ## what a move leaves alone -/

/-- A process leaves the one list it is on. -/
theorem remove_eq (hd : t.Disjoint) (hp : p ∈ t.list l) {xs : List (Fin NPROC)}
    (hxs : xs = (t.list l).erase p) :
    { t with list := Function.update t.list l xs } = t.remove p := by
  simp only [Table.remove, Table.mk.injEq, true_and]
  funext m
  by_cases hm : m = l
  · subst hm; rw [Function.update_self, hxs]
  · rw [Function.update_of_ne hm, List.erase_of_not_mem fun h => hm (hd m l p h hp)]

/-- Writing back what is there. -/
theorem set_self : t.set p (t.proc p) = t := by
  simp [set]

theorem moveEnd_list_of_ne (hm : m ≠ l) : (t.moveEnd p l pr).list m = (t.list m).erase p :=
  Function.update_of_ne hm _ _

theorem moveEnd_list_self : (t.moveEnd p l pr).list l = (t.list l).erase p ++ [p] :=
  Function.update_self _ _ _

/-- A suffix behind `p` stays a suffix when `p` leaves. -/
theorem moveEnd_suffix (h : t.Listed out) (hm : m ≠ l) {ys zs : List (Fin NPROC)}
    (hlist : t.list m = ys ++ p :: zs) : (t.moveEnd p l pr).list m = ys ++ zs := by
  have hnodup := h.nodup m
  rw [hlist] at hnodup
  have hp : p ∉ ys := fun hp => (List.nodup_cons.mp (List.nodup_middle.mp hnodup)).1 (by simp [hp])
  rw [moveEnd_list_of_ne hm, hlist, List.erase_append_right _ hp, List.erase_cons_head]

/-- A list that `p` is not on and does not go to. -/
theorem moveEnd_list_other (hm : m ≠ l) (hp : p ∉ t.list m) :
    (t.moveEnd p l pr).list m = t.list m := by
  rw [moveEnd_list_of_ne hm, List.erase_of_not_mem hp]

theorem mem_moveHead_self : p ∈ (t.moveHead p l pr).list l := by
  simp [moveHead, pushHead]

/-- A change behind a move goes into the move. -/
theorem moveEnd_set (pr' : Proc NPROC) : (t.moveEnd p l pr).set p pr' = t.moveEnd p l pr' := by
  simp [moveEnd, set, pushEnd]

theorem moveHead_set (pr' : Proc NPROC) : (t.moveHead p l pr).set p pr' = t.moveHead p l pr' := by
  simp [moveHead, set, pushHead]

/-- Taking off again what has just been put on. -/
theorem moveHead_remove (h : t.Listed none) : (t.moveHead p l pr).remove p = (t.remove p).set p pr := by
  have hgone : ∀ m, p ∉ (t.list m).erase p := fun m => (h.remove p).not_mem_out m
  simp only [moveHead, remove, set, pushHead, Table.mk.injEq, true_and]
  funext m
  by_cases hm : m = l
  · subst hm; rw [Function.update_self, List.erase_cons_head]
  · rw [Function.update_of_ne hm, List.erase_of_not_mem (hgone m)]

theorem set_remove : (t.set p pr).remove p = (t.remove p).set p pr := rfl

/-! ## folds along a list -/

/-- The two halves of the invariant together. -/
structure WF (t : Table NPROC MAX) : Prop where
  listed : t.Listed none
  sane : t.Sane

/-- `f` handles the processes of `l` one after the other: it keeps `I`, and
those behind the current one stay on the list, in order. -/
def Follows (l : SList MAX) (f : Table NPROC MAX → Fin NPROC → Table NPROC MAX)
    (I : Table NPROC MAX → Prop) : Prop :=
  ∀ t p ys zs, I t → t.list l = ys ++ p :: zs → I (f t p) ∧ ∃ ys', (f t p).list l = ys' ++ zs

/-- **Fold rule.** -/
theorem Follows.foldl {f : Table NPROC MAX → Fin NPROC → Table NPROC MAX}
    {I : Table NPROC MAX → Prop} (hf : Follows l f I) (h : I t) : I ((t.list l).foldl f t) := by
  have main : ∀ (zs ys : List (Fin NPROC)) (t : Table NPROC MAX), I t → t.list l = ys ++ zs →
      I (zs.foldl f t) := by
    intro zs
    induction zs with
    | nil => exact fun _ _ h _ => h
    | cons p zs ih =>
        intro ys t h hl
        obtain ⟨h', ys', hl'⟩ := hf t p ys zs h hl
        exact ih ys' (f t p) h' hl'
  exact main (t.list l) [] t h rfl

/-- Processes that run go on running. -/
def Keeps (t t' : Table NPROC MAX) : Prop :=
  ∀ q, (t.proc q).state = .RUNNING → (t'.proc q).state = .RUNNING

theorem Keeps.refl (t : Table NPROC MAX) : t.Keeps t := fun _ h => h

theorem Keeps.trans {t t' t'' : Table NPROC MAX} (h : t.Keeps t') (h' : t'.Keeps t'') :
    t.Keeps t'' := fun q hq => h' q (h q hq)

/-- One process changes, and if it was running it still is. -/
theorem Keeps.set (h : (t.proc p).state = .RUNNING → pr.state = .RUNNING) :
    t.Keeps (t.set p pr) := by
  intro q hq
  by_cases hqp : q = p
  · subst hqp; rw [set_proc_self]; exact h hq
  · rw [set_proc_of_ne hqp]; exact hq

/-- A change of fields that are not about scheduling. -/
theorem WF.set (h : t.WF) (hs : pr.state = (t.proc p).state)
    (hp : pr.priority = (t.proc p).priority) (hc : pr.context = (t.proc p).context) :
    (t.set p pr).WF where
  listed := h.listed.set_of_onList fun l => Proc.onList_congr hs (fun _ => hp) l
  sane := h.sane.set ⟨by rw [hp]; exact (h.sane p).priority, by rw [hc, hs]; exact (h.sane p).context⟩

theorem WF.moveEnd (h : t.WF) (hl : pr.OnList l) (hpr : pr.Sane MAX) : (t.moveEnd p l pr).WF :=
  ⟨h.listed.moveEnd hl, h.sane.set hpr⟩

theorem WF.moveHead (h : t.WF) (hl : pr.OnList l) (hpr : pr.Sane MAX) : (t.moveHead p l pr).WF :=
  ⟨h.listed.moveHead hl, h.sane.set hpr⟩

/-- What waking a process relies on: the partition, and a ready list for every
sleeper. -/
structure Fit (t : Table NPROC MAX) : Prop where
  listed : t.Listed none
  priority : ∀ q, (t.proc q).state = .SLEEPING ∨ (t.proc q).state = .RUNNABLE →
    (t.proc q).priority ≤ MAX

theorem WF.fit (h : t.WF) : t.Fit := ⟨h.listed, fun q _ => (h.sane q).priority⟩

/-- Nobody's place in the schedule changes, but sleepers may wake up. -/
structure Eased (t t' : Table NPROC MAX) : Prop where
  listed : t'.Listed none
  proc : ∀ q, (t.proc q).Eased (t'.proc q)

theorem Eased.refl (h : t.Listed none) : t.Eased t := ⟨h, fun q => .refl (t.proc q)⟩

theorem Eased.trans {t t' t'' : Table NPROC MAX} (h : t.Eased t') (h' : t'.Eased t'') :
    t.Eased t'' := ⟨h'.listed, fun q => (h.proc q).trans (h'.proc q)⟩

theorem Eased.keeps {t' : Table NPROC MAX} (h : t.Eased t') : t.Keeps t' := by
  intro q hq
  rcases (h.proc q).state with hs | ⟨hs, -⟩
  · exact hs.trans hq
  · rw [hq] at hs
    contradiction

theorem Fit.eased {t' : Table NPROC MAX} (h : t.Fit) (he : t.Eased t') : t'.Fit where
  listed := he.listed
  priority := fun q hq => by
    rw [(he.proc q).priority]
    refine h.priority q ?_
    rcases (he.proc q).state with hs | ⟨hs, -⟩
    · rwa [hs] at hq
    · exact .inl hs

theorem WF.eased {t' : Table NPROC MAX} (h : t.WF) (he : t.Eased t') : t'.WF where
  listed := he.listed
  sane := fun q => by
    refine ⟨by rw [(he.proc q).priority]; exact (h.sane q).priority, fun hc => ?_⟩
    rw [(he.proc q).context] at hc
    rcases (he.proc q).state with hs | ⟨hs, -⟩
    · rw [hs]
      exact (h.sane q).context hc
    · rcases (h.sane q).context hc with h' | h' <;> simp [hs] at h'

/-- One process changes in fields that are not about scheduling. -/
theorem Eased.set (h : t.Listed none) (hs : pr.state = (t.proc p).state)
    (hp : pr.priority = (t.proc p).priority) (hc : pr.context = (t.proc p).context) :
    t.Eased (t.set p pr) where
  listed := h.set_of_onList fun l => Proc.onList_congr hs (fun _ => hp) l
  proc := fun q => by
    by_cases hq : q = p
    · subst hq
      rw [set_proc_self]
      exact ⟨hp, hc, .inl hs⟩
    · rw [set_proc_of_ne hq]
      exact .refl _

/-! ## giving up the CPU -/

/-- `yield`: to the end of the ready list of the priority after charging. -/
def yield (t : Table NPROC MAX) (me : Fin NPROC) (ticks : UInt32) : Table NPROC MAX :=
  let pr := Proc.charge MAX ticks { t.proc me with state := .RUNNABLE }
  t.moveEnd me (readyOf pr.priority) (pr.leave ticks .yield)

/-- `sleep` -/
def sleep (t : Table NPROC MAX) (me : Fin NPROC) (c : Option (Chan NPROC)) (ticks : UInt32) :
    Table NPROC MAX :=
  let pr := Proc.charge MAX ticks { t.proc me with chan := c, state := .SLEEPING }
  t.moveEnd me .sleep (pr.leave ticks .sleep)

theorem yield_wf (h : t.WF) {me : Fin NPROC} (hrun : (t.proc me).state = .RUNNING)
    (ticks : UInt32) : (t.yield me ticks).WF := by
  have hsane : Proc.Sane MAX { t.proc me with state := .RUNNABLE } :=
    ⟨(h.sane me).priority, fun hc => absurd ((h.sane me).context hc) (by simp [hrun])⟩
  have hcharged := hsane.charge ticks
  exact h.moveEnd (Proc.onList_readyOf (by simp [Proc.leave]) hcharged.priority)
    ⟨hcharged.priority, by simp [Proc.leave]⟩

theorem sleep_wf (h : t.WF) {me : Fin NPROC} (hrun : (t.proc me).state = .RUNNING)
    (c : Option (Chan NPROC)) (ticks : UInt32) : (t.sleep me c ticks).WF := by
  have hsane : Proc.Sane MAX { t.proc me with chan := c, state := .SLEEPING } :=
    ⟨(h.sane me).priority, fun hc => absurd ((h.sane me).context hc) (by simp [hrun])⟩
  have hcharged := hsane.charge ticks
  refine h.moveEnd ?_ ⟨hcharged.priority, by simp [Proc.leave]⟩
  show (Proc.leave _ _ _).state = .SLEEPING
  simp [Proc.leave]

/-! ## new processes -/

/-- `allocproc` -/
def alloc (t : Table NPROC MAX) (p : Fin NPROC) (pid : UInt32) (kstack : Nat) (ticks : UInt32) :
    Table NPROC MAX :=
  t.moveHead p .embryo
    { t.proc p with
      state := .EMBRYO, pid := pid, kstack := some kstack, context := .forkret
      startTicks := ticks, cpuTicksTotal := 0, cpuTicksIn := 0, budget := BUDGET, priority := 0 }

/-- `allocproc` without a kernel stack: the slot keeps the pid. -/
def allocFail (t : Table NPROC MAX) (p : Fin NPROC) (pid : UInt32) : Table NPROC MAX :=
  t.moveHead p .free { t.proc p with state := .UNUSED, pid := pid, kstack := none }

/-- `fork` without memory for the child. -/
def forkFail (t : Table NPROC MAX) (np : Fin NPROC) : Table NPROC MAX :=
  t.moveHead np .free { t.proc np with pgdir := none, kstack := none, state := .UNUSED }

def forkDone (t : Table NPROC MAX) (me np : Fin NPROC) (pgdir : Nat) : Table NPROC MAX :=
  t.moveEnd np (readyOf (t.proc np).priority)
    (Proc.child me (t.proc me) { t.proc np with pgdir := some pgdir })

theorem alloc_wf (h : t.WF) (p : Fin NPROC) (pid : UInt32) (kstack : Nat) (ticks : UInt32) :
    (t.alloc p pid kstack ticks).WF :=
  h.moveHead rfl ⟨Nat.zero_le MAX, fun hc => by simp at hc⟩

theorem allocFail_wf (h : t.WF) (p : Fin NPROC) (pid : UInt32) : (t.allocFail p pid).WF :=
  h.moveHead rfl ⟨(h.sane p).priority, fun _ => .inr rfl⟩

theorem forkFail_wf (h : t.WF) (np : Fin NPROC) : (t.forkFail np).WF :=
  h.moveHead rfl ⟨(h.sane np).priority, fun _ => .inr rfl⟩

theorem forkDone_wf (h : t.WF) {me np : Fin NPROC} (hnp : (t.proc np).state = .EMBRYO)
    (pgdir : Nat) : (t.forkDone me np pgdir).WF := by
  have hsane := h.sane np
  refine h.moveEnd (Proc.onList_readyOf rfl hsane.priority) ⟨hsane.priority, fun hc => ?_⟩
  rcases hsane.context hc with h' | h' <;> simp [hnp] at h'

/-- Moving a process that is not running. -/
theorem Keeps.move (h : (t.proc p).state ≠ .RUNNING) : t.Keeps (t.set p pr) :=
  Keeps.set fun hr => absurd hr h

/-! ## waking up -/

/-- A process of the sleep list in the loop of `wakeup1`. -/
def wakeOne (c : Option (Chan NPROC)) (t : Table NPROC MAX) (p : Fin NPROC) : Table NPROC MAX :=
  if (t.proc p).chan = c then
    t.moveEnd p (readyOf (t.proc p).priority) { t.proc p with state := .RUNNABLE }
  else t

/-- `wakeup1` -/
def wake (t : Table NPROC MAX) (c : Option (Chan NPROC)) : Table NPROC MAX :=
  (t.list .sleep).foldl (wakeOne c) t

/-- What waking leaves alone. -/
structure Woken (t t' : Table NPROC MAX) : Prop where
  eased : t.Eased t'
  lists : ∀ m, m ≠ .sleep → (∀ i, m ≠ .ready i) → t'.list m = t.list m

theorem wakeOne_eased {c : Option (Chan NPROC)} (h : t.Fit) (hp : p ∈ t.list .sleep) :
    t.Eased (wakeOne c t p) := by
  unfold wakeOne
  split
  · have hstate : (t.proc p).state = .SLEEPING := h.listed.onList hp
    refine ⟨h.listed.moveEnd (Proc.onList_readyOf rfl (h.priority p (.inl hstate))), fun q => ?_⟩
    rw [moveEnd_proc]
    by_cases hq : q = p
    · subst hq
      rw [set_proc_self]
      exact ⟨rfl, rfl, .inr ⟨hstate, rfl⟩⟩
    · rw [set_proc_of_ne hq]
      exact .refl _
  · exact .refl h.listed

theorem wakeOne_follows (c : Option (Chan NPROC)) {t₀ : Table NPROC MAX} (h₀ : t₀.Fit) :
    Follows .sleep (wakeOne c) (Woken t₀) := by
  intro t p ys zs h hl
  have hfit := h₀.eased h.eased
  have hp : p ∈ t.list .sleep := by simp [hl]
  refine ⟨⟨h.eased.trans (wakeOne_eased hfit hp), fun m hm hr => ?_⟩, ?_⟩
  · rw [← h.lists m hm hr]
    unfold wakeOne
    split
    · exact moveEnd_list_other (hr _) (hfit.listed.not_mem_of_ne hp hm)
    · rfl
  · unfold wakeOne
    split
    · exact ⟨ys, moveEnd_suffix hfit.listed (by simp [readyOf]) hl⟩
    · exact ⟨ys ++ [p], by simp [hl]⟩

theorem wake_woken (h : t.Fit) (c : Option (Chan NPROC)) : Woken t (t.wake c) :=
  (wakeOne_follows c h).foldl ⟨.refl h.listed, fun _ _ _ => rfl⟩

/-! ## passing children on -/

/-- `if (p->parent == proc) p->parent = initproc;` -/
def adopt (me : Fin NPROC) (init : Option (Fin NPROC)) (t : Table NPROC MAX) (p : Fin NPROC) :
    Table NPROC MAX :=
  if (t.proc p).parent = some me then t.set p { t.proc p with parent := init } else t

/-- The loops of `exit` over the lists other than the zombies. -/
def reparent (me : Fin NPROC) (init : Option (Fin NPROC)) (t : Table NPROC MAX) (l : SList MAX) :
    Table NPROC MAX := (t.list l).foldl (adopt me init) t

/-- A zombie in the loop of `exit`: init is told. -/
def inheritOne (me : Fin NPROC) (init : Option (Fin NPROC)) (t : Table NPROC MAX)
    (p : Fin NPROC) : Table NPROC MAX :=
  if (t.proc p).parent = some me then
    (t.set p { t.proc p with parent := init }).wake (init.map .proc)
  else t

def inherit (me : Fin NPROC) (init : Option (Fin NPROC)) (t : Table NPROC MAX) :
    Table NPROC MAX := (t.list .zombie).foldl (inheritOne me init) t

/-- What holds throughout the loops. -/
structure Kept (t t' : Table NPROC MAX) : Prop where
  wf : t'.WF
  keeps : t.Keeps t'

theorem adopt_eased (me : Fin NPROC) (init : Option (Fin NPROC)) (h : t.Listed none) :
    t.Eased (adopt me init t p) := by
  unfold adopt
  split
  · exact .set h rfl rfl rfl
  · exact .refl h

theorem adopt_follows (me : Fin NPROC) (init : Option (Fin NPROC)) (t₀ : Table NPROC MAX)
    (l : SList MAX) : Follows l (adopt me init) t₀.Eased := by
  intro t p ys zs h hl
  refine ⟨h.trans (adopt_eased me init h.listed), ys ++ [p], ?_⟩
  unfold adopt
  split
  · rw [set_list, hl, List.append_assoc]; rfl
  · rw [hl, List.append_assoc]; rfl

theorem inheritOne_follows (me : Fin NPROC) (init : Option (Fin NPROC)) {t₀ : Table NPROC MAX}
    (h₀ : t₀.Fit) : Follows .zombie (inheritOne me init) t₀.Eased := by
  intro t p ys zs h hl
  unfold inheritOne
  split
  · have hset : t.Eased (t.set p { t.proc p with parent := init }) := .set h.listed rfl rfl rfl
    have hwake := wake_woken ((h₀.eased h).eased hset) (init.map .proc)
    refine ⟨h.trans (hset.trans hwake.eased), ys ++ [p], ?_⟩
    rw [hwake.lists .zombie (by simp) (by simp), set_list, hl, List.append_assoc]; rfl
  · exact ⟨h, ys ++ [p], by rw [hl, List.append_assoc]; rfl⟩

theorem inherit_eased (me : Fin NPROC) (init : Option (Fin NPROC)) (h : t.Fit) :
    t.Eased (t.inherit me init) :=
  (inheritOne_follows me init h).foldl (.refl h.listed)

theorem reparent_eased (me : Fin NPROC) (init : Option (Fin NPROC)) (l : SList MAX)
    (h : t.Listed none) : t.Eased (reparent me init t l) :=
  (adopt_follows me init t l).foldl (.refl h)

/-- The loops of `exit` over the lists other than the zombies, one after the
other. -/
def orphans (me : Fin NPROC) (init : Option (Fin NPROC)) (t : Table NPROC MAX) :
    Table NPROC MAX :=
  let t := reparent me init t .running
  let t := (levels MAX).foldl (fun t i => reparent me init t (.ready i)) t
  let t := reparent me init t .sleep
  let t := reparent me init t .embryo
  reparent me init t .free

/-- What `exit` has done when it takes itself off the running list. -/
def bequeath (t : Table NPROC MAX) (me : Fin NPROC) (init : Option (Fin NPROC)) :
    Table NPROC MAX :=
  let t := t.set me { t.proc me with ofile := fun _ => none, cwd := none }
  (inherit me init (t.wake ((t.proc me).parent.map .proc))).orphans me init

/-- `exit` -/
def exit (t : Table NPROC MAX) (me : Fin NPROC) (init : Option (Fin NPROC)) (ticks : UInt32) :
    Table NPROC MAX :=
  let t := t.bequeath me init
  t.moveHead me .zombie (Proc.leave ticks .exit { t.proc me with state := .ZOMBIE })

theorem foldl_reparent_eased (me : Fin NPROC) (init : Option (Fin NPROC))
    (is : List (Fin (MAX + 1))) (h : t.Listed none) :
    t.Eased (is.foldl (fun t i => reparent me init t (.ready i)) t) := by
  induction is generalizing t with
  | nil => exact .refl h
  | cons i is ih =>
      have hi := reparent_eased me init (.ready i) h
      exact hi.trans (ih hi.listed)

theorem orphans_eased (me : Fin NPROC) (init : Option (Fin NPROC)) (h : t.Listed none) :
    t.Eased (t.orphans me init) := by
  have h₁ := reparent_eased me init .running h
  have h₂ := h₁.trans (foldl_reparent_eased me init (levels MAX) h₁.listed)
  have h₃ := h₂.trans (reparent_eased me init .sleep h₂.listed)
  have h₄ := h₃.trans (reparent_eased me init .embryo h₃.listed)
  exact h₄.trans (reparent_eased me init .free h₄.listed)

theorem bequeath_eased (h : t.Fit) (me : Fin NPROC) (init : Option (Fin NPROC)) :
    t.Eased (t.bequeath me init) := by
  have h₁ : t.Eased (t.set me { t.proc me with ofile := fun _ => none, cwd := none }) :=
    .set h.listed rfl rfl rfl
  have hw := wake_woken (h.eased h₁)
    (((t.set me { t.proc me with ofile := fun _ => none, cwd := none }).proc me).parent.map .proc)
  have h₂ := h₁.trans hw.eased
  have h₃ := h₂.trans (inherit_eased me init (h.eased h₂))
  exact h₃.trans (orphans_eased me init h₃.listed)

theorem exit_wf (h : t.WF) (me : Fin NPROC) (init : Option (Fin NPROC)) (ticks : UInt32) :
    (t.exit me init ticks).WF := by
  have hwf := h.eased (bequeath_eased h.fit me init)
  exact hwf.moveHead rfl ⟨(hwf.sane me).priority, fun _ => .inl rfl⟩

/-! ## reaping -/

/-- A zombie is reaped. -/
def reap (t : Table NPROC MAX) (p : Fin NPROC) : Table NPROC MAX :=
  t.moveHead p .free
    { t.proc p with
      kstack := none, state := .UNUSED, pid := 0, parent := none, name := [], killed := false }

theorem reap_wf (h : t.WF) (p : Fin NPROC) : (t.reap p).WF :=
  h.moveHead rfl ⟨(h.sane p).priority, fun _ => .inr rfl⟩

/-! ## dispatching -/

/-- The scheduler switches to `p`, which goes on where it left off; behind
`sched()` in `sleep` it clears its channel. -/
def dispatch (t : Table NPROC MAX) (p : Fin NPROC) (ticks : UInt32) : Table NPROC MAX :=
  let pr := { t.proc p with state := .RUNNING, cpuTicksIn := ticks }
  t.moveEnd p .running (if pr.context = .sleep then { pr with chan := none } else pr)

theorem dispatch_wf (h : t.WF) {p : Fin NPROC} (hp : (t.proc p).state = .RUNNABLE)
    (ticks : UInt32) : (t.dispatch p ticks).WF := by
  have hsane := h.sane p
  have hctx : (t.proc p).context ≠ .exit := fun hc => by
    rcases hsane.context hc with h' | h' <;> simp [hp] at h'
  refine h.moveEnd ?_ ?_
  · split <;> rfl
  · split
    · exact ⟨hsane.priority, fun hc => absurd hc hctx⟩
    · exact ⟨hsane.priority, fun hc => absurd hc hctx⟩

end Table

end Xv6.Ptable
