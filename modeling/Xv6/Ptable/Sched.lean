import Xv6.Ptable.Promote
import Xv6.Ptable.Ops

/-!
# Xv6.Ptable.Sched

The operations of the multi-level feedback queue, followed through as in
`Xv6.Ptable.Ops`: `promoteAll`, a pass of the scheduler, `kill` and
`setpriority`.
-/

namespace Xv6.Ptable

variable {NPROC MAX NCPU : Nat} {s s₀ : Kern NPROC MAX NCPU} {t : Table NPROC MAX}

/-! ## promoteAll -/

theorem promoteList_spec (h : s₀.Becomes t s) (ht : t.Placed) {l : SList MAX}
    (hl : ∀ i, l ≠ .ready i) :
    wp (promoteAll.promoteList l) s fun _ s' => s₀.Becomes (t.promoteList l) s' := by
  unfold promoteAll.promoteList
  refine h.walkAll (Table.raise_follows hl) ?_ ht
  intro t p ys zs s _ hlist h
  rw [wp_bind, wp_procOf, h.proc_eq]
  unfold Table.raise
  split
  · refine h.setProc_bind fun s₁ h₁ => ?_
    rw [wp_nextOf]
    exact ⟨h₁.next_eq hlist, h₁⟩
  · next hzero =>
      rw [wp_nextOf]
      refine ⟨h.next_eq hlist, ?_⟩
      have hsame : { t.proc p with priority := (t.proc p).priority - 1 } = t.proc p := by
        rw [show (t.proc p).priority - 1 = (t.proc p).priority by omega]
      rw [hsame, Table.set_self]
      exact h

theorem promoteAll_spec (h : s₀.Becomes t s) (ht : t.Placed) :
    wp promoteAll s fun _ s' => s₀.Becomes t.promoteAll s' := by
  unfold promoteAll
  refine wp_bind_of (Kern.Becomes.forLevels (f := Table.promoteLevel) (I := Table.Placed) _
    (fun t i hi ht => Table.promoteLevel_placed ht (Table.mem_drop_levels.mp hi)) ?_ h ht) ?_
  · intro t s i hi ht h
    have hpos := Table.mem_drop_levels.mp hi
    refine h.walkAll (Table.promoteOne_follows hpos) ?_ ht
    intro t p ys zs s ht hlist h
    have hp : p ∈ t.list (.ready i) := by simp [hlist]
    obtain ⟨hstate, hprio⟩ := ht.listed.onList hp
    have hle := ht.priority p hstate
    have hready : (readyOf (t.proc p).priority : SList MAX) = .ready i := by
      simp only [readyOf, SList.ready.injEq, Fin.ext_iff]
      omega
    rw [wp_bind, wp_nextOf, h.next_eq hlist]
    refine wp_assertState_bind (by rw [h.proc_eq]; exact hstate) ?_
    rw [wp_bind, wp_procOf, h.proc_eq]
    refine wp_readyList_bind hle ?_
    rw [hready]
    refine h.remove_bind ht.listed.disjoint hp fun s₁ h₁ => ?_
    rw [wp_bind, wp_warnIf_lt, wp_bind, wp_procOf, h₁.proc_eq,
      if_pos (by simp only [Table.remove]; omega)]
    refine h₁.setProc_bind fun s₂ h₂ => ?_
    rw [wp_bind, wp_procOf, h₂.proc_eq, Table.set_proc_self]
    refine wp_readyList_bind (show (t.proc p).priority - 1 ≤ MAX by omega) ?_
    refine h₂.addEnd_bind (ht.listed.remove p) rfl fun s₃ h₃ => ?_
    rw [wp_bind, wp_warnIf_lt]
    exact wp_pure.mpr ⟨rfl, h₃⟩
  · rintro _ s₁ ⟨h₁, ht₁⟩
    refine wp_bind_of (promoteList_spec h₁ ht₁ (by simp)) fun _ s₂ h₂ => ?_
    exact promoteList_spec h₂ (Table.promoteList_placed ht₁ (by simp)) (by simp)

/-! ## the scheduler -/

theorem resume_spec {p : Fin NPROC} {l : SList MAX} {pr : Proc NPROC}
    (h : s₀.Becomes (t.moveEnd p l pr) s) (hpr : pr.context ≠ .exit) :
    wp (resume p) s fun _ s' => s₀.Becomes
      (t.moveEnd p l (if pr.context = .sleep then { pr with chan := none } else pr)) s' := by
  unfold resume
  rw [wp_bind, wp_procOf, h.proc_eq, Table.moveEnd_proc, Table.set_proc_self]
  cases hc : pr.context with
  | forkret => exact wp_pure.mpr (by simpa using h)
  | yield => exact wp_pure.mpr (by simpa using h)
  | sleep =>
      rw [wp_setProc]
      have h' := h.setProc p fun pr => { pr with chan := none }
      rw [Table.moveEnd_set, Table.moveEnd_proc, Table.set_proc_self] at h'
      simpa [hc] using h'
  | exit => exact absurd hc hpr

/-- Level `i` of the scheduler's search. -/
theorem dispatch_spec (h : s₀.Becomes t s) (hwf : t.WF) (c : Fin NCPU) (i : Fin (MAX + 1)) :
    wp (dispatch c i) s fun r s' =>
      (r = none ∧ s' = s ∧ t.list (.ready i) = []) ∨
      ∃ b, r = some b ∧ ∃ p zs, t.list (.ready i) = p :: zs ∧
        (s₀.setCpu c (some p)).Becomes (t.dispatch p s₀.ticks) s' := by
  unfold dispatch
  rw [wp_bind, wp_headOf, h.head_eq]
  cases hlist : t.list (.ready i) with
  | nil => exact wp_pure.mpr (.inl ⟨rfl, rfl, rfl⟩)
  | cons p zs =>
      obtain ⟨hstate, hprio⟩ := hwf.listed.onList (show p ∈ t.list (.ready i) by simp [hlist])
      have hle := (hwf.sane p).priority
      have hready : (readyOf (t.proc p).priority : SList MAX) = .ready i := by
        simp only [readyOf, SList.ready.injEq, Fin.ext_iff]
        omega
      have hctx : (t.proc p).context ≠ .exit := fun hc => by
        rcases (hwf.sane p).context hc with h' | h' <;> simp [hstate] at h'
      dsimp only [List.head?_cons]
      refine wp_assertState_bind (by rw [h.proc_eq]; exact hstate) ?_
      rw [wp_bind, wp_procOf, h.proc_eq]
      refine wp_readyList_bind hle ?_
      rw [hready]
      refine wp_bind_of (h.removeHead hwf.listed.disjoint hlist) ?_
      rintro _ s₁ ⟨rfl, h₁⟩
      dsimp only
      rw [wp_bind, wp_modify]
      refine (h₁.setCpu c (some p)).setProc_bind fun s₂ h₂ => ?_
      refine h₂.addEnd_bind (hwf.listed.remove p) rfl fun s₃ h₃ => ?_
      rw [wp_bind, wp_warnIf_lt, wp_bind, wp_get]
      replace h₃ : (s₀.setCpu c (some p)).Becomes
        (t.moveEnd p .running { t.proc p with state := .RUNNING }) s₃ := h₃
      refine h₃.setProc_bind fun s₄ h₄ => ?_
      rw [Table.moveEnd_set, Table.moveEnd_proc, Table.set_proc_self, h₃.ticks_eq] at h₄
      refine wp_bind_of (resume_spec h₄ hctx) fun _ s₅ h₅ => ?_
      exact wp_pure.mpr (.inr ⟨(), rfl, p, zs, rfl, h₅⟩)

/-- The table the scheduler searches: promoted, when the time has come. -/
def Table.promoted (t : Table NPROC MAX) (now : Bool) : Table NPROC MAX :=
  if now then t.promoteAll else t

def Kern.promoted (s : Kern NPROC MAX NCPU) (now : Bool) : Kern NPROC MAX NCPU :=
  if now then { s with promoteAtTime := s.ticks + TIME_TO_PROMOTE } else s

/-- The levels are searched in order. -/
theorem mem_before {as bs : List (Fin (MAX + 1))} {i j : Fin (MAX + 1)}
    (h : levels MAX = as ++ i :: bs) (hj : j < i) : j ∈ as := by
  have hmem : j ∈ as ++ i :: bs := h ▸ List.mem_finRange j
  have hlt : (as ++ i :: bs).Pairwise (· < ·) := h ▸ (List.sortedLT_finRange (MAX + 1)).pairwise
  rcases List.mem_append.mp hmem with hm | hm
  · exact hm
  · rcases List.mem_cons.mp hm with rfl | hm
    · exact absurd hj (lt_irrefl _)
    · have := (List.pairwise_cons.mp (List.pairwise_append.mp hlt).2.1).1 j hm
      exact absurd hj (by omega)

/-- The search dispatches the head of the first ready list that is not empty. -/
theorem search_spec (h : s₀.Becomes t s) (hwf : t.WF) (c : Fin NCPU) :
    wp (firstOf (dispatch c) (levels MAX)) s fun _ s' =>
      ((∀ i, t.list (.ready i) = []) ∧ s₀.Becomes t s') ∨
      ∃ i p zs, t.list (.ready i) = p :: zs ∧ (∀ j < i, t.list (.ready j) = []) ∧
        (s₀.setCpu c (some p)).Becomes (t.dispatch p s₀.ticks) s' := by
  refine wp_firstOf (fun i => t.list (.ready i) = []) _ ?_ fun hall =>
    .inl ⟨fun i => hall i (List.mem_finRange i), h⟩
  intro as i bs his has
  refine (dispatch_spec h hwf c i).mono ?_
  rintro r s' (hr | ⟨b, rfl, p, zs, hlist, h'⟩)
  · exact .inl hr
  · exact .inr ⟨b, rfl, .inr ⟨i, p, zs, hlist, fun j hj => has j (mem_before his hj), h'⟩⟩

/-- A pass of the scheduler: the promotion, if it is time, and the search. -/
theorem scheduler_spec (h : s₀.Becomes t s) (hwf : t.WF) (c : Fin NCPU) {now : Bool}
    (hnow : s₀.promoteAtTime = s₀.ticks ↔ now = true) :
    wp (scheduler c) s fun _ s' =>
      ((∀ i, (t.promoted now).list (.ready i) = []) ∧
        (s₀.promoted now).Becomes (t.promoted now) s') ∨
      ∃ i p zs, (t.promoted now).list (.ready i) = p :: zs ∧
        (∀ j < i, (t.promoted now).list (.ready j) = []) ∧
        ((s₀.promoted now).setCpu c (some p)).Becomes ((t.promoted now).dispatch p s₀.ticks) s' := by
  have htime : s.promoteAtTime = s₀.promoteAtTime ∧ s.ticks = s₀.ticks := by
    obtain ⟨k, rfl, -⟩ := h
    exact ⟨rfl, rfl⟩
  unfold scheduler
  rw [wp_bind, wp_get, wp_bind, wp_get, htime.1, htime.2]
  cases now with
  | true =>
      rw [if_pos (hnow.mpr rfl)]
      refine wp_bind_of (promoteAll_spec h hwf.placed) fun _ s₁ h₁ => ?_
      rw [wp_bind, wp_modify]
      have h₂ : (s₀.promoted true).Becomes (t.promoted true)
          { s₁ with promoteAtTime := s₁.ticks + TIME_TO_PROMOTE } := by
        obtain ⟨k, rfl, hk⟩ := h₁
        exact ⟨k, rfl, hk⟩
      refine wp_bind_of (search_spec h₂ (Table.promoteAll_kept hwf).wf c) fun _ s' h' => ?_
      exact wp_pure.mpr h'
  | false =>
      rw [if_neg fun he => by simpa using hnow.mp he]
      exact wp_bind_of (search_spec h hwf c) fun _ s' h' => wp_pure.mpr h'

/-! ## kill -/

/-- The process a loop of `kill` or `setpriority` looks for. -/
def Table.found (t : Table NPROC MAX) (pid : Int32) (l : SList MAX) : Option (Fin NPROC) :=
  (t.list l).find? fun p => (t.proc p).pid = pid.toUInt32

theorem Table.mem_of_found {pid : Int32} {l : SList MAX} {p : Fin NPROC}
    (h : t.found pid l = some p) : p ∈ t.list l ∧ (t.proc p).pid = pid.toUInt32 :=
  ⟨List.mem_of_find?_eq_some h, by simpa using List.find?_some h⟩

theorem Table.pid_ne_of_found {pid : Int32} {l : SList MAX} {p : Fin NPROC}
    (h : t.found pid l = none) (hl : t.Listed none) (hp : (t.proc p).OnList l) :
    (t.proc p).pid ≠ pid.toUInt32 := by
  simpa using List.find?_eq_none.mp h p (hl.mem_iff.mpr hp)

/-- The loops of `kill` and `setpriority`: the first process with the pid is
handled, the others are skipped. -/
theorem Kern.Becomes.findPid (h : s₀.Becomes t s) {pid : Int32} {l : SList MAX}
    {act : Fin NPROC → K NPROC MAX NCPU (Option (Fin NPROC) ⊕ Int32)}
    {Q : Option Int32 → Kern NPROC MAX NCPU → Prop}
    (hfound : ∀ p, t.found pid l = some p → wp (act p) s fun r s' =>
      ∃ b, r = .inr b ∧ Q (some b) s')
    (hnone : t.found pid l = none → Q none s) :
    wp (Ptable.walkList l fun p => do
      if (← procOf p).pid = pid.toUInt32 then act p
      else return .inl (← nextOf p)) s Q := by
  refine h.walkList (P := fun p => (t.proc p).pid = pid.toUInt32) ?_ ?_ hnone
  · intro p hp
    rw [decide_eq_false_iff_not] at hp
    rw [wp_bind, wp_procOf, h.proc_eq, if_neg hp, wp_bind, wp_nextOf]
    exact wp_pure.mpr ⟨rfl, rfl⟩
  · intro p hfind
    rw [wp_bind, wp_procOf, h.proc_eq, if_pos (Table.mem_of_found hfind).2]
    exact hfound p hfind

/-- A loop over the list `l` found the process with the pid and made `f` of the table, or
found none. -/
def Table.Handled (t : Table NPROC MAX) (s₀ : Kern NPROC MAX NCPU) (pid : Int32)
    (f : Fin NPROC → Table NPROC MAX) (s : Kern NPROC MAX NCPU) (l : SList MAX) (r : Option Int32)
    (s' : Kern NPROC MAX NCPU) : Prop :=
  (r = none ∧ s' = s ∧ t.found pid l = none) ∨
    (r = some 0 ∧ ∃ p, t.found pid l = some p ∧ s₀.Becomes (f p) s')

/-- One list after the other. -/
theorem firstOf_handled {ι : Type} {pid : Int32} {f : Fin NPROC → Table NPROC MAX}
    {g : ι → K NPROC MAX NCPU (Option Int32)} (l : ι → SList MAX)
    (hg : ∀ i, wp (g i) s (t.Handled s₀ pid f s (l i))) (is : List ι) :
    wp (firstOf g is) s fun r s' =>
      (r = some 0 ∧ ∃ as i bs, is = as ++ i :: bs ∧ (∀ j ∈ as, t.found pid (l j) = none) ∧
        ∃ p, t.found pid (l i) = some p ∧ s₀.Becomes (f p) s') ∨
      (r = none ∧ (∀ i ∈ is, t.found pid (l i) = none) ∧ s' = s) := by
  refine wp_firstOf (fun i => t.found pid (l i) = none) is ?_ fun hall => .inr ⟨rfl, hall, rfl⟩
  intro as i bs his has
  refine (hg i).mono ?_
  rintro r s' (hr | ⟨rfl, hfound⟩)
  · exact .inl hr
  · exact .inr ⟨0, rfl, .inl ⟨rfl, as, i, bs, his, has, hfound⟩⟩

theorem killOn_spec (h : s₀.Becomes t s) (pid : Int32) (l : SList MAX) :
    wp (killOn pid l) s
      (t.Handled s₀ pid (fun p => t.set p { t.proc p with killed := true }) s l) := by
  unfold killOn
  refine h.findPid ?_ fun hnone => .inl ⟨rfl, rfl, hnone⟩
  intro p hp
  refine h.setProc_bind fun s₁ h₁ => ?_
  exact wp_pure.mpr ⟨0, rfl, .inr ⟨rfl, p, hp, h₁⟩⟩

theorem killSleeping_spec (h : s₀.Becomes t s) (hfit : t.Fit) (pid : Int32) :
    wp (killSleeping pid) s (t.Handled s₀ pid (fun p => t.moveEnd p (readyOf (t.proc p).priority)
      { t.proc p with killed := true, state := .RUNNABLE }) s .sleep) := by
  unfold killSleeping
  refine h.findPid ?_ fun hnone => .inl ⟨rfl, rfl, hnone⟩
  intro p hfound
  have hp := (Table.mem_of_found hfound).1
  have hsleep : (t.proc p).state = .SLEEPING := hfit.listed.onList hp
  refine h.setProc_bind fun s₁ h₁ => ?_
  refine wp_assertState_bind ?_ ?_
  · rw [h₁.proc_eq, Table.set_proc_self]
    exact hsleep
  · refine h₁.makeRunnable hfit.listed hp (hfit.priority p (.inl hsleep)) fun s₂ h₂ => ?_
    exact wp_pure.mpr ⟨0, rfl, .inr ⟨rfl, p, hfound, h₂⟩⟩

/-- The lists that `kill` searches after the sleep list, in order. -/
def killLists (MAX : Nat) : List (SList MAX) :=
  (levels MAX).map .ready ++ [.running, .free, .zombie, .embryo]

/-- Every process is on some list, and `kill` searches them all. -/
theorem Table.pid_ne_of_searched {pid : Int32} (h : t.Placed) (hsleep : t.found pid .sleep = none)
    (hrest : ∀ l ∈ killLists MAX, t.found pid l = none) (p : Fin NPROC) :
    (t.proc p).pid ≠ pid.toUInt32 := by
  obtain ⟨l, hl⟩ := Proc.exists_onList (h.priority p)
  refine Table.pid_ne_of_found ?_ h.listed hl
  cases l with
  | sleep => exact hsleep
  | ready i => exact hrest _ (by simp [killLists, levels])
  | _ => exact hrest _ (by simp [killLists])

/-- `l` is the first of the lists `ls` on which a search for `pid` ends. -/
def Table.FirstOn (t : Table NPROC MAX) (pid : Int32) (ls : List (SList MAX)) (l : SList MAX) :
    Prop := ∃ as bs, ls = as ++ l :: bs ∧ ∀ m ∈ as, t.found pid m = none

theorem Table.FirstOn.mem {pid : Int32} {ls : List (SList MAX)} {l : SList MAX}
    (h : t.FirstOn pid ls l) : l ∈ ls := by
  obtain ⟨as, bs, rfl, -⟩ := h
  simp

/-- `kill`: a sleeper is killed and woken, any other process is killed where
it is, and otherwise nothing happens. -/
theorem kill_spec (h : s₀.Becomes t s) (hfit : t.Fit) (pid : Int32) :
    wp (kill pid) s fun r s' =>
      (r = 0 ∧ ∃ p, t.found pid .sleep = some p ∧
        s₀.Becomes (t.moveEnd p (readyOf (t.proc p).priority)
          { t.proc p with killed := true, state := .RUNNABLE }) s') ∨
      (r = 0 ∧ t.found pid .sleep = none ∧ ∃ l, t.FirstOn pid (killLists MAX) l ∧
        ∃ p, t.found pid l = some p ∧ s₀.Becomes (t.set p { t.proc p with killed := true }) s') ∨
      (r = -1 ∧ t.found pid .sleep = none ∧ (∀ l ∈ killLists MAX, t.found pid l = none) ∧
        s' = s ∧ s₀.Becomes t s') := by
  unfold kill
  refine wp_bind_of (killSleeping_spec h hfit pid) ?_
  rintro r s₁ (⟨rfl, rfl, hsleep⟩ | ⟨rfl, hfound⟩)
  · refine wp_bind_of (firstOf_handled id (killOn_spec h pid) (killLists MAX)) ?_
    rintro r s' (⟨rfl, as, l, bs, hls, has, hfound⟩ | ⟨rfl, hall, rfl⟩)
    · exact wp_pure.mpr (.inr (.inl ⟨rfl, hsleep, l, ⟨as, bs, hls, has⟩, hfound⟩))
    · exact wp_pure.mpr (.inr (.inr ⟨rfl, hsleep, hall, rfl, h⟩))
  · exact wp_pure.mpr (.inl ⟨rfl, hfound⟩)

/-! ## setpriority -/

theorem setpriorityOn_spec (h : s₀.Becomes t s) (pid : Int32) (priority : Nat) (l : SList MAX) :
    wp (setpriorityOn pid priority l) s (t.Handled s₀ pid
      (fun p => t.set p { t.proc p with priority := priority, budget := BUDGET }) s l) := by
  unfold setpriorityOn
  refine h.findPid ?_ fun hnone => .inl ⟨rfl, rfl, hnone⟩
  intro p hp
  refine h.setProc_bind fun s₁ h₁ => ?_
  exact wp_pure.mpr ⟨0, rfl, .inr ⟨rfl, p, hp, h₁⟩⟩

theorem setpriorityReady_spec (h : s₀.Becomes t s) (hwf : t.WF) (pid : Int32) {priority : Nat}
    (hprio : priority ≤ MAX) (i : Fin (MAX + 1)) :
    wp (setpriorityReady pid priority i) s (t.Handled s₀ pid (fun p => t.moveEnd p
      (readyOf priority) { t.proc p with priority := priority, budget := BUDGET }) s (.ready i)) := by
  unfold setpriorityReady
  refine h.findPid ?_ fun hnone => .inl ⟨rfl, rfl, hnone⟩
  intro p hfound
  have hp := (Table.mem_of_found hfound).1
  obtain ⟨-, hold⟩ := hwf.listed.onList hp
  have hle := (hwf.sane p).priority
  have hready : (readyOf (t.proc p).priority : SList MAX) = .ready i := by
    simp only [readyOf, SList.ready.injEq, Fin.ext_iff]
    omega
  rw [wp_bind, wp_procOf, h.proc_eq]
  refine wp_readyList_bind hle ?_
  rw [hready, wp_bind, wp_procOf]
  refine h.remove_bind hwf.listed.disjoint hp fun s₁ h₁ => ?_
  rw [wp_bind, wp_warnIf_lt]
  refine h₁.setProc_bind fun s₂ h₂ => ?_
  rw [wp_bind, wp_procOf, h₂.proc_eq, Table.set_proc_self]
  refine wp_readyList_bind hprio ?_
  refine h₂.addEnd_bind (hwf.listed.remove p) rfl fun s₃ h₃ => ?_
  rw [wp_bind, wp_warnIf_lt]
  replace h₃ : s₀.Becomes (t.moveEnd p (readyOf priority) { t.proc p with priority := priority })
    s₃ := h₃
  refine h₃.setProc_bind fun s₄ h₄ => ?_
  rw [Table.moveEnd_set, Table.moveEnd_proc, Table.set_proc_self] at h₄
  exact wp_pure.mpr ⟨0, rfl, .inr ⟨rfl, p, hfound, h₄⟩⟩

/-- `setpriority`: a `RUNNABLE` process goes to the end of its new list, a
running or sleeping one is changed where it is. -/
theorem setpriority_spec (h : s₀.Becomes t s) (hwf : t.WF) (pid : Int32) {priority : Nat}
    (hprio : priority ≤ MAX) :
    wp (setpriority pid priority) s fun r s' =>
      (r = 0 ∧ ∃ i, (∀ j < i, t.found pid (.ready j) = none) ∧ ∃ p,
        t.found pid (.ready i) = some p ∧ s₀.Becomes (t.moveEnd p (readyOf priority)
          { t.proc p with priority := priority, budget := BUDGET }) s') ∨
      (r = 0 ∧ (∀ i, t.found pid (.ready i) = none) ∧
        ∃ l, (l = .running ∨ l = .sleep ∧ t.found pid .running = none) ∧ ∃ p,
          t.found pid l = some p ∧ s₀.Becomes (t.set p { t.proc p with priority := priority, budget := BUDGET }) s') ∨
      (r = -1 ∧ (∀ i, t.found pid (.ready i) = none) ∧ t.found pid .running = none ∧
        t.found pid .sleep = none ∧ s' = s ∧ s₀.Becomes t s') := by
  unfold setpriority
  refine wp_bind_of (firstOf_handled _ (setpriorityReady_spec h hwf pid hprio) (levels MAX)) ?_
  rintro r s₁ (⟨rfl, as, i, bs, his, has, hfound⟩ | ⟨rfl, hnone, rfl⟩)
  · exact wp_pure.mpr (.inl ⟨rfl, i, fun j hj => has j (mem_before his hj), hfound⟩)
  · replace hnone := fun i => hnone i (List.mem_finRange i)
    refine wp_bind_of (firstOf_handled id (setpriorityOn_spec h pid priority) [.running, .sleep]) ?_
    rintro r s' (⟨rfl, as, l, bs, hls, has, hfound⟩ | ⟨rfl, hall, rfl⟩)
    · refine wp_pure.mpr (.inr (.inl ⟨rfl, hnone, l, ?_, hfound⟩))
      cases as with
      | nil => exact .inl (List.cons.inj hls).1.symm
      | cons a as =>
          obtain ⟨rfl, hrest⟩ := List.cons.inj hls
          have hmem : l ∈ [SList.sleep] := by rw [hrest]; simp
          exact .inr ⟨by simpa using hmem, has _ List.mem_cons_self⟩
    · exact wp_pure.mpr (.inr (.inr ⟨rfl, hnone, hall _ (by simp), hall .sleep (by simp), rfl, h⟩))

end Xv6.Ptable
