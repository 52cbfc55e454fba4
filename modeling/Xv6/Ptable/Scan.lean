import Xv6.Ptable.Life

/-!
# Xv6.Ptable.Scan

The versions of `wakeup1`, `exit`, `kill` and `wait` that `proc.c` has for a
build without `BAGIAN_INODE`: one scan of `ptable.proc`, where the versions of
`Xv6.Ptable` walk the state lists.

Both versions are compared through the lives of the processes.  Every operation
changes lives in a way that does not mention lists (`Lives.wake`, `Lives.exit`,
`Life.kill`), the list version by `Xv6.Ptable.Life` and the scan by the loop
lemmas here.

* `lists_match_scan`: from a partition, both versions return and leave the same
  lives;
* `wait` differs in what it does not search: the scan counts a child in any
  state, the lists of `wait` are without `embryo` and `free`
  (`embryo_child_unseen`).
-/

namespace Xv6.Ptable

variable {NPROC MAX NCPU : Nat}

/-- What a pass of `wait` finds. -/
inductive Search
  | reaped (pid : Int32)
  | kids
  | nothing
  deriving DecidableEq

/-- The same, but for which zombie child. -/
def Search.Alike : Search → Search → Prop
  | .reaped _, .reaped _ => True
  | .kids, .kids => True
  | .nothing, .nothing => True
  | _, _ => False

/-- The loops of `wait` over the lists. -/
def waitSearch (me : Fin NPROC) : K NPROC MAX NCPU Search := do
  match ← reap me with
  | some pid => return .reaped pid
  | none =>
      match ← firstOf (haveKids me) (aliveLists MAX) with
      | some _ => return .kids
      | none => return .nothing

/-- What `wait` does when it has not reaped a child. -/
def waitRest (c : Fin NCPU) (me : Fin NPROC) (havekids : Bool) :
    K NPROC MAX NCPU (Option Int32) := do
  if !havekids || (← procOf me).killed then return some (-1)
  sleep c me (some (.proc me))
  return none

/-- What `wait` makes of it. -/
def waitThen (c : Fin NCPU) (me : Fin NPROC) : Search → K NPROC MAX NCPU (Option Int32)
  | .reaped pid => return some pid
  | .kids => waitRest c me true
  | .nothing => waitRest c me false

theorem wait_eq (c : Fin NCPU) (me : Fin NPROC) :
    (wait c me : K NPROC MAX NCPU (Option Int32)) = waitSearch me >>= waitThen c me := by
  unfold wait waitSearch
  rw [bind_assoc]
  congr
  funext r
  cases r with
  | some pid => rfl
  | none =>
      dsimp only
      rw [bind_assoc]
      congr
      funext r
      cases r with
      | some u => rfl
      | none => rfl

namespace Scan

/-! ## the code -/

def wakeup1 (chan : Option (Chan NPROC)) : K NPROC MAX NCPU Unit :=
  (List.finRange NPROC).forM fun p => do
    if (← procOf p).state = .SLEEPING ∧ (← procOf p).chan = chan then
      setProc p fun pr => { pr with state := .RUNNABLE }

/-- The loop of `exit`: pass abandoned children to init. -/
def passToInit (me : Fin NPROC) : K NPROC MAX NCPU Unit :=
  (List.finRange NPROC).forM fun p => do
    let initproc := (← get).initproc
    if (← procOf p).parent = some me then
      setProc p fun pr => { pr with parent := initproc }
      if (← procOf p).state = .ZOMBIE then wakeup1 (initproc.map .proc)

/-- `exit` up to the switch away. -/
def exit (c : Fin NCPU) (me : Fin NPROC) : K NPROC MAX NCPU Unit := do
  if some me = (← get).initproc then throw (.panic "init exiting")
  -- close all open files
  calls ((← procOf me).openFiles.map .fileclose)
  setProc me fun pr => { pr with ofile := fun _ => none }
  call (.iput (← procOf me).cwd)
  setProc me fun pr => { pr with cwd := none }
  -- parent might be sleeping in wait()
  wakeup1 ((← procOf me).parent.map .proc)
  passToInit me
  setProc me fun pr => { pr with state := .ZOMBIE }
  sched c me .exit

/-- The loop of `wait`. -/
def scanKids (me : Fin NPROC) (havekids : Bool) : List (Fin NPROC) → K NPROC MAX NCPU Search
  | [] => return if havekids then .kids else .nothing
  | p :: ps => do
      if (← procOf p).parent ≠ some me then scanKids me havekids ps
      else if (← procOf p).state = .ZOMBIE then
        let pid := (← procOf p).pid
        call (.kfree (← procOf p).kstack)
        setProc p fun pr => { pr with kstack := none }
        call (.freevm (← procOf p).pgdir)
        setProc p fun pr =>
          { pr with state := .UNUSED, pid := 0, parent := none, name := [], killed := false }
        return .reaped pid.toInt32
      else scanKids me true ps

def waitSearch (me : Fin NPROC) : K NPROC MAX NCPU Search :=
  scanKids me false (List.finRange NPROC)

def kill (pid : Int32) : K NPROC MAX NCPU Int32 := do
  let found ← firstOf (fun p => do
    if (← procOf p).pid = pid.toUInt32 then
      setProc p fun pr => { pr with killed := true }
      -- wake process from sleep if necessary
      if (← procOf p).state = .SLEEPING then setProc p fun pr => { pr with state := .RUNNABLE }
      return some 0
    else return none) (List.finRange NPROC)
  return found.getD (-1)

/-! ## what the scans do -/

/-- Only processes change, to live as in `v`. -/
def Turns (s : Kern NPROC MAX NCPU) (v : Lives NPROC) (s' : Kern NPROC MAX NCPU) : Prop :=
  s' = { s with proc := s'.proc } ∧ s'.lives = v

section Loops

variable {s s' s'' : Kern NPROC MAX NCPU} {v : Lives NPROC} {p q me : Fin NPROC}
  {chan : Option (Chan NPROC)} {init : Option (Fin NPROC)}

theorem Turns.refl (s : Kern NPROC MAX NCPU) : Turns s s.lives s := ⟨rfl, rfl⟩

theorem Turns.trans {w : Lives NPROC} (h : Turns s v s') (h' : Turns s' w s'') : Turns s w s'' := by
  obtain ⟨hs, -⟩ := h
  obtain ⟨hs', hw⟩ := h'
  refine ⟨?_, hw⟩
  rw [hs', hs]

theorem Turns.initproc_eq (h : Turns s v s') : s'.initproc = s.initproc := by
  rw [h.1]

/-- A statement that changes one process. -/
theorem Turns.setProc (f : Proc NPROC → Proc NPROC) :
    Turns s (Function.update s.lives p (f (s.proc p)).life)
      { s with proc := Function.update s.proc p (f (s.proc p)) } := by
  refine ⟨rfl, ?_⟩
  funext q
  by_cases hq : q = p
  · subst hq
    simp [Kern.lives]
  · simp [Kern.lives, Function.update_of_ne hq]

theorem Turns.setProc_bind {α : Type} {f : Proc NPROC → Proc NPROC} {g : Unit → K NPROC MAX NCPU α}
    {Q : α → Kern NPROC MAX NCPU → Prop}
    (hg : ∀ s', Turns s (Function.update s.lives p (f (s.proc p)).life) s' → wp (g ()) s' Q) :
    wp (Ptable.setProc p f >>= g) s Q := by
  rw [wp_bind, wp_setProc]
  exact hg _ (.setProc f)

/-- A scan that does `f` to the lives at each slot. -/
theorem wp_scan {body : Fin NPROC → K NPROC MAX NCPU Unit}
    {f : Lives NPROC → Fin NPROC → Lives NPROC}
    (hbody : ∀ p s, s.initproc = init → wp (body p) s fun _ s' => Turns s (f s.lives p) s')
    (ps : List (Fin NPROC)) (s : Kern NPROC MAX NCPU) (hinit : s.initproc = init) :
    wp (ps.forM body) s fun _ s' => Turns s (ps.foldl f s.lives) s' := by
  induction ps generalizing s with
  | nil => exact wp_pure.mpr (.refl s)
  | cons p ps ih =>
      rw [List.forM]
      refine wp_bind_of (hbody p s hinit) fun _ s₁ h₁ => ?_
      refine (ih s₁ (h₁.initproc_eq.trans hinit)).mono fun _ s₂ h₂ => ?_
      rw [h₁.2] at h₂
      exact h₁.trans h₂

/-! ### wakeup1 -/

def wakeOne (chan : Option (Chan NPROC)) (v : Lives NPROC) (p : Fin NPROC) : Lives NPROC :=
  Function.update v p (v.wake chan p)

theorem foldl_wakeOne (ps : List (Fin NPROC)) (v : Lives NPROC) (q : Fin NPROC) :
    ps.foldl (wakeOne chan) v q = if q ∈ ps then v.wake chan q else v q := by
  induction ps generalizing v with
  | nil => simp
  | cons p ps ih =>
      rw [List.foldl_cons, ih]
      by_cases hq : q = p
      · subst hq
        have hself : wakeOne chan v q q = v.wake chan q := Function.update_self _ _ _
        have hagain : (wakeOne chan v q).wake chan q = v.wake chan q := by
          conv_rhs => rw [← Lives.wake_wake]
          unfold Lives.wake
          rw [hself]
          rfl
        rw [hagain, hself, ite_self, if_pos List.mem_cons_self]
      · have hother : wakeOne chan v p q = v q := Function.update_of_ne hq _ _
        have hwake : (wakeOne chan v p).wake chan q = v.wake chan q := by
          unfold Lives.wake
          rw [hother]
        rw [hother, hwake]
        simp only [List.mem_cons, hq, false_or]

theorem wakeup1_spec (s : Kern NPROC MAX NCPU) (chan : Option (Chan NPROC)) :
    wp (wakeup1 chan) s fun _ s' => Turns s (s.lives.wake chan) s' := by
  have hall : (List.finRange NPROC).foldl (wakeOne chan) s.lives = s.lives.wake chan := by
    funext q
    rw [foldl_wakeOne, if_pos (List.mem_finRange q)]
  rw [← hall]
  refine wp_scan (fun p s _ => ?_) _ s rfl
  rw [wp_bind, wp_procOf, wp_bind, wp_procOf]
  split
  · next hp =>
    have hwake : s.lives.wake chan p = { s.lives p with state := .RUNNABLE } := if_pos hp
    rw [wp_setProc, wakeOne, hwake]
    exact .setProc fun pr => { pr with state := .RUNNABLE }
  · next hp =>
    have hwake : s.lives.wake chan p = s.lives p := if_neg hp
    rw [wakeOne, hwake, Function.update_eq_self]
    exact wp_pure.mpr (.refl s)

/-! ### exit -/

def passOne (me : Fin NPROC) (init : Option (Fin NPROC)) (v : Lives NPROC) (p : Fin NPROC) :
    Lives NPROC :=
  if (v p).parent = some me then
    let w : Lives NPROC := Function.update v p { v p with parent := init }
    if (v p).state = .ZOMBIE then w.wake (init.map .proc) else w
  else v

/-- The slots of the list are searched, and not all of them. -/
local instance decidableAmong {ps : List (Fin NPROC)} {P : Fin NPROC → Prop} [DecidablePred P] :
    Decidable (∃ z ∈ ps, P z) := List.decidableBEx P ps

/-- Init is told of the dead children among the first slots. -/
def tellOf (me : Fin NPROC) (init : Option (Fin NPROC)) (v : Lives NPROC)
    (ps : List (Fin NPROC)) : Lives NPROC :=
  if ∃ z ∈ ps, (v z).state = .ZOMBIE ∧ (v z).parent = some me then v.wake (init.map .proc) else v

/-- Telling after a child has been passed on, or before. -/
theorem tellOf_passOne (ps : List (Fin NPROC)) (hp : (v p).parent = some me) :
    tellOf me init (passOne me init v p) ps = Function.update (tellOf me init v (p :: ps)) p
      { tellOf me init v (p :: ps) p with parent := init } := by
  by_cases hz : (v p).state = .ZOMBIE
  · have hpass : passOne me init v p = Function.update (v.wake (init.map .proc)) p
        { v.wake (init.map .proc) p with parent := init } := by
      rw [passOne, if_pos hp, ← Lives.wake_update_parent]
      exact if_pos hz
    have htell : tellOf me init v (p :: ps) = v.wake (init.map .proc) :=
      if_pos ⟨p, List.mem_cons_self, hz, hp⟩
    rw [htell, ← hpass, tellOf, hpass, ← Lives.wake_update_parent, Lives.wake_wake, ite_self]
  · have hpass : passOne me init v p = Function.update v p { v p with parent := init } := by
      rw [passOne, if_pos hp]
      exact if_neg hz
    have hiff : (∃ z ∈ ps, (passOne me init v p z).state = .ZOMBIE ∧
        (passOne me init v p z).parent = some me) ↔
        ∃ z ∈ p :: ps, (v z).state = .ZOMBIE ∧ (v z).parent = some me := by
      rw [hpass]
      constructor
      · rintro ⟨z, hmem, hzz, hzp⟩
        by_cases hzne : z = p
        · subst hzne
          rw [Function.update_self] at hzz
          exact absurd hzz hz
        · rw [Function.update_of_ne hzne] at hzz hzp
          exact ⟨z, List.mem_cons_of_mem p hmem, hzz, hzp⟩
      · rintro ⟨z, hmem, hzz, hzp⟩
        have hzne : z ≠ p := by
          rintro rfl
          exact hz hzz
        refine ⟨z, List.mem_of_ne_of_mem hzne hmem, ?_⟩
        rw [Function.update_of_ne hzne]
        exact ⟨hzz, hzp⟩
    unfold tellOf
    simp only [hiff]
    split
    · rw [hpass, Lives.wake_update_parent]
    · exact hpass

/-- The loop of `exit`, wherever it ends. -/
theorem foldl_passOne (ps : List (Fin NPROC)) (v : Lives NPROC) (q : Fin NPROC) :
    ps.foldl (passOne me init) v q =
      if q ∈ ps ∧ (v q).parent = some me then { tellOf me init v ps q with parent := init }
      else tellOf me init v ps q := by
  induction ps generalizing v with
  | nil => simp [tellOf]
  | cons p ps ih =>
      rw [List.foldl_cons, ih]
      by_cases hp : (v p).parent = some me
      · rw [tellOf_passOne ps hp]
        by_cases hq : q = p
        · subst hq
          have hyes : q ∈ q :: ps ∧ (v q).parent = some me := ⟨List.mem_cons_self, hp⟩
          rw [Function.update_self, if_pos hyes]
          split <;> rfl
        · have hother : (passOne me init v p q).parent = (v q).parent := by
            rw [passOne, if_pos hp]
            dsimp only
            split
            · rw [Lives.wake_parent, Function.update_of_ne hq]
            · rw [Function.update_of_ne hq]
          rw [Function.update_of_ne hq, hother]
          simp only [List.mem_cons, hq, false_or]
      · have hsame : passOne me init v p = v := if_neg hp
        have htell : tellOf me init v (p :: ps) = tellOf me init v ps := by
          unfold tellOf
          simp only [List.exists_mem_cons_iff, hp, and_false, false_or]
        rw [hsame, htell]
        by_cases hq : q = p
        · subst hq
          rw [if_neg fun h => hp h.2, if_neg fun h => hp h.2]
        · simp only [List.mem_cons, hq, false_or]

theorem passToInit_spec (s : Kern NPROC MAX NCPU) (me : Fin NPROC) :
    wp (passToInit me) s fun _ s' =>
      Turns s ((s.lives.tell me s.initproc).adopt me s.initproc) s' := by
  have hall : (List.finRange NPROC).foldl (passOne me s.initproc) s.lives =
      (s.lives.tell me s.initproc).adopt me s.initproc := by
    funext q
    have htell : tellOf me s.initproc s.lives (List.finRange NPROC) =
        s.lives.tell me s.initproc := by
      unfold tellOf Lives.tell Lives.HasZombie
      simp only [List.mem_finRange, true_and]
      congr
    rw [foldl_passOne, htell, Lives.adopt, Lives.tell_parent]
    simp only [List.mem_finRange, true_and]
  rw [← hall]
  refine wp_scan (fun p s₁ hinit => ?_) _ s rfl
  rw [wp_bind, wp_get, wp_bind, wp_procOf, hinit]
  split
  · next hp =>
    have hpass : passOne me s.initproc s₁.lives p =
        if (s₁.lives p).state = .ZOMBIE then
          Lives.wake (Function.update s₁.lives p { s₁.lives p with parent := s.initproc })
            (s.initproc.map .proc)
        else Function.update s₁.lives p { s₁.lives p with parent := s.initproc } := if_pos hp
    rw [hpass]
    refine Turns.setProc_bind fun s₂ h₂ => ?_
    have hstate : (s₂.proc p).state = (s₁.lives p).state := by
      have hp₂ := congrFun h₂.2 p
      rw [Function.update_self] at hp₂
      exact congrArg Life.state hp₂
    rw [wp_bind, wp_procOf]
    simp only [hstate]
    split
    · refine (wakeup1_spec s₂ _).mono fun _ s₃ h₃ => ?_
      rw [h₂.2] at h₃
      exact h₂.trans h₃
    · exact wp_pure.mpr h₂
  · next hp =>
    have hpass : passOne me s.initproc s₁.lives p = s₁.lives := if_neg hp
    rw [hpass]
    exact wp_pure.mpr (.refl s₁)

theorem exit_spec (c : Fin NCPU) (hinit : s.initproc ≠ some me) :
    wp (exit c me) s fun _ s' => s'.lives = s.lives.exit me s.initproc := by
  unfold exit
  rw [wp_bind, wp_get, if_neg fun h => hinit h.symm, wp_bind, wp_procOf, wp_bind, wp_calls]
  refine Turns.setProc_bind fun s₁ h₁ => ?_
  rw [wp_bind, wp_procOf, wp_bind, wp_call]
  refine Turns.setProc_bind fun s₂ h₂ => ?_
  have hclose : s₂.lives = s.lives.close me := by
    have hlives : (s₁.record [.iput (s₁.proc me).cwd]).lives = s.lives.close me := h₁.2
    rw [h₂.2, hlives, Lives.close, Function.update_idem]
    congr
    have hme : s₁.lives me = { s.lives me with ofile := fun _ => none } := by
      rw [show s₁.lives = _ from h₁.2, Function.update_self]
      rfl
    exact hme
  have hinit₂ : s₂.initproc = s.initproc := h₂.initproc_eq.trans h₁.initproc_eq
  have hparent : (s₂.proc me).parent = (s.lives me).parent := by
    have hme := congrFun hclose me
    rw [Lives.close, Function.update_self] at hme
    exact congrArg Life.parent hme
  rw [wp_bind, wp_procOf, hparent]
  refine wp_bind_of (wakeup1_spec s₂ _) fun _ s₃ h₃ => ?_
  refine wp_bind_of (passToInit_spec s₃ me) fun _ s₄ h₄ => ?_
  rw [h₃.2, h₃.initproc_eq, hinit₂, hclose] at h₄
  refine Turns.setProc_bind fun s₅ h₅ => ?_
  have hzombie : s₅.lives = s.lives.exit me s.initproc := by
    rw [h₅.2, Lives.exit, ← h₄.2]
    rfl
  have hstate : (s₅.proc me).state ≠ .RUNNING := by
    have hme := congrFun h₅.2 me
    rw [Function.update_self] at hme
    rw [show (s₅.proc me).state = .ZOMBIE from congrArg Life.state hme]
    decide
  rw [← hzombie]
  unfold sched
  simp only [wp_bind, wp_procOf, if_neg hstate, wp_get, wp_setProc, wp_modify]
  funext q
  by_cases hq : q = me
  · subst hq
    simp [Kern.lives, Kern.setCpu, Proc.life]
  · simp [Kern.lives, Kern.setCpu, Function.update_of_ne hq]

/-! ### kill -/

theorem kill_spec (s : Kern NPROC MAX NCPU) (pid : Int32) :
    wp (kill pid) s fun r s' =>
      (r = 0 ∧ ∃ p, (s.lives p).pid = pid.toUInt32 ∧
          s'.lives = Function.update s.lives p (s.lives p).kill) ∨
        (r = -1 ∧ (∀ p, (s.lives p).pid ≠ pid.toUInt32) ∧ s'.lives = s.lives) := by
  unfold kill
  rw [wp_bind]
  refine wp_firstOf (fun p => (s.lives p).pid ≠ pid.toUInt32) _ ?_ fun hall => ?_
  · intro as p bs _ _
    rw [wp_bind, wp_procOf]
    split
    · next hp =>
      refine Turns.setProc_bind fun s₁ h₁ => ?_
      have hone : s₁.lives p = { s.lives p with killed := true } := by
        rw [h₁.2, Function.update_self]
        rfl
      have hstate : (s₁.proc p).state = (s.lives p).state := congrArg Life.state hone
      rw [wp_bind, wp_procOf]
      simp only [hstate]
      split
      · next hsleep =>
        refine Turns.setProc_bind fun s₂ h₂ => ?_
        refine wp_pure.mpr (.inr ⟨0, rfl, wp_pure.mpr (.inl ⟨rfl, p, hp, ?_⟩)⟩)
        have hlife : Proc.life { s₁.proc p with state := .RUNNABLE } = (s.lives p).kill := by
          change { s₁.lives p with state := .RUNNABLE } = _
          rw [hone, Life.kill, if_pos hsleep]
        rw [h₂.2, hlife, h₁.2, Function.update_idem]
      · next hsleep =>
        refine wp_pure.mpr (.inr ⟨0, rfl, wp_pure.mpr (.inl ⟨rfl, p, hp, ?_⟩)⟩)
        rw [h₁.2, Life.kill, if_neg hsleep]
        rfl
    · next hp => exact wp_pure.mpr (.inl ⟨rfl, rfl, hp⟩)
  · exact wp_pure.mpr (.inr ⟨rfl, fun p => hall p (List.mem_finRange p), rfl⟩)

/-! ### wait -/

theorem scanKids_spec (me : Fin NPROC) (ps : List (Fin NPROC)) (havekids : Bool)
    (s : Kern NPROC MAX NCPU) :
    wp (scanKids me havekids ps) s fun r _ =>
      ((∃ p ∈ ps, (s.lives p).parent = some me ∧ (s.lives p).state = .ZOMBIE) ∧
        ∃ pid, r = .reaped pid) ∨
      ((∀ p ∈ ps, (s.lives p).parent = some me → (s.lives p).state ≠ .ZOMBIE) ∧
        r = if havekids ∨ ∃ p ∈ ps, (s.lives p).parent = some me then .kids else .nothing) := by
  induction ps generalizing havekids with
  | nil => exact wp_pure.mpr (.inr ⟨by simp, by simp⟩)
  | cons p ps ih =>
      unfold scanKids
      rw [wp_bind, wp_procOf]
      split
      · next hp =>
        have hp : (s.lives p).parent ≠ some me := hp
        refine (ih havekids).mono fun r _ hr => ?_
        simpa only [List.exists_mem_cons_iff, List.forall_mem_cons, hp, false_and, false_or,
          false_imp_iff, true_and] using hr
      · next hp =>
        have hp : (s.lives p).parent = some me := not_not.mp hp
        rw [wp_bind, wp_procOf]
        split
        · next hz =>
          simp only [wp_bind, wp_procOf, wp_call, wp_setProc, wp_pure]
          exact .inl ⟨⟨p, List.mem_cons_self, hp, hz⟩, _, rfl⟩
        · next hz =>
          have hz : (s.lives p).state ≠ .ZOMBIE := hz
          refine (ih true).mono fun r _ hr => ?_
          simpa only [List.exists_mem_cons_iff, List.forall_mem_cons, hp, hz, true_or, or_true,
            if_true, ne_eq, not_false_eq_true, true_imp_iff, true_and, and_false, false_or] using hr

end Loops

end Scan

/-! ## both versions -/

section Compare

variable {s s₀ : Kern NPROC MAX NCPU} {t : Table NPROC MAX} {me : Fin NPROC}

/-- The lists that `wait` searches hold the processes that are alive. -/
theorem exists_aliveLists_iff (h : t.Fit) :
    (∃ l ∈ aliveLists MAX, ∃ p ∈ t.list l, (t.proc p).parent = some me) ↔
      ∃ p, (t.lives p).parent = some me ∧ ((t.lives p).state = .RUNNABLE ∨
        (t.lives p).state = .RUNNING ∨ (t.lives p).state = .SLEEPING) := by
  constructor
  · rintro ⟨l, hl, p, hp, hpar⟩
    refine ⟨p, hpar, ?_⟩
    have hon := h.listed.onList hp
    cases l with
    | ready i => exact .inl hon.1
    | running => exact .inr (.inl hon)
    | sleep => exact .inr (.inr hon)
    | free => simp [aliveLists] at hl
    | zombie => simp [aliveLists] at hl
    | embryo => simp [aliveLists] at hl
  · rintro ⟨p, hpar, hready | hrun | hsleep⟩
    · have hon := Proc.onList_readyOf hready (h.priority p (.inr hready))
      exact ⟨_, by simp [aliveLists, levels, readyOf], p, h.listed.mem_iff.mpr hon, hpar⟩
    · exact ⟨.running, by simp [aliveLists], p, h.listed.mem_iff.mpr hrun, hpar⟩
    · exact ⟨.sleep, by simp [aliveLists], p, h.listed.mem_iff.mpr hsleep, hpar⟩

theorem waitSearch_spec (h : s₀.Becomes t s) (hfit : t.Fit) (me : Fin NPROC) :
    wp (waitSearch me) s fun r _ =>
      (t.lives.HasZombie me ∧ ∃ pid, r = .reaped pid) ∨
      (¬ t.lives.HasZombie me ∧
        r = if ∃ p, (t.lives p).parent = some me ∧ ((t.lives p).state = .RUNNABLE ∨
          (t.lives p).state = .RUNNING ∨ (t.lives p).state = .SLEEPING) then .kids else .nothing) := by
  unfold waitSearch
  refine wp_bind_of (reap_spec h hfit.listed me) fun r s₁ hr => ?_
  rcases hr with ⟨hnone, rfl, rfl⟩ | ⟨p, hfind, rfl, -⟩
  · have hno := (Table.find?_zombie_none_iff hfit.listed).mp hnone
    refine wp_bind_of (haveKids_alive_spec h me) ?_
    rintro r s' ⟨rfl, hr⟩
    rcases hr with ⟨rfl, hall⟩ | ⟨rfl, hex⟩
    · have hnot : ¬ ∃ l ∈ aliveLists MAX, ∃ p ∈ t.list l, (t.proc p).parent = some me := by
        rintro ⟨l, hl, p, hp, hpar⟩
        exact hall l hl p hp hpar
      rw [exists_aliveLists_iff hfit] at hnot
      exact wp_pure.mpr (.inr ⟨hno, (if_neg hnot).symm⟩)
    · rw [exists_aliveLists_iff hfit] at hex
      exact wp_pure.mpr (.inr ⟨hno, (if_pos hex).symm⟩)
  · have hyes : t.lives.HasZombie me := by
      by_contra hno
      rw [← Table.find?_zombie_none_iff hfit.listed, hfind] at hno
      contradiction
    exact wp_pure.mpr (.inl ⟨hyes, _, rfl⟩)

/-- Two versions return the same and leave the same state, parent, pid, killed
and chan in every slot. -/
def Agree {α : Type} (m m' : K NPROC MAX NCPU α) (s : Kern NPROC MAX NCPU) : Prop :=
  ∃ r s₁ s₂, m s = .ok (r, s₁) ∧ m' s = .ok (r, s₂) ∧ s₁.lives = s₂.lives

theorem Agree.intro {α : Type} {m m' : K NPROC MAX NCPU α} {r : α} {v : Lives NPROC}
    (h : wp m s fun a s' => a = r ∧ s'.lives = v)
    (h' : wp m' s fun a s' => a = r ∧ s'.lives = v) : Agree m m' s := by
  obtain ⟨_, s₁, hm, rfl, rfl⟩ := h
  obtain ⟨_, s₂, hm', rfl, hv⟩ := h'
  exact ⟨_, s₁, s₂, hm, hm', hv.symm⟩

theorem wakeup1_agree (h : s.Becomes t s) (hfit : t.Fit) (chan : Option (Chan NPROC)) :
    Agree (wakeup1 chan) (Scan.wakeup1 chan) s := by
  refine .intro (r := ()) (v := s.lives.wake chan) ?_ ?_
  · refine (wakeup1_spec h hfit chan).mono fun _ s' hb => ⟨rfl, ?_⟩
    rw [hb.lives_eq, Table.lives_wake hfit.listed, h.lives_eq]
  · exact (Scan.wakeup1_spec s chan).mono fun _ s' hb => ⟨rfl, hb.2⟩

theorem exit_agree (h : s.Becomes t s) (hfit : t.Fit) (c : Fin NCPU)
    (hrun : (t.proc me).state = .RUNNING) (hinit : s.initproc ≠ some me) :
    Agree (exit c me) (Scan.exit c me) s := by
  refine .intro (r := ()) (v := s.lives.exit me s.initproc) ?_ ?_
  · refine (exit_spec h hfit hrun fun hc => hinit hc.symm).mono fun _ s' hb => ⟨rfl, ?_⟩
    rw [hb.lives_eq, Table.lives_exit hfit, h.lives_eq]
  · exact (Scan.exit_spec c hinit).mono fun _ s' hb => ⟨rfl, hb⟩

theorem kill_agree (h : s.Becomes t s) (hfit : t.Fit) {pid : Int32}
    (hunique : ∀ p q, (s.lives p).pid = pid.toUInt32 → (s.lives q).pid = pid.toUInt32 → p = q) :
    Agree (kill pid) (Scan.kill pid) s := by
  obtain ⟨r, s₁, hm, -, hr⟩ := kill_lives h hfit pid
  obtain ⟨r', s₂, hm', hr'⟩ := Scan.kill_spec s pid
  rw [← h.lives_eq] at hr
  rcases hr with ⟨rfl, p, hp, hlives⟩ | ⟨rfl, hno, hlives⟩
  · rcases hr' with ⟨rfl, q, hq, hlives'⟩ | ⟨-, hno, -⟩
    · obtain rfl := hunique p q hp hq
      exact ⟨0, s₁, s₂, hm, hm', hlives.trans hlives'.symm⟩
    · exact absurd hp (hno p)
  · rcases hr' with ⟨-, q, hq, -⟩ | ⟨rfl, -, hlives'⟩
    · exact absurd hq (hno q)
    · exact ⟨-1, s₁, s₂, hm, hm', hlives.trans hlives'.symm⟩

theorem waitSearch_alike (h : s.Becomes t s) (hfit : t.Fit)
    (hkids : ∀ p, (s.lives p).parent = some me →
      (s.lives p).state ≠ .EMBRYO ∧ (s.lives p).state ≠ .UNUSED) :
    ∃ r r' s₁ s₂, waitSearch me s = .ok (r, s₁) ∧ Scan.waitSearch me s = .ok (r', s₂) ∧
      r.Alike r' := by
  obtain ⟨r, s₁, hm, hr⟩ := waitSearch_spec h hfit me
  obtain ⟨r', s₂, hm', hr'⟩ := Scan.scanKids_spec me (List.finRange NPROC) false s
  refine ⟨r, r', s₁, s₂, hm, hm', ?_⟩
  rw [← h.lives_eq] at hr
  simp only [List.mem_finRange, true_and, true_imp_iff, Bool.false_eq_true, false_or] at hr'
  rcases hr with ⟨⟨z, hz, hzp⟩, pid, rfl⟩ | ⟨hno, rfl⟩
  · rcases hr' with ⟨-, pid', rfl⟩ | ⟨hno, -⟩
    · trivial
    · exact absurd hz (hno z hzp)
  · rcases hr' with ⟨⟨z, hzp, hz⟩, -⟩ | ⟨-, rfl⟩
    · exact absurd ⟨z, hz, hzp⟩ hno
    · have hiff : (∃ p, (s.lives p).parent = some me ∧ ((s.lives p).state = .RUNNABLE ∨
          (s.lives p).state = .RUNNING ∨ (s.lives p).state = .SLEEPING)) ↔
          ∃ p, (s.lives p).parent = some me := by
        refine exists_congr fun p => and_iff_left_of_imp fun hp => ?_
        have hz : (s.lives p).state ≠ .ZOMBIE := fun hz => hno ⟨p, hz, hp⟩
        have hother := hkids p hp
        cases hs : (s.lives p).state <;> simp_all
      simp only [hiff]
      split <;> trivial

/-- The table of a state whose lists are a partition. -/
theorem Partition.fit {L : SList MAX → List (Fin NPROC)} (h : Partition s L)
    (hprio : ∀ p, (s.proc p).state = .SLEEPING → (s.proc p).priority ≤ MAX) :
    s.Becomes ⟨s.proc, L⟩ s ∧ Table.Fit ⟨s.proc, L⟩ := by
  refine ⟨.refl rfl h.chain, ⟨fun q l => ?_, h.nodup⟩, fun q hq => ?_⟩
  · simpa using h.named q l
  · rcases hq with hsleep | hready
    · exact hprio q hsleep
    · exact h.priority q hready

/-- **The list versions do what the scans do.**  From a partition of the table in
which nonzero pids are distinct and the priorities of sleepers are levels, both
versions of `wakeup1`, of `kill` with a pid other than 0 and of `exit` return the
same and leave the same lives; and both versions of `wait` find a zombie child, a
child or neither alike, if no child of the caller is `EMBRYO` or `UNUSED`. -/
theorem lists_match_scan {L : SList MAX → List (Fin NPROC)} (hpart : Partition s L)
    (hprio : ∀ p, (s.proc p).state = .SLEEPING → (s.proc p).priority ≤ MAX)
    (hpid : ∀ p q, (s.proc p).pid ≠ 0 → (s.proc p).pid = (s.proc q).pid → p = q) :
    (∀ chan, Agree (wakeup1 chan) (Scan.wakeup1 chan) s) ∧
    (∀ pid, pid ≠ 0 → Agree (kill pid) (Scan.kill pid) s) ∧
    (∀ c me, (s.proc me).state = .RUNNING → s.initproc ≠ some me →
      Agree (exit c me) (Scan.exit c me) s) ∧
    ∀ me, (∀ p, (s.proc p).parent = some me →
        (s.proc p).state ≠ .EMBRYO ∧ (s.proc p).state ≠ .UNUSED) →
      ∃ r r' s₁ s₂, waitSearch me s = .ok (r, s₁) ∧ Scan.waitSearch me s = .ok (r', s₂) ∧
        r.Alike r' := by
  obtain ⟨h, hfit⟩ := hpart.fit hprio
  refine ⟨wakeup1_agree h hfit, fun pid hne => kill_agree h hfit fun p q hp hq => ?_,
    fun c me hrun hinit => exit_agree h hfit c hrun hinit, fun me => waitSearch_alike h hfit⟩
  have hzero : pid.toUInt32 ≠ 0 := fun h0 => hne (congrArg UInt32.toInt32 h0)
  exact hpid p q (fun h0 => hzero (hp.symm.trans h0)) (hp.trans hq.symm)

/-- The first process waits for a child. -/
def waiting : List (Op 3 1 1) := [.scheduler 0, .fork 0 (some 1) (some 2), .wait 0, .scheduler 0]

theorem lists_match_scan_waiting : ∃ s₀ s : Kern 3 1 1,
    userinit (some 0) (some 0) (some 0) (boot 0) = .ok ((), s₀) ∧
      Run.exec step s₀ waiting = some s ∧ Agree (wakeup1 (some (.proc 0)))
        (Scan.wakeup1 (some (.proc 0))) s ∧ Agree (kill 1) (Scan.kill 1) s ∧
      Agree (exit 0 1) (Scan.exit 0 1) s ∧ ∃ r r' s₁ s₂, waitSearch 0 s = .ok (r, s₁) ∧
        Scan.waitSearch 0 s = .ok (r', s₂) ∧ r.Alike r' := by
  obtain ⟨s₀, s, hboot, hs, hp⟩ := exists_run step id waiting (p := fun s =>
    decide ((∀ p, (s.proc p).state = .SLEEPING → (s.proc p).priority ≤ 1) ∧
      (∀ p q, (s.proc p).pid ≠ 0 → (s.proc p).pid = (s.proc q).pid → p = q) ∧
      (s.proc 1).state = .RUNNING ∧ s.initproc ≠ some 1 ∧
      ∀ p, (s.proc p).parent = some 0 →
        (s.proc p).state ≠ .EMBRYO ∧ (s.proc p).state ≠ .UNUSED)) (by decide +kernel)
  obtain ⟨hprio, hpid, hstate, hinit, hkids⟩ := of_decide_eq_true hp
  obtain ⟨t, h⟩ : ∃ t, Inv s t :=
    Run.reachable_invariant (fun _ _ _ => step_inv) (userinit_inv hboot) ⟨_, hs⟩
  obtain ⟨hwake, hkill, hexit, hwait⟩ := lists_match_scan h.partition hprio hpid
  exact ⟨s₀, s, hboot, hs, hwake _, hkill 1 (by decide), hexit 0 1 hstate hinit, hwait 0 hkids⟩

/-- A process waits for a child that is not complete. -/
def unseen : Kern 2 0 1 :=
  { (boot 0 : Kern 2 0 1) with
    proc := fun p =>
      if p = 0 then { Proc.zero with state := .RUNNING, pid := 1 }
      else { Proc.zero with state := .EMBRYO, pid := 2, parent := some 0 }
    links :=
      { head := fun
          | .running => some 0
          | .embryo => some 1
          | _ => none
        next := fun _ => none } }

/-- A sleeper with a priority that is no level. -/
def drifted : Kern 1 0 1 :=
  { (boot 0 : Kern 1 0 1) with
    proc := fun _ => { Proc.zero with state := .SLEEPING, pid := 1, priority := 1 }
    links :=
      { head := fun
          | .sleep => some 0
          | _ => none
        next := fun _ => none } }

/-- **What the partition does not give**: the scan of `wait` sees a child that is
`EMBRYO` and the lists do not; and `wakeup1` indexes `ready` by the priority of a
sleeper. -/
theorem embryo_child_unseen :
    (∃ L, Partition unseen L ∧ (∀ p q, (unseen.proc p).pid = (unseen.proc q).pid → p = q) ∧
      ∃ r r' s₁ s₂, waitSearch 0 unseen = .ok (r, s₁) ∧ Scan.waitSearch 0 unseen = .ok (r', s₂) ∧
        ¬ r.Alike r') ∧
    ∃ L, Partition drifted L ∧ (∀ p q, (drifted.proc p).pid = (drifted.proc q).pid → p = q) ∧
      ¬ Agree (wakeup1 none) (Scan.wakeup1 none) drifted := by
  refine ⟨⟨fun | .running => [0] | .embryo => [1] | _ => [], ?_, by decide, ?_⟩,
    fun | .sleep => [0] | _ => [], ?_, by decide, ?_⟩
  · refine .of_named ?_ ?_ ?_ ?_
    · intro l
      cases l <;> simp [Chain, unseen]
    · intro l
      cases l <;> simp
    · intro p l
      revert p
      rw [Fin.forall_fin_two]
      cases l <;> simp [unseen, Proc.OnList]
    · rw [Fin.forall_fin_two]
      simp [unseen]
  · exact ⟨.nothing, .kids, unseen, unseen, rfl, rfl, id⟩
  · refine .of_named ?_ ?_ ?_ ?_
    · intro l
      cases l <;> simp [Chain, drifted]
    · intro l
      cases l <;> simp
    · intro p l
      obtain rfl := Fin.fin_one_eq_zero p
      cases l <;> simp [drifted, Proc.OnList]
    · intro p
      simp [drifted]
  · rintro ⟨r, s₁, s₂, h, -⟩
    have hstop : wakeup1 none drifted = .error .outOfBounds := rfl
    rw [hstop] at h
    contradiction

end Compare

end Xv6.Ptable
