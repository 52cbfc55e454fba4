import Xv6.Ptable.Life

/-!
# Xv6.Ptable.Family

Parents and children while `fork` is under way.

`fork` holds `ptable.lock` in `allocproc`, and again when it makes the child
`RUNNABLE`; in between it copies the address space and fills in the child, and
other processes run.  Here `fork` is taken in these parts, with a note of how far
each process has come (`Pending`); every other operation is one section under the
lock.  A process in the middle of `fork` can be preempted, and does nothing else.

The invariant `Family` says who can be whose parent.  From it:

* `no_missed_zombie`: nobody sleeps in `wait` with a dead child;
* `parents_usable_iff`: every process has a parent that is alive, except while a
  `fork` has its child from `allocproc` and has not yet set the parent.
-/

namespace Xv6.Ptable

open Run

variable {NPROC MAX NCPU : Nat}

/-! ## fork in parts -/

/-- `fork` behind `copyuvm`: what the child gets from its parent. -/
def forkAssign (me np : Fin NPROC) : K NPROC MAX NCPU Unit := do
  let proc ← procOf me
  calls (proc.openFiles.map .filedup ++ [.idup proc.cwd])
  setProc np fun pr =>
    { pr with
      sz := proc.sz, parent := some me
      ofile := fun i => (proc.ofile i).or (pr.ofile i)
      cwd := proc.cwd, name := proc.name, uid := proc.uid, gid := proc.gid }

/-- The last section of `fork`, under the lock. -/
def forkReady (np : Fin NPROC) : K NPROC MAX NCPU Int32 := do
  let pid := (← procOf np).pid
  assertState (some np) .EMBRYO
  warnIf ((← onLinks (removeFromStateList .embryo (some np))) < 0)
    "Failed to remove EMBRYO proc from list (fork).\n"
  setProc np fun pr => { pr with state := .RUNNABLE }
  let sList ← readyList (← procOf np).priority
  warnIf ((← onLinks (addToStateListEnd sList (some np))) < 0)
    "Failed to add RUNNABLE proc to list (fork).\n"
  return pid.toInt32

theorem forkDone_eq (me np : Fin NPROC) :
    (forkDone me np : K NPROC MAX NCPU Int32) = (do forkAssign me np; forkReady np) := by
  simp only [forkDone, forkAssign, forkReady, bind_assoc]

/-- How far a process has come in `fork`. -/
inductive Pending (NPROC : Nat)
  | idle
  /-- it has a slot from `allocproc` -/
  | alloced (np : Fin NPROC)
  /-- it has filled in the child -/
  | copied (np : Fin NPROC)
  deriving DecidableEq

structure Sys (NPROC MAX NCPU : Nat) where
  kern : Kern NPROC MAX NCPU
  pending : Fin NPROC → Pending NPROC

/-- The sections; `c` is the CPU whose current process executes it. -/
inductive Sect (NPROC MAX NCPU : Nat)
  | op (op : Op NPROC MAX NCPU)
  | forkAlloc (c : Fin NCPU) (kalloc : Option Nat)
  | forkCopy (c : Fin NCPU) (copyuvm : Option Nat)
  | forkReady (c : Fin NCPU)

/-- The current process of `c` is not in the middle of `fork`. -/
def Sys.Idle (S : Sys NPROC MAX NCPU) (c : Fin NCPU) : Prop :=
  ∀ me, S.kern.cpus c = some me → S.pending me = .idle

instance (S : Sys NPROC MAX NCPU) (c : Fin NCPU) : Decidable (S.Idle c) :=
  inferInstanceAs (Decidable (∀ me, S.kern.cpus c = some me → S.pending me = .idle))

/-- The operations that are not part of `fork`, and who can execute them.  The
callers of `sleep` pass the address of something other than a process, `wait`
apart. -/
def Sys.MayRun (S : Sys NPROC MAX NCPU) : Op NPROC MAX NCPU → Prop
  | .allocproc _ | .fork _ _ _ => False
  | .exit c | .wait c => S.Idle c
  | .sleep c chan => S.Idle c ∧ ∀ p, chan ≠ some (.proc p)
  | _ => True

instance (S : Sys NPROC MAX NCPU) : DecidablePred S.MayRun
  | .allocproc _ | .fork _ _ _ => inferInstanceAs (Decidable False)
  | .exit c | .wait c => inferInstanceAs (Decidable (S.Idle c))
  | .sleep c chan => inferInstanceAs (Decidable (S.Idle c ∧ ∀ p, chan ≠ some (.proc p)))
  | .tick | .scheduler _ | .promoteAll | .yield _ | .wakeup _ | .kill _ | .setpriority _ _ =>
      inferInstanceAs (Decidable True)

/-- The middle part of `fork`, which may fail. -/
def forkCopy (me np : Fin NPROC) (copyuvm : Option Nat) : K NPROC MAX NCPU (Pending NPROC) := do
  setProc np fun pr => { pr with pgdir := copyuvm }
  match copyuvm with
  | none =>
      let _ ← forkFail np
      return .idle
  | some _ =>
      forkAssign me np
      return .copied np

/-- A part of `fork` by `me`, which leaves it at some point of `fork`. -/
def Sys.part (S : Sys NPROC MAX NCPU) (me : Fin NPROC)
    (m : K NPROC MAX NCPU (Pending NPROC)) : Option (Sys NPROC MAX NCPU) :=
  match m S.kern with
  | .ok (pc, k) => some ⟨k, Function.update S.pending me pc⟩
  | .error _ => none

def advance (S : Sys NPROC MAX NCPU) : Sect NPROC MAX NCPU → Option (Sys NPROC MAX NCPU)
  | .op op => if S.MayRun op then (step S.kern op).map fun k => { S with kern := k } else none
  | .forkAlloc c kalloc =>
      (S.kern.cpus c).bind fun me =>
        match S.pending me with
        | .idle => S.part me do
            match ← allocproc kalloc with
            | none => return .idle
            | some np => return .alloced np
        | _ => none
  | .forkCopy c copyuvm =>
      (S.kern.cpus c).bind fun me =>
        match S.pending me with
        | .alloced np => S.part me (Ptable.forkCopy me np copyuvm)
        | _ => none
  | .forkReady c =>
      (S.kern.cpus c).bind fun me =>
        match S.pending me with
        | .copied np => S.part me do
            let _ ← Ptable.forkReady np
            return .idle
        | _ => none

/-! ## who can be whose parent -/

/-- `RUNNABLE`, `RUNNING` or `SLEEPING`. -/
def Life.Alive (l : Life NPROC) : Prop :=
  l.state = .RUNNABLE ∨ l.state = .RUNNING ∨ l.state = .SLEEPING

instance (l : Life NPROC) : Decidable l.Alive :=
  inferInstanceAs (Decidable (l.state = .RUNNABLE ∨ l.state = .RUNNING ∨ l.state = .SLEEPING))

/-- The process sleeps in `wait`. -/
def Life.Waiting (l : Life NPROC) (q : Fin NPROC) : Prop :=
  l.state = .SLEEPING ∧ l.chan = some (.proc q)

/-- The child of a `fork` under way. -/
def Pending.child : Pending NPROC → Option (Fin NPROC)
  | .idle => none
  | .alloced np | .copied np => some np

/-- **The invariant**, for the lives `v`, the first process `init` and the forks
under way. -/
structure Family (v : Lives NPROC) (init : Fin NPROC) (pend : Fin NPROC → Pending NPROC) :
    Prop where
  init_alive : (v init).Alive
  init_parent : (v init).parent = some init
  /-- everybody has a parent that is alive, or none at all -/
  parent : ∀ p q, (v p).parent = some q → (v q).Alive
  /-- those without a parent are free, or have just been allocated -/
  orphan : ∀ p, (v p).parent = none ↔
    (v p).state = .UNUSED ∨ ∃ me, pend me = .alloced p
  /-- only the first process is its own parent -/
  noself : ∀ p, (v p).parent = some p → p = init
  embryo : ∀ me np, (pend me).child = some np → (v np).state = .EMBRYO
  forking : ∀ me np, (pend me).child = some np → (v me).Alive
  once : ∀ me me' np, (pend me).child = some np → (pend me').child = some np → me = me'
  /-- nobody waits for a child that is dead already -/
  waits : ∀ q z, (v q).Waiting q → (v z).state = .ZOMBIE → (v z).parent ≠ some q

section Changes

variable {v v' : Lives NPROC} {init p q : Fin NPROC} {pend : Fin NPROC → Pending NPROC}

theorem Life.Alive.congr {l l' : Life NPROC} (h : l.Alive) (hs : l'.state = l.state) :
    l'.Alive := by
  unfold Life.Alive
  rw [hs]
  exact h

/-- At most a change between `RUNNABLE`, `RUNNING` and `SLEEPING`. -/
def Life.Stirs (l l' : Life NPROC) : Prop := l'.state = l.state ∨ (l.Alive ∧ l'.Alive)

theorem Life.Alive.stirs {l l' : Life NPROC} (h : l.Alive) (hs : l.Stirs l') : l'.Alive := by
  rcases hs with hs | hs
  · exact h.congr hs
  · exact hs.2

theorem Life.Stirs.trans {l l' l'' : Life NPROC} (h : l.Stirs l') (h' : l'.Stirs l'') :
    l.Stirs l'' := by
  rcases h with h | h
  · rcases h' with h' | h'
    · exact .inl (h'.trans h)
    · exact .inr ⟨h'.1.congr h.symm, h'.2⟩
  · exact .inr ⟨h.1, h.2.stirs h'⟩

/-- Outside the three states nothing changes. -/
theorem Life.Stirs.state_iff {l l' : Life NPROC} (h : l.Stirs l') {st : ProcState}
    (hst : st ≠ .RUNNABLE) (hst' : st ≠ .RUNNING) (hst'' : st ≠ .SLEEPING) :
    l'.state = st ↔ l.state = st := by
  rcases h with hs | ⟨ha, ha'⟩
  · rw [hs]
  · constructor
    · intro he
      rw [Life.Alive, he] at ha'
      tauto
    · intro he
      rw [Life.Alive, he] at ha
      tauto

/-- Nothing but such changes, and nobody begins to wait with a dead child. -/
structure Stirred (v v' : Lives NPROC) : Prop where
  parent : ∀ p, (v' p).parent = (v p).parent
  state : ∀ p, (v p).Stirs (v' p)
  waiting : ∀ p, (v' p).Waiting p → (v p).Waiting p ∨ ¬ v.HasZombie p

theorem Family.stirred (h : Family v init pend) (hs : Stirred v v') : Family v' init pend := by
  have hiff {st : ProcState} (p : Fin NPROC) (hst : st ≠ .RUNNABLE) (hst' : st ≠ .RUNNING)
      (hst'' : st ≠ .SLEEPING) : (v' p).state = st ↔ (v p).state = st :=
    (hs.state p).state_iff hst hst' hst''
  constructor
  case init_alive => exact h.init_alive.stirs (hs.state init)
  case init_parent => rw [hs.parent, h.init_parent]
  case parent =>
    intro p q hpar
    rw [hs.parent] at hpar
    exact (h.parent p q hpar).stirs (hs.state q)
  case orphan =>
    intro p
    rw [hs.parent, h.orphan, hiff p (by decide) (by decide) (by decide)]
  case noself =>
    intro p hpar
    rw [hs.parent] at hpar
    exact h.noself p hpar
  case embryo =>
    intro me np hnp
    rw [hiff np (by decide) (by decide) (by decide)]
    exact h.embryo me np hnp
  case forking => exact fun me np hnp => (h.forking me np hnp).stirs (hs.state me)
  case once => exact h.once
  case waits =>
    intro q z hq hz
    rw [hiff z (by decide) (by decide) (by decide)] at hz
    rw [hs.parent]
    rcases hs.waiting q hq with hw | hnone
    · exact h.waits q z hw hz
    · exact fun hpar => hnone ⟨z, hz, hpar⟩

/-- One process changes like that. -/
theorem Stirred.update {l : Life NPROC} (hpar : l.parent = (v p).parent)
    (hstate : (v p).Stirs l)
    (hwait : l.Waiting p → (v p).Waiting p ∨ ¬ v.HasZombie p) :
    Stirred v (Function.update v p l) where
  parent := (Function.forall_update_iff v fun q l => l.parent = (v q).parent).mpr
    ⟨hpar, fun _ _ => rfl⟩
  state := (Function.forall_update_iff v fun q l => (v q).Stirs l).mpr
    ⟨hstate, fun _ _ => .inl rfl⟩
  waiting := (Function.forall_update_iff v fun q l =>
    l.Waiting q → (v q).Waiting q ∨ ¬ v.HasZombie q).mpr ⟨hwait, fun _ _ hw => .inl hw⟩

theorem Lives.wake_stirs {c : Option (Chan NPROC)} : (v q).Stirs (v.wake c q) ∧
    ((v.wake c q).Waiting q → (v q).Waiting q ∧ c ≠ some (.proc q)) := by
  unfold Lives.wake
  split
  · next hc => exact ⟨.inr ⟨.inr (.inr hc.1), .inl rfl⟩, fun hw => absurd hw.1 (by simp)⟩
  · next hc =>
    refine ⟨.inl rfl, fun hw => ⟨hw, ?_⟩⟩
    rintro rfl
    exact hc hw

theorem Stirred.wake (c : Option (Chan NPROC)) : Stirred v (v.wake c) where
  parent := fun _ => Lives.wake_parent
  state := fun _ => Lives.wake_stirs.1
  waiting := fun _ hw => .inl (Lives.wake_stirs.2 hw).1

end Changes

/-! ## exit -/

section Exit

variable {v : Lives NPROC} {me q : Fin NPROC} {init : Option (Fin NPROC)}
  {c : Option (Chan NPROC)}

theorem Lives.exit_parent : (v.exit me init q).parent =
    if (v q).parent = some me then init else (v q).parent := by
  have hclose (q : Fin NPROC) : (v.close me q).parent = (v q).parent := by
    unfold Lives.close
    by_cases hq : q = me
    · subst hq
      rw [Function.update_self]
    · rw [Function.update_of_ne hq]
  have hadopt (w : Lives NPROC) (q : Fin NPROC) : (w.adopt me init q).parent =
      if (w q).parent = some me then init else (w q).parent := by
    unfold Lives.adopt
    split <;> rfl
  unfold Lives.exit
  dsimp only
  by_cases hq : q = me
  · subst hq
    rw [Function.update_self, hadopt, tell_parent, wake_parent, hclose]
  · rw [Function.update_of_ne hq, hadopt, tell_parent, wake_parent, hclose]

theorem Lives.exit_state_self : (v.exit me init me).state = .ZOMBIE := by
  unfold Lives.exit
  rw [Function.update_self]

/-- `exit` looks at the zombies when it has closed its files and woken its
parent. -/
theorem Lives.hasZombie_close_wake (hrun : (v me).state = .RUNNING) :
    ((v.close me).wake c).HasZombie me ↔ v.HasZombie me := by
  have hz (z : Fin NPROC) : (((v.close me).wake c) z).state = .ZOMBIE ↔ (v z).state = .ZOMBIE := by
    rw [wake_zombie_iff, Lives.close]
    by_cases hq : z = me
    · subst hq
      rw [Function.update_self]
    · rw [Function.update_of_ne hq]
  have hpar (z : Fin NPROC) (hne : z ≠ me) :
      (((v.close me).wake c) z).parent = (v z).parent := by
    rw [wake_parent, Lives.close, Function.update_of_ne hne]
  unfold Lives.HasZombie
  constructor
  · rintro ⟨z, h1, h2⟩
    rw [hz] at h1
    refine ⟨z, h1, ?_⟩
    rwa [hpar z fun hc => absurd (hc ▸ h1) (by rw [hrun]; decide)] at h2
  · rintro ⟨z, h1, h2⟩
    refine ⟨z, (hz z).mpr h1, ?_⟩
    rwa [hpar z fun hc => absurd (hc ▸ h1) (by rw [hrun]; decide)]

theorem Lives.tell_stirs (v : Lives NPROC) (me : Fin NPROC) (init : Option (Fin NPROC))
    (q : Fin NPROC) : (v q).Stirs (v.tell me init q) ∧
    ((v.tell me init q).Waiting q → (v q).Waiting q ∧
      (v.HasZombie me → init.map Chan.proc ≠ some (.proc q))) := by
  unfold Lives.tell
  split
  · obtain ⟨hs, hw⟩ := Lives.wake_stirs (v := v) (q := q) (c := init.map .proc)
    exact ⟨hs, fun h => ⟨(hw h).1, fun _ => (hw h).2⟩⟩
  · next hz => exact ⟨.inl rfl, fun h => ⟨h, fun hc => absurd hc hz⟩⟩

/-- The others, when a process exits: those who wait go on waiting unless it was
their child or they inherit a dead one. -/
theorem Lives.exit_of_ne (init : Option (Fin NPROC)) (hrun : (v me).state = .RUNNING) (hq : q ≠ me) :
    (v q).Stirs (v.exit me init q) ∧
      ((v.exit me init q).Waiting q → (v q).Waiting q ∧ (v me).parent ≠ some q ∧
        (v.HasZombie me → init ≠ some q)) := by
  have hclose : v.close me q = v q := Function.update_of_ne hq _ _
  obtain ⟨hs₁, hw₁⟩ := Lives.wake_stirs (v := v.close me) (q := q)
    (c := (v me).parent.map .proc)
  obtain ⟨hs₂, hw₂⟩ := Lives.tell_stirs ((v.close me).wake ((v me).parent.map .proc)) me init q
  rw [hclose] at hs₁ hw₁
  rw [hasZombie_close_wake hrun] at hw₂
  -- adopting changes neither state nor channel
  have hadopt (w : Lives NPROC) : (w.adopt me init q).state = (w q).state ∧
      (w.adopt me init q).chan = (w q).chan := by
    unfold Lives.adopt
    split <;> exact ⟨rfl, rfl⟩
  have hexit : v.exit me init q =
      (((v.close me).wake ((v me).parent.map .proc)).tell me init).adopt me init q := by
    unfold Lives.exit
    rw [Function.update_of_ne hq]
  obtain ⟨hstate, hchan⟩ := hadopt
    (((v.close me).wake ((v me).parent.map .proc)).tell me init)
  rw [← hexit] at hstate hchan
  constructor
  · exact hs₁.trans (hs₂.trans (.inl hstate))
  · rintro ⟨hsleep, hch⟩
    obtain ⟨hw, hinit⟩ := hw₂ ⟨hstate.symm.trans hsleep, hchan.symm.trans hch⟩
    obtain ⟨hw, hpar⟩ := hw₁ hw
    refine ⟨hw, fun hp => hpar (by rw [hp]; rfl), fun hz hi => hinit hz (by rw [hi]; rfl)⟩

theorem Family.exit {i : Fin NPROC} {pend : Fin NPROC → Pending NPROC} (h : Family v i pend)
    (hrun : (v me).state = .RUNNING) (hne : me ≠ i) (hidle : pend me = .idle) :
    Family (v.exit me (some i)) i pend := by
  have hstate {q : Fin NPROC} (hq : q ≠ me) := (Lives.exit_of_ne (some i) hrun hq).1
  have hwaiting {q : Fin NPROC} (hq : q ≠ me) := (Lives.exit_of_ne (some i) hrun hq).2
  have hother {q : Fin NPROC} {st : ProcState} (hq : (v q).state = st) (hst : st ≠ .RUNNING) :
      q ≠ me := by
    rintro rfl
    exact hst (hq.symm.trans hrun)
  have hsame {q : Fin NPROC} {st : ProcState} (hq : q ≠ me) (h1 : st ≠ .RUNNABLE)
      (h2 : st ≠ .RUNNING) (h3 : st ≠ .SLEEPING) :
      (v.exit me (some i) q).state = st ↔ (v q).state = st :=
    (hstate hq).state_iff h1 h2 h3
  constructor
  case init_alive => exact h.init_alive.stirs (hstate (Ne.symm hne))
  case init_parent =>
    rw [Lives.exit_parent, h.init_parent]
    split <;> rfl
  case parent =>
    intro p q hpar
    rw [Lives.exit_parent] at hpar
    split at hpar
    · obtain rfl := Option.some.inj hpar
      exact h.init_alive.stirs (hstate (Ne.symm hne))
    · next hpm =>
      have hq : q ≠ me := by
        rintro rfl
        exact hpm hpar
      exact (h.parent p q hpar).stirs (hstate hq)
  case orphan =>
    intro p
    have hnone : (v.exit me (some i) p).parent = none ↔ (v p).parent = none := by
      rw [Lives.exit_parent]
      split
      · next hpm => simp [hpm]
      · rfl
    rw [hnone, h.orphan]
    refine or_congr_left ?_
    by_cases hp : p = me
    · subst hp
      rw [Lives.exit_state_self, hrun]
      decide
    · rw [hsame hp (by decide) (by decide) (by decide)]
  case noself =>
    intro p hpar
    rw [Lives.exit_parent] at hpar
    split at hpar
    · exact (Option.some.inj hpar).symm
    · exact h.noself p hpar
  case embryo =>
    intro me' np hnp
    have hemb := h.embryo me' np hnp
    rwa [hsame (hother hemb (by decide)) (by decide) (by decide) (by decide)]
  case forking =>
    intro me' np hnp
    have hme' : me' ≠ me := by
      rintro rfl
      rw [hidle] at hnp
      exact absurd hnp (by simp [Pending.child])
    exact (h.forking me' np hnp).stirs (hstate hme')
  case once => exact h.once
  case waits =>
    intro q z hq hz hpar
    have hqme : q ≠ me := by
      rintro rfl
      exact absurd (hq.1.symm.trans Lives.exit_state_self) (by decide)
    obtain ⟨hw, hparent, hinit⟩ := hwaiting hqme hq
    rw [Lives.exit_parent] at hpar
    by_cases hzme : z = me
    · subst hzme
      split at hpar
      · next hself => exact hne (h.noself z hself)
      · exact hparent hpar
    · rw [hsame hzme (by decide) (by decide) (by decide)] at hz
      split at hpar
      · next hchild => exact hinit ⟨z, hz, hchild⟩ hpar
      · exact h.waits q z hw hz hpar

end Exit

/-! ## birth and death -/

section Births

variable {v : Lives NPROC} {i me p np : Fin NPROC} {pend : Fin NPROC → Pending NPROC}

/-- **A process that is not alive changes**, and with it the fork under way that
it belongs to. -/
theorem Family.change {l : Life NPROC} {pend' : Fin NPROC → Pending NPROC}
    (h : Family v i pend) (hp : ¬ (v p).Alive)
    (hparent : ∀ q, l.parent = some q → (v q).Alive) (hsleep : l.state ≠ .SLEEPING)
    (hzombie : l.state ≠ .ZOMBIE)
    (horphan : l.parent = none ↔ l.state = .UNUSED ∨ ∃ me, pend' me = .alloced p)
    (hothers : ∀ q, q ≠ p → ((∃ me, pend' me = .alloced q) ↔ ∃ me, pend me = .alloced q))
    (hchild : ∀ me q, (pend' me).child = some q →
      (q = p ∧ l.state = .EMBRYO ∧ (v me).Alive) ∨ (q ≠ p ∧ (pend me).child = some q))
    (honce : ∀ me me', (pend' me).child = some p → (pend' me').child = some p → me = me') :
    Family (Function.update v p l) i pend' := by
  have hne {q : Fin NPROC} (hq : (v q).Alive) : q ≠ p := by
    rintro rfl
    exact hp hq
  have hkeep {q : Fin NPROC} (hq : (v q).Alive) : (Function.update v p l q).Alive := by
    rw [Function.update_of_ne (hne hq)]
    exact hq
  constructor
  case init_alive => exact hkeep h.init_alive
  case init_parent =>
    rw [Function.update_of_ne (hne h.init_alive)]
    exact h.init_parent
  case parent =>
    intro q r hpar
    by_cases hq : q = p
    · subst hq
      rw [Function.update_self] at hpar
      exact hkeep (hparent r hpar)
    · rw [Function.update_of_ne hq] at hpar
      exact hkeep (h.parent q r hpar)
  case orphan =>
    intro q
    by_cases hq : q = p
    · subst hq
      rw [Function.update_self]
      exact horphan
    · rw [Function.update_of_ne hq, h.orphan, hothers q hq]
  case noself =>
    intro q hpar
    by_cases hq : q = p
    · subst hq
      rw [Function.update_self] at hpar
      exact absurd (hparent q hpar) hp
    · rw [Function.update_of_ne hq] at hpar
      exact h.noself q hpar
  case embryo =>
    intro me q hq
    rcases hchild me q hq with ⟨rfl, hemb, -⟩ | ⟨hqp, hq⟩
    · rw [Function.update_self]
      exact hemb
    · rw [Function.update_of_ne hqp]
      exact h.embryo me q hq
  case forking =>
    intro me q hq
    rcases hchild me q hq with ⟨-, -, hme⟩ | ⟨-, hq⟩
    · exact hkeep hme
    · exact hkeep (h.forking me q hq)
  case once =>
    intro me me' q hq hq'
    rcases hchild me q hq with ⟨rfl, -, -⟩ | ⟨hqp, h1⟩
    · exact honce me me' hq hq'
    · rcases hchild me' q hq' with ⟨rfl, -, -⟩ | ⟨-, h2⟩
      · exact absurd rfl hqp
      · exact h.once me me' q h1 h2
  case waits =>
    intro q z hq hz
    have hzp : z ≠ p := by
      rintro rfl
      rw [Function.update_self] at hz
      exact hzombie hz
    have hqp : q ≠ p := by
      rintro rfl
      rw [Function.update_self] at hq
      exact hsleep hq.1
    rw [Function.update_of_ne hzp] at hz ⊢
    rw [Function.update_of_ne hqp] at hq
    exact h.waits q z hq hz

theorem not_alive {l : Life NPROC} (h : l.state = .UNUSED ∨ l.state = .EMBRYO ∨ l.state = .ZOMBIE) :
    ¬ l.Alive := by
  unfold Life.Alive
  rcases h with h | h | h <;> rw [h] <;> decide

/-- A zombie is reaped. -/
theorem Family.reap (h : Family v i pend) (hp : (v p).state = .ZOMBIE) :
    Family (Function.update v p (v p).reap) i pend := by
  have hne (me q : Fin NPROC) (hq : (pend me).child = some q) : q ≠ p := by
    rintro rfl
    exact absurd ((h.embryo me q hq).symm.trans hp) (by decide)
  refine h.change (not_alive (.inr (.inr hp))) ?_ ?_ ?_ ?_ (fun _ _ => Iff.rfl) ?_ ?_
  · simp [Life.reap]
  · simp [Life.reap]
  · simp [Life.reap]
  · simp [Life.reap]
  · exact fun me q hq => .inr ⟨hne me q hq, hq⟩
  · exact fun me me' => h.once me me' p

/-- `allocproc` by `me` -/
theorem Family.alloc (h : Family v i pend) (hp : (v p).state = .UNUSED) (hme : (v me).Alive)
    (hidle : pend me = .idle) (pid : UInt32) (kstack : Nat) :
    Family (Function.update v p ((v p).alloc pid kstack)) i
      (Function.update pend me (.alloced p)) := by
  have hfree (me' q : Fin NPROC) (hq : (pend me').child = some q) : q ≠ p := by
    rintro rfl
    exact absurd ((h.embryo me' q hq).symm.trans hp) (by decide)
  have hnone : (v p).parent = none := (h.orphan p).mpr (.inl hp)
  have hwho (me' : Fin NPROC) (hq : (Function.update pend me (.alloced p) me').child = some p) :
      me' = me := by
    by_contra hne
    rw [Function.update_of_ne hne] at hq
    exact hfree me' p hq rfl
  refine h.change (not_alive (.inl hp)) ?_ ?_ ?_ ?_ ?_ ?_ ?_
  · simp [Life.alloc, hnone]
  · simp [Life.alloc]
  · simp [Life.alloc]
  · have hex : ∃ me', Function.update pend me (.alloced p) me' = .alloced p :=
      ⟨me, Function.update_self _ _ _⟩
    simp [Life.alloc, hnone, hex]
  · intro q hq
    refine exists_congr fun me' => ?_
    by_cases hne : me' = me
    · subst hne
      rw [Function.update_self, hidle]
      simp [Ne.symm hq]
    · rw [Function.update_of_ne hne]
  · intro me' q hq
    by_cases hne : me' = me
    · subst hne
      rw [Function.update_self] at hq
      exact .inl ⟨(Option.some.inj hq).symm, rfl, hme⟩
    · rw [Function.update_of_ne hne] at hq
      exact .inr ⟨hfree me' q hq, hq⟩
  · exact fun me₁ me₂ h₁ h₂ => (hwho me₁ h₁).trans (hwho me₂ h₂).symm

/-- The other forks, when `me` gets on with its own. -/
theorem Family.pend_update (h : Family v i pend) (hnp : (pend me).child = some np)
    (pc : Pending NPROC) (hpc : ∀ q, pc ≠ .alloced q) :
    (∀ q, q ≠ np → ((∃ me', Function.update pend me pc me' = .alloced q) ↔
      ∃ me', pend me' = .alloced q)) ∧
    (∀ me', Function.update pend me pc me' ≠ .alloced np) ∧
    ∀ me' q, me' ≠ me → (pend me').child = some q → q ≠ np := by
  have hwho (me' : Fin NPROC) (hq : (pend me').child = some np) : me' = me := h.once me' me np hq hnp
  refine ⟨fun q hq => exists_congr fun me' => ?_, fun me' halloc => ?_, ?_⟩
  · by_cases hne : me' = me
    · subst hne
      rw [Function.update_self]
      constructor
      · exact fun hc => absurd hc (hpc q)
      · intro hc
        rw [hc] at hnp
        exact absurd (Option.some.inj hnp) hq
    · rw [Function.update_of_ne hne]
  · by_cases hne : me' = me
    · subst hne
      rw [Function.update_self] at halloc
      exact hpc np halloc
    · rw [Function.update_of_ne hne] at halloc
      exact hne (hwho me' (by rw [halloc]; rfl))
  · rintro me' q hne hq rfl
    exact hne (hwho me' hq)

/-- `me` is done with `fork`. -/
theorem Family.pend_idle (h : Family v i pend) (hnp : (pend me).child = some np)
    (me' q : Fin NPROC)
    (hq : (Function.update pend me .idle me').child = some q) :
    q ≠ np ∧ (pend me').child = some q := by
  by_cases hne : me' = me
  · subst hne
    rw [Function.update_self] at hq
    exact absurd hq (by simp [Pending.child])
  · rw [Function.update_of_ne hne] at hq
    exact ⟨(h.pend_update hnp .idle (by simp)).2.2 me' q hne hq, hq⟩

/-- `fork` gives the slot back. -/
theorem Family.forkFail (h : Family v i pend) (hnp : pend me = .alloced np) :
    Family (Function.update v np (v np).forkFail) i (Function.update pend me .idle) := by
  have hchild : (pend me).child = some np := by rw [hnp]; rfl
  have hnone : (v np).parent = none := (h.orphan np).mpr (.inr ⟨me, hnp⟩)
  obtain ⟨hothers, -, -⟩ := h.pend_update hchild .idle (by simp)
  have hidle := h.pend_idle hchild
  refine h.change (not_alive (.inr (.inl (h.embryo me np hchild)))) ?_ ?_ ?_ ?_ hothers
    (fun me' q hq => .inr (hidle me' q hq)) fun me₁ _ h₁ _ => absurd rfl (hidle me₁ np h₁).1
  · simp [Life.forkFail, hnone]
  · simp [Life.forkFail]
  · simp [Life.forkFail]
  · simp [Life.forkFail, hnone]

/-- `fork` fills in the child. -/
theorem Family.assign (h : Family v i pend) (hnp : pend me = .alloced np) (proc : Life NPROC) :
    Family (Function.update v np ((v np).assign me proc)) i
      (Function.update pend me (.copied np)) := by
  have hchild : (pend me).child = some np := by rw [hnp]; rfl
  have hemb := h.embryo me np hchild
  have hme := h.forking me np hchild
  obtain ⟨hothers, hnot, hdiff⟩ := h.pend_update hchild (.copied np) (by simp)
  have hwho (me' : Fin NPROC)
      (hq : (Function.update pend me (.copied np) me').child = some np) : me' = me := by
    by_contra hne
    rw [Function.update_of_ne hne] at hq
    exact hdiff me' np hne hq rfl
  refine h.change (not_alive (.inr (.inl hemb))) ?_ ?_ ?_ ?_ hothers ?_
    fun me₁ me₂ h₁ h₂ => (hwho me₁ h₁).trans (hwho me₂ h₂).symm
  · intro q hq
    rw [← Option.some.inj hq]
    exact hme
  · simp [Life.assign, hemb]
  · simp [Life.assign, hemb]
  · simp [Life.assign, hemb, hnot]
  · intro me' q hq
    by_cases hne : me' = me
    · subst hne
      rw [Function.update_self] at hq
      exact .inl ⟨(Option.some.inj hq).symm, hemb, hme⟩
    · rw [Function.update_of_ne hne] at hq
      exact .inr ⟨hdiff me' q hne hq, hq⟩

/-- The child is ready. -/
theorem Family.ready (h : Family v i pend) (hnp : pend me = .copied np) :
    Family (Function.update v np { v np with state := .RUNNABLE }) i
      (Function.update pend me .idle) := by
  have hchild : (pend me).child = some np := by rw [hnp]; rfl
  have hemb := h.embryo me np hchild
  obtain ⟨hothers, hnot, -⟩ := h.pend_update hchild .idle (by simp)
  have hsome : (v np).parent ≠ none := by
    rw [ne_eq, h.orphan, hemb]
    rintro (hc | ⟨me', hme'⟩)
    · exact absurd hc (by decide)
    · obtain rfl := h.once me' me np (by rw [hme']; rfl) hchild
      rw [hnp] at hme'
      exact absurd hme' (by simp)
  have hidle := h.pend_idle hchild
  refine h.change (not_alive (.inr (.inl hemb))) (h.parent np) ?_ ?_ ?_ hothers
    (fun me' q hq => .inr (hidle me' q hq)) fun me₁ _ h₁ _ => absurd rfl (hidle me₁ np h₁).1
  · simp
  · simp
  · simp [hsome, hnot]

end Births

/-! ## the sections keep it -/

/-- What `fork` does to the table when it has memory for the child. -/
def Table.assign (t : Table NPROC MAX) (me np : Fin NPROC) (pgdir : Nat) : Table NPROC MAX :=
  t.set np { Proc.child me (t.proc me) { t.proc np with pgdir := some pgdir } with
    state := (t.proc np).state }

/-- The child is put on its ready list. -/
def Table.ready (t : Table NPROC MAX) (np : Fin NPROC) : Table NPROC MAX :=
  t.moveEnd np (readyOf (t.proc np).priority) { t.proc np with state := .RUNNABLE }

/-- Everything a part of `fork` by `me` can do: how far it comes, the table, and the state
outside the table. -/
inductive ForkPart (me : Fin NPROC) (s : Kern NPROC MAX NCPU) (t : Table NPROC MAX) :
    Pending NPROC → Pending NPROC → Kern NPROC MAX NCPU → Table NPROC MAX → Prop
  | noSlot (hfree : t.list .free = []) : ForkPart me s t .idle .idle s t
  | noStack {p zs} (hfree : t.list .free = p :: zs) :
      ForkPart me s t .idle .idle s.takePid (t.allocFail p s.nextpid)
  | alloc {p zs a} (hfree : t.list .free = p :: zs) :
      ForkPart me s t .idle (.alloced p) s.takePid (t.alloc p s.nextpid a s.ticks)
  | noMemory {np} (hnp : (t.proc np).state = .EMBRYO) :
      ForkPart me s t (.alloced np) .idle (s.record [.kfree (t.proc np).kstack]) (t.forkFail np)
  | assign {np d} (hnp : (t.proc np).state = .EMBRYO) :
      ForkPart me s t (.alloced np) (.copied np)
        (s.record ((t.proc me).openFiles.map .filedup ++ [.idup (t.proc me).cwd]))
        (t.assign me np d)
  | ready {np} (hnp : (t.proc np).state = .EMBRYO) :
      ForkPart me s t (.copied np) .idle s (t.ready np)

section Sections

variable {s : Kern NPROC MAX NCPU} {t : Table NPROC MAX} {S S' : Sys NPROC MAX NCPU}
  {me np : Fin NPROC}

/-- What holds between sections. -/
structure SysInv (S : Sys NPROC MAX NCPU) : Prop where
  inv : ∃ t, Inv S.kern t
  family : ∃ i, S.kern.initproc = some i ∧ Family S.kern.lives i S.pending

theorem part_elim {m : K NPROC MAX NCPU (Pending NPROC)} (hs : S.part me m = some S')
    {Q : Pending NPROC → Kern NPROC MAX NCPU → Prop} (hm : wp m S.kern Q) :
    ∃ pc k, Q pc k ∧ S' = ⟨k, Function.update S.pending me pc⟩ := by
  obtain ⟨pc, k, hok, hQ⟩ := hm
  unfold Sys.part at hs
  rw [hok] at hs
  exact ⟨pc, k, hQ, (Option.some.inj hs).symm⟩

/-- `allocproc` in `fork` -/
theorem forkAlloc_spec (me : Fin NPROC) (h : Inv s t) (kalloc : Option Nat) :
    wp (do
      match ← allocproc kalloc with
      | none => return .idle
      | some np => return .alloced np : K NPROC MAX NCPU (Pending NPROC)) s fun pc s' =>
      ∃ s₁ t', ForkPart me s t .idle pc s₁ t' ∧ s₁.Becomes t' s' := by
  refine wp_bind_of (allocproc_spec h.becomes h.wf.listed kalloc) ?_
  rintro _ s' (⟨hfree, rfl, hb⟩ | ⟨p, zs, hfree, -, rfl, hb⟩ | ⟨p, zs, a, hfree, -, rfl, hb⟩)
  · exact wp_pure.mpr ⟨s, t, .noSlot hfree, hb⟩
  · exact wp_pure.mpr ⟨_, _, .noStack hfree, hb⟩
  · exact wp_pure.mpr ⟨_, _, .alloc hfree, hb⟩

/-- The middle of `fork` -/
theorem forkCopy_spec (h : Inv s t) (hnp : (t.proc np).state = .EMBRYO) (hne : me ≠ np)
    (copyuvm : Option Nat) :
    wp (forkCopy me np copyuvm) s fun pc s' =>
      ∃ s₁ t', ForkPart me s t (.alloced np) pc s₁ t' ∧ s₁.Becomes t' s' := by
  have hmem : np ∈ t.list .embryo := h.wf.listed.mem_iff.mpr hnp
  unfold forkCopy
  refine h.becomes.setProc_bind fun s₁ h₁ => ?_
  cases copyuvm with
  | none =>
      refine wp_bind_of (forkFail_spec h₁ h.wf.listed hmem hnp) ?_
      rintro _ s₂ ⟨-, hb⟩
      exact wp_pure.mpr ⟨_, _, .noMemory hnp, hb⟩
  | some d =>
      dsimp only
      unfold forkAssign
      simp only [bind_assoc]
      rw [wp_bind, wp_procOf, h₁.proc_eq, Table.set_proc_of_ne hne]
      refine h₁.calls_bind fun s₂ h₂ => ?_
      refine h₂.setProc_bind fun s₃ hb => ?_
      rw [Table.set_proc_self, Table.set_set] at hb
      exact wp_pure.mpr ⟨_, _, .assign hnp, hb⟩

/-- The end of `fork` -/
theorem forkReady_spec (me : Fin NPROC) (h : Inv s t) (hnp : (t.proc np).state = .EMBRYO) :
    wp (do
      let _ ← forkReady np
      return .idle : K NPROC MAX NCPU (Pending NPROC)) s fun pc s' =>
      ∃ s₁ t', ForkPart me s t (.copied np) pc s₁ t' ∧ s₁.Becomes t' s' := by
  have hmem : np ∈ t.list .embryo := h.wf.listed.mem_iff.mpr hnp
  have hset : s.Becomes (t.set np (t.proc np)) s := by
    rw [Table.set_self]
    exact h.becomes
  unfold forkReady
  simp only [bind_assoc]
  rw [wp_bind, wp_procOf]
  refine wp_assertState_bind (by rw [h.becomes.proc_eq]; exact hnp) ?_
  refine hset.makeRunnable h.wf.listed hmem (h.wf.sane np).priority fun s₁ hb => ?_
  rw [wp_bind, wp_pure]
  exact wp_pure.mpr ⟨s, _, .ready hnp, hb⟩

section ForkPart

variable {pc pc' : Pending NPROC} {s₁ s' : Kern NPROC MAX NCPU} {t' : Table NPROC MAX}

theorem ForkPart.inv (h : Inv s t) (hp : ForkPart me s t pc pc' s₁ t') (hb : s₁.Becomes t' s') :
    Inv s' t' := by
  have hrun {np : Fin NPROC} (hnp : (t.proc np).state = .EMBRYO) :
      (t.proc np).state ≠ .RUNNING := by rw [hnp]; decide
  cases hp with
  | noSlot => exact h.step hb rfl h.quiet h.wf (.refl t)
  | noStack hfree =>
      exact h.step hb rfl h.quiet (Table.allocFail_wf h.wf _ _)
        (Table.Keeps.move (not_running_of_free h.wf hfree))
  | alloc hfree =>
      exact h.step hb rfl h.quiet (Table.alloc_wf h.wf _ _ _ _)
        (Table.Keeps.move (not_running_of_free h.wf hfree))
  | noMemory hnp =>
      exact h.step hb rfl (quiet_record h.quiet (by simp)) (Table.forkFail_wf h.wf _)
        (Table.Keeps.move (hrun hnp))
  | assign hnp =>
      exact h.step hb rfl (quiet_record h.quiet (by simp)) (h.wf.set rfl rfl rfl)
        (Table.Keeps.move (hrun hnp))
  | @ready np hnp =>
      have hsane := h.wf.sane np
      refine h.step hb rfl h.quiet ?_ (Table.Keeps.move (hrun hnp))
      refine h.wf.moveEnd (Proc.onList_readyOf rfl hsane.priority) ⟨hsane.priority, fun hc => ?_⟩
      rcases hsane.context hc with h' | h' <;> simp [hnp] at h'

theorem ForkPart.initproc_eq (hp : ForkPart me s t pc pc' s₁ t') : s₁.initproc = s.initproc := by
  cases hp <;> rfl

theorem Table.lives_assign {d : Nat} : (t.assign me np d).lives =
    Function.update t.lives np ((t.lives np).assign me (t.lives me)) := Table.lives_set

theorem Table.lives_ready : (t.ready np).lives =
    Function.update t.lives np { t.lives np with state := .RUNNABLE } := Table.lives_moveEnd

end ForkPart

/-- An operation other than `fork`. -/
theorem Family.effect {op : Op NPROC MAX NCPU} {i : Fin NPROC} {v : Lives NPROC}
    (hinv : Inv S.kern t) (hinit : S.kern.initproc = some i)
    (h : Family S.kern.lives i S.pending) (hmay : S.MayRun op) (heffect : Effect S.kern op v) :
    Family v i S.pending := by
  have hrunning {c : Fin NCPU} {p : Fin NPROC} (hp : S.kern.cpus c = some p) :
      (S.kern.lives p).state = .RUNNING := by
    rw [hinv.state_eq]
    exact hinv.running c p hp
  cases heffect with
  | same => exact h
  | alloc hp => exact hmay.elim
  | allocFail hp => exact hmay.elim
  | forkAllocFail hp => exact hmay.elim
  | forkFail hp => exact hmay.elim
  | fork hme hp => exact hmay.elim
  | @exit c me hme hne =>
      rw [hinit]
      refine h.exit (hrunning hme) ?_ (hmay me hme)
      rintro rfl
      exact hne hinit
  | reap hme hp hpar => exact h.reap hp
  | wait hme hkids =>
      exact h.stirred (.update rfl (.inr ⟨.inr (.inl (hrunning hme)), .inr (.inr rfl)⟩)
        fun _ => .inr hkids)
  | dispatch hp chan hchan =>
      exact h.stirred (.update rfl (.inr ⟨.inl hp, .inr (.inl rfl)⟩)
        fun hw => absurd hw.1 (by simp))
  | yield hme =>
      exact h.stirred (.update rfl (.inr ⟨.inr (.inl (hrunning hme)), .inl rfl⟩)
        fun hw => absurd hw.1 (by simp))
  | sleep hme =>
      exact h.stirred (.update rfl (.inr ⟨.inr (.inl (hrunning hme)), .inr (.inr rfl)⟩)
        fun hw => absurd hw.2 (hmay.2 _))
  | wakeup => exact h.stirred (.wake _)
  | @kill pid p hp =>
      -- a sleeper wakes up, and everybody else stays where they are
      by_cases hsleep : (S.kern.lives p).state = .SLEEPING
      · have hkill : (S.kern.lives p).kill.state = .RUNNABLE := if_pos hsleep
        exact h.stirred (.update rfl (.inr ⟨.inr (.inr hsleep), .inl hkill⟩)
          fun hw => absurd (hw.1.symm.trans hkill) (by decide))
      · have hkill : (S.kern.lives p).kill.state = (S.kern.lives p).state := if_neg hsleep
        exact h.stirred (.update rfl (.inl hkill)
          fun hw => absurd (hkill.symm.trans hw.1) hsleep)

/-- **Inversion of a section**: an operation, or a part of `fork`. -/
theorem advance_cases {x : Sect NPROC MAX NCPU} (h : SysInv S) (hs : advance S x = some S') :
    ∃ t, Inv S.kern t ∧
      ((∃ op, x = .op op ∧ S.MayRun op ∧ step S.kern op = some S'.kern ∧
          S'.pending = S.pending) ∨
        ∃ c me pc s₁ t', (∀ op, x ≠ .op op) ∧ S.kern.cpus c = some me ∧
          ForkPart me S.kern t (S.pending me) pc s₁ t' ∧ s₁.Becomes t' S'.kern ∧
          S'.pending = Function.update S.pending me pc) := by
  obtain ⟨⟨t, hinv⟩, i, hinit, hfam⟩ := h
  refine ⟨t, hinv, ?_⟩
  have hemb {me np : Fin NPROC} (hnp : (S.pending me).child = some np) :
      (t.proc np).state = .EMBRYO := by
    rw [← hinv.state_eq]
    exact hfam.embryo me np hnp
  cases x with
  | op op =>
      obtain ⟨hmay, hs⟩ := Option.ite_none_right_eq_some.mp hs
      obtain ⟨k, hk, rfl⟩ := Option.map_eq_some_iff.mp hs
      exact .inl ⟨op, rfl, hmay, hk, rfl⟩
  | forkAlloc c kalloc =>
      obtain ⟨me, hme, hs⟩ := Option.bind_eq_some_iff.mp hs
      split at hs
      · next hidle =>
        obtain ⟨pc, k, ⟨s₁, t', hp, hb⟩, rfl⟩ :=
          part_elim hs (forkAlloc_spec me hinv kalloc)
        rw [← hidle] at hp
        exact .inr ⟨c, me, pc, s₁, t', by simp, hme, hp, hb, rfl⟩
      · exact absurd hs (by simp)
  | forkCopy c copyuvm =>
      obtain ⟨me, hme, hs⟩ := Option.bind_eq_some_iff.mp hs
      split at hs
      · next np hnp =>
        have hchild := hemb (show (S.pending me).child = some np by rw [hnp]; rfl)
        have hne : me ≠ np := by
          rintro rfl
          rw [hinv.running c me hme] at hchild
          contradiction
        obtain ⟨pc, k, ⟨s₁, t', hp, hb⟩, rfl⟩ :=
          part_elim hs (forkCopy_spec hinv hchild hne copyuvm)
        rw [← hnp] at hp
        exact .inr ⟨c, me, pc, s₁, t', by simp, hme, hp, hb, rfl⟩
      · exact absurd hs (by simp)
  | forkReady c =>
      obtain ⟨me, hme, hs⟩ := Option.bind_eq_some_iff.mp hs
      split at hs
      · next np hnp =>
        have hchild := hemb (show (S.pending me).child = some np by rw [hnp]; rfl)
        obtain ⟨pc, k, ⟨s₁, t', hp, hb⟩, rfl⟩ :=
          part_elim hs (forkReady_spec me hinv hchild)
        rw [← hnp] at hp
        exact .inr ⟨c, me, pc, s₁, t', by simp, hme, hp, hb, rfl⟩
      · exact absurd hs (by simp)

/-- A part of `fork` keeps the invariant. -/
theorem Family.part {pc : Pending NPROC} {s₁ : Kern NPROC MAX NCPU} {t' : Table NPROC MAX}
    {pend : Fin NPROC → Pending NPROC} {i : Fin NPROC} (hinv : Inv s t)
    (h : Family s.lives i pend) (hme : (s.lives me).Alive)
    (hp : ForkPart me s t (pend me) pc s₁ t') :
    Family t'.lives i (Function.update pend me pc) := by
  have hlives := hinv.lives_eq
  generalize hpc : pend me = pc₀ at hp
  cases hp with
  | noSlot =>
      rw [← hpc, Function.update_eq_self, ← hlives]
      exact h
  | @noStack p zs hfree =>
      rw [← hpc, Function.update_eq_self, Table.lives_allocFail, ← hlives]
      exact h.stirred (.update rfl (.inl (hinv.unused hfree).symm) fun hw =>
        absurd hw.1 (by simp [Life.allocFail]))
  | alloc hfree =>
      rw [Table.lives_alloc, ← hlives]
      exact h.alloc (hinv.unused hfree) hme hpc _ _
  | noMemory =>
      rw [Table.lives_forkFail, ← hlives]
      exact h.forkFail hpc
  | assign =>
      rw [Table.lives_assign, ← hlives]
      exact h.assign hpc _
  | ready =>
      rw [Table.lives_ready, ← hlives]
      exact h.ready hpc

/-- **Step lemma.** -/
theorem advance_inv {x : Sect NPROC MAX NCPU} (h : SysInv S) (hs : advance S x = some S') :
    SysInv S' := by
  obtain ⟨t, hinv, hcases⟩ := advance_cases h hs
  obtain ⟨-, i, hinit, hfam⟩ := h
  rcases hcases with ⟨op, -, hmay, hstep, hpend⟩ | ⟨c, me, pc, s₁, t', -, hme, hp, hb, hpend⟩
  · obtain ⟨heffect, hinit'⟩ := step_effect hinv hstep
    refine ⟨step_inv ⟨t, hinv⟩ hstep, i, hinit'.trans hinit, ?_⟩
    rw [hpend]
    exact hfam.effect hinv hinit hmay heffect
  · have halive : (S.kern.lives me).Alive := by
      refine .inr (.inl ?_)
      rw [hinv.state_eq]
      exact hinv.running c me hme
    refine ⟨⟨t', hp.inv hinv hb⟩, i, hb.initproc_eq.trans (hp.initproc_eq.trans hinit), ?_⟩
    rw [hpend, hb.lives_eq]
    exact hfam.part hinv halive hp

/-- The system when `userinit` returns. -/
def Sys.start (s : Kern NPROC MAX NCPU) : Sys NPROC MAX NCPU := ⟨s, fun _ => .idle⟩

theorem userinit_sysInv {kalloc setupkvm namei : Option Nat} {ticks : UInt32}
    (hboot : userinit kalloc setupkvm namei (boot ticks) = .ok ((), s)) :
    SysInv (Sys.start s) := by
  refine ⟨userinit_inv hboot, ?_⟩
  obtain ⟨i, kstack, hinit, hlives⟩ := userinit_lives hboot
  refine ⟨i, hinit, ?_⟩
  have hkern : (Sys.start s).kern.lives =
      Function.update (fun _ => Life.zero) i (Life.first i kstack) := hlives
  have hfirst : Function.update (fun _ => Life.zero) i (Life.first i kstack) i =
      Life.first i kstack := Function.update_self _ _ _
  have hzero {p : Fin NPROC} (hp : p ≠ i) :
      Function.update (fun _ => Life.zero) i (Life.first i kstack) p = Life.zero :=
    Function.update_of_ne hp _ _
  rw [hkern]
  constructor
  case init_alive =>
    rw [hfirst]
    exact .inl rfl
  case init_parent =>
    rw [hfirst]
    rfl
  case parent =>
    intro p q hpar
    by_cases hp : p = i
    · subst hp
      rw [hfirst] at hpar
      obtain rfl := Option.some.inj hpar
      rw [hfirst]
      exact .inl rfl
    · rw [hzero hp] at hpar
      exact absurd hpar (by simp [Life.zero, Proc.life, Proc.zero])
  case orphan =>
    intro p
    by_cases hp : p = i
    · subst hp
      rw [hfirst]
      simp [Life.first, Sys.start]
    · rw [hzero hp]
      simp [Life.zero, Proc.life, Proc.zero]
  case noself =>
    intro p hpar
    by_contra hp
    rw [hzero hp] at hpar
    exact absurd hpar (by simp [Life.zero, Proc.life, Proc.zero])
  case embryo => exact fun me np hnp => absurd hnp (by simp [Sys.start, Pending.child])
  case forking => exact fun me np hnp => absurd hnp (by simp [Sys.start, Pending.child])
  case once => exact fun me me' np hnp => absurd hnp (by simp [Sys.start, Pending.child])
  case waits =>
    intro q z hq
    by_cases hp : q = i
    · subst hp
      rw [hfirst] at hq
      exact absurd hq.1 (by simp [Life.first])
    · rw [hzero hp] at hq
      exact absurd hq.1 (by simp [Life.zero, Proc.life, Proc.zero])

/-- **Run lemma.** -/
theorem reach_inv {kalloc setupkvm namei : Option Nat} {ticks : UInt32}
    {xs : List (Sect NPROC MAX NCPU)}
    (hboot : userinit kalloc setupkvm namei (boot ticks) = .ok ((), s))
    (hrun : exec advance (Sys.start s) xs = some S) : SysInv S :=
  reachable_invariant (fun _ _ _ => advance_inv) (userinit_sysInv hboot) ⟨xs, hrun⟩

/-- **No parent misses a dead child**: in every state between sections, no
`ZOMBIE` has a parent that sleeps in `wait`. -/
theorem no_missed_zombie {kalloc setupkvm namei : Option Nat} {ticks : UInt32}
    {xs : List (Sect NPROC MAX NCPU)}
    (hboot : userinit kalloc setupkvm namei (boot ticks) = .ok ((), s))
    (hrun : exec advance (Sys.start s) xs = some S) {q z : Fin NPROC}
    (hq : (S.kern.proc q).state = .SLEEPING) (hchan : (S.kern.proc q).chan = some (.proc q))
    (hz : (S.kern.proc z).state = .ZOMBIE) : (S.kern.proc z).parent ≠ some q := by
  obtain ⟨-, i, -, hfam⟩ := reach_inv hboot hrun
  exact hfam.waits q z ⟨hq, hchan⟩ hz

/-- The first process waits for its child, whose own child is dead. -/
def grandchild : List (Sect 3 1 1) :=
  [.op (.scheduler 0), .forkAlloc 0 (some 1), .forkCopy 0 (some 2), .forkReady 0, .op (.wait 0),
    .op (.scheduler 0), .forkAlloc 0 (some 3), .op (.yield 0), .op (.scheduler 0),
    .forkCopy 0 (some 4), .forkReady 0, .op (.yield 0), .op (.scheduler 0), .op (.exit 0)]

theorem no_missed_zombie_grandchild : ∃ (s₀ : Kern 3 1 1) (S : Sys 3 1 1),
    userinit (some 0) (some 0) (some 0) (boot 0) = .ok ((), s₀) ∧
      exec advance (Sys.start s₀) grandchild = some S ∧
      (S.kern.proc 0).state = .SLEEPING ∧ (S.kern.proc 0).chan = some (.proc 0) ∧
      (S.kern.proc 2).state = .ZOMBIE ∧ (S.kern.proc 2).parent ≠ some 0 := by
  obtain ⟨s₀, S, hboot, hS, hp⟩ := exists_run advance Sys.start grandchild
    (p := fun S => decide ((S.kern.proc 0).state = .SLEEPING ∧
      (S.kern.proc 0).chan = some (.proc 0) ∧ (S.kern.proc 2).state = .ZOMBIE)) (by decide +kernel)
  obtain ⟨hsleep, hchan, hz⟩ := of_decide_eq_true hp
  exact ⟨s₀, S, hboot, hS, hsleep, hchan, hz, no_missed_zombie hboot hS hsleep hchan hz⟩

/-- Every process has a parent, and the parent is alive. -/
def Usable (s : Kern NPROC MAX NCPU) : Prop :=
  ∀ p, (s.proc p).state ≠ .UNUSED → ∃ q, (s.proc p).parent = some q ∧
    ((s.proc q).state = .RUNNABLE ∨ (s.proc q).state = .RUNNING ∨ (s.proc q).state = .SLEEPING)

/-- **When parents can be used**: in every state that is reached, exactly if no
`fork` is between `allocproc` and the assignment to `np->parent`. -/
theorem parents_usable_iff {kalloc setupkvm namei : Option Nat} {ticks : UInt32}
    {xs : List (Sect NPROC MAX NCPU)}
    (hboot : userinit kalloc setupkvm namei (boot ticks) = .ok ((), s))
    (hrun : exec advance (Sys.start s) xs = some S) :
    Usable S.kern ↔ ∀ me np, S.pending me ≠ .alloced np := by
  obtain ⟨-, i, -, hfam⟩ := reach_inv hboot hrun
  constructor
  · intro h me np hnp
    have hemb : (S.kern.proc np).state = .EMBRYO := hfam.embryo me np (by rw [hnp]; rfl)
    obtain ⟨q, hpar, -⟩ := h np (by rw [hemb]; decide)
    have hnone : (S.kern.proc np).parent = none := (hfam.orphan np).mpr (.inr ⟨me, hnp⟩)
    rw [hnone] at hpar
    contradiction
  · intro h p hp
    have hsome : (S.kern.proc p).parent ≠ none := by
      intro hnone
      rcases (hfam.orphan p).mp hnone with hu | ⟨me, hme⟩
      · exact hp hu
      · exact h me p hme
    obtain ⟨q, hq⟩ := Option.ne_none_iff_exists'.mp hsome
    exact ⟨q, hq, hfam.parent p q hq⟩

theorem parents_usable_grandchild : ∃ (s₀ : Kern 3 1 1) (S : Sys 3 1 1),
    userinit (some 0) (some 0) (some 0) (boot 0) = .ok ((), s₀) ∧
      exec advance (Sys.start s₀) grandchild = some S ∧ Usable S.kern := by
  obtain ⟨s₀, S, hboot, hS, hp⟩ := exists_run advance Sys.start grandchild
    (p := fun S => decide (∀ me, S.pending me = .idle)) (by decide +kernel)
  refine ⟨s₀, S, hboot, hS, (parents_usable_iff hboot hS).mpr fun me np => ?_⟩
  rw [of_decide_eq_true hp me]
  simp

/-- **A child without a parent**: an interrupt after `allocproc` sees an `EMBRYO`
whose `parent` is 0. -/
theorem embryo_without_parent : ∃ (s₀ : Kern 3 1 1) (S : Sys 3 1 1),
    userinit (some 0) (some 0) (some 0) (boot 0) = .ok ((), s₀) ∧
      exec advance (Sys.start s₀) [.op (.scheduler 0), .forkAlloc 0 (some 1)] = some S ∧
      (S.kern.proc 1).state = .EMBRYO ∧ (S.kern.proc 1).parent = none ∧ ¬ Usable S.kern := by
  obtain ⟨s₀, S, hboot, hS, hp⟩ := exists_run advance Sys.start
    [.op (.scheduler 0), .forkAlloc 0 (some 1)]
    (p := fun S => decide ((S.kern.proc 1).state = .EMBRYO ∧ (S.kern.proc 1).parent = none))
    (by decide +kernel)
  obtain ⟨hemb, hnone⟩ := of_decide_eq_true hp
  refine ⟨s₀, S, hboot, hS, hemb, hnone, fun h => ?_⟩
  obtain ⟨q, hq, -⟩ := h 1 (by rw [hemb]; decide)
  exact absurd (hnone.symm.trans hq) (by simp)

end Sections

end Xv6.Ptable
