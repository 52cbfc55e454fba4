import Xv6.Ptable.Partition
import Xv6.Ptable.Smp

/-!
# Xv6.Ptable.Locking

The lock discipline of the process table on any number of CPUs.

A `Machine` has the table, the owner of `ptable.lock`, the code that each CPU has
before it, and the contexts that `swtch` has saved: one for the scheduler of each
CPU and one for each process.  A step executes one statement of one CPU, or lets
a CPU enter a function of `proc.c` on top of what it was doing.

`Kern.shared` is what the lock protects: the heads, the links, and of each
process its state, priority and budget.  `holds` specifies each statement by
whether the CPU owns the lock.  A context is switched to and from with the lock,
so the lock changes hands with it.  Three places of `allocproc` and `fork` assign
to `shared` after the lock is released; `Site` names them.

* `lock_discipline`: in every run, a step that changes `shared` is taken by the
  owner of the lock exactly if it does not stand at one of these places;
* `unlocked_relink`: a step that does.
-/

namespace Xv6.Ptable

open Run

variable {NPROC MAX NCPU : Nat}

/-- The data that `ptable.lock` protects. -/
def Kern.shared (s : Kern NPROC MAX NCPU) :
    Links NPROC MAX × (Fin NPROC → ProcState × Nat × Int32) :=
  (s.links, fun p => ((s.proc p).state, (s.proc p).priority, (s.proc p).budget))

namespace Smp

/-! ## the machine -/

structure Machine (NPROC MAX NCPU : Nat) where
  kern : Kern NPROC MAX NCPU
  /-- `ptable.lock.cpu`, if it is locked -/
  owner : Option (Fin NCPU)
  running : Fin NCPU → T NPROC MAX NCPU Unit
  /-- `cpu->scheduler`, while a process runs -/
  scheduler : Fin NCPU → Option (T NPROC MAX NCPU Unit)
  /-- `p->context` -/
  context : Fin NPROC → T NPROC MAX NCPU Unit

/-- A function that a CPU enters, from user mode, from other parts of the kernel
or on an interrupt. -/
inductive Entry (NPROC : Nat)
  | fork | exit | wait | yield
  | sleep (chan : Option (Chan NPROC))
  | wakeup (chan : Option (Chan NPROC))
  | kill (pid : Int32)
  | setpriority (pid : Int32) (priority : Nat)
  | getprocs (max : UInt32)

/-- Its code, when `proc` is the current process of the CPU. -/
def Entry.code (proc : Option (Fin NPROC)) : Entry NPROC → Option (T NPROC MAX NCPU Unit)
  | .fork => proc.map fun me => do let _ ← Smp.fork me
  | .exit => proc.map Smp.exit
  | .wait => proc.map fun me => do let _ ← Smp.wait me
  | .yield => proc.map Smp.yield
  | .sleep chan => proc.map fun me => Smp.sleep me chan false
  | .wakeup chan => some (Smp.wakeup chan)
  | .kill pid => some do let _ ← Smp.kill pid
  | .setpriority pid priority => some do let _ ← Smp.setpriority pid priority
  | .getprocs max => some do let _ ← Smp.getprocs max

inductive Event (NPROC NCPU : Nat)
  /-- the next statement of a CPU; `answer` is what `kalloc` or `copyuvm` returns -/
  | run (c : Fin NCPU) (answer : Option Nat)
  | enter (c : Fin NCPU) (entry : Entry NPROC)

namespace Machine

variable (S : Machine NPROC MAX NCPU)

/-- CPU `c` goes on with `m`. -/
def goOn (c : Fin NCPU) (m : T NPROC MAX NCPU Unit) : Machine NPROC MAX NCPU :=
  { S with running := Function.update S.running c m }

/-- CPU `c` executes a statement; `none` when it spins or has stopped. -/
def perform (c : Fin NCPU) (answer : Option Nat) {β : Type} (x : Action NPROC MAX NCPU β)
    (k : β → T NPROC MAX NCPU Unit) : Option (Machine NPROC MAX NCPU) :=
  match x with
  | .stmt _ (.eval f) => some (S.goOn c (k (f S.kern)))
  | .stmt _ (.assign f) => some ({ S with kern := f S.kern }.goOn c (k ()))
  | .stmt _ (.stop _) => none
  | .kalloc | .copyuvm => some (S.goOn c (k answer))
  | .acquire => if S.owner = none then some ({ S with owner := some c }.goOn c (k ())) else none
  | .release => if S.owner = some c then some ({ S with owner := none }.goOn c (k ())) else none
  | .holding => some (S.goOn c (k (decide (S.owner = some c))))
  | .newContext p =>
      some ({ S with context := Function.update S.context p forkret }.goOn c (k ()))
  | .toScheduler me =>
      (S.scheduler c).map fun m =>
        { S with
          context := Function.update S.context me (k ())
          scheduler := Function.update S.scheduler c none }.goOn c m
  | .toProc p =>
      some ({ S with scheduler := Function.update S.scheduler c (some (k ())) }.goOn c (S.context p))

end Machine

def step (S : Machine NPROC MAX NCPU) : Event NPROC NCPU → Option (Machine NPROC MAX NCPU)
  | .run c answer =>
      match (S.running c).next with
      | .done _ => none
      | .again m => some (S.goOn c m)
      | .act x k => S.perform c answer x k
  | .enter c entry =>
      -- with the lock held, interrupts are off
      if S.owner = some c then none
      else (entry.code (S.kern.cpus c)).map fun m => S.goOn c (do m; S.running c)

/-- When `userinit` has returned, every CPU enters the scheduler. -/
def start (s : Kern NPROC MAX NCPU) : Machine NPROC MAX NCPU where
  kern := s
  owner := none
  running := fun c => do let _ ← Smp.scheduler c
  scheduler := fun _ => none
  context := fun _ => forkret

/-- Where an action stands. -/
def Action.site {β : Type} : Action NPROC MAX NCPU β → Site
  | .stmt site _ => site
  | _ => .elsewhere

/-- Where the statement stands that CPU `c` executes next. -/
def Machine.site (S : Machine NPROC MAX NCPU) (c : Fin NCPU) : Site :=
  match (S.running c).next with
  | .act x _ => x.site
  | _ => .elsewhere

/-- The CPU that takes a step. -/
def Event.cpu : Event NPROC NCPU → Fin NCPU
  | .run c _ => c
  | .enter c _ => c

/-! ## what a statement needs -/

/-- The specification of statements by whether the CPU owns the lock: assignments
to `shared` are made with the lock, those at the named places without it. -/
def pre {β : Type} (x : Action NPROC MAX NCPU β) (h : Bool) (Q : β → Bool → Prop) : Prop :=
  match x with
  | .stmt _ (.eval _) => ∀ b, Q b h
  | .stmt site (.assign f) =>
      ((site = .elsewhere ↔ h = true) ∨ ∀ s, (f s).shared = s.shared) ∧ Q () h
  | .stmt _ (.stop _) => True
  | .kalloc | .copyuvm => ∀ b, Q b h
  | .acquire => h = false → Q () true
  | .release => h = true → Q () false
  | .holding => Q h h
  | .newContext _ => Q () h
  | .toScheduler _ => h = true ∧ Q () true
  | .toProc _ => h = true ∧ Q () true

def holds : Spec (Action NPROC MAX NCPU) Bool where
  pre := pre
  mono := by
    intro β x h P Q hPQ hP
    cases x with
    | stmt site x =>
        cases x with
        | eval f => exact fun b => hPQ b h (hP b)
        | assign f => exact ⟨hP.1, hPQ _ _ hP.2⟩
        | stop e => trivial
    | kalloc => exact fun b => hPQ b h (hP b)
    | copyuvm => exact fun b => hPQ b h (hP b)
    | acquire => exact fun hh => hPQ _ _ (hP hh)
    | release => exact fun hh => hPQ _ _ (hP hh)
    | holding => exact hPQ _ _ hP
    | newContext p => exact hPQ _ _ hP
    | toScheduler me => exact ⟨hP.1, hPQ _ _ hP.2⟩
    | toProc p => exact ⟨hP.1, hPQ _ _ hP.2⟩

section Statements

variable {α : Type} {Q : α → Bool → Prop}

/-- With the lock, everything is allowed. -/
theorem safe_locked (m : S NPROC MAX NCPU α) (hQ : ∀ a, Q a true) :
    (plain m).Safe holds true Q := by
  refine Code.safe_hoist (fun x P hP => ?_) m hQ
  cases x with
  | eval f => exact hP
  | assign f => exact ⟨.inl (iff_of_true rfl rfl), hP ()⟩
  | stop e => trivial

/-- At the named places, everything is allowed without it. -/
theorem safe_named {site : Site} (hsite : site ≠ .elsewhere) (m : S NPROC MAX NCPU α)
    (hQ : ∀ a, Q a false) : (atSite site m).Safe holds false Q := by
  refine Code.safe_hoist (fun x P hP => ?_) m hQ
  cases x with
  | eval f => exact hP
  | assign f => exact ⟨.inl (iff_of_false hsite (by decide)), hP ()⟩
  | stop e => trivial

end Statements

/-! ## the functions -/

theorem shared_setProc (s : Kern NPROC MAX NCPU) (p : Fin NPROC) {f : Proc NPROC → Proc NPROC}
    (hf : ∀ pr, (f pr).state = pr.state ∧ (f pr).priority = pr.priority ∧
      (f pr).budget = pr.budget) : (s.setProc p f).shared = s.shared := by
  unfold Kern.shared Kern.setProc
  refine Prod.ext rfl (funext fun q => ?_)
  by_cases hq : q = p
  · subst hq
    simp [hf]
  · simp [Function.update_of_ne hq]

section Functions

variable {α : Type}

/-- Safe code that is entered with the lock if `h` and left with it if `h'`. -/
def Goes (h h' : Bool) (m : T NPROC MAX NCPU α) : Prop := m.Safe holds h fun _ g => g = h'

variable {β : Type} {h h' h₁ : Bool} {m : T NPROC MAX NCPU α}

theorem Goes.seq {f : α → T NPROC MAX NCPU β} {Q : β → Bool → Prop} (hm : Goes h h₁ m)
    (hf : ∀ a, (f a).Safe holds h₁ Q) : (m >>= f).Safe holds h Q := by
  rw [Code.safe_bind]
  refine Code.Safe.mono hm ?_
  rintro a _ rfl
  exact hf a

theorem Goes.bind {f : α → T NPROC MAX NCPU β} (hm : Goes h h₁ m) (hf : ∀ a, Goes h₁ h' (f a)) :
    Goes h h' (m >>= f) := hm.seq hf

theorem Goes.pure (a : α) : Goes h h (Pure.pure a : T NPROC MAX NCPU α) := rfl

theorem Goes.ite {c : Prop} [Decidable c] {n : T NPROC MAX NCPU α} (hm : Goes h h' m)
    (hn : Goes h h' n) : Goes h h' (if c then m else n) := by
  split
  · exact hm
  · exact hn

theorem acquire_goes : Goes false true (acquire : T NPROC MAX NCPU Unit) := fun _ => rfl

theorem release_goes : Goes true false (release : T NPROC MAX NCPU Unit) := fun _ => rfl

/-- With the lock, any stretch of code. -/
theorem plain_goes (m : S NPROC MAX NCPU α) : Goes true true (plain m) :=
  safe_locked m fun _ => rfl

theorem named_goes {site : Site} (hsite : site ≠ .elsewhere) (m : S NPROC MAX NCPU α) :
    Goes false false (atSite site m) := safe_named hsite m fun _ => rfl

theorem eval_goes (f : Kern NPROC MAX NCPU → α) : Goes h h (plain (eval f)) := fun _ => rfl

theorem panic_goes (msg : String) : Goes h h' (plain (panic msg) : T NPROC MAX NCPU α) := trivial

theorem assign_goes {f : Kern NPROC MAX NCPU → Kern NPROC MAX NCPU}
    (hf : ∀ s, (f s).shared = s.shared) : Goes h h (plain (assign f)) :=
  ⟨.inr hf, rfl⟩

theorem call_goes (e : Call) : Goes h h (plain (call e) : T NPROC MAX NCPU Unit) :=
  assign_goes fun _ => rfl

/-- Fields that the lock does not protect. -/
theorem setProc_goes (p : Fin NPROC) {f : Kern NPROC MAX NCPU → Proc NPROC → Proc NPROC}
    (hf : ∀ s pr, (f s pr).state = pr.state ∧ (f s pr).priority = pr.priority ∧
      (f s pr).budget = pr.budget) : Goes h h (plain (assign fun s => s.setProc p (f s))) :=
  assign_goes fun s => shared_setProc s p (hf s)

theorem Goes.setProc_bind {p : Fin NPROC} {f : Kern NPROC MAX NCPU → Proc NPROC → Proc NPROC}
    {k : Unit → T NPROC MAX NCPU α}
    (hf : ∀ s pr, (f s pr).state = pr.state ∧ (f s pr).priority = pr.priority ∧
      (f s pr).budget = pr.budget) (hk : Goes h h' (k ())) :
    Goes h h' (plain (assign fun s => s.setProc p (f s)) >>= k) :=
  (setProc_goes p hf).bind fun _ => hk

theorem Goes.forM {ι : Type} {f : ι → T NPROC MAX NCPU Unit} {xs : List ι}
    (hf : ∀ x, Goes h h (f x)) : Goes h h (xs.forM f) := Code.safe_forM fun x _ => hf x

/-! ### each of them -/

theorem wakeup_goes (chan : Option (Chan NPROC)) :
    Goes false false (wakeup chan : T NPROC MAX NCPU Unit) :=
  acquire_goes.bind fun _ => (plain_goes _).bind fun _ => release_goes

theorem sched_goes (me : Fin NPROC) : Goes true true (sched me : T NPROC MAX NCPU Unit) := by
  unfold sched
  have hholding : Goes true true (.once .holding : T NPROC MAX NCPU Bool) := rfl
  have hswitch : Goes true true (.once (.toScheduler me) : T NPROC MAX NCPU Unit) := ⟨rfl, rfl⟩
  refine hholding.bind fun holding => .ite ?_ ?_
  · exact (panic_goes _).bind fun _ => (plain_goes _).bind fun _ => hswitch
  · exact (plain_goes _).bind fun _ => hswitch

theorem yield_goes (me : Fin NPROC) : Goes false false (yield me : T NPROC MAX NCPU Unit) :=
  acquire_goes.bind fun _ => (plain_goes _).bind fun _ => (sched_goes me).bind fun _ => release_goes

theorem sleepLocked_goes (me : Fin NPROC) (chan : Option (Chan NPROC)) :
    Goes true true (sleepLocked me chan : T NPROC MAX NCPU Unit) :=
  (plain_goes _).bind fun _ => (sched_goes me).bind fun _ => plain_goes _

theorem sleep_goes (me : Fin NPROC) (chan : Option (Chan NPROC)) :
    Goes false false (sleep me chan false : T NPROC MAX NCPU Unit) :=
  acquire_goes.bind fun _ => (sleepLocked_goes me chan).bind fun _ => release_goes

theorem initProc_goes (p : Fin NPROC) : Goes false false (initProc p : T NPROC MAX NCPU Unit) := by
  have hcontext : Goes false false (.once (.newContext p) : T NPROC MAX NCPU Unit) := rfl
  unfold initProc
  refine hcontext.bind fun _ => ?_
  refine .setProc_bind (fun _ _ => ⟨rfl, rfl, rfl⟩) ?_
  refine .setProc_bind (fun _ _ => ⟨rfl, rfl, rfl⟩) ?_
  refine .setProc_bind (fun _ _ => ⟨rfl, rfl, rfl⟩) ?_
  refine .setProc_bind (fun _ _ => ⟨rfl, rfl, rfl⟩) ?_
  exact named_goes (by decide) _

theorem allocproc_goes : Goes false false (allocproc : T NPROC MAX NCPU (Option (Fin NPROC))) := by
  have hkalloc : Goes false false (.once .kalloc : T NPROC MAX NCPU (Option Nat)) := fun _ => rfl
  unfold allocproc
  refine acquire_goes.bind fun _ => (eval_goes _).bind fun p => ?_
  cases p with
  | none => exact release_goes.bind fun _ => .pure none
  | some p =>
      refine (plain_goes _).bind fun _ => release_goes.bind fun _ => hkalloc.bind fun kstack => ?_
      refine .setProc_bind (fun _ _ => ⟨rfl, rfl, rfl⟩) (.ite ?_ ?_)
      · exact (named_goes (by decide) _).bind fun _ => .pure none
      · exact (initProc_goes p).bind fun _ => .pure (some p)

theorem forkCopy_goes (me np : Fin NPROC) :
    Goes false false (forkCopy me np : T NPROC MAX NCPU Unit) := by
  unfold forkCopy
  refine .setProc_bind (fun _ _ => ⟨rfl, rfl, rfl⟩) ?_
  refine .setProc_bind (fun _ _ => ⟨rfl, rfl, rfl⟩) ?_
  refine (Goes.forM fun i => (eval_goes _).bind fun f => ?_).bind fun _ => ?_
  · cases f with
    | none => exact .pure ()
    | some f =>
        exact (call_goes _).bind fun _ => setProc_goes np fun _ _ => ⟨rfl, rfl, rfl⟩
  · refine (eval_goes _).bind fun cwd => (call_goes _).bind fun _ => ?_
    refine .setProc_bind (fun _ _ => ⟨rfl, rfl, rfl⟩) ?_
    refine .setProc_bind (fun _ _ => ⟨rfl, rfl, rfl⟩) ?_
    refine .setProc_bind (fun _ _ => ⟨rfl, rfl, rfl⟩) ?_
    exact setProc_goes np fun _ _ => ⟨rfl, rfl, rfl⟩

theorem fork_goes (me : Fin NPROC) : Goes false false (fork me : T NPROC MAX NCPU Int32) := by
  have hcopyuvm : Goes false false (.once .copyuvm : T NPROC MAX NCPU (Option Nat)) := fun _ => rfl
  unfold fork
  refine allocproc_goes.bind fun np => ?_
  cases np with
  | none => exact .pure (-1)
  | some np =>
      refine hcopyuvm.bind fun pgdir => ?_
      refine .setProc_bind (fun _ _ => ⟨rfl, rfl, rfl⟩) (.ite ?_ ?_)
      · exact (named_goes (by decide) _).bind fun _ => .pure (-1)
      · refine (forkCopy_goes me np).bind fun _ => (eval_goes _).bind fun pid => ?_
        exact acquire_goes.bind fun _ => (plain_goes _).bind fun _ => release_goes.bind fun _ =>
          .pure _

theorem closeAll_goes (me : Fin NPROC) :
    Goes false false (closeAll me : T NPROC MAX NCPU Unit) := by
  unfold closeAll
  refine (Goes.forM fun i => (eval_goes _).bind fun f => ?_).bind fun _ => ?_
  · cases f with
    | none => exact .pure ()
    | some f =>
        exact (call_goes _).bind fun _ => setProc_goes me fun _ _ => ⟨rfl, rfl, rfl⟩
  · refine (eval_goes _).bind fun cwd => (call_goes _).bind fun _ => ?_
    exact setProc_goes me fun _ _ => ⟨rfl, rfl, rfl⟩

theorem exit_goes (me : Fin NPROC) : Goes false false (exit me : T NPROC MAX NCPU Unit) := by
  have hrest : Goes false false (do
      closeAll me
      acquire
      plain (leave me)
      sched me
      plain (panic "zombie exit") : T NPROC MAX NCPU Unit) :=
    (closeAll_goes me).bind fun _ => acquire_goes.bind fun _ => (plain_goes _).bind fun _ =>
      (sched_goes me).bind fun _ => panic_goes _
  unfold exit
  refine (eval_goes _).bind fun initproc => .ite ?_ hrest
  exact (panic_goes _).bind fun _ => hrest

theorem wait_goes (me : Fin NPROC) : Goes false false (wait me : T NPROC MAX NCPU Int32) := by
  unfold wait
  refine acquire_goes.bind fun _ => ?_
  -- every pass of the loop begins with the lock
  refine Code.safe_iterate (fun _ h => h = true) ?_ rfl
  rintro _ _ rfl
  refine (plain_goes (reap me)).seq fun pid => ?_
  cases pid with
  | some pid => exact fun _ => rfl
  | none =>
      refine (plain_goes (givesUp me)).seq fun gives => ?_
      cases gives with
      | true => exact fun _ => rfl
      | false => exact (sleepLocked_goes me _).seq fun _ => rfl

theorem scheduler_goes (c : Fin NCPU) :
    Goes false false (scheduler c : T NPROC MAX NCPU Empty) := by
  have hdispatch (i : Fin (MAX + 1)) :
      Goes true true (dispatch c i : T NPROC MAX NCPU (Option Unit)) := by
    refine (plain_goes (pick c i)).bind fun p => ?_
    cases p with
    | none => exact .pure none
    | some p =>
        have hswitch : Goes true true (.once (.toProc p) : T NPROC MAX NCPU Unit) := ⟨rfl, rfl⟩
        exact hswitch.bind fun _ => (plain_goes _).bind fun _ => .pure _
  have hsearch : Goes true true (.firstOf (dispatch c) (levels MAX) :
      T NPROC MAX NCPU (Option Unit)) := Code.safe_firstOf fun i _ => hdispatch i
  refine Code.safe_iterate (fun _ h => h = false) ?_ rfl
  rintro _ _ rfl
  exact acquire_goes.seq fun _ => (plain_goes _).seq fun _ => hsearch.seq fun _ =>
    release_goes.seq fun _ => rfl

theorem kill_goes (pid : Int32) : Goes false false (kill pid : T NPROC MAX NCPU Int32) :=
  acquire_goes.bind fun _ => (plain_goes _).bind fun _ => release_goes.bind fun _ => .pure _

theorem setpriority_goes (pid : Int32) (priority : Nat) :
    Goes false false (setpriority pid priority : T NPROC MAX NCPU Int32) :=
  acquire_goes.bind fun _ => (plain_goes _).bind fun _ => release_goes.bind fun _ => .pure _

theorem getprocs_goes (max : UInt32) :
    Goes false false (getprocs max : T NPROC MAX NCPU (List Uproc)) :=
  acquire_goes.bind fun _ => (plain_goes _).bind fun _ => release_goes.bind fun _ => .pure _

theorem entry_goes (proc : Option (Fin NPROC)) (entry : Entry NPROC)
    {m : T NPROC MAX NCPU Unit} (hm : entry.code proc = some m) : Goes false false m := by
  cases entry with
  | fork =>
      obtain ⟨me, -, rfl⟩ := Option.map_eq_some_iff.mp hm
      exact (fork_goes me).bind fun _ => .pure ()
  | exit =>
      obtain ⟨me, -, rfl⟩ := Option.map_eq_some_iff.mp hm
      exact exit_goes me
  | wait =>
      obtain ⟨me, -, rfl⟩ := Option.map_eq_some_iff.mp hm
      exact (wait_goes me).bind fun _ => .pure ()
  | yield =>
      obtain ⟨me, -, rfl⟩ := Option.map_eq_some_iff.mp hm
      exact yield_goes me
  | sleep chan =>
      obtain ⟨me, -, rfl⟩ := Option.map_eq_some_iff.mp hm
      exact sleep_goes me chan
  | wakeup chan =>
      obtain rfl := Option.some.inj hm
      exact wakeup_goes chan
  | kill pid =>
      obtain rfl := Option.some.inj hm
      exact (kill_goes pid).bind fun _ => .pure ()
  | setpriority pid priority =>
      obtain rfl := Option.some.inj hm
      exact (setpriority_goes pid priority).bind fun _ => .pure ()
  | getprocs max =>
      obtain rfl := Option.some.inj hm
      exact (getprocs_goes max).bind fun _ => .pure ()

end Functions

/-! ## all CPUs -/

section Runs

variable {S S' : Machine NPROC MAX NCPU}

/-- Every CPU has safe code before it, and every saved context is safe to be
resumed with the lock. -/
structure LockInv (S : Machine NPROC MAX NCPU) : Prop where
  running : ∀ c, Goes (decide (S.owner = some c)) false (S.running c)
  scheduler : ∀ c m, S.scheduler c = some m → Goes true false m
  context : ∀ p, Goes true false (S.context p)

/-- CPU `c` goes on with safe code, and nobody else gains or loses the lock. -/
theorem LockInv.goOn {c : Fin NCPU} {m : T NPROC MAX NCPU Unit}
    (hother : ∀ c', c' ≠ c → Goes (decide (S.owner = some c')) false (S.running c'))
    (hm : Goes (decide (S.owner = some c)) false m)
    (hsched : ∀ c m, S.scheduler c = some m → Goes true false m)
    (hctx : ∀ p, Goes true false (S.context p)) : LockInv (S.goOn c m) where
  running := fun c' => by
    by_cases hc : c' = c
    · subst hc
      have hself : (S.goOn c' m).running c' = m := Function.update_self _ _ _
      rw [hself]
      exact hm
    · have hsame : (S.goOn c m).running c' = S.running c' := Function.update_of_ne hc _ _
      rw [hsame]
      exact hother c' hc
  scheduler := hsched
  context := hctx

theorem LockInv.stay (h : LockInv S) {c : Fin NCPU} {m : T NPROC MAX NCPU Unit}
    (hm : Goes (decide (S.owner = some c)) false m) : LockInv (S.goOn c m) :=
  .goOn (fun c' _ => h.running c') hm h.scheduler h.context

/-- `swtch` saves safe code in a context. -/
theorem context_update (h : LockInv S) {p : Fin NPROC} {m : T NPROC MAX NCPU Unit}
    (hm : Goes true false m) : ∀ q, Goes true false (Function.update S.context p m q) :=
  (Function.forall_update_iff S.context fun _ m => Goes true false m).mpr
    ⟨hm, fun q _ => h.context q⟩

theorem scheduler_update (h : LockInv S) {c : Fin NCPU} {m : Option (T NPROC MAX NCPU Unit)}
    (hm : ∀ m', m = some m' → Goes true false m') :
    ∀ c' m', Function.update S.scheduler c m c' = some m' → Goes true false m' :=
  (Function.forall_update_iff S.scheduler fun _ m => ∀ m', m = some m' → Goes true false m').mpr
    ⟨hm, fun c' _ => h.scheduler c'⟩

theorem forkret_goes : Goes true false (forkret : T NPROC MAX NCPU Unit) := release_goes

theorem perform_inv (h : LockInv S) {c : Fin NCPU} {answer : Option Nat} {β : Type}
    {x : Action NPROC MAX NCPU β} {k : β → T NPROC MAX NCPU Unit}
    (hx : pre x (decide (S.owner = some c)) fun b g => Goes g false (k b))
    (hs : S.perform c answer x k = some S') : LockInv S' := by
  cases x with
  | stmt site x =>
      cases x with
      | eval f =>
          obtain rfl := Option.some.inj hs
          exact h.stay (hx _)
      | assign f =>
          obtain rfl := Option.some.inj hs
          exact .goOn (fun c' _ => h.running c') hx.2 h.scheduler h.context
      | stop e => exact absurd hs (by simp [Machine.perform])
  | kalloc =>
      obtain rfl := Option.some.inj hs
      exact h.stay (hx _)
  | copyuvm =>
      obtain rfl := Option.some.inj hs
      exact h.stay (hx _)
  | acquire =>
      obtain ⟨hfree, hs⟩ := Option.ite_none_right_eq_some.mp hs
      obtain rfl := Option.some.inj hs
      refine .goOn (fun c' hc => ?_) ?_ h.scheduler h.context
      · have hrun := h.running c'
        rw [hfree, decide_eq_false (by simp)] at hrun
        rwa [decide_eq_false (by simpa using Ne.symm hc)]
      · rw [decide_eq_true rfl]
        exact hx (by rw [hfree]; rfl)
  | release =>
      obtain ⟨hown, hs⟩ := Option.ite_none_right_eq_some.mp hs
      obtain rfl := Option.some.inj hs
      refine .goOn (fun c' hc => ?_) ?_ h.scheduler h.context
      · have hrun := h.running c'
        rw [hown, decide_eq_false (by simpa using Ne.symm hc)] at hrun
        rwa [decide_eq_false (by simp)]
      · rw [decide_eq_false (by simp)]
        exact hx (decide_eq_true hown)
  | holding =>
      obtain rfl := Option.some.inj hs
      exact h.stay hx
  | newContext p =>
      obtain rfl := Option.some.inj hs
      exact .goOn (fun c' _ => h.running c') hx h.scheduler (context_update h forkret_goes)
  | toScheduler me =>
      obtain ⟨m, hm, rfl⟩ := Option.map_eq_some_iff.mp hs
      refine .goOn (fun c' _ => h.running c') ?_ ?_ ?_
      · rw [hx.1]
        exact h.scheduler c m hm
      · exact scheduler_update h fun _ hm => nomatch hm
      · exact context_update h hx.2
  | toProc p =>
      obtain rfl := Option.some.inj hs
      refine .goOn (fun c' _ => h.running c') ?_ ?_ h.context
      · rw [hx.1]
        exact h.context p
      · exact scheduler_update h fun _ hm => Option.some.inj hm ▸ hx.2

theorem step_run_cases {c : Fin NCPU} {answer : Option Nat}
    (hs : step S (.run c answer) = some S') :
    (∃ m, (S.running c).next = .again m ∧ S' = S.goOn c m) ∨
    ∃ (β : Type) (x : Action NPROC MAX NCPU β) (k : β → T NPROC MAX NCPU Unit),
      (S.running c).next = .act x k ∧ S.perform c answer x k = some S' := by
  rw [step] at hs
  split at hs
  · contradiction
  · next m hm => exact .inl ⟨m, hm, (Option.some.inj hs).symm⟩
  · next β x k hk => exact .inr ⟨β, x, k, hk, hs⟩

/-- **Step lemma.**  Every CPU's code stays safe. -/
theorem step_lockInv (h : LockInv S) {e : Event NPROC NCPU} (hs : step S e = some S') :
    LockInv S' := by
  cases e with
  | run c answer =>
      cases step_run_cases hs with
      | inl hs =>
          obtain ⟨m, hm, rfl⟩ := hs
          exact h.stay ((h.running c).again hm)
      | inr hs =>
          obtain ⟨β, x, k, hk, hs⟩ := hs
          exact perform_inv h ((h.running c).act hk) hs
  | enter c entry =>
      obtain ⟨hown, hs⟩ := Option.ite_none_left_eq_some.mp hs
      obtain ⟨m, hm, rfl⟩ := Option.map_eq_some_iff.mp hs
      have hrun := h.running c
      rw [decide_eq_false hown] at hrun
      refine h.stay ?_
      rw [decide_eq_false hown]
      exact (entry_goes _ entry hm).bind fun _ => hrun

theorem start_lockInv (s : Kern NPROC MAX NCPU) : LockInv (start s) where
  running := fun c => (scheduler_goes c).bind fun r => r.elim
  scheduler := fun _ _ hm => by simp [start] at hm
  context := fun _ => forkret_goes

/-- What a statement needs is what its assignment to `shared` asks. -/
theorem perform_owner {c : Fin NCPU} {answer : Option Nat} {β : Type}
    {x : Action NPROC MAX NCPU β} {k : β → T NPROC MAX NCPU Unit} {Q : β → Bool → Prop}
    (hx : pre x (decide (S.owner = some c)) Q) (hs : S.perform c answer x k = some S')
    (hne : S'.kern.shared ≠ S.kern.shared) : S.owner = some c ↔ x.site = .elsewhere := by
  cases x with
  | stmt site x =>
      cases x with
      | eval f => exact absurd (by obtain rfl := Option.some.inj hs; rfl) hne
      | assign f =>
          obtain rfl := Option.some.inj hs
          have hsite := hx.1.resolve_right fun hf => hne (hf S.kern)
          rw [decide_eq_true_eq] at hsite
          exact hsite.symm
      | stop e => exact absurd hs (by simp [Machine.perform])
  | kalloc => exact absurd (by obtain rfl := Option.some.inj hs; rfl) hne
  | copyuvm => exact absurd (by obtain rfl := Option.some.inj hs; rfl) hne
  | acquire =>
      obtain ⟨-, hs⟩ := Option.ite_none_right_eq_some.mp hs
      exact absurd (by obtain rfl := Option.some.inj hs; rfl) hne
  | release =>
      obtain ⟨-, hs⟩ := Option.ite_none_right_eq_some.mp hs
      exact absurd (by obtain rfl := Option.some.inj hs; rfl) hne
  | holding => exact absurd (by obtain rfl := Option.some.inj hs; rfl) hne
  | newContext p => exact absurd (by obtain rfl := Option.some.inj hs; rfl) hne
  | toScheduler me =>
      obtain ⟨m, -, rfl⟩ := Option.map_eq_some_iff.mp hs
      exact absurd rfl hne
  | toProc p => exact absurd (by obtain rfl := Option.some.inj hs; rfl) hne

/-- **Lock discipline.**  In every run, from any table that `userinit` may leave, a
step that changes a head of a list, or the `next`, state, priority or budget of a
process, is taken by the owner of `ptable.lock` exactly if it does not stand at one
of the three named places. -/
theorem lock_discipline {s : Kern NPROC MAX NCPU} {es : List (Event NPROC NCPU)}
    {e : Event NPROC NCPU} (hrun : exec step (start s) es = some S) (hs : step S e = some S')
    (hne : S'.kern.shared ≠ S.kern.shared) :
    S.owner = some e.cpu ↔ S.site e.cpu = .elsewhere := by
  have h : LockInv S :=
    reachable_invariant (fun _ _ _ h hs => step_lockInv h hs) (start_lockInv s) ⟨es, hrun⟩
  cases e with
  | run c answer =>
      cases step_run_cases hs with
      | inl hs =>
          obtain ⟨m, -, rfl⟩ := hs
          exact absurd rfl hne
      | inr hs =>
          obtain ⟨β, x, k, hk, hs⟩ := hs
          have hsite : S.site c = x.site := by rw [Machine.site, hk]
          rw [Event.cpu, hsite]
          exact perform_owner ((h.running c).act hk) hs hne
  | enter c entry =>
      obtain ⟨-, hs⟩ := Option.ite_none_left_eq_some.mp hs
      obtain ⟨m, -, rfl⟩ := Option.map_eq_some_iff.mp hs
      exact absurd rfl hne

/-- The scheduler takes the first process off its ready list. -/
theorem lock_discipline_scheduler : ∃ (s₀ : Kern 3 1 1) (S S' : Machine 3 1 1),
    userinit (some 0) (some 0) (some 0) (boot 0) = .ok ((), s₀) ∧
      exec step (start s₀) (List.replicate 11 (.run 0 none)) = some S ∧
      step S (.run 0 none) = some S' ∧ S'.kern.shared ≠ S.kern.shared ∧ S.owner = some 0 := by
  obtain ⟨s₀, S, hboot, hS, hrun⟩ := exists_run step start (List.replicate 11 (.run 0 none))
    (p := fun S => (step S (.run 0 none)).any fun S' : Machine 3 1 1 =>
      decide (S'.kern.links.head (.ready 0) ≠ S.kern.links.head (.ready 0) ∧
        S.site 0 = .elsewhere)) (by decide +kernel)
  obtain ⟨S', hS', hp⟩ := (Option.any_eq_true _ _).mp hrun
  obtain ⟨hhead, hsite⟩ := of_decide_eq_true hp
  have hne : S'.kern.shared ≠ S.kern.shared := fun h =>
    hhead (congrArg (fun d => d.1.head (.ready 0)) h)
  exact ⟨s₀, S, S', hboot, hS, hS', hne, (lock_discipline hS hS' hne).mpr hsite⟩

/-- **A relink without the lock**: `kalloc` fails in `fork`, and `allocproc` moves the
slot back to the free list. -/
theorem unlocked_relink : ∃ (s₀ : Kern 3 1 1) (S S' : Machine 3 1 1),
    userinit (some 0) (some 0) (some 0) (boot 0) = .ok ((), s₀) ∧
      exec step (start s₀) (List.replicate 20 (.run 0 none) ++ .enter 0 .fork ::
        List.replicate 24 (.run 0 none)) = some S ∧
      step S (.run 0 none) = some S' ∧
      S'.kern.links.head .embryo ≠ S.kern.links.head .embryo ∧ S.owner = none := by
  obtain ⟨s₀, S, hboot, hS, hrun⟩ := exists_run step start (List.replicate 20 (.run 0 none) ++
    .enter 0 .fork :: List.replicate 24 (.run 0 none))
    (p := fun S => (step S (.run 0 none)).any fun S' : Machine 3 1 1 =>
      decide (S'.kern.links.head .embryo ≠ S.kern.links.head .embryo ∧ S.owner = none))
    (by decide +kernel)
  obtain ⟨S', hS', hp⟩ := (Option.any_eq_true _ _).mp hrun
  exact ⟨s₀, S, S', hboot, hS, hS', of_decide_eq_true hp⟩

end Runs

end Smp
end Xv6.Ptable
