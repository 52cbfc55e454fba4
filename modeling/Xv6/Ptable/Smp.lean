import Xv6.Lib.Code
import Xv6.Ptable.Uproc

/-!
# Xv6.Ptable.Smp

The code of `proc.c` once more, one statement at a time: here a CPU can be
anywhere in a function while the others go on.  A statement evaluates a
condition or an expression, assigns to a field, takes or gives back
`ptable.lock`, or switches from one context to another.

Each assignment carries the place it stands at.  Three places are named, since
they are what the code does to the table without the lock: the first values that
`allocproc` gives a new process, and the ways back of `allocproc` without a
kernel stack and of `fork` without an address space.

What other files do comes in as the result of `kalloc` and `copyuvm`.  Trap
frames, page tables and the counting of `cli` are not modelled.
-/

namespace Xv6.Ptable

variable {NPROC MAX NCPU : Nat}

def Kern.setHead (s : Kern NPROC MAX NCPU) (sList : SList MAX) (p : Option (Fin NPROC)) :
    Kern NPROC MAX NCPU :=
  { s with links := { s.links with head := Function.update s.links.head sList p } }

def Kern.setNext (s : Kern NPROC MAX NCPU) (p : Fin NPROC) (q : Option (Fin NPROC)) :
    Kern NPROC MAX NCPU :=
  { s with links := { s.links with next := Function.update s.links.next p q } }

def Kern.setProc (s : Kern NPROC MAX NCPU) (p : Fin NPROC) (f : Proc NPROC → Proc NPROC) :
    Kern NPROC MAX NCPU := { s with proc := Function.update s.proc p (f (s.proc p)) }

namespace Smp

/-- Where an assignment stands. -/
inductive Site
  /-- `p->budget = BUDGET; p->priority = 0;` in `allocproc` -/
  | fresh
  /-- `allocproc` when `kalloc` has failed -/
  | noStack
  /-- `fork` when `copyuvm` has failed -/
  | noSpace
  | elsewhere
  deriving DecidableEq

/-- A statement that has nothing to do with locks and contexts, and its result. -/
inductive Stmt (NPROC MAX NCPU : Nat) : Type → Type 1
  | eval {β : Type} (f : Kern NPROC MAX NCPU → β) : Stmt NPROC MAX NCPU β
  | assign (f : Kern NPROC MAX NCPU → Kern NPROC MAX NCPU) : Stmt NPROC MAX NCPU Unit
  | stop (e : Stop) : Stmt NPROC MAX NCPU Empty

inductive Action (NPROC MAX NCPU : Nat) : Type → Type 1
  | stmt {β : Type} (site : Site) (x : Stmt NPROC MAX NCPU β) : Action NPROC MAX NCPU β
  | kalloc : Action NPROC MAX NCPU (Option Nat)
  | copyuvm : Action NPROC MAX NCPU (Option Nat)
  /-- `acquire(&ptable.lock)` -/
  | acquire : Action NPROC MAX NCPU Unit
  | release : Action NPROC MAX NCPU Unit
  /-- `holding(&ptable.lock)` -/
  | holding : Action NPROC MAX NCPU Bool
  /-- `p->context->eip = (uint)forkret` -/
  | newContext (p : Fin NPROC) : Action NPROC MAX NCPU Unit
  /-- `swtch(&proc->context, cpu->scheduler)` -/
  | toScheduler (me : Fin NPROC) : Action NPROC MAX NCPU Unit
  /-- `swtch(&cpu->scheduler, proc->context)` -/
  | toProc (p : Fin NPROC) : Action NPROC MAX NCPU Unit

/-- Code without locks and contexts. -/
abbrev S (NPROC MAX NCPU : Nat) := Code (Stmt NPROC MAX NCPU)

abbrev T (NPROC MAX NCPU : Nat) := Code (Action NPROC MAX NCPU)

/-- Code that stands at `site`. -/
def atSite {α : Type} (site : Site) (m : S NPROC MAX NCPU α) : T NPROC MAX NCPU α :=
  m.hoist (.stmt site)

/-- A stretch of code between statements about locks and contexts. -/
def plain {α : Type} (m : S NPROC MAX NCPU α) : T NPROC MAX NCPU α := atSite .elsewhere m

/-! ## statements -/

def eval {β : Type} (f : Kern NPROC MAX NCPU → β) : S NPROC MAX NCPU β := .once (.eval f)

def assign (f : Kern NPROC MAX NCPU → Kern NPROC MAX NCPU) : S NPROC MAX NCPU Unit :=
  .once (.assign f)

def stop {α : Type} (e : Stop) : S NPROC MAX NCPU α := .act (.stop e) Empty.elim

def panic {α : Type} (msg : String) : S NPROC MAX NCPU α := stop (.panic msg)

def acquire : T NPROC MAX NCPU Unit := .once .acquire

def release : T NPROC MAX NCPU Unit := .once .release

/-- `p->…`, which traps on NULL. -/
def deref (p : Option (Fin NPROC)) : S NPROC MAX NCPU (Fin NPROC) :=
  match p with
  | none => stop .fault
  | some p => return p

def setProc (p : Fin NPROC) (f : Proc NPROC → Proc NPROC) : S NPROC MAX NCPU Unit :=
  assign (·.setProc p f)

def call (e : Call) : S NPROC MAX NCPU Unit := assign (·.record [e])

/-- `if (…) cprintf(msg);` -/
def warnIf (c : Bool) (msg : String) : S NPROC MAX NCPU Unit := do
  if c then call (.cprintf msg)

/-- `&ptable.pLists.ready[i]` -/
def readyList (i : Nat) : S NPROC MAX NCPU (SList MAX) :=
  if h : i < MAX + 1 then return .ready ⟨i, h⟩ else stop .outOfBounds

def assertState (p : Fin NPROC) (state : ProcState) : S NPROC MAX NCPU Unit := do
  if (← eval fun s => (s.proc p).state) ≠ state then
    panic "assertState: process in wrong state.\n"

/-- `p = list; while (p) { … }`, left early with a result. -/
def walkList {ρ : Type} (sList : SList MAX)
    (body : Fin NPROC → S NPROC MAX NCPU (Option (Fin NPROC) ⊕ ρ)) :
    S NPROC MAX NCPU (Option ρ) := do
  let head ← eval fun s => s.links.head sList
  .iterate (fun p =>
    match p with
    | none => return .inr none
    | some p => do
        match ← body p with
        | .inl q => return .inl q
        | .inr r => return .inr (some r)) head

/-- A `walkList` that is not left early. -/
def walkAll (sList : SList MAX) (body : Fin NPROC → S NPROC MAX NCPU (Option (Fin NPROC))) :
    S NPROC MAX NCPU Unit := do
  let _ ← walkList sList fun p => return (Sum.inl (← body p) : Option (Fin NPROC) ⊕ Empty)

/-! ## the list primitives -/

def addToStateListHead (sList : SList MAX) (p : Fin NPROC) :
    S NPROC MAX NCPU Int := do
  if (← eval fun s => s.links.head sList) = none then
    assign (·.setHead sList (some p))
    assign (·.setNext p none)
    return 0
  assign (fun s => s.setNext p (s.links.head sList))
  assign (·.setHead sList (some p))
  if (← eval fun s => s.links.head sList) ≠ some p then return -1
  return 0

def addToStateListEnd (sList : SList MAX) (p : Fin NPROC) : S NPROC MAX NCPU Int := do
  if (← eval fun s => s.links.head sList) = none then
    assign (·.setHead sList (some p))
    assign (·.setNext p none)
    return 0
  let current ← deref (← eval fun s => s.links.head sList)
  -- while (current->next) current = current->next;
  let last ← Code.iterate (fun current => do
    if (← eval fun s => s.links.next current) = none then return .inr current
    return .inl (← deref (← eval fun s => s.links.next current))) current
  assign (·.setNext last (some p))
  assign (·.setNext p none)
  return 0

/-- `(*sList)->next` -/
def headNext (sList : SList MAX) : S NPROC MAX NCPU (Option (Fin NPROC)) := do
  let head ← deref (← eval fun s => s.links.head sList)
  eval fun s => s.links.next head

def removeFromStateList (sList : SList MAX) (p : Fin NPROC) :
    S NPROC MAX NCPU Int := do
  if (← eval fun s => s.links.head sList) = none then return -1
  if (← eval fun s => s.links.head sList) = some p then
    if (← headNext sList) = none then
      assign (·.setHead sList none)
      assign (·.setNext p none)
      return 0
    let temp ← headNext sList
    assign (·.setNext p none)
    assign (·.setHead sList temp)
    return 0
  let current ← headNext sList
  let prev ← deref (← eval fun s => s.links.head sList)
  Code.iterate (fun (prev, current) => do
    match current with
    | none => return .inr (-1)
    | some current =>
        if current = p then
          assign (fun s => s.setNext prev (s.links.next current))
          assign (·.setNext p none)
          return .inr 0
        return .inl (current, ← eval fun s => s.links.next current)) (prev, current)

def removeHead (sList : SList MAX) : S NPROC MAX NCPU (Option (Fin NPROC)) := do
  if (← eval fun s => s.links.head sList) = none then return none
  let p ← deref (← eval fun s => s.links.head sList)
  let temp ← headNext sList
  assign (·.setNext p none)
  assign (·.setHead sList temp)
  return some p

/-! ## sleeping and waking -/

def wakeup1 (chan : Option (Chan NPROC)) : S NPROC MAX NCPU Unit := do
  walkAll .sleep fun p => do
    let current ← eval fun s => s.links.next p
    assertState p .SLEEPING
    if (← eval fun s => (s.proc p).chan) = chan then
      warnIf ((← removeFromStateList .sleep p) < 0)
        "Failed to remove SLEEPING proc to list (wakeup1).\n"
      setProc p fun pr => { pr with state := .RUNNABLE }
      let sList ← readyList (← eval fun s => (s.proc p).priority)
      warnIf ((← addToStateListEnd sList p) < 0)
        "Failed to add RUNNABLE proc to list (wakeup1).\n"
    return current

def wakeup (chan : Option (Chan NPROC)) : T NPROC MAX NCPU Unit := do
  acquire
  plain (wakeup1 chan)
  release

def sched (me : Fin NPROC) : T NPROC MAX NCPU Unit := do
  if !(← .once .holding) then plain (panic "sched ptable.lock")
  plain do
    if (← eval fun s => (s.proc me).state) = .RUNNING then panic "sched running"
    assign fun s => s.setProc me fun pr =>
      { pr with cpuTicksTotal := pr.cpuTicksTotal + (s.ticks - pr.cpuTicksIn) }
  .once (.toScheduler me)

/-- The budget is charged for the time slice. -/
def charge (me : Fin NPROC) : S NPROC MAX NCPU Unit := do
  assign fun s => s.setProc me fun pr =>
    { pr with budget := pr.budget - (s.ticks - pr.cpuTicksIn).toInt32 }
  if (← eval fun s => (s.proc me).budget) ≤ 0 then
    if (← eval fun s => (s.proc me).priority) < MAX then
      setProc me fun pr => { pr with priority := pr.priority + 1 }
    setProc me fun pr => { pr with budget := BUDGET }

def yield (me : Fin NPROC) : T NPROC MAX NCPU Unit := do
  acquire
  plain do
    assertState me .RUNNING
    warnIf ((← removeFromStateList .running me) < 0)
      "Failed to remove RUNNING proc to list (yeild)."
    setProc me fun pr => { pr with state := .RUNNABLE }
    charge me
    let sList ← readyList (← eval fun s => (s.proc me).priority)
    warnIf ((← addToStateListEnd sList me) < 0) "Failed to add RUNNABLE proc to list (yeild)."
  sched me
  release

def forkret : T NPROC MAX NCPU Unit := release

/-- `sleep(chan, lk)` from `proc->chan = chan` to `proc->chan = 0`. -/
def sleepLocked (me : Fin NPROC) (chan : Option (Chan NPROC)) : T NPROC MAX NCPU Unit := do
  plain do
    setProc me fun pr => { pr with chan := chan }
    assertState me .RUNNING
    warnIf ((← removeFromStateList .running me) < 0)
      "Could not remove RUNNING proc from list (sleep()).\n"
    setProc me fun pr => { pr with state := .SLEEPING }
    charge me
    warnIf ((← addToStateListEnd .sleep me) < 0) "Could not add SLEEPING proc to list (sleep()).\n"
  sched me
  plain (setProc me fun pr => { pr with chan := none })

/-- `sleep(chan, lk)`; `ptableLock` says whether `lk` is `&ptable.lock`. -/
def sleep (me : Fin NPROC) (chan : Option (Chan NPROC)) (ptableLock : Bool) :
    T NPROC MAX NCPU Unit := do
  if ptableLock then sleepLocked me chan
  else do
    acquire
    sleepLocked me chan
    release

/-! ## creating processes -/

/-- `allocproc` with a free slot, up to the release of the lock. -/
def takeSlot (p : Fin NPROC) : S NPROC MAX NCPU Unit := do
  assertState p .UNUSED
  warnIf ((← removeFromStateList .free p) == -1)
    "Failed to remove proc from UNUSED list (allocproc).\n"
  setProc p fun pr => { pr with state := .EMBRYO }
  warnIf ((← addToStateListHead .embryo p) == -1)
    "Failed to add proc to EMBRYO list (allocproc).\n"
  assign fun s => (s.setProc p fun pr => { pr with pid := s.nextpid }).takePid

/-- The slot goes back for want of a kernel stack. -/
def giveBack (p : Fin NPROC) : S NPROC MAX NCPU Unit := do
  assertState p .EMBRYO
  let _ ← removeFromStateList .embryo p
  setProc p fun pr => { pr with state := .UNUSED }
  warnIf ((← addToStateListHead .free p) == -1)
    "Not enough room for process stack; Failed to add proc to UNUSED list (allocproc).\n"

/-- The first values of a new process. -/
def initProc (p : Fin NPROC) : T NPROC MAX NCPU Unit := do
  .once (.newContext p)
  plain (setProc p fun pr => { pr with context := .forkret })
  plain (assign fun s => s.setProc p fun pr => { pr with startTicks := s.ticks })
  plain (setProc p fun pr => { pr with cpuTicksTotal := 0 })
  plain (setProc p fun pr => { pr with cpuTicksIn := 0 })
  atSite .fresh do
    setProc p fun pr => { pr with budget := BUDGET }
    setProc p fun pr => { pr with priority := 0 }

def allocproc : T NPROC MAX NCPU (Option (Fin NPROC)) := do
  acquire
  match ← plain (eval fun s => s.links.head .free) with
  | none => do
      release
      return none
  | some p => do
      plain (takeSlot p)
      release
      -- allocate kernel stack
      let kstack ← .once .kalloc
      plain (setProc p fun pr => { pr with kstack := kstack })
      if kstack = none then
        atSite .noStack (giveBack p)
        return none
      initProc p
      return some p

/-- `fork` when `copyuvm` has failed. -/
def forkFail (np : Fin NPROC) : S NPROC MAX NCPU Unit := do
  call (.kfree (← eval fun s => (s.proc np).kstack))
  setProc np fun pr => { pr with kstack := none }
  assertState np .EMBRYO
  if (← removeFromStateList .embryo np) < 0 then
    panic "Failed to remove proc from EMBRYO list (fork).\n"
  setProc np fun pr => { pr with state := .UNUSED }
  if (← addToStateListHead .free np) < 0 then
    panic "Failed to add proc to UNUSED list (fork).\n"

/-- What `fork` copies to the child. -/
def forkCopy (me np : Fin NPROC) : T NPROC MAX NCPU Unit := do
  plain (assign fun s => s.setProc np fun pr => { pr with sz := (s.proc me).sz })
  plain (setProc np fun pr => { pr with parent := some me })
  (List.finRange NOFILE).forM fun i => do
    match ← plain (eval fun s => (s.proc me).ofile i) with
    | none => return ()
    | some f => do
        plain (call (.filedup f))
        plain (setProc np fun pr => { pr with ofile := Function.update pr.ofile i (some f) })
  let cwd ← plain (eval fun s => (s.proc me).cwd)
  plain (call (.idup cwd))
  plain (setProc np fun pr => { pr with cwd := cwd })
  plain (assign fun s => s.setProc np fun pr => { pr with name := (s.proc me).name })
  plain (assign fun s => s.setProc np fun pr => { pr with uid := (s.proc me).uid })
  plain (assign fun s => s.setProc np fun pr => { pr with gid := (s.proc me).gid })

/-- The child becomes `RUNNABLE`. -/
def forkReady (np : Fin NPROC) : S NPROC MAX NCPU Unit := do
  assertState np .EMBRYO
  warnIf ((← removeFromStateList .embryo np) < 0) "Failed to remove EMBRYO proc from list (fork).\n"
  setProc np fun pr => { pr with state := .RUNNABLE }
  let sList ← readyList (← eval fun s => (s.proc np).priority)
  warnIf ((← addToStateListEnd sList np) < 0) "Failed to add RUNNABLE proc to list (fork).\n"

def fork (me : Fin NPROC) : T NPROC MAX NCPU Int32 := do
  match ← allocproc with
  | none => return -1
  | some np => do
      let pgdir ← .once .copyuvm
      plain (setProc np fun pr => { pr with pgdir := pgdir })
      if pgdir = none then
        atSite .noSpace (forkFail np)
        return -1
      forkCopy me np
      let pid ← plain (eval fun s => (s.proc np).pid)
      acquire
      plain (forkReady np)
      release
      return pid.toInt32

/-! ## exit and wait -/

/-- `while (p) { if (p->parent == proc) p->parent = initproc; p = p->next; }` -/
def reparent (me : Fin NPROC) (sList : SList MAX) : S NPROC MAX NCPU Unit :=
  walkAll sList fun p => do
    if (← eval fun s => (s.proc p).parent) = some me then
      assign fun s => s.setProc p fun pr => { pr with parent := s.initproc }
    eval fun s => s.links.next p

/-- The loop of `exit` over the zombies: init may have to wait for them. -/
def inheritZombies (me : Fin NPROC) : S NPROC MAX NCPU Unit :=
  walkAll .zombie fun p => do
    let current ← eval fun s => s.links.next p
    if (← eval fun s => (s.proc p).parent) = some me then
      assign fun s => s.setProc p fun pr => { pr with parent := s.initproc }
      wakeup1 ((← eval fun s => s.initproc).map .proc)
    return current

/-- `exit` before it takes the lock. -/
def closeAll (me : Fin NPROC) : T NPROC MAX NCPU Unit := do
  (List.finRange NOFILE).forM fun i => do
    match ← plain (eval fun s => (s.proc me).ofile i) with
    | none => return ()
    | some f => do
        plain (call (.fileclose f))
        plain (setProc me fun pr => { pr with ofile := Function.update pr.ofile i none })
  let cwd ← plain (eval fun s => (s.proc me).cwd)
  plain (call (.iput cwd))
  plain (setProc me fun pr => { pr with cwd := none })

/-- `exit` from there to the switch away. -/
def leave (me : Fin NPROC) : S NPROC MAX NCPU Unit := do
  -- parent might be sleeping in wait()
  wakeup1 ((← eval fun s => (s.proc me).parent).map .proc)
  -- pass abandoned children to init
  inheritZombies me
  reparent me .running
  (levels MAX).forM fun i => reparent me (.ready i)
  reparent me .sleep
  reparent me .embryo
  reparent me .free
  assertState me .RUNNING
  warnIf ((← removeFromStateList .running me) < 0)
    "Failed to remove RUNNING proc from list (exit).\n"
  setProc me fun pr => { pr with state := .ZOMBIE }
  warnIf ((← addToStateListHead .zombie me) < 0) "Failed to add ZOMBIE proc to list (exit).\n"

def exit (me : Fin NPROC) : T NPROC MAX NCPU Unit := do
  if (← plain (eval fun s => s.initproc)) = some me then plain (panic "init exiting")
  closeAll me
  acquire
  plain (leave me)
  sched me
  plain (panic "zombie exit")

/-- The first loop of `wait`: reap a zombie child. -/
def reap (me : Fin NPROC) : S NPROC MAX NCPU (Option Int32) :=
  walkList .zombie fun p => do
    if (← eval fun s => (s.proc p).parent) = some me then
      let pid ← eval fun s => (s.proc p).pid
      call (.kfree (← eval fun s => (s.proc p).kstack))
      setProc p fun pr => { pr with kstack := none }
      call (.freevm (← eval fun s => (s.proc p).pgdir))
      assertState p .ZOMBIE
      warnIf ((← removeFromStateList .zombie p) < 0)
        "Failed to remove ZOMBIE process from list (wait).\n"
      setProc p fun pr => { pr with state := .UNUSED }
      warnIf ((← addToStateListHead .free p) < 0)
        "Failed to add UNUSED process to list (wait).\n"
      setProc p fun pr => { pr with pid := 0 }
      setProc p fun pr => { pr with parent := none }
      setProc p fun pr => { pr with name := [] }
      setProc p fun pr => { pr with killed := false }
      return .inr pid.toInt32
    return .inl (← eval fun s => s.links.next p)

/-- `while (!havekids && p) { if (p->parent == proc) havekids = 1; p = p->next; }` -/
def haveKids (me : Fin NPROC) (sList : SList MAX) : S NPROC MAX NCPU (Option Unit) :=
  walkList sList fun p => do
    if (← eval fun s => (s.proc p).parent) = some me then return .inr ()
    return .inl (← eval fun s => s.links.next p)

/-- The loops of `wait` over children that are alive, and whether it gives up. -/
def givesUp (me : Fin NPROC) : S NPROC MAX NCPU Bool := do
  let havekids ← .firstOf (haveKids me) ((levels MAX).map .ready ++ [.running, .sleep])
  return havekids.isNone || (← eval fun s => (s.proc me).killed)

def wait (me : Fin NPROC) : T NPROC MAX NCPU Int32 := do
  acquire
  .iterate (fun _ => do
    match ← plain (reap me) with
    | some pid => do
        release
        return .inr pid
    | none => do
        if ← plain (givesUp me) then
          release
          return .inr (-1)
        sleep me (some (.proc me)) true
        return .inl ()) ()

/-! ## the scheduler -/

/-- `while (p) { if (p->priority > 0) --(p->priority); p = p->next; }` -/
def promoteList (sList : SList MAX) : S NPROC MAX NCPU Unit :=
  walkAll sList fun p => do
    if 0 < (← eval fun s => (s.proc p).priority) then
      setProc p fun pr => { pr with priority := pr.priority - 1 }
    eval fun s => s.links.next p

def promoteAll : S NPROC MAX NCPU Unit := do
  ((levels MAX).drop 1).forM fun i =>
    walkAll (.ready i) fun p => do
      let current ← eval fun s => s.links.next p
      assertState p .RUNNABLE
      let lower ← readyList (← eval fun s => (s.proc p).priority)
      warnIf ((← removeFromStateList lower p) < 0)
        "promoteAll: Could not remove from ready list.\n"
      if 0 < (← eval fun s => (s.proc p).priority) then
        setProc p fun pr => { pr with priority := pr.priority - 1 }
      let higher ← readyList (← eval fun s => (s.proc p).priority)
      warnIf ((← addToStateListEnd higher p) < 0) "promoteAll: Could not add to ready list.\n"
      return current
  promoteList .sleep
  promoteList .running

/-- The first process of level `i`, if there is one, is taken off its list and
handed to the CPU. -/
def pick (c : Fin NCPU) (i : Fin (MAX + 1)) : S NPROC MAX NCPU (Option (Fin NPROC)) := do
  match ← eval fun s => s.links.head (.ready i) with
  | none => return none
  | some p => do
      assertState p .RUNNABLE
      let sList ← readyList (← eval fun s => (s.proc p).priority)
      match ← removeHead sList with
      | none => panic "Scheduler: removeHead failed."
      | some p => do
          assign (·.setCpu c (some p))
          setProc p fun pr => { pr with state := .RUNNING }
          warnIf ((← addToStateListEnd .running p) < 0)
            "Failed to add RUNNING proc to list (scheduler)."
          assign fun s => s.setProc p fun pr => { pr with cpuTicksIn := s.ticks }
          return some p

/-- The body of the scheduler's search for level `i`. -/
def dispatch (c : Fin NCPU) (i : Fin (MAX + 1)) : T NPROC MAX NCPU (Option Unit) := do
  match ← plain (pick c i) with
  | none => return none
  | some p => do
      .once (.toProc p)
      plain (assign (·.setCpu c none))
      return some ()

/-- Promotion when it is time. -/
def promote : S NPROC MAX NCPU Unit := do
  if ← eval fun s => decide (s.promoteAtTime = s.ticks) then
    promoteAll
    assign fun s => { s with promoteAtTime := s.ticks + TIME_TO_PROMOTE }

def scheduler (c : Fin NCPU) : T NPROC MAX NCPU Empty :=
  .iterate (fun _ => do
    acquire
    plain promote
    let _ ← .firstOf (dispatch c) (levels MAX)
    release
    return .inl ()) ()

/-! ## kill, setpriority and getprocs -/

/-- `while (p) { if (p->pid == pid) { p->killed = 1; return 0; } p = p->next; }` -/
def killOn (pid : Int32) (sList : SList MAX) : S NPROC MAX NCPU (Option Int32) :=
  walkList sList fun p => do
    if (← eval fun s => (s.proc p).pid) = pid.toUInt32 then
      setProc p fun pr => { pr with killed := true }
      return .inr 0
    return .inl (← eval fun s => s.links.next p)

/-- The first loop of `kill`: a sleeper is woken as well. -/
def killSleeping (pid : Int32) : S NPROC MAX NCPU (Option Int32) :=
  walkList .sleep fun p => do
    if (← eval fun s => (s.proc p).pid) = pid.toUInt32 then
      setProc p fun pr => { pr with killed := true }
      assertState p .SLEEPING
      warnIf ((← removeFromStateList .sleep p) < 0)
        "Could not remove SLEEPING proc from list (kill).\n"
      setProc p fun pr => { pr with state := .RUNNABLE }
      let sList ← readyList (← eval fun s => (s.proc p).priority)
      warnIf ((← addToStateListEnd sList p) < 0) "Could not add RUNNABLE proc to list (kill).\n"
      return .inr 0
    return .inl (← eval fun s => s.links.next p)

/-- The loops of `kill`. -/
def killLoops (pid : Int32) : S NPROC MAX NCPU Int32 := do
  match ← killSleeping pid with
  | some r => return r
  | none => do
      let r ← .firstOf (killOn pid) ((levels MAX).map .ready ++ [.running, .free, .zombie, .embryo])
      return r.getD (-1)

def kill (pid : Int32) : T NPROC MAX NCPU Int32 := do
  acquire
  let r ← plain (killLoops pid)
  release
  return r

/-- The loops of `setpriority` over the running and the sleep list. -/
def setpriorityOn (pid : Int32) (priority : Nat) (sList : SList MAX) :
    S NPROC MAX NCPU (Option Int32) :=
  walkList sList fun p => do
    if (← eval fun s => (s.proc p).pid) = pid.toUInt32 then
      setProc p fun pr => { pr with priority := priority }
      setProc p fun pr => { pr with budget := BUDGET }
      return .inr 0
    return .inl (← eval fun s => s.links.next p)

/-- The loop of `setpriority` over a ready list. -/
def setpriorityReady (pid : Int32) (priority : Nat) (i : Fin (MAX + 1)) :
    S NPROC MAX NCPU (Option Int32) :=
  walkList (.ready i) fun p => do
    if (← eval fun s => (s.proc p).pid) = pid.toUInt32 then
      let was ← eval fun s => (s.proc p).priority
      let old ← readyList was
      warnIf ((← removeFromStateList old p) < 0)
        s!"setpriority: remove from ready list[{was}] failed.\n"
      setProc p fun pr => { pr with priority := priority }
      let new ← readyList (← eval fun s => (s.proc p).priority)
      warnIf ((← addToStateListEnd new p) < 0)
        s!"setpriority: add to ready list[{priority}] failed.\n"
      setProc p fun pr => { pr with budget := BUDGET }
      return .inr 0
    return .inl (← eval fun s => s.links.next p)

/-- The loops of `setpriority`. -/
def setpriorityLoops (pid : Int32) (priority : Nat) : S NPROC MAX NCPU Int32 := do
  match ← .firstOf (setpriorityReady pid priority) (levels MAX) with
  | some r => return r
  | none => do
      let r ← .firstOf (setpriorityOn pid priority) [.running, .sleep]
      return r.getD (-1)

/-- `sys_setpriority` has checked `0 ≤ priority ≤ MAX`. -/
def setpriority (pid : Int32) (priority : Nat) : T NPROC MAX NCPU Int32 := do
  acquire
  let r ← plain (setpriorityLoops pid priority)
  release
  return r

/-- `table[i].ppid` -/
def ppidOf (p : Fin NPROC) : S NPROC MAX NCPU UInt32 := do
  if (← eval fun s => (s.proc p).pid) = 1 then return 1
  let parent ← deref (← eval fun s => (s.proc p).parent)
  eval fun s => (s.proc parent).pid

/-- `table[i]` for an active process. -/
def entry (p : Fin NPROC) : S NPROC MAX NCPU Uproc := do
  let pid ← eval fun s => (s.proc p).pid
  let uid ← eval fun s => (s.proc p).uid
  let gid ← eval fun s => (s.proc p).gid
  let ppid ← ppidOf p
  let priority ← eval fun s => (s.proc p).priority
  let elapsedTicks ← eval fun s => s.ticks - (s.proc p).startTicks
  let cpuTotalTicks ← eval fun s => (s.proc p).cpuTicksTotal
  let state ← eval fun s => safestrcpy (states (s.proc p).state) STRMAX
  let size ← eval fun s => (s.proc p).sz
  let name ← eval fun s => safestrcpy (s.proc p).name STRMAX
  return { pid, uid, gid, ppid, elapsedTicks, cpuTotalTicks, state, size, name, priority }

/-- The loop of `getprocs`, with the entries so far. -/
def getprocsFrom (max : UInt32) (table : List Uproc) :
    List (Fin NPROC) → S NPROC MAX NCPU (List Uproc)
  | [] => return table
  | p :: ps => do
      if max.toNat ≤ table.length then return table
      if (← eval fun s => (s.proc p).state).Active then
        getprocsFrom max (table ++ [← entry p]) ps
      else getprocsFrom max table ps

def getprocs (max : UInt32) : T NPROC MAX NCPU (List Uproc) := do
  acquire
  let table ← plain (getprocsFrom max [] (List.finRange NPROC))
  release
  return table

end Smp
end Xv6.Ptable
