import Mathlib.Data.List.FinRange
import Xv6.Lib.Prog
import Xv6.Param

/-!
# Xv6.Ptable

The process table of `proc.c` as built with `BAGIAN_INODE`: the state lists,
the multi-level feedback queue, and every operation that relinks a process.

A `struct proc *` that is not NULL is a slot of `ptable.proc`, an element of
`Fin NPROC`.  The `next` fields and the list heads are kept apart from the
rest of the table (`Links`), since the list primitives touch nothing else.
Code that needs the current process (`proc`) takes it as an argument `me`
together with the CPU it runs on.

What other files do on a call (`kalloc`, `copyuvm`, `setupkvm`, `namei`) comes
in as a parameter, with `none` for a failure; calls that release or share
something (`kfree`, `freevm`, `filedup`, …) and `cprintf` are recorded in
`trace`.  Trap frames and page contents are not modelled.

Everything is generic in the number of slots, of CPUs and of priority levels.
-/

namespace Xv6.Ptable

inductive ProcState
  | UNUSED | EMBRYO | SLEEPING | RUNNABLE | RUNNING | ZOMBIE
  deriving DecidableEq

/-- A channel is the address of a process or of something else. -/
inductive Chan (NPROC : Nat)
  | proc (p : Fin NPROC)
  | addr (a : Nat)
  deriving DecidableEq

/-- Where a process goes on when the scheduler switches to it. -/
inductive Context
  | forkret
  /-- behind `sched()` in `yield` -/
  | yield
  /-- behind `sched()` in `sleep` -/
  | sleep
  /-- behind `sched()` in `exit` -/
  | exit
  deriving DecidableEq

/-- `struct proc` without `next` and `tf`. -/
structure Proc (NPROC : Nat) where
  sz : UInt32
  pgdir : Option Nat
  kstack : Option Nat
  state : ProcState
  pid : UInt32
  parent : Option (Fin NPROC)
  context : Context
  chan : Option (Chan NPROC)
  killed : Bool
  ofile : Fin NOFILE → Option Nat
  cwd : Option Nat
  name : List UInt8
  startTicks : UInt32
  uid : UInt32
  gid : UInt32
  cpuTicksTotal : UInt32
  cpuTicksIn : UInt32
  priority : Nat
  budget : Int32

/-- The open files, by descriptor. -/
def Proc.openFiles {NPROC : Nat} (pr : Proc NPROC) : List Nat :=
  (List.finRange NOFILE).filterMap pr.ofile

/-- The members of `struct StateLists`. -/
inductive SList (MAX : Nat)
  | ready (i : Fin (MAX + 1))
  | free | sleep | zombie | running | embryo
  deriving DecidableEq

/-- `ptable.pLists` and the `next` fields. -/
structure Links (NPROC MAX : Nat) where
  head : SList MAX → Option (Fin NPROC)
  next : Fin NPROC → Option (Fin NPROC)

/-- Calls to other parts of the kernel. -/
inductive Call
  | cprintf (msg : String)
  | kfree (page : Option Nat)
  | freevm (pgdir : Option Nat)
  | filedup (f : Nat)
  | fileclose (f : Nat)
  | idup (ip : Option Nat)
  | iput (ip : Option Nat)

/-- Why the kernel stopped. -/
inductive Stop
  | panic (msg : String)
  /-- `ready[i]` with `i > MAX` -/
  | outOfBounds
  /-- a traversal that does not end -/
  | endless
  /-- a field of a NULL pointer -/
  | fault
  deriving DecidableEq

structure Kern (NPROC MAX NCPU : Nat) where
  proc : Fin NPROC → Proc NPROC
  links : Links NPROC MAX
  promoteAtTime : UInt32
  initproc : Option (Fin NPROC)
  nextpid : UInt32
  ticks : UInt32
  /-- `proc` of each CPU -/
  cpus : Fin NCPU → Option (Fin NPROC)
  trace : List Call

variable {NPROC MAX NCPU : Nat}

def Kern.record (s : Kern NPROC MAX NCPU) (es : List Call) : Kern NPROC MAX NCPU :=
  { s with trace := s.trace ++ es }

/-- `nextpid++` -/
def Kern.takePid (s : Kern NPROC MAX NCPU) : Kern NPROC MAX NCPU :=
  { s with nextpid := s.nextpid + 1 }

/-- `proc = p` on CPU `c`. -/
def Kern.setCpu (s : Kern NPROC MAX NCPU) (c : Fin NCPU) (p : Option (Fin NPROC)) :
    Kern NPROC MAX NCPU := { s with cpus := Function.update s.cpus c p }

/-! ## the list primitives -/

section Primitives

def setHead (sList : SList MAX) (p : Option (Fin NPROC)) : Prog Stop (Links NPROC MAX) Unit :=
  modify fun k => { k with head := Function.update k.head sList p }

def setNext (p : Fin NPROC) (q : Option (Fin NPROC)) : Prog Stop (Links NPROC MAX) Unit :=
  modify fun k => { k with next := Function.update k.next p q }

def addToStateListHead (sList : SList MAX) (p : Option (Fin NPROC)) :
    Prog Stop (Links NPROC MAX) Int := do
  match p with
  | none => throw (.panic "Invalid process.")
  | some p =>
      match (← get).head sList with
      | none =>
          setHead sList (some p)
          setNext p none
          return 0
      | some h =>
          setNext p (some h)
          setHead sList (some p)
          if (← get).head sList ≠ some p then return -1
          return 0

/-- `while (current->next) current = current->next;` -/
def lastFrom : Nat → Fin NPROC → Prog Stop (Links NPROC MAX) (Fin NPROC)
  | 0, _ => throw .endless
  | fuel + 1, current => do
      match (← get).next current with
      | none => return current
      | some q => lastFrom fuel q

def addToStateListEnd (sList : SList MAX) (p : Option (Fin NPROC)) :
    Prog Stop (Links NPROC MAX) Int := do
  match p with
  | none => throw (.panic "Invalid process.")
  | some p =>
      match (← get).head sList with
      | none =>
          setHead sList (some p)
          setNext p none
          return 0
      | some h =>
          let current ← lastFrom NPROC h
          setNext current (some p)
          setNext p none
          return 0

/-- The search of `removeFromStateList` behind the first element. -/
def removeAfter (p : Fin NPROC) :
    Nat → Fin NPROC → Option (Fin NPROC) → Prog Stop (Links NPROC MAX) Int
  | _, _, none => return -1
  | 0, _, some _ => throw .endless
  | fuel + 1, prev, some current => do
      if current = p then
        setNext prev ((← get).next current)
        setNext p none
        return 0
      removeAfter p fuel current ((← get).next current)

def removeFromStateList (sList : SList MAX) (p : Option (Fin NPROC)) :
    Prog Stop (Links NPROC MAX) Int := do
  match p with
  | none => throw (.panic "Invalid process structures.")
  | some p =>
      match (← get).head sList with
      | none => return -1
      | some h =>
          if p = h then
            match (← get).next h with
            | none =>
                setHead sList none
                setNext p none
                return 0
            | some temp =>
                setNext p none
                setHead sList (some temp)
                return 0
          else removeAfter p NPROC h ((← get).next h)

def removeHead (sList : SList MAX) : Prog Stop (Links NPROC MAX) (Option (Fin NPROC)) := do
  match (← get).head sList with
  | none => return none
  | some p =>
      let temp := (← get).next p
      setNext p none
      setHead sList temp
      return some p

end Primitives

/-! ## reading and writing the table -/

/-- Code of `proc.c`. -/
abbrev K (NPROC MAX NCPU : Nat) := Prog Stop (Kern NPROC MAX NCPU)

def onLinks {α : Type} (m : Prog Stop (Links NPROC MAX) α) : K NPROC MAX NCPU α :=
  focus Kern.links (fun k s => { s with links := k }) m

def headOf (sList : SList MAX) : K NPROC MAX NCPU (Option (Fin NPROC)) :=
  return (← get).links.head sList

def nextOf (p : Fin NPROC) : K NPROC MAX NCPU (Option (Fin NPROC)) :=
  return (← get).links.next p

def procOf (p : Fin NPROC) : K NPROC MAX NCPU (Proc NPROC) := return (← get).proc p

def setProc (p : Fin NPROC) (f : Proc NPROC → Proc NPROC) : K NPROC MAX NCPU Unit :=
  modify fun s => { s with proc := Function.update s.proc p (f (s.proc p)) }

def calls (es : List Call) : K NPROC MAX NCPU Unit := modify fun s => s.record es

def call (e : Call) : K NPROC MAX NCPU Unit := calls [e]

/-- `if (…) cprintf(msg);` -/
def warnIf (c : Bool) (msg : String) : K NPROC MAX NCPU Unit := do
  if c then call (.cprintf msg)

/-- `ptable.pLists.ready[i]` -/
def readyList (i : Nat) : K NPROC MAX NCPU (SList MAX) :=
  if h : i < MAX + 1 then pure (.ready ⟨i, h⟩) else throw .outOfBounds

/-- `for (int i = 0; i <= MAX; ++i)` -/
def levels (MAX : Nat) : List (Fin (MAX + 1)) := List.finRange (MAX + 1)

/-- Try one after the other until there is a result. -/
def firstOf {ι ρ : Type} (f : ι → K NPROC MAX NCPU (Option ρ)) :
    List ι → K NPROC MAX NCPU (Option ρ)
  | [] => return none
  | i :: is => do
      match ← f i with
      | some r => return some r
      | none => firstOf f is

/-- `p = list; while (p) { … }` -/
def walkList {ρ : Type} (sList : SList MAX)
    (body : Fin NPROC → K NPROC MAX NCPU (Option (Fin NPROC) ⊕ ρ)) :
    K NPROC MAX NCPU (Option ρ) := do
  walk .endless body NPROC (← headOf sList)

/-- A `walkList` that is not left early. -/
def walkAll (sList : SList MAX) (body : Fin NPROC → K NPROC MAX NCPU (Option (Fin NPROC))) :
    K NPROC MAX NCPU Unit := do
  let _ ← walkList sList fun p => return (Sum.inl (← body p) : Option (Fin NPROC) ⊕ Empty)

def assertState (p : Option (Fin NPROC)) (state : ProcState) : K NPROC MAX NCPU Unit := do
  match p with
  | none => throw (.panic "assertState: invalid proc argument.\n")
  | some p =>
      if (← procOf p).state ≠ state then
        throw (.panic "assertState: process in wrong state.\n")

/-! ## sleeping and waking -/

def wakeup1 (chan : Option (Chan NPROC)) : K NPROC MAX NCPU Unit := do
  walkAll .sleep fun p => do
    let current ← nextOf p
    assertState (some p) .SLEEPING
    if (← procOf p).chan = chan then
      warnIf ((← onLinks (removeFromStateList .sleep (some p))) < 0)
        "Failed to remove SLEEPING proc to list (wakeup1).\n"
      setProc p fun pr => { pr with state := .RUNNABLE }
      let sList ← readyList (← procOf p).priority
      warnIf ((← onLinks (addToStateListEnd sList (some p))) < 0)
        "Failed to add RUNNABLE proc to list (wakeup1).\n"
    return current

def wakeup (chan : Option (Chan NPROC)) : K NPROC MAX NCPU Unit := wakeup1 chan

/-- `sched()` and, on the scheduler's side, `proc = 0`. -/
def sched (c : Fin NCPU) (me : Fin NPROC) (resume : Context) : K NPROC MAX NCPU Unit := do
  if (← procOf me).state = .RUNNING then throw (.panic "sched running")
  let ticks := (← get).ticks
  setProc me fun pr =>
    { pr with cpuTicksTotal := pr.cpuTicksTotal + (ticks - pr.cpuTicksIn), context := resume }
  modify fun s => s.setCpu c none

/-- The budget is charged for the time slice; used up, the process is demoted
and gets a new one. -/
def Proc.charge (MAX : Nat) (ticks : UInt32) (pr : Proc NPROC) : Proc NPROC :=
  let budget := pr.budget - (ticks - pr.cpuTicksIn).toInt32
  if budget ≤ 0 then
    { pr with
      priority := if pr.priority < MAX then pr.priority + 1 else pr.priority
      budget := BUDGET }
  else { pr with budget := budget }

def yield (c : Fin NCPU) (me : Fin NPROC) : K NPROC MAX NCPU Unit := do
  assertState (some me) .RUNNING
  warnIf ((← onLinks (removeFromStateList .running (some me))) < 0)
    "Failed to remove RUNNING proc to list (yeild)."
  setProc me fun pr => { pr with state := .RUNNABLE }
  let ticks := (← get).ticks
  setProc me (Proc.charge MAX ticks)
  let sList ← readyList (← procOf me).priority
  warnIf ((← onLinks (addToStateListEnd sList (some me))) < 0)
    "Failed to add RUNNABLE proc to list (yeild)."
  sched c me .yield

/-- `sleep` up to the switch; what follows it is in `resume`. -/
def sleep (c : Fin NCPU) (me : Fin NPROC) (chan : Option (Chan NPROC)) :
    K NPROC MAX NCPU Unit := do
  setProc me fun pr => { pr with chan := chan }
  assertState (some me) .RUNNING
  warnIf ((← onLinks (removeFromStateList .running (some me))) < 0)
    "Could not remove RUNNING proc from list (sleep()).\n"
  setProc me fun pr => { pr with state := .SLEEPING }
  let ticks := (← get).ticks
  setProc me (Proc.charge MAX ticks)
  warnIf ((← onLinks (addToStateListEnd .sleep (some me))) < 0)
    "Could not add SLEEPING proc to list (sleep()).\n"
  sched c me .sleep

/-! ## creating processes -/

def allocproc (kalloc : Option Nat) : K NPROC MAX NCPU (Option (Fin NPROC)) := do
  match ← headOf .free with
  | none => return none
  | some p =>
      assertState (some p) .UNUSED
      warnIf ((← onLinks (removeFromStateList .free (some p))) == -1)
        "Failed to remove proc from UNUSED list (allocproc).\n"
      setProc p fun pr => { pr with state := .EMBRYO }
      warnIf ((← onLinks (addToStateListHead .embryo (some p))) == -1)
        "Failed to add proc to EMBRYO list (allocproc).\n"
      let pid := (← get).nextpid
      setProc p fun pr => { pr with pid := pid }
      modify fun s => s.takePid
      -- allocate kernel stack
      setProc p fun pr => { pr with kstack := kalloc }
      match kalloc with
      | none =>
          assertState (some p) .EMBRYO
          let _ ← onLinks (removeFromStateList .embryo (some p))
          setProc p fun pr => { pr with state := .UNUSED }
          warnIf ((← onLinks (addToStateListHead .free (some p))) == -1)
            "Not enough room for process stack; Failed to add proc to UNUSED list (allocproc).\n"
          return none
      | some _ =>
          let ticks := (← get).ticks
          setProc p fun pr =>
            { pr with
              context := .forkret, startTicks := ticks, cpuTicksTotal := 0, cpuTicksIn := 0
              budget := BUDGET, priority := 0 }
          return some p

/-- `fork` when `copyuvm` has failed. -/
def forkFail (np : Fin NPROC) : K NPROC MAX NCPU Int32 := do
  call (.kfree (← procOf np).kstack)
  setProc np fun pr => { pr with kstack := none }
  assertState (some np) .EMBRYO
  if (← onLinks (removeFromStateList .embryo (some np))) < 0 then
    throw (.panic "Failed to remove proc from EMBRYO list (fork).\n")
  setProc np fun pr => { pr with state := .UNUSED }
  if (← onLinks (addToStateListHead .free (some np))) < 0 then
    throw (.panic "Failed to add proc to UNUSED list (fork).\n")
  return -1

/-- `fork` when `copyuvm` has succeeded; `filedup` and `idup` return their
argument. -/
def forkDone (me np : Fin NPROC) : K NPROC MAX NCPU Int32 := do
  let proc ← procOf me
  calls (proc.openFiles.map .filedup ++ [.idup proc.cwd])
  setProc np fun pr =>
    { pr with
      sz := proc.sz, parent := some me
      ofile := fun i => (proc.ofile i).or (pr.ofile i)
      cwd := proc.cwd, name := proc.name, uid := proc.uid, gid := proc.gid }
  let pid := (← procOf np).pid
  assertState (some np) .EMBRYO
  warnIf ((← onLinks (removeFromStateList .embryo (some np))) < 0)
    "Failed to remove EMBRYO proc from list (fork).\n"
  setProc np fun pr => { pr with state := .RUNNABLE }
  let sList ← readyList (← procOf np).priority
  warnIf ((← onLinks (addToStateListEnd sList (some np))) < 0)
    "Failed to add RUNNABLE proc to list (fork).\n"
  return pid.toInt32

def fork (me : Fin NPROC) (kalloc copyuvm : Option Nat) : K NPROC MAX NCPU Int32 := do
  match ← allocproc kalloc with
  | none => return -1
  | some np =>
      setProc np fun pr => { pr with pgdir := copyuvm }
      match copyuvm with
      | none => forkFail np
      | some _ => forkDone me np

/-! ## exit and wait -/

/-- `while (p) { if (p->parent == proc) p->parent = initproc; p = p->next; }` -/
def reparent (me : Fin NPROC) (sList : SList MAX) : K NPROC MAX NCPU Unit :=
  walkAll sList fun p => do
    let initproc := (← get).initproc
    if (← procOf p).parent = some me then
      setProc p fun pr => { pr with parent := initproc }
    nextOf p

/-- The loop of `exit` over the zombies: init may have to wait for them. -/
def inheritZombies (me : Fin NPROC) : K NPROC MAX NCPU Unit :=
  walkAll .zombie fun p => do
    let current ← nextOf p
    let initproc := (← get).initproc
    if (← procOf p).parent = some me then
      setProc p fun pr => { pr with parent := initproc }
      wakeup1 (initproc.map .proc)
    return current

/-- `exit` up to the switch away. -/
def exit (c : Fin NCPU) (me : Fin NPROC) : K NPROC MAX NCPU Unit := do
  if some me = (← get).initproc then throw (.panic "init exiting")
  -- close all open files
  calls ((← procOf me).openFiles.map .fileclose)
  setProc me fun pr => { pr with ofile := fun _ => none }
  call (.iput (← procOf me).cwd)
  setProc me fun pr => { pr with cwd := none }
  -- parent might be sleeping in wait()
  wakeup1 ((← procOf me).parent.map .proc)
  -- pass abandoned children to init
  inheritZombies me
  reparent me .running
  (levels MAX).forM fun i => reparent me (.ready i)
  reparent me .sleep
  reparent me .embryo
  reparent me .free
  assertState (some me) .RUNNING
  warnIf ((← onLinks (removeFromStateList .running (some me))) < 0)
    "Failed to remove RUNNING proc from list (exit).\n"
  setProc me fun pr => { pr with state := .ZOMBIE }
  warnIf ((← onLinks (addToStateListHead .zombie (some me))) < 0)
    "Failed to add ZOMBIE proc to list (exit).\n"
  sched c me .exit

/-- The first loop of `wait`: reap a zombie child. -/
def reap (me : Fin NPROC) : K NPROC MAX NCPU (Option Int32) :=
  walkList .zombie fun p => do
    if (← procOf p).parent = some me then
      let pid := (← procOf p).pid
      call (.kfree (← procOf p).kstack)
      setProc p fun pr => { pr with kstack := none }
      call (.freevm (← procOf p).pgdir)
      assertState (some p) .ZOMBIE
      warnIf ((← onLinks (removeFromStateList .zombie (some p))) < 0)
        "Failed to remove ZOMBIE process from list (wait).\n"
      setProc p fun pr => { pr with state := .UNUSED }
      warnIf ((← onLinks (addToStateListHead .free (some p))) < 0)
        "Failed to add UNUSED process to list (wait).\n"
      setProc p fun pr => { pr with pid := 0, parent := none, name := [], killed := false }
      return .inr pid.toInt32
    return .inl (← nextOf p)

/-- `while (!havekids && p) { if (p->parent == proc) havekids = 1; p = p->next; }` -/
def haveKids (me : Fin NPROC) (sList : SList MAX) : K NPROC MAX NCPU (Option Unit) :=
  walkList sList fun p => do
    if (← procOf p).parent = some me then return .inr ()
    return .inl (← nextOf p)

/-- One pass of the loop of `wait`: the value it returns, or `none` when it
has gone to sleep. -/
def wait (c : Fin NCPU) (me : Fin NPROC) : K NPROC MAX NCPU (Option Int32) := do
  match ← reap me with
  | some pid => return some pid
  | none =>
      let havekids ← firstOf (haveKids me) ((levels MAX).map .ready ++ [.running, .sleep])
      if havekids.isNone || (← procOf me).killed then return some (-1)
      sleep c me (some (.proc me))
      return none

/-! ## the scheduler -/

def promoteAll : K NPROC MAX NCPU Unit := do
  ((levels MAX).drop 1).forM fun i =>
    walkAll (.ready i) fun p => do
      let current ← nextOf p
      assertState (some p) .RUNNABLE
      let lower ← readyList (← procOf p).priority
      warnIf ((← onLinks (removeFromStateList lower (some p))) < 0)
        "promoteAll: Could not remove from ready list.\n"
      if 0 < (← procOf p).priority then
        setProc p fun pr => { pr with priority := pr.priority - 1 }
      let higher ← readyList (← procOf p).priority
      warnIf ((← onLinks (addToStateListEnd higher (some p))) < 0)
        "promoteAll: Could not add to ready list.\n"
      return current
  promoteList .sleep
  promoteList .running
where
  /-- `while (p) { if (p->priority > 0) --(p->priority); p = p->next; }` -/
  promoteList (sList : SList MAX) : K NPROC MAX NCPU Unit :=
    walkAll sList fun p => do
      if 0 < (← procOf p).priority then
        setProc p fun pr => { pr with priority := pr.priority - 1 }
      nextOf p

/-- What a process does when the scheduler switches to it, up to its release
of `ptable.lock`. -/
def resume (p : Fin NPROC) : K NPROC MAX NCPU Unit := do
  match (← procOf p).context with
  | .forkret | .yield => return ()
  | .sleep => setProc p fun pr => { pr with chan := none }
  | .exit => throw (.panic "zombie exit")

/-- The body of the scheduler's search for level `i`. -/
def dispatch (c : Fin NCPU) (i : Fin (MAX + 1)) : K NPROC MAX NCPU (Option Unit) := do
  match ← headOf (.ready i) with
  | none => return none
  | some p =>
      assertState (some p) .RUNNABLE
      let sList ← readyList (← procOf p).priority
      match ← onLinks (removeHead sList) with
      | none => throw (.panic "Scheduler: removeHead failed.")
      | some p =>
          modify fun s => s.setCpu c (some p)
          setProc p fun pr => { pr with state := .RUNNING }
          warnIf ((← onLinks (addToStateListEnd .running (some p))) < 0)
            "Failed to add RUNNING proc to list (scheduler)."
          let ticks := (← get).ticks
          setProc p fun pr => { pr with cpuTicksIn := ticks }
          resume p
          return some ()

/-- One pass of the loop of `scheduler`, up to the switch. -/
def scheduler (c : Fin NCPU) : K NPROC MAX NCPU Unit := do
  if (← get).promoteAtTime = (← get).ticks then
    promoteAll
    modify fun s => { s with promoteAtTime := s.ticks + TIME_TO_PROMOTE }
  let _ ← firstOf (dispatch c) (levels MAX)

/-! ## kill and setpriority -/

/-- `while (p) { if (p->pid == pid) { p->killed = 1; return 0; } p = p->next; }` -/
def killOn (pid : Int32) (sList : SList MAX) : K NPROC MAX NCPU (Option Int32) :=
  walkList sList fun p => do
    if (← procOf p).pid = pid.toUInt32 then
      setProc p fun pr => { pr with killed := true }
      return .inr 0
    return .inl (← nextOf p)

/-- The first loop of `kill`: a sleeper is woken as well. -/
def killSleeping (pid : Int32) : K NPROC MAX NCPU (Option Int32) :=
  walkList .sleep fun p => do
    if (← procOf p).pid = pid.toUInt32 then
      setProc p fun pr => { pr with killed := true }
      assertState (some p) .SLEEPING
      warnIf ((← onLinks (removeFromStateList .sleep (some p))) < 0)
        "Could not remove SLEEPING proc from list (kill).\n"
      setProc p fun pr => { pr with state := .RUNNABLE }
      let sList ← readyList (← procOf p).priority
      warnIf ((← onLinks (addToStateListEnd sList (some p))) < 0)
        "Could not add RUNNABLE proc to list (kill).\n"
      return .inr 0
    return .inl (← nextOf p)

def kill (pid : Int32) : K NPROC MAX NCPU Int32 := do
  match ← killSleeping pid with
  | some r => return r
  | none =>
      let r ← firstOf (killOn pid) ((levels MAX).map .ready ++ [.running, .free, .zombie, .embryo])
      return r.getD (-1)

/-- The loops of `setpriority` over the running and the sleep list. -/
def setpriorityOn (pid : Int32) (priority : Nat) (sList : SList MAX) :
    K NPROC MAX NCPU (Option Int32) :=
  walkList sList fun p => do
    if (← procOf p).pid = pid.toUInt32 then
      setProc p fun pr => { pr with priority := priority, budget := BUDGET }
      return .inr 0
    return .inl (← nextOf p)

/-- The loop of `setpriority` over a ready list. -/
def setpriorityReady (pid : Int32) (priority : Nat) (i : Fin (MAX + 1)) :
    K NPROC MAX NCPU (Option Int32) :=
  walkList (.ready i) fun p => do
    if (← procOf p).pid = pid.toUInt32 then
      let old ← readyList (← procOf p).priority
      let was := (← procOf p).priority
      warnIf ((← onLinks (removeFromStateList old (some p))) < 0)
        s!"setpriority: remove from ready list[{was}] failed.\n"
      setProc p fun pr => { pr with priority := priority }
      let new ← readyList (← procOf p).priority
      warnIf ((← onLinks (addToStateListEnd new (some p))) < 0)
        s!"setpriority: add to ready list[{priority}] failed.\n"
      setProc p fun pr => { pr with budget := BUDGET }
      return .inr 0
    return .inl (← nextOf p)

/-- `sys_setpriority` has checked `0 ≤ priority ≤ MAX`. -/
def setpriority (pid : Int32) (priority : Nat) : K NPROC MAX NCPU Int32 := do
  match ← firstOf (setpriorityReady pid priority) (levels MAX) with
  | some r => return r
  | none =>
      let r ← firstOf (setpriorityOn pid priority) [.running, .sleep]
      return r.getD (-1)

/-! ## the first process -/

/-- A slot of the zeroed table. -/
def Proc.zero : Proc NPROC :=
  { sz := 0, pgdir := none, kstack := none, state := .UNUSED, pid := 0, parent := none
    context := .forkret, chan := none, killed := false, ofile := fun _ => none, cwd := none
    name := [], startTicks := 0, uid := 0, gid := 0, cpuTicksTotal := 0, cpuTicksIn := 0
    priority := 0, budget := 0 }

/-- A booting kernel. -/
def boot (ticks : UInt32) : Kern NPROC MAX NCPU where
  proc := fun _ => .zero
  links := ⟨fun _ => none, fun _ => none⟩
  promoteAtTime := 0
  initproc := none
  nextpid := 1
  ticks := ticks
  cpus := fun _ => none
  trace := []

/-- The name `initcode`. -/
def initcode : List UInt8 := [105, 110, 105, 116, 99, 111, 100, 101]

/-- `userinit` when it has a process. -/
def initFirst (p : Fin NPROC) (setupkvm namei : Option Nat) : K NPROC MAX NCPU Unit := do
  setProc p fun pr => { pr with pgdir := setupkvm }
  if setupkvm = none then throw (.panic "userinit: out of memory?")
  setProc p fun pr =>
    { pr with
      sz := 4096, uid := UID, gid := GID, parent := some p, name := initcode, cwd := namei }
  assertState (some p) .EMBRYO
  warnIf ((← onLinks (removeFromStateList .embryo (some p))) < 0)
    "Failed to remove EMBRYO proc from list (userinit).\n"
  setProc p fun pr => { pr with state := .RUNNABLE }
  onLinks do
    setHead (.ready 0) (some p)
    setNext p none
    ((levels MAX).drop 1).forM fun i => setHead (.ready i) none
    setHead .sleep none
    setHead .zombie none
    setHead .running none
    setHead .embryo none

def userinit (kalloc setupkvm namei : Option Nat) : K NPROC MAX NCPU Unit := do
  modify fun s => { s with promoteAtTime := TIME_TO_PROMOTE }
  (List.finRange NPROC).forM fun p => do
    assertState (some p) .UNUSED
    if (← onLinks (addToStateListEnd .free (some p))) == -1 then
      throw (.panic "Failed to add proc to UNUSED list.\n")
  let p ← allocproc kalloc
  modify fun s => { s with initproc := p }
  match p with
  | none => throw .fault
  | some p => initFirst p setupkvm namei

end Xv6.Ptable
