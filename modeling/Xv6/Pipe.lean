import Xv6.Lib.Run
import Xv6.Lib.Ring
import Xv6.Param

/-!
# Xv6.Pipe

The pipes of `pipe.c`.  A pipe is a ring of `PIPESIZE` bytes with two
free-running counters; `pipewrite` and `piperead` run under `p->lock` and
suspend in the middle of their loops with `sleep`.

The unit of interleaving is the *stretch*: what one process does between
taking `p->lock` (by `acquire`, or by `sleep` returning) and giving it up (by
`sleep`, or by `release`).  `pipewriteLoop` and `piperead` compute one whole
stretch, and `step` schedules stretches of any number of processes, together
with `kill` and `pipeclose`.  `wakeup` only makes sleepers runnable; a
process that was woken continues at its next stretch, so `p->lock` is free in
every state of a run.

The state also records what the stretches did: `input` and `output` are all
bytes stored and handed out so far, and each process keeps the buffer of its
latest `pipewrite`, what that call has stored and what it returned.
-/

namespace Xv6

/-- `#define PIPESIZE 512`. -/
def PIPESIZE : Nat := 512

instance : NeZero PIPESIZE := ⟨by decide⟩

theorem pipesize_dvd : PIPESIZE ∣ 2 ^ 32 := by decide

/-! ## the pipe and its processes -/

/-- `struct pipe`, without its lock. -/
structure Pipe where
  data : Fin PIPESIZE → UInt8
  nread : UInt32
  nwrite : UInt32
  readopen : Bool
  writeopen : Bool

namespace Pipe

/-- The two channels of a pipe, `&p->nread` and `&p->nwrite`. -/
inductive Chan
  | nread
  | nwrite
  deriving DecidableEq

/-- Where a process is: outside the pipe code, or suspended in the `sleep` of
`pipewrite` with the bytes `addr[i..n)` still to store, or suspended in the
`sleep` of `piperead`.  The flag tells `SLEEPING` from `RUNNABLE`. -/
inductive Status
  | idle
  | writing (rest : List UInt8) (asleep : Bool)
  | reading (n : Nat) (asleep : Bool)
  deriving DecidableEq

/-- A process: its `killed` flag, where it is, and the record of its latest
`pipewrite`: the buffer, the bytes stored from it, the value returned. -/
structure Proc where
  killed : Bool
  status : Status
  addr : List UInt8
  stored : List UInt8
  ret : Option Int

structure State (P : Type) where
  pipe : Pipe
  proc : P → Proc
  input : List UInt8
  output : List UInt8

/-- The process sleeps on the channel `c`. -/
def Proc.AsleepOn (pr : Proc) (c : Chan) : Prop :=
  match c, pr.status with
  | .nread, .reading _ true => True
  | .nwrite, .writing _ true => True
  | _, _ => False

/-- `SLEEPING` becomes `RUNNABLE`. -/
def Status.wake : Status → Status
  | .writing rest _ => .writing rest false
  | .reading n _ => .reading n false
  | .idle => .idle

/-- What `wakeup(c)` does to one process. -/
def Proc.wakeup (c : Chan) (pr : Proc) : Proc :=
  match c, pr.status with
  | .nread, .reading _ true => { pr with status := pr.status.wake }
  | .nwrite, .writing _ true => { pr with status := pr.status.wake }
  | _, _ => pr

section Code

variable {P : Type} [DecidableEq P]

namespace State

def setProc (s : State P) (me : P) (pr : Proc) : State P :=
  { s with proc := Function.update s.proc me pr }

/-- `wakeup(chan)`. -/
def wakeup (s : State P) (c : Chan) : State P :=
  { s with proc := fun q => (s.proc q).wakeup c }

/-- `sleep(&p->nwrite, &p->lock)` in `pipewrite`. -/
def sleepWrite (s : State P) (me : P) (rest : List UInt8) : State P :=
  s.setProc me { s.proc me with status := .writing rest true }

/-- `sleep(&p->nread, &p->lock)` in `piperead`. -/
def sleepRead (s : State P) (me : P) (n : Nat) : State P :=
  s.setProc me { s.proc me with status := .reading n true }

/-- `release(&p->lock); return r;` in `pipewrite`. -/
def returnWrite (s : State P) (me : P) (r : Int) : State P :=
  s.setProc me { s.proc me with status := .idle, ret := some r }

/-- `release(&p->lock); return r;` in `piperead`. -/
def returnRead (s : State P) (me : P) : State P :=
  s.setProc me { s.proc me with status := .idle }

/-- `p->data[p->nwrite++ % PIPESIZE] = addr[i]`. -/
def store (s : State P) (me : P) (b : UInt8) : State P :=
  { s with
    pipe := { s.pipe with
      data := Function.update s.pipe.data (Ring.slot PIPESIZE s.pipe.nwrite) b
      nwrite := s.pipe.nwrite + 1 }
    proc := Function.update s.proc me
      { s.proc me with stored := (s.proc me).stored ++ [b] }
    input := s.input ++ [b] }

/-- `addr[i] = p->data[p->nread++ % PIPESIZE]`. -/
def fetch (s : State P) : State P :=
  { s with
    pipe := { s.pipe with nread := s.pipe.nread + 1 }
    output := s.output ++ [s.pipe.data (Ring.slot PIPESIZE s.pipe.nread)] }

end State

/-! ## pipe.c -/

/-- The pipe part of `pipealloc`: the page from `kalloc` has arbitrary
contents and only the counters and the two flags are set; `none` is the
`bad` path. -/
def pipealloc (page : Option (Fin PIPESIZE → UInt8)) : Option Pipe :=
  page.map fun data =>
    { data, nread := 0, nwrite := 0, readopen := true, writeopen := true }

/-- `p->nwrite == p->nread + PIPESIZE`. -/
def full (p : Pipe) : Bool := p.nwrite == p.nread + UInt32.ofNat PIPESIZE

/-- `p->nread == p->nwrite`. -/
def empty (p : Pipe) : Bool := p.nread == p.nwrite

/-- One stretch of `pipewrite` from the point where `rest` is still to be
stored: the `for` loop up to the next `sleep` or `return`. -/
def pipewriteLoop (s : State P) (me : P) : List UInt8 → State P
  | [] => (s.wakeup .nread).returnWrite me (s.proc me).addr.length
  | b :: rest =>
      if s.pipe.full then
        -- the body of the `while`; a woken process evaluates its test again
        if !s.pipe.readopen || (s.proc me).killed then s.returnWrite me (-1)
        else (s.wakeup .nread).sleepWrite me (b :: rest)
      else pipewriteLoop (s.store me b) me rest

/-- `pipewrite(p, addr, n)` up to its first `sleep` or its `return`. -/
def pipewrite (s : State P) (me : P) (addr : List UInt8) : State P :=
  pipewriteLoop (s.setProc me { s.proc me with addr, stored := [], ret := none }) me addr

/-- The copy loop of `piperead`. -/
def pipereadCopy (s : State P) : Nat → State P
  | 0 => s
  | n + 1 => if s.pipe.empty then s else pipereadCopy s.fetch n

/-- One stretch of `piperead(p, addr, n)`, from `acquire` or from the return
of its `sleep`. -/
def piperead (s : State P) (me : P) (n : Nat) : State P :=
  if s.pipe.empty && s.pipe.writeopen then
    if (s.proc me).killed then s.returnRead me
    else s.sleepRead me n
  else ((pipereadCopy s n).wakeup .nwrite).returnRead me

/-- `pipeclose(p, writable)`. -/
def pipeclose (s : State P) (writable : Bool) : State P :=
  if writable then
    { s with pipe := { s.pipe with writeopen := false } }.wakeup .nread
  else
    { s with pipe := { s.pipe with readopen := false } }.wakeup .nwrite

/-- The pipe part of `kill`: the flag, and the process runs again if it
sleeps, on whatever channel. -/
def kill (s : State P) (q : P) : State P :=
  s.setProc q { s.proc q with killed := true, status := (s.proc q).status.wake }

/-! ## interleavings -/

inductive Label (P : Type)
  | write (me : P) (addr : List UInt8)
  | read (me : P) (n : Nat)
  | resume (me : P)
  | kill (q : P)
  | close (writable : Bool)

/-- One stretch.  Once both ends are closed `pipeclose` has given the page
back with `kfree`, and there is no pipe to run on. -/
def step (s : State P) (l : Label P) : Option (State P) :=
  if !s.pipe.readopen && !s.pipe.writeopen then none
  else match l with
    | .write me addr =>
        match (s.proc me).status with
        | .idle => some (pipewrite s me addr)
        | _ => none
    | .read me n =>
        match (s.proc me).status with
        | .idle => some (piperead s me n)
        | _ => none
    | .resume me =>
        match (s.proc me).status with
        | .writing rest false => some (pipewriteLoop s me rest)
        | .reading n false => some (piperead s me n)
        | _ => none
    | .kill q => some (kill s q)
    | .close writable => some (pipeclose s writable)

/-- What a step can be: the six kinds of stretches, each with the state it
starts from. -/
theorem step_cases {s s' : State P} {l : Label P} (h : step s l = some s') :
    (∃ me addr, l = .write me addr ∧ (s.proc me).status = .idle ∧ s' = pipewrite s me addr) ∨
    (∃ me n, l = .read me n ∧ (s.proc me).status = .idle ∧ s' = piperead s me n) ∨
    (∃ me rest, l = .resume me ∧ (s.proc me).status = .writing rest false ∧
      s' = pipewriteLoop s me rest) ∨
    (∃ me n, l = .resume me ∧ (s.proc me).status = .reading n false ∧ s' = piperead s me n) ∨
    (∃ q, l = .kill q ∧ s' = kill s q) ∨
    (∃ w, l = .close w ∧ s' = pipeclose s w) := by
  unfold step at h
  split at h
  · contradiction
  · cases l with
    | write me addr =>
        simp only at h
        split at h
        · next hst => exact Or.inl ⟨me, addr, rfl, hst, (Option.some.inj h).symm⟩
        · contradiction
    | read me n =>
        simp only at h
        split at h
        · next hst => exact Or.inr (Or.inl ⟨me, n, rfl, hst, (Option.some.inj h).symm⟩)
        · contradiction
    | resume me =>
        simp only at h
        split at h
        · next rest hst =>
            exact Or.inr (Or.inr (Or.inl ⟨me, rest, rfl, hst, (Option.some.inj h).symm⟩))
        · next n hst =>
            exact Or.inr (Or.inr (Or.inr (Or.inl ⟨me, n, rfl, hst, (Option.some.inj h).symm⟩)))
        · contradiction
    | kill q =>
        exact Or.inr (Or.inr (Or.inr (Or.inr (Or.inl ⟨q, rfl, (Option.some.inj h).symm⟩))))
    | close w =>
        exact Or.inr (Or.inr (Or.inr (Or.inr (Or.inr ⟨w, rfl, (Option.some.inj h).symm⟩))))

/-- A fresh pipe, no process in a call on it. -/
def start (p : Pipe) : State P where
  pipe := p
  proc := fun _ => ⟨false, .idle, [], [], none⟩
  input := []
  output := []

end Code

end Pipe
end Xv6
