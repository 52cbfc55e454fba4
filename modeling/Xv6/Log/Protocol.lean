import Xv6.Log
import Xv6.Lib.Run
import Xv6.Lib.Weight

/-!
# Xv6.Log.Protocol

`begin_op`, `log_write` and `end_op` run by any number of processes.

The steps are the stretches that are atomic in the source: each section under
`log.lock` (`begin_op`'s loop body up to `sleep` or `release`, the
search-and-append of `log_write`, the two sections of `end_op`), and what
runs without the lock in between: the two tests at the top of `log_write`,
and `commit`, whose only effect on the shared variables is `log.lh.n = 0`.
`sleep` gives the lock up and puts the process to sleep in one step, as
`ptable.lock` makes it do; `kill` may wake a sleeper at any time.

A panic stops the machine.  So does an append to a header that already has
`LOGSIZE` entries: `block[LOGSIZE]` is not there.

Two records are kept besides the variables of the source: in each process,
the blocks its operation has logged; and in the state, the blocks that the
operations since the last commit have logged (`txn`).
-/

namespace Xv6.Log.Protocol

/-- The fields of `struct log` that the protocol uses; `lh` holds
`block[0..n)`. -/
structure Shared where
  start : Nat
  size : Nat
  outstanding : Int
  committing : Bool
  lh : List Nat

/-- Where a process is. -/
inductive Pc
  /-- outside `begin_op .. end_op` -/
  | idle
  /-- in the loop of `begin_op`, `SLEEPING` on `&log` or woken -/
  | waiting (asleep : Bool)
  /-- between `begin_op` and `end_op` -/
  | inOp (used : Finset Nat)
  /-- in `log_write`, past the tests and not yet holding the lock -/
  | logging (used : Finset Nat) (b : Nat)
  /-- in `end_op`, about to run `commit` -/
  | commit
  /-- in `end_op`, back from `commit` -/
  | committed
  deriving DecidableEq

/-- Why the machine stopped. -/
inductive Halt
  | panic (msg : String)
  | overrun
  deriving DecidableEq

structure State (P : Type) where
  log : Shared
  pc : P → Pc
  halt : Option Halt
  txn : Finset Nat

inductive Label (P : Type)
  | beginOp (p : P)
  | test (p : P) (b : Nat)
  | append (p : P)
  | endOp (p : P)
  | commit (p : P)
  | endCommit (p : P)
  | kill (p : P)

/-- `SLEEPING` becomes `RUNNABLE`. -/
def Pc.wake : Pc → Pc
  | .waiting _ => .waiting false
  | pc => pc

section Code

variable {P : Type}

/-- `wakeup(&log)`: only `begin_op` sleeps there. -/
def wakeup (s : State P) : State P := { s with pc := fun p => (s.pc p).wake }

def stop (s : State P) (h : Halt) : State P := { s with halt := some h }

variable [DecidableEq P]

def setPc (s : State P) (p : P) (pc : Pc) : State P :=
  { s with pc := Function.update s.pc p pc }

/-- One pass of the loop of `begin_op`. -/
def beginOp (s : State P) (p : P) : State P :=
  if s.log.committing then
    setPc s p (.waiting true)
  else if (s.log.lh.length : Int) + (s.log.outstanding + 1) * MAXOPBLOCKS > LOGSIZE then
    -- this op might exhaust log space; wait for commit
    setPc s p (.waiting true)
  else
    setPc { s with log := { s.log with outstanding := s.log.outstanding + 1 } } p (.inOp ∅)

/-- The tests of `log_write`, made before `acquire`. -/
def logWriteTest (s : State P) (p : P) (used : Finset Nat) (b : Nat) : State P :=
  if LOGSIZE ≤ s.log.lh.length ∨ s.log.size - 1 ≤ s.log.lh.length then
    stop s (.panic "too big a transaction")
  else if s.log.outstanding < 1 then
    stop s (.panic "log_write outside of trans")
  else setPc s p (.logging used b)

/-- The locked part of `log_write`. -/
def logWriteAppend (s : State P) (p : P) (used : Finset Nat) (b : Nat) : State P :=
  if LOGSIZE ≤ s.log.lh.idxOf b then stop s .overrun
  else setPc { s with log := { s.log with lh := absorb s.log.lh b }, txn := insert b s.txn } p
    (.inOp (insert b used))

/-- The first locked section of `end_op`. -/
def endOp (s : State P) (p : P) : State P :=
  let s := { s with log := { s.log with outstanding := s.log.outstanding - 1 } }
  if s.log.committing then stop s (.panic "log.committing")
  else if s.log.outstanding = 0 then
    setPc { s with log := { s.log with committing := true } } p .commit
  else
    -- begin_op() may be waiting for log space
    setPc (wakeup s) p .idle

/-- `commit()`; its disk writes are those of `Log.commit`. -/
def runCommit (s : State P) (p : P) : State P :=
  setPc { s with log := { s.log with lh := [] }, txn := ∅ } p .committed

/-- The second locked section of `end_op`. -/
def endCommit (s : State P) (p : P) : State P :=
  setPc (wakeup { s with log := { s.log with committing := false } }) p .idle

def step (s : State P) (l : Label P) : Option (State P) :=
  if s.halt.isSome then none
  else match l with
    | .beginOp p =>
        match s.pc p with
        | .idle | .waiting false => some (beginOp s p)
        | _ => none
    | .test p b =>
        match s.pc p with
        | .inOp used => some (logWriteTest s p used b)
        | _ => none
    | .append p =>
        match s.pc p with
        | .logging used b => some (logWriteAppend s p used b)
        | _ => none
    | .endOp p =>
        match s.pc p with
        | .inOp _ => some (endOp s p)
        | _ => none
    | .commit p =>
        match s.pc p with
        | .commit => some (runCommit s p)
        | _ => none
    | .endCommit p =>
        match s.pc p with
        | .committed => some (endCommit s p)
        | _ => none
    | .kill p => some (setPc s p (s.pc p).wake)

end Code

/-- The log after `initlog` has recovered it. -/
def init {P : Type} (start size : Nat) : State P where
  log := ⟨start, size, 0, false, []⟩
  pc := fun _ => .idle
  halt := none
  txn := ∅

section Step

variable {P : Type} [DecidableEq P]

/-- What a step can be. -/
theorem step_cases {s s' : State P} {l : Label P} (h : step s l = some s') :
    s.halt = none ∧
    ((∃ p, l = .beginOp p ∧ (s.pc p = .idle ∨ s.pc p = .waiting false) ∧ s' = beginOp s p) ∨
    (∃ p b used, l = .test p b ∧ s.pc p = .inOp used ∧ s' = logWriteTest s p used b) ∨
    (∃ p b used, l = .append p ∧ s.pc p = .logging used b ∧ s' = logWriteAppend s p used b) ∨
    (∃ p used, l = .endOp p ∧ s.pc p = .inOp used ∧ s' = endOp s p) ∨
    (∃ p, l = .commit p ∧ s.pc p = .commit ∧ s' = runCommit s p) ∨
    (∃ p, l = .endCommit p ∧ s.pc p = .committed ∧ s' = endCommit s p) ∨
    (∃ p, l = .kill p ∧ s' = setPc s p (s.pc p).wake)) := by
  unfold step at h
  split at h
  · contradiction
  · next hh =>
      refine ⟨by simpa using hh, ?_⟩
      cases l with
      | beginOp p =>
          simp only at h
          split at h
          · next hpc => exact .inl ⟨p, rfl, .inl hpc, (Option.some.inj h).symm⟩
          · next hpc => exact .inl ⟨p, rfl, .inr hpc, (Option.some.inj h).symm⟩
          · contradiction
      | test p b =>
          simp only at h
          split at h
          · next used hpc => exact .inr (.inl ⟨p, b, used, rfl, hpc, (Option.some.inj h).symm⟩)
          · contradiction
      | append p =>
          simp only at h
          split at h
          · next used b hpc =>
              exact .inr (.inr (.inl ⟨p, b, used, rfl, hpc, (Option.some.inj h).symm⟩))
          · contradiction
      | endOp p =>
          simp only at h
          split at h
          · next used hpc =>
              exact .inr (.inr (.inr (.inl ⟨p, used, rfl, hpc, (Option.some.inj h).symm⟩)))
          · contradiction
      | commit p =>
          simp only at h
          split at h
          · next hpc =>
              exact .inr (.inr (.inr (.inr (.inl ⟨p, rfl, hpc, (Option.some.inj h).symm⟩))))
          · contradiction
      | endCommit p =>
          simp only at h
          split at h
          · next hpc =>
              exact .inr (.inr (.inr (.inr (.inr (.inl
                ⟨p, rfl, hpc, (Option.some.inj h).symm⟩)))))
          · contradiction
      | kill p =>
          exact .inr (.inr (.inr (.inr (.inr (.inr ⟨p, rfl, (Option.some.inj h).symm⟩)))))

end Step

/-! ## the invariant -/

/-- `1` for a process between `begin_op` and `end_op`. -/
def Pc.inside : Pc → Nat
  | .inOp _ | .logging _ _ => 1
  | _ => 0

/-- `1` for a process in the commit part of `end_op`. -/
def Pc.committing : Pc → Nat
  | .commit | .committed => 1
  | _ => 0

/-- The blocks the current operation has logged. -/
def Pc.used : Pc → Finset Nat
  | .inOp used | .logging used _ => used
  | _ => ∅

/-- The wait condition of `begin_op`. -/
def Waits (log : Shared) : Prop :=
  log.committing = true ∨ (log.lh.length : Int) + (log.outstanding + 1) * MAXOPBLOCKS > LOGSIZE

/-- What holds of each process: one back from `commit` has left the header
empty, one asleep in `begin_op` has reason to be, and what an operation has
logged is in the header. -/
structure Local (log : Shared) (pc : Pc) : Prop where
  cleared : pc = .committed → log.lh = []
  asleep : pc = .waiting true → Waits log
  used : pc.used ⊆ log.lh.toFinset

variable {P : Type} [Fintype P]

structure Inv (s : State P) : Prop where
  outstanding : s.log.outstanding = Weight.total Pc.inside s.pc
  committers : Weight.total Pc.committing s.pc = if s.log.committing then 1 else 0
  exclusive : s.log.committing = true → Weight.total Pc.inside s.pc = 0
  empty : s.log.committing = false → Weight.total Pc.inside s.pc = 0 → s.log.lh = []
  locals : ∀ p, Local s.log (s.pc p)
  nodup : s.log.lh.Nodup
  txn : s.txn = s.log.lh.toFinset
  halt : ∀ h, s.halt = some h → h = .panic "too big a transaction" ∨ h = .overrun

theorem inv_init (start size : Nat) : Inv (init start size : State P) where
  outstanding := by simp [init, Weight.total, Pc.inside]
  committers := by simp [init, Weight.total, Pc.committing]
  exclusive := by simp [init]
  empty := fun _ _ => rfl
  locals := fun p => ⟨by simp [init], by simp [init], by simp [init, Pc.used]⟩
  nodup := List.nodup_nil
  txn := rfl
  halt := by simp [init]

/-! ## wakeups -/

@[simp] theorem Pc.inside_wake (pc : Pc) : pc.wake.inside = pc.inside := by
  cases pc <;> rfl

@[simp] theorem Pc.committing_wake (pc : Pc) : pc.wake.committing = pc.committing := by
  cases pc <;> rfl

@[simp] theorem Pc.used_wake (pc : Pc) : pc.wake.used = pc.used := by
  cases pc <;> rfl

theorem Pc.wake_ne_asleep (pc : Pc) : pc.wake ≠ .waiting true := by
  cases pc <;> simp [Pc.wake]

theorem Pc.wake_eq_committed {pc : Pc} (h : pc.wake = .committed) : pc = .committed := by
  cases pc <;> simp_all [Pc.wake]

/-- A woken process has no wait condition to keep. -/
theorem Local.wake {log log' : Shared} {pc : Pc} (h : Local log pc)
    (hlh : log'.lh = log.lh) : Local log' pc.wake where
  cleared := fun hc => by rw [hlh]; exact h.cleared (Pc.wake_eq_committed hc)
  asleep := fun ha => absurd ha pc.wake_ne_asleep
  used := by rw [Pc.used_wake, hlh]; exact h.used

/-- The header stays and the wait condition holds at least as often. -/
theorem Local.mono {log log' : Shared} {pc : Pc} (h : Local log pc) (hlh : log'.lh = log.lh)
    (hw : Waits log → Waits log') : Local log' pc where
  cleared := fun hc => by rw [hlh]; exact h.cleared hc
  asleep := fun ha => hw (h.asleep ha)
  used := by rw [hlh]; exact h.used

theorem Local.of_plain {log : Shared} {pc : Pc} (hc : pc ≠ .committed) (ha : pc ≠ .waiting true)
    (hu : pc.used ⊆ log.lh.toFinset) : Local log pc :=
  ⟨fun h => absurd h hc, fun h => absurd h ha, hu⟩

/-! ## counting -/

/-- A process inside an operation is counted in `outstanding`. -/
theorem Inv.outstanding_pos {s : State P} (hi : Inv s) {p : P} (hp : (s.pc p).inside = 1) :
    0 < s.log.outstanding := by
  have := Weight.le_total Pc.inside s.pc p
  have := hi.outstanding
  omega

/-- While a process is inside an operation, nobody commits. -/
theorem Inv.not_committing {s : State P} (hi : Inv s) {p : P} (hp : (s.pc p).inside = 1) :
    s.log.committing = false ∧ ∀ q, (s.pc q).committing = 0 := by
  have hnc : s.log.committing = false := by
    by_contra h
    have := hi.exclusive (by simpa using h)
    have := Weight.le_total Pc.inside s.pc p
    omega
  refine ⟨hnc, fun q => ?_⟩
  have := Weight.le_total Pc.committing s.pc q
  rw [hi.committers, hnc] at this
  simpa using this

/-- Stopping for one of the two reasons that can occur keeps the invariant. -/
theorem Inv.stop {s : State P} (hi : Inv s) {h : Halt}
    (hh : h = .panic "too big a transaction" ∨ h = .overrun) : Inv (stop s h) :=
  { hi with halt := fun h' he => by rw [← Option.some.inj he]; exact hh }

theorem total_wake {w : Pc → Nat} (hw : ∀ pc, w pc.wake = w pc) (g : P → Pc) :
    Weight.total w (fun q => (g q).wake) = Weight.total w g :=
  Weight.total_congr fun q => hw (g q)

variable [DecidableEq P]

/-- A process that weighs the same before and after. -/
theorem total_setPc {w : Pc → Nat} {g : P → Pc} {p : P} {pc : Pc} (h : w pc = w (g p)) :
    Weight.total w (Function.update g p pc) = Weight.total w g := by
  have := Weight.total_update w g p pc
  omega

omit [Fintype P] in
theorem locals_update {log : Shared} {g : P → Pc} {p : P} {pc : Pc} (hp : Local log pc)
    (hothers : ∀ q, q ≠ p → Local log (g q)) : ∀ q, Local log (Function.update g p pc q) := by
  intro q
  by_cases hqp : q = p
  · subst hqp; rw [Function.update_self]; exact hp
  · rw [Function.update_of_ne hqp]; exact hothers q hqp

/-! ## each step keeps the invariant -/

/-- A process moves without touching the shared variables and without
entering or leaving an operation or a commit. -/
theorem Inv.setPc {s : State P} (hi : Inv s) {p : P} {pc : Pc}
    (hin : pc.inside = (s.pc p).inside) (hcom : pc.committing = (s.pc p).committing)
    (hl : Local s.log pc) : Inv (setPc s p pc) where
  outstanding := by
    simp only [Protocol.setPc, total_setPc hin]; exact hi.outstanding
  committers := by
    simp only [Protocol.setPc, total_setPc hcom]; exact hi.committers
  exclusive := by
    simp only [Protocol.setPc, total_setPc hin]; exact hi.exclusive
  empty := by
    simp only [Protocol.setPc, total_setPc hin]; exact hi.empty
  locals := locals_update hl fun q _ => hi.locals q
  nodup := hi.nodup
  txn := hi.txn
  halt := hi.halt

theorem beginOp_inv {s : State P} (hi : Inv s) {p : P}
    (hpc : s.pc p = .idle ∨ s.pc p = .waiting false) : Inv (beginOp s p) := by
  have hout : (s.pc p).inside = 0 := by rcases hpc with h | h <;> rw [h] <;> rfl
  have hcom : (s.pc p).committing = 0 := by rcases hpc with h | h <;> rw [h] <;> rfl
  have hsleep : Waits s.log → Inv (setPc s p (.waiting true)) := fun hw =>
    hi.setPc hout.symm hcom.symm ⟨by simp, fun _ => hw, by simp [Pc.used]⟩
  rw [beginOp]
  split
  · next hc => exact hsleep (.inl hc)
  · next hc =>
      split
      · next hfull => exact hsleep (.inr hfull)
      · have htot := Weight.total_update Pc.inside s.pc p (.inOp ∅)
        rw [hout, show Pc.inside (.inOp ∅) = 1 from rfl] at htot
        have hcomt : Weight.total Pc.committing (Function.update s.pc p (.inOp ∅)) =
            Weight.total Pc.committing s.pc := total_setPc hcom.symm
        have houtst := hi.outstanding
        refine ⟨?_, ?_, fun h => absurd h hc, fun _ h => ?_, ?_, hi.nodup, hi.txn, hi.halt⟩
        · simp only [setPc]; omega
        · simp only [setPc, hcomt]; exact hi.committers
        · simp only [setPc] at h; omega
        · simp only [setPc]
          refine locals_update (.of_plain (by simp) (by simp) (by simp [Pc.used])) fun q _ => ?_
          -- one more operation: the wait condition only gets more true
          refine (hi.locals q).mono rfl fun hw => ?_
          rcases hw with hw | hw
          · exact .inl hw
          · refine .inr ?_
            simp only [MAXOPBLOCKS] at hw ⊢
            omega

theorem logWriteTest_inv {s : State P} (hi : Inv s) {p : P} {used : Finset Nat} {b : Nat}
    (hpc : s.pc p = .inOp used) : Inv (logWriteTest s p used b) := by
  have hin : (s.pc p).inside = 1 := by rw [hpc]; rfl
  have hpos := hi.outstanding_pos hin
  have hused := (hi.locals p).used
  rw [hpc] at hused
  rw [logWriteTest]
  split
  · exact hi.stop (.inl rfl)
  · rw [if_neg (by omega)]
    exact hi.setPc (by rw [hpc]; rfl) (by rw [hpc]; rfl) (.of_plain (by simp) (by simp) hused)

/-- Appending to the header: the new block is there, the old ones stay, and
there are still no duplicates. -/
theorem absorb_spec {lh : List Nat} (h : lh.Nodup) (b : Nat) :
    (absorb lh b).Nodup ∧ (absorb lh b).toFinset = insert b lh.toFinset ∧
      lh.length ≤ (absorb lh b).length := by
  by_cases hb : b ∈ lh
  · rw [absorb_of_mem hb]
    exact ⟨h, by simp [hb], le_refl _⟩
  · rw [absorb_of_not_mem hb]
    refine ⟨h.append (List.nodup_singleton b) (by simpa using hb), ?_, by simp⟩
    ext x
    simp

theorem logWriteAppend_inv {s : State P} (hi : Inv s) {p : P} {used : Finset Nat} {b : Nat}
    (hpc : s.pc p = .logging used b) : Inv (logWriteAppend s p used b) := by
  have hin : (s.pc p).inside = 1 := by rw [hpc]; rfl
  obtain ⟨hnc, hnocom⟩ := hi.not_committing hin
  obtain ⟨hnodup, htofin, hlen⟩ := absorb_spec hi.nodup b
  have hused := (hi.locals p).used
  rw [hpc] at hused
  rw [logWriteAppend]
  split
  · exact hi.stop (.inr rfl)
  · have htot : Weight.total Pc.inside (Function.update s.pc p (.inOp (insert b used))) =
        Weight.total Pc.inside s.pc := total_setPc hin.symm
    have hcomt : Weight.total Pc.committing (Function.update s.pc p (.inOp (insert b used))) =
        Weight.total Pc.committing s.pc := total_setPc (hnocom p).symm
    refine ⟨?_, ?_, ?_, fun _ h => ?_, ?_, hnodup, ?_, hi.halt⟩
    · simp only [setPc, htot]; exact hi.outstanding
    · simp only [setPc, hcomt]; exact hi.committers
    · simp only [setPc, htot]; exact hi.exclusive
    · have := Weight.le_total Pc.inside s.pc p
      simp only [setPc, htot] at h
      omega
    · simp only [setPc]
      refine locals_update (.of_plain (by simp) (by simp) ?_) fun q _ => ?_
      · rw [htofin]
        exact Finset.insert_subset_insert b hused
      · -- a longer header only makes sleepers wait with more reason
        refine ⟨fun hq => ?_, fun hq => ?_, ?_⟩
        · have := hnocom q
          rw [hq] at this
          exact absurd this (by simp [Pc.committing])
        · rcases (hi.locals q).asleep hq with h | h
          · exact .inl h
          · refine .inr ?_
            simp only
            omega
        · rw [htofin]
          exact (hi.locals q).used.trans (Finset.subset_insert b _)
    · simp only [setPc]
      rw [hi.txn, htofin]

theorem endOp_inv {s : State P} (hi : Inv s) {p : P} {used : Finset Nat}
    (hpc : s.pc p = .inOp used) : Inv (endOp s p) := by
  have hin : (s.pc p).inside = 1 := by rw [hpc]; rfl
  have hpos := hi.outstanding_pos hin
  have hout := hi.outstanding
  obtain ⟨hnc, hnocom⟩ := hi.not_committing hin
  simp only [endOp, hnc, Bool.false_eq_true, if_false]
  split
  · next hzero =>
      -- the last operation: everybody else is outside
      have htot := Weight.total_update Pc.inside s.pc p .commit
      have hcom := Weight.total_update Pc.committing s.pc p .commit
      rw [hin, show Pc.inside .commit = 0 from rfl] at htot
      rw [hnocom p, hi.committers, hnc, show Pc.committing .commit = 1 from rfl] at hcom
      have hz : Weight.total Pc.inside (Function.update s.pc p .commit) = 0 := by omega
      refine ⟨?_, by simpa [setPc] using hcom, fun _ => hz, by simp [setPc], ?_, hi.nodup,
        hi.txn, hi.halt⟩
      · simp only [setPc, hz]; omega
      · exact locals_update (.of_plain (by simp) (by simp) (by simp [Pc.used])) fun q _ =>
          (hi.locals q).mono rfl fun _ => .inl rfl
  · next hne =>
      have htot := Weight.total_update Pc.inside (fun q => (s.pc q).wake) p .idle
      have hcom := Weight.total_update Pc.committing (fun q => (s.pc q).wake) p .idle
      rw [Pc.inside_wake, hin, total_wake Pc.inside_wake,
        show Pc.inside .idle = 0 from rfl] at htot
      rw [Pc.committing_wake, hnocom p, total_wake Pc.committing_wake, hi.committers, hnc,
        show Pc.committing .idle = 0 from rfl] at hcom
      refine ⟨?_, ?_, fun h => ?_, fun _ h => ?_, ?_, hi.nodup, hi.txn, hi.halt⟩
      · simp only [setPc, wakeup]; omega
      · simpa [setPc, wakeup, hnc] using hcom
      · exact absurd h (by simp [setPc, wakeup])
      · simp only [setPc, wakeup] at h
        omega
      · exact locals_update (.of_plain (by simp) (by simp) (by simp [Pc.used])) fun q _ =>
          (hi.locals q).wake rfl

theorem runCommit_inv {s : State P} (hi : Inv s) {p : P} (hpc : s.pc p = .commit) :
    Inv (runCommit s p) := by
  have hin : Weight.total Pc.inside (Function.update s.pc p .committed) =
      Weight.total Pc.inside s.pc := total_setPc (by rw [hpc]; rfl)
  have hcom : Weight.total Pc.committing (Function.update s.pc p .committed) =
      Weight.total Pc.committing s.pc := total_setPc (by rw [hpc]; rfl)
  have hc : s.log.committing = true := by
    by_contra h
    have := Weight.le_total Pc.committing s.pc p
    rw [hi.committers, if_neg h, hpc] at this
    simp [Pc.committing] at this
  have hzero := Weight.total_eq_zero_iff.mp (hi.exclusive hc)
  refine ⟨?_, ?_, ?_, fun _ _ => rfl, ?_, List.nodup_nil, rfl, hi.halt⟩
  · simp only [runCommit, setPc, hin]; exact hi.outstanding
  · simp only [runCommit, setPc, hcom]; exact hi.committers
  · simp only [runCommit, setPc, hin]; exact hi.exclusive
  · refine locals_update ⟨fun _ => rfl, by simp, by simp [Pc.used]⟩ fun q _ => ?_
    refine ⟨fun _ => rfl, fun _ => .inl hc, ?_⟩
    have := hzero q
    cases hq : s.pc q <;> simp_all [Pc.inside, Pc.used]

theorem endCommit_inv {s : State P} (hi : Inv s) {p : P} (hpc : s.pc p = .committed) :
    Inv (endCommit s p) := by
  have hlh := (hi.locals p).cleared hpc
  have hc : s.log.committing = true := by
    by_contra h
    have := Weight.le_total Pc.committing s.pc p
    rw [hi.committers, if_neg h, hpc] at this
    simp [Pc.committing] at this
  have hin := Weight.total_update Pc.inside (fun q => (s.pc q).wake) p .idle
  have hcom := Weight.total_update Pc.committing (fun q => (s.pc q).wake) p .idle
  rw [Pc.inside_wake, total_wake Pc.inside_wake, hpc, show Pc.inside .committed = 0 from rfl,
    show Pc.inside .idle = 0 from rfl] at hin
  rw [Pc.committing_wake, total_wake Pc.committing_wake, hpc, hi.committers, hc,
    show Pc.committing .committed = 1 from rfl, show Pc.committing .idle = 0 from rfl] at hcom
  refine ⟨?_, ?_, by simp [endCommit, setPc, wakeup], fun _ _ => hlh, ?_, hi.nodup, hi.txn,
    hi.halt⟩
  · have := hi.outstanding
    simp only [endCommit, setPc, wakeup]
    omega
  · simp only [endCommit, setPc, wakeup]
    simpa using hcom
  · exact locals_update (.of_plain (by simp) (by simp) (by simp [Pc.used])) fun q _ =>
      (hi.locals q).wake rfl

theorem kill_inv {s : State P} (hi : Inv s) (p : P) : Inv (setPc s p (s.pc p).wake) :=
  hi.setPc (Pc.inside_wake _) (Pc.committing_wake _) ((hi.locals p).wake rfl)

theorem step_inv {s s' : State P} {l : Label P} (hi : Inv s) (hs : step s l = some s') :
    Inv s' := by
  obtain ⟨-, ⟨p, -, hpc, rfl⟩ | ⟨p, b, used, -, hpc, rfl⟩ | ⟨p, b, used, -, hpc, rfl⟩ |
    ⟨p, used, -, hpc, rfl⟩ | ⟨p, -, hpc, rfl⟩ | ⟨p, -, hpc, rfl⟩ | ⟨p, -, rfl⟩⟩ := step_cases hs
  · exact beginOp_inv hi hpc
  · exact logWriteTest_inv hi hpc
  · exact logWriteAppend_inv hi hpc
  · exact endOp_inv hi hpc
  · exact runCommit_inv hi hpc
  · exact endCommit_inv hi hpc
  · exact kill_inv hi p

theorem exec_inv {start size : Nat} {ls : List (Label P)} {s : State P}
    (h : Run.exec step (init start size) ls = some s) : Inv s :=
  Run.reachable_invariant (fun _ _ _ => step_inv) (inv_init start size) ⟨ls, h⟩

/-! ## the protocol -/

/-- A process in the commit part of `end_op`. -/
def InCommit (pc : Pc) : Prop := pc = .commit ∨ pc = .committed

theorem Pc.committing_eq_one_iff {pc : Pc} : pc.committing = 1 ↔ InCommit pc := by
  cases pc <;> simp [Pc.committing, InCommit]

theorem Pc.committing_le_one (pc : Pc) : pc.committing ≤ 1 := by
  cases pc <;> simp [Pc.committing]

omit [DecidableEq P] in
/-- A count of one is one process. -/
theorem existsUnique_of_total_eq_one {g : P → Pc} (h : Weight.total Pc.committing g = 1) :
    ∃! p, InCommit (g p) := by
  have hsome : ∃ p, InCommit (g p) := by
    by_contra hn
    have hzero : Weight.total Pc.committing g = 0 := Weight.total_eq_zero_iff.mpr fun p => by
      have hle := (g p).committing_le_one
      have hne : (g p).committing ≠ 1 := fun h1 => hn ⟨p, Pc.committing_eq_one_iff.mp h1⟩
      omega
    omega
  obtain ⟨p, hp⟩ := hsome
  refine ⟨p, hp, fun q hq => ?_⟩
  by_contra hne
  classical
  have := Weight.add_le_total Pc.committing g hne
  rw [Pc.committing_eq_one_iff.mpr hp, Pc.committing_eq_one_iff.mpr hq, h] at this
  omega

/-- **The `begin_op`/`end_op` protocol**, in every state of every
interleaving: while `log.committing` is set no operation is outstanding,
exactly one process is in `commit`, and no process is about to log a block;
the panics "log.committing" and "log_write outside of trans" do not occur;
a process asleep in `begin_op` has its wait condition true; and when nothing
is outstanding and nobody commits, the header is empty and nobody sleeps. -/
theorem begin_end_protocol {start size : Nat} {ls : List (Label P)} {s : State P}
    (hrun : Run.exec step (init start size) ls = some s) :
    (s.log.committing = true → s.log.outstanding = 0 ∧ (∃! p, InCommit (s.pc p)) ∧
      ∀ p, (s.pc p).inside = 0) ∧
    s.halt ≠ some (.panic "log.committing") ∧
    s.halt ≠ some (.panic "log_write outside of trans") ∧
    (∀ p, s.pc p = .waiting true → Waits s.log) ∧
    (s.log.outstanding = 0 → s.log.committing = false →
      s.log.lh = [] ∧ ∀ p, s.pc p ≠ .waiting true) := by
  have hi := exec_inv hrun
  refine ⟨fun hc => ⟨?_, ?_, ?_⟩, ?_, ?_, fun p => (hi.locals p).asleep, fun ho hc => ?_⟩
  · rw [hi.outstanding, hi.exclusive hc]; rfl
  · exact existsUnique_of_total_eq_one (by rw [hi.committers, if_pos hc])
  · exact Weight.total_eq_zero_iff.mp (hi.exclusive hc)
  · intro h
    rcases hi.halt _ h with h' | h' <;> simp at h'
  · intro h
    rcases hi.halt _ h with h' | h' <;> simp at h'
  · have hlh := hi.empty hc (by have := hi.outstanding; omega)
    refine ⟨hlh, fun p hp => ?_⟩
    -- the wait condition is false: nobody commits and one operation fits
    rcases (hi.locals p).asleep hp with h | h
    · rw [hc] at h; contradiction
    · rw [hlh, ho] at h
      simp [MAXOPBLOCKS, LOGSIZE] at h

/-- The only operation ends while another process waits for its commit. -/
def waitingForCommit : List (Label (Fin 2)) :=
  [.beginOp 0, .test 0 40, .append 0, .endOp 0, .beginOp 1]

theorem begin_end_protocol_waiting :
    ∃ s, Run.exec step (init 2 LOGSIZE) waitingForCommit = some s ∧ s.log.committing = true ∧
      s.pc 1 = .waiting true ∧ s.log.outstanding = 0 ∧ (∃! p, InCommit (s.pc p)) ∧
      Waits s.log := by
  obtain ⟨s, hs, hp⟩ := Run.exists_of_exec_any step (init 2 LOGSIZE) waitingForCommit
    (fun s => decide (s.log.committing = true ∧ s.pc 1 = .waiting true)) (by decide +kernel)
  obtain ⟨hc, hw⟩ := of_decide_eq_true hp
  obtain ⟨hcommit, -, -, hwaits, -⟩ := begin_end_protocol hs
  exact ⟨s, hs, hc, hw, (hcommit hc).1, (hcommit hc).2.1, hwaits 1 hw⟩

/-- **The header is the transaction** in every interleaving: it has each block logged since the last
commit once, those of the operations under way among them, and `outstanding` counts these. -/
theorem header_exact (start size : Nat) (ls : List (Label P)) :
    Run.Along step (fun s => s.log.lh.Nodup ∧ s.log.lh.toFinset = s.txn ∧
      (∀ p, (s.pc p).used ⊆ s.txn) ∧ s.log.outstanding = Weight.total Pc.inside s.pc)
      (init start size) ls :=
  Run.along_of_step (fun _ _ _ => step_inv)
    (fun _ h => ⟨h.nodup, h.txn.symm, fun p => h.txn ▸ (h.locals p).used, h.outstanding⟩)
    (inv_init start size)

end Xv6.Log.Protocol
