import Xv6.Log.Protocol

/-!
# Xv6.Log.Space

Log space: what `begin_op` reserves, what `log_write` tests and what
`write_log` writes.

`begin_op` counts `MAXOPBLOCKS` for each outstanding operation against
`LOGSIZE`; `log_write` compares `log.lh.n` with `log.size - 1`, and `mkfs`
makes `log.size` equal to `LOGSIZE`, header included.  The two bounds differ
by one block, and the second is tested before the lock is taken.
-/

namespace Xv6.Log.Protocol

/-! ## budgets -/

section Budget

variable {P : Type}

/-- `log_write` of `b` leaves the calling operation with at most `m` distinct
blocks. -/
def Within (m : Nat) (s : State P) : Label P → Prop
  | .test p b => (insert b (s.pc p).used).card ≤ m
  | _ => True

instance (m : Nat) (s : State P) : ∀ l, Decidable (Within m s l)
  | .test p b => inferInstanceAs (Decidable ((insert b (s.pc p).used).card ≤ m))
  | .beginOp _ | .append _ | .endOp _ | .commit _ | .endCommit _ | .kill _ => isTrue trivial

/-- The blocks of an operation, the one being logged included. -/
def Pc.claim : Pc → Finset Nat
  | .inOp used => used
  | .logging used b => insert b used
  | _ => ∅

/-- What an operation with budget `m` may still add to the header. -/
def Pc.slack (m : Nat) : Pc → Nat
  | .inOp used | .logging used _ => m - used.card
  | _ => 0

theorem Pc.slack_le (m : Nat) (pc : Pc) : pc.slack m ≤ m * pc.inside := by
  cases pc <;> simp [Pc.slack, Pc.inside]

@[simp] theorem Pc.slack_wake (m : Nat) (pc : Pc) : pc.wake.slack m = pc.slack m := by
  cases pc <;> rfl

@[simp] theorem Pc.claim_wake (pc : Pc) : pc.wake.claim = pc.claim := by
  cases pc <;> rfl

end Budget

variable {P : Type} [Fintype P]

/-- **The reservation**: with a budget of `m ≤ MAXOPBLOCKS` blocks for each
operation, the header and what the operations may still add to it stay below
`LOGSIZE` by twice the difference.  (Two operations at least are needed to
come near the bound, and each is charged `MAXOPBLOCKS`.) -/
structure Reserved (m : Nat) (s : State P) : Prop where
  room : s.log.lh.length + Weight.total (Pc.slack m) s.pc ≤ LOGSIZE - 2 * (MAXOPBLOCKS - m)
  fits : ∀ p, (s.pc p).claim.card ≤ m

theorem reserved_init (m start size : Nat) : Reserved m (init start size : State P) where
  room := by simp [init, Weight.total, Pc.slack]
  fits := fun p => by simp [init, Pc.claim]

variable [DecidableEq P]

/-- One process moves, the others at most wake up, and the header does not
grow by more than the process gives up. -/
theorem Reserved.move {m : Nat} {s s' : State P} (hr : Reserved m s) {p : P}
    (hothers : ∀ q, q ≠ p → s'.pc q = s.pc q ∨ s'.pc q = (s.pc q).wake)
    (hlen : s'.log.lh.length + (s'.pc p).slack m ≤ s.log.lh.length + (s.pc p).slack m)
    (hfit : (s'.pc p).claim.card ≤ m) : Reserved m s' where
  room := by
    have htot := Weight.total_move_le (Pc.slack m) p fun q (hq : q ≠ p) =>
      show (s'.pc q).slack m ≤ (s.pc q).slack m by rcases hothers q hq with h | h <;> simp [h]
    have := hr.room
    omega
  fits := fun q => by
    by_cases hqp : q = p
    · rw [hqp]; exact hfit
    · rcases hothers q hqp with h | h
      · rw [h]; exact hr.fits q
      · rw [h, Pc.claim_wake]; exact hr.fits q

/-- `move` for a process that is put at `pc` in `s`. -/
theorem Reserved.setPc {m : Nat} {s : State P} (hr : Reserved m s) {p : P} {pc : Pc}
    (hslack : pc.slack m ≤ (s.pc p).slack m) (hfit : pc.claim.card ≤ m) :
    Reserved m (setPc s p pc) := by
  refine hr.move (p := p) (fun q hq => .inl (Function.update_of_ne hq _ _)) ?_ ?_
  · simp only [Protocol.setPc, Function.update_self]; omega
  · simpa only [Protocol.setPc, Function.update_self] using hfit

omit [DecidableEq P] in
theorem Reserved.stop {m : Nat} {s : State P} (hr : Reserved m s) (h : Halt) :
    Reserved m (stop s h) := ⟨hr.room, hr.fits⟩

theorem beginOp_reserved {m : Nat} (hm : m ≤ MAXOPBLOCKS) {s : State P} (hi : Inv s)
    (hr : Reserved m s) {p : P} (hpc : s.pc p = .idle ∨ s.pc p = .waiting false) :
    Reserved m (beginOp s p) := by
  have hzero : (s.pc p).slack m = 0 := by rcases hpc with h | h <;> rw [h] <;> rfl
  have hsleep : Reserved m (Protocol.setPc s p (.waiting true)) :=
    hr.setPc (Nat.zero_le _) (by simp [Pc.claim])
  rw [beginOp]
  split
  · exact hsleep
  · next hc =>
      split
      · exact hsleep
      · next hfit =>
          have hout := hi.outstanding
          have htot := Weight.total_update (Pc.slack m) s.pc p (.inOp ∅)
          have hle := Weight.total_le_mul_total (Pc.slack_le m) s.pc
          rw [hzero, show Pc.slack m (.inOp ∅) = m by simp [Pc.slack]] at htot
          refine ⟨?_, fun q => ?_⟩
          · simp only [Protocol.setPc]
            by_cases ho : Weight.total Pc.inside s.pc = 0
            · -- the first operation finds an empty header
              have hlh := hi.empty (by simpa using hc) ho
              rw [ho] at hle
              rw [hlh, List.length_nil]
              simp only [MAXOPBLOCKS, LOGSIZE] at hm ⊢
              omega
            · have hmul : m * Weight.total Pc.inside s.pc + m ≤
                  MAXOPBLOCKS * (Weight.total Pc.inside s.pc + 1) -
                    2 * (MAXOPBLOCKS - m) := by
                obtain ⟨d, hd⟩ := Nat.exists_eq_add_of_le hm
                have h2 : 2 * d ≤ d * (Weight.total Pc.inside s.pc + 1) := by
                  rw [Nat.mul_comm]; exact Nat.mul_le_mul_left d (by omega)
                rw [hd, Nat.add_mul, Nat.mul_add m]
                omega
              rw [hout] at hfit
              simp only [MAXOPBLOCKS, LOGSIZE] at hm hfit hmul ⊢
              omega
          · by_cases hqp : q = p
            · subst hqp; simp [Protocol.setPc, Pc.claim]
            · simp only [Protocol.setPc, Function.update_of_ne hqp]; exact hr.fits q

theorem logWriteAppend_reserved {m : Nat} {s : State P} (hi : Inv s) (hr : Reserved m s) {p : P}
    {used : Finset Nat} {b : Nat} (hpc : s.pc p = .logging used b) :
    Reserved m (logWriteAppend s p used b) := by
  have hfit := hr.fits p
  have hused := (hi.locals p).used
  rw [hpc] at hfit hused
  rw [logWriteAppend]
  split
  · exact hr.stop _
  · refine hr.move (p := p) (fun q hq => .inl (Function.update_of_ne hq _ _)) ?_ ?_
    · simp only [Protocol.setPc, Function.update_self, hpc, Pc.slack]
      by_cases hb : b ∈ s.log.lh
      · rw [absorb_of_mem hb]
        have := Finset.card_le_card (Finset.subset_insert b used)
        omega
      · -- a new entry is a new block of this operation
        have hnew : b ∉ used := fun h => hb (List.mem_toFinset.mp (hused h))
        rw [absorb_of_not_mem hb, List.length_append, List.length_singleton,
          Finset.card_insert_of_notMem hnew]
        simp only [Pc.claim, Finset.card_insert_of_notMem hnew] at hfit
        omega
    · simpa only [Protocol.setPc, Function.update_self, Pc.claim] using hfit

theorem endOp_reserved {m : Nat} {s : State P} (hr : Reserved m s) (p : P) :
    Reserved m (endOp s p) := by
  simp only [endOp]
  split
  · exact ⟨hr.room, hr.fits⟩
  · split
    · exact hr.move (p := p) (fun q hq => .inl (Function.update_of_ne hq _ _))
        (by simp [Protocol.setPc, Pc.slack]) (by simp [Protocol.setPc, Pc.claim])
    · exact hr.move (p := p) (fun q hq => .inr (Function.update_of_ne hq _ _))
        (by simp [Protocol.setPc, Protocol.wakeup, Pc.slack])
        (by simp [Protocol.setPc, Pc.claim])

theorem step_reserved {m : Nat} (hm : m ≤ MAXOPBLOCKS) {s s' : State P} {l : Label P}
    (hi : Inv s) (hr : Reserved m s) (hw : Within m s l) (hs : step s l = some s') :
    Reserved m s' := by
  obtain ⟨-, ⟨p, -, hpc, rfl⟩ | ⟨p, b, used, rfl, hpc, rfl⟩ | ⟨p, b, used, -, hpc, rfl⟩ |
    ⟨p, used, -, hpc, rfl⟩ | ⟨p, -, hpc, rfl⟩ | ⟨p, -, hpc, rfl⟩ | ⟨p, -, rfl⟩⟩ := step_cases hs
  · exact beginOp_reserved hm hi hr hpc
  · rw [logWriteTest]
    split
    · exact hr.stop _
    · split
      · exact hr.stop _
      · rw [Within, hpc] at hw
        exact hr.setPc (by rw [hpc]; rfl) hw
  · exact logWriteAppend_reserved hi hr hpc
  · exact endOp_reserved hr p
  · exact hr.move (p := p) (fun q hq => .inl (Function.update_of_ne hq _ _))
      (by simp [runCommit, Protocol.setPc, Pc.slack]) (by simp [runCommit, Protocol.setPc, Pc.claim])
  · exact hr.move (p := p) (fun q hq => .inr (Function.update_of_ne hq _ _))
      (by simp [endCommit, Protocol.setPc, Protocol.wakeup, Pc.slack])
      (by simp [endCommit, Protocol.setPc, Pc.claim])
  · exact hr.setPc (Pc.slack_wake m _).le (by rw [Pc.claim_wake]; exact hr.fits p)

theorem exec_reserved {m start size : Nat} (hm : m ≤ MAXOPBLOCKS) {ls : List (Label P)}
    {s : State P} (hg : Run.Guarded step (Within m) (init start size) ls)
    (h : Run.exec step (init start size) ls = some s) : Inv s ∧ Reserved m s :=
  Run.exec_invariant (I := fun s => Inv s ∧ Reserved m s)
    (fun _ _ _ hs hw h => ⟨step_inv hs.1 h, step_reserved hm hs.1 hs.2 hw h⟩)
    ⟨inv_init start size, reserved_init m start size⟩ hg h

section Frame

omit [Fintype P]

/-- No step changes where the log is. -/
theorem step_area {s s' : State P} {l : Label P} (hs : step s l = some s') :
    s'.log.start = s.log.start ∧ s'.log.size = s.log.size := by
  obtain ⟨-, ⟨p, -, -, rfl⟩ | ⟨p, b, used, -, -, rfl⟩ | ⟨p, b, used, -, -, rfl⟩ |
    ⟨p, used, -, -, rfl⟩ | ⟨p, -, -, rfl⟩ | ⟨p, -, -, rfl⟩ | ⟨p, -, rfl⟩⟩ := step_cases hs
  · rw [beginOp]; split
    · exact ⟨rfl, rfl⟩
    · split <;> exact ⟨rfl, rfl⟩
  · rw [logWriteTest]; split
    · exact ⟨rfl, rfl⟩
    · split <;> exact ⟨rfl, rfl⟩
  · rw [logWriteAppend]; split <;> exact ⟨rfl, rfl⟩
  · simp only [endOp]; split
    · exact ⟨rfl, rfl⟩
    · split <;> exact ⟨rfl, rfl⟩
  · exact ⟨rfl, rfl⟩
  · exact ⟨rfl, rfl⟩
  · exact ⟨rfl, rfl⟩

/-- Only the first test of `log_write` panics this way. -/
theorem tooBig_cases {s s' : State P} {l : Label P} (hs : step s l = some s')
    (hbig : s'.halt = some (.panic "too big a transaction")) :
    ∃ p b used, l = .test p b ∧ s.pc p = .inOp used ∧
      (LOGSIZE ≤ s.log.lh.length ∨ s.log.size - 1 ≤ s.log.lh.length) := by
  obtain ⟨hh, ⟨p, -, -, rfl⟩ | ⟨p, b, used, rfl, hpc, rfl⟩ | ⟨p, b, used, -, -, rfl⟩ |
    ⟨p, used, -, -, rfl⟩ | ⟨p, -, -, rfl⟩ | ⟨p, -, -, rfl⟩ | ⟨p, -, rfl⟩⟩ := step_cases hs
  · rw [beginOp] at hbig; split at hbig
    · simp [setPc, hh] at hbig
    · split at hbig <;> simp [setPc, hh] at hbig
  · rw [logWriteTest] at hbig; split at hbig
    · next hfull => exact ⟨p, b, used, rfl, hpc, hfull⟩
    · split at hbig <;> simp [stop, setPc, hh] at hbig
  · rw [logWriteAppend] at hbig; split at hbig <;> simp [stop, setPc, hh] at hbig
  · simp only [endOp] at hbig; split at hbig
    · simp [stop] at hbig
    · split at hbig <;> simp [setPc, wakeup, hh] at hbig
  · simp [runCommit, setPc, hh] at hbig
  · simp [endCommit, setPc, wakeup, hh] at hbig
  · simp [setPc, hh] at hbig

end Frame

def NotTooBig (s : State P) : Prop := s.halt ≠ some (.panic "too big a transaction")

/-- `log_write` is called while the operations since the last commit have
logged fewer than `LOGSIZE - 1` distinct blocks. -/
def RoomLeft (s : State P) : Label P → Prop
  | .test p _ => s.halt = none → s.pc p = .inOp (s.pc p).used → s.txn.card < LOGSIZE - 1
  | _ => True

instance (s : State P) : ∀ l, Decidable (RoomLeft s l)
  | .test p _ => inferInstanceAs (Decidable
      (s.halt = none → s.pc p = .inOp (s.pc p).used → s.txn.card < LOGSIZE - 1))
  | .beginOp _ | .append _ | .endOp _ | .commit _ | .endCommit _ | .kill _ => isTrue trivial

omit [DecidableEq P] in
theorem Inv.card_txn {s : State P} (hi : Inv s) : s.txn.card = s.log.lh.length := by
  rw [hi.txn, List.toFinset_card_of_nodup hi.nodup]

/-- In a log as `mkfs` makes it, the panic is a call without room left. -/
theorem roomLeft_of_notTooBig {s : State P} {l : Label P} (hi : Inv s)
    (hsize : s.log.size = LOGSIZE) (hn : ¬ RoomLeft s l) :
    ∃ s', step s l = some s' ∧ ¬ NotTooBig s' := by
  cases l with
  | test p b =>
      simp only [RoomLeft, Classical.not_imp, Nat.not_lt] at hn
      obtain ⟨hh, hpc, hfull⟩ := hn
      rw [hi.card_txn] at hfull
      refine ⟨stop s (.panic "too big a transaction"), ?_, fun h => h rfl⟩
      simp only [step, hh, Option.isSome_none, Bool.false_eq_true, if_false]
      rw [hpc]
      simp only [logWriteTest, hsize]
      rw [if_pos (.inr hfull)]
  | _ => exact absurd trivial hn

/-- One step of a run with room left does not panic. -/
theorem step_notTooBig {s s' : State P} {l : Label P} (hi : Inv s) (hsize : s.log.size = LOGSIZE)
    (hok : RoomLeft s l) (hs : step s l = some s') : NotTooBig s' := by
  intro hbig
  obtain ⟨p, b, used, rfl, hpc, hfull⟩ := tooBig_cases hs hbig
  have hh := (step_cases hs).1
  have hlt := hok hh (by rw [hpc]; rfl)
  rw [hi.card_txn] at hlt
  simp only [hsize, LOGSIZE, MAXOPBLOCKS] at hlt hfull
  omega

/-- **Log space admission.**  With `log.size = LOGSIZE`, `log_write` panics
with "too big a transaction" in exactly those runs that call it when the
operations since the last commit have logged `LOGSIZE - 1` distinct blocks.
Operations that keep to `MAXOPBLOCKS - 1` distinct blocks never do. -/
theorem notTooBig_along_iff (start : Nat) (ls : List (Label P)) :
    (Run.Along step NotTooBig (init start LOGSIZE) ls ↔
      Run.Guarded step RoomLeft (init start LOGSIZE) ls) ∧
    (Run.Guarded step (Within (MAXOPBLOCKS - 1)) (init start LOGSIZE) ls →
      Run.Along step NotTooBig (init start LOGSIZE) ls) := by
  have hinit : NotTooBig (init start LOGSIZE : State P) := by simp [NotTooBig, init]
  refine ⟨⟨fun h => ?_, fun h => ?_⟩, fun h => ?_⟩
  · refine Run.guarded_of_along (I := fun s => Inv s ∧ s.log.size = LOGSIZE)
      (fun s l s' hs _ h => ⟨step_inv hs.1 h, (step_area h).2.trans hs.2⟩)
      (fun s l hs hn => roomLeft_of_notTooBig hs.1 hs.2 hn) ⟨inv_init start LOGSIZE, rfl⟩ h
  · refine Run.along_of_guarded (I := fun s => Inv s ∧ s.log.size = LOGSIZE ∧ NotTooBig s)
      (fun s l s' hs hok h => ⟨step_inv hs.1 h, (step_area h).2.trans hs.2.1,
        step_notTooBig hs.1 hs.2.1 hok h⟩)
      (fun _ hs => hs.2.2) ⟨inv_init start LOGSIZE, rfl, hinit⟩ h
  · refine Run.along_of_guarded
      (I := fun s => (Inv s ∧ Reserved (MAXOPBLOCKS - 1) s) ∧ s.log.size = LOGSIZE ∧ NotTooBig s)
      (fun s l s' hs hok h => ⟨⟨step_inv hs.1.1 h, step_reserved (by decide) hs.1.1 hs.1.2 hok h⟩,
        (step_area h).2.trans hs.2.1, ?_⟩)
      (fun _ hs => hs.2.2)
      ⟨⟨inv_init start LOGSIZE, reserved_init _ start LOGSIZE⟩, rfl, hinit⟩ h
    -- nine blocks for each of at most three operations leave two to spare
    intro hbig
    obtain ⟨p, b, used, -, -, hfull⟩ := tooBig_cases h hbig
    have hroom := hs.1.2.room
    simp only [hs.2.1, LOGSIZE, MAXOPBLOCKS] at hfull hroom
    omega

/-- `log_write` of each of the blocks, by one process, without interference. -/
def logBlocks (p : P) (bs : List Nat) : List (Label P) := bs.flatMap fun b => [.test p b, .append p]

/-- One operation that logs a block twice, alone and through its commit. -/
def singleOperation : List (Label (Fin 1)) :=
  [.beginOp 0] ++ logBlocks 0 [40, 41, 40] ++ [.endOp 0, .commit 0, .endCommit 0]

theorem notTooBig_single_operation :
    Run.Guarded step RoomLeft (init 2 LOGSIZE) singleOperation ∧
      Run.Along step NotTooBig (init 2 LOGSIZE) singleOperation :=
  have h : Run.Guarded step RoomLeft (init 2 LOGSIZE) singleOperation := by decide +kernel
  ⟨h, (notTooBig_along_iff 2 singleOperation).1.mpr h⟩

/-- Three operations are admitted together and use all of their allowance. -/
def fullAllowance : List (Label (Fin 3)) :=
  [.beginOp 0, .beginOp 1, .beginOp 2] ++ logBlocks 0 (List.range' 100 10) ++
    logBlocks 1 (List.range' 110 10) ++ logBlocks 2 (List.range' 120 9) ++ [.test 2 129]

/-- Nobody exceeds `MAXOPBLOCKS`, and the last call panics. -/
theorem fullAllowance_tooBig :
    Run.Guarded step (Within MAXOPBLOCKS) (init 2 LOGSIZE) fullAllowance ∧
    ∃ s, Run.exec step (init 2 LOGSIZE) fullAllowance = some s ∧ ¬ NotTooBig s := by
  refine ⟨by decide +kernel, ?_⟩
  obtain ⟨s, hs, hbig⟩ := Run.exists_of_exec_any step (init 2 LOGSIZE) fullAllowance
    (fun s => decide (s.halt = some (.panic "too big a transaction"))) (by decide +kernel)
  exact ⟨s, hs, fun h => h (of_decide_eq_true hbig)⟩

/-! ## the log area -/

/-- The block a process has tested for and not yet appended. -/
def Pc.pending : Pc → Finset Nat
  | .logging _ b => {b}
  | _ => ∅

@[simp] theorem Pc.pending_wake (pc : Pc) : pc.wake.pending = pc.pending := by
  cases pc <;> rfl

/-- The header as it will be when everybody in `log_write` has appended. -/
def claimed (s : State P) : Finset Nat :=
  s.log.lh.toFinset ∪ Finset.univ.biUnion fun p => (s.pc p).pending

/-- `log_write` of `b` makes its test when the header, the blocks that other
calls have tested for and not yet appended, and `b` fit the log together. -/
def Spaced (s : State P) : Label P → Prop
  | .test _ b => (insert b (claimed s)).card ≤ s.log.size - 1
  | _ => True

instance (s : State P) : ∀ l, Decidable (Spaced s l)
  | .test _ b => inferInstanceAs (Decidable ((insert b (claimed s)).card ≤ s.log.size - 1))
  | .beginOp _ | .append _ | .endOp _ | .commit _ | .endCommit _ | .kill _ => isTrue trivial

omit [DecidableEq P] in
theorem mem_claimed {s : State P} {x : Nat} :
    x ∈ claimed s ↔ x ∈ s.log.lh ∨ ∃ p, x ∈ (s.pc p).pending := by
  simp [claimed]

/-- One process moves and the others at most wake up. -/
theorem claimed_move {s s' : State P} {T : Finset Nat} {p : P} (hT : claimed s ⊆ T)
    (hothers : ∀ q, q ≠ p → s'.pc q = s.pc q ∨ s'.pc q = (s.pc q).wake)
    (hlh : ∀ x ∈ s'.log.lh, x ∈ T) (hp : (s'.pc p).pending ⊆ T) : claimed s' ⊆ T := by
  intro x hx
  rcases mem_claimed.mp hx with h | ⟨q, hq⟩
  · exact hlh x h
  · by_cases hqp : q = p
    · exact hp (hqp ▸ hq)
    · refine hT (mem_claimed.mpr (.inr ⟨q, ?_⟩))
      rcases hothers q hqp with h | h
      · rwa [h] at hq
      · rwa [h, Pc.pending_wake] at hq

theorem claimed_setPc {s : State P} {T : Finset Nat} {p : P} {pc : Pc} (hT : claimed s ⊆ T)
    (hp : pc.pending ⊆ T) : claimed (setPc s p pc) ⊆ T :=
  claimed_move (p := p) hT (fun _ hq => .inl (Function.update_of_ne hq _ _))
    (fun _ hx => hT (mem_claimed.mpr (.inl hx))) (by simpa [setPc] using hp)

/-- Only the test of `log_write` claims a block. -/
theorem step_claimed {s s' : State P} {l : Label P} (hs : step s l = some s') {T : Finset Nat}
    (hT : claimed s ⊆ T) (htest : ∀ p b, l = .test p b → b ∈ T) : claimed s' ⊆ T := by
  have hlh : ∀ x ∈ s.log.lh, x ∈ T := fun x hx => hT (mem_claimed.mpr (.inl hx))
  obtain ⟨-, ⟨p, -, -, rfl⟩ | ⟨p, b, used, hl, -, rfl⟩ | ⟨p, b, used, -, hpc, rfl⟩ |
    ⟨p, used, -, -, rfl⟩ | ⟨p, -, -, rfl⟩ | ⟨p, -, -, rfl⟩ | ⟨p, -, rfl⟩⟩ := step_cases hs
  · rw [beginOp]
    split
    · exact claimed_setPc hT (by simp [Pc.pending])
    · split <;> exact claimed_setPc hT (by simp [Pc.pending])
  · rw [logWriteTest]
    split
    · exact hT
    · split
      · exact hT
      · exact claimed_setPc hT (Finset.singleton_subset_iff.mpr (htest p b hl))
  · rw [logWriteAppend]
    split
    · exact hT
    · -- the block moves from the pending ones to the header
      have hb : b ∈ T := hT (mem_claimed.mpr (.inr ⟨p, by simp [hpc, Pc.pending]⟩))
      refine claimed_move (p := p) hT (fun q hq => .inl (Function.update_of_ne hq _ _)) ?_
        (by simp [setPc, Pc.pending])
      intro x hx
      by_cases hmem : b ∈ s.log.lh
      · simp only [setPc, absorb_of_mem hmem] at hx
        exact hlh x hx
      · simp only [setPc, absorb_of_not_mem hmem, List.mem_append, List.mem_singleton] at hx
        rcases hx with hx | rfl
        · exact hlh x hx
        · exact hb
  · simp only [endOp]
    split
    · exact hT
    · split
      · exact claimed_setPc hT (by simp [Pc.pending])
      · exact claimed_move (p := p) hT (fun q hq => .inr (Function.update_of_ne hq _ _)) hlh
          (by simp [setPc, Pc.pending])
  · exact claimed_move (p := p) hT (fun q hq => .inl (Function.update_of_ne hq _ _))
      (by simp [runCommit, setPc]) (by simp [runCommit, setPc, Pc.pending])
  · exact claimed_move (p := p) hT (fun q hq => .inr (Function.update_of_ne hq _ _)) hlh
      (by simp [endCommit, setPc, Pc.pending])
  · refine claimed_setPc hT ?_
    rw [Pc.pending_wake]
    exact fun x hx => hT (mem_claimed.mpr (.inr ⟨p, hx⟩))

theorem step_claimed_card {s s' : State P} {l : Label P} (hs : step s l = some s')
    (h : (claimed s).card ≤ s.log.size - 1) (hok : Spaced s l) :
    (claimed s').card ≤ s'.log.size - 1 := by
  rw [(step_area hs).2]
  cases l with
  | test p b =>
      refine (Finset.card_le_card (step_claimed hs (Finset.subset_insert b _) ?_)).trans hok
      rintro q c ⟨⟩
      exact Finset.mem_insert_self b _
  | _ => exact (Finset.card_le_card (step_claimed hs subset_rfl (by simp))).trans h

/-- The blocks `write_log` writes: one behind the other after the header. -/
theorem writeLogFrom_targets (start tail : Nat) (bs : List Nat) (m : Machine) :
    ∃ ws, (writeLogFrom start tail bs m).trace = m.trace ++ ws ∧
      ws.map Prod.fst = List.range' (start + tail + 1) bs.length := by
  induction bs generalizing tail m with
  | nil => exact ⟨[], by simp [writeLogFrom], rfl⟩
  | cons b bs ih =>
      obtain ⟨ws, htrace, htargets⟩ := ih (tail + 1) (bwrite m (start + tail + 1) (bread m b))
      refine ⟨(start + tail + 1, bread m b) :: ws, ?_, ?_⟩
      · rw [writeLogFrom, htrace]
        simp [bwrite]
      · rw [List.map_cons, htargets, List.length_cons, List.range'_succ]
        congr 2

theorem writeLog_targets (start : Nat) (m : Machine) :
    ∃ ws, (writeLog start m).trace = m.trace ++ ws ∧
      ws.map Prod.fst = List.range' (start + 1) m.lh.length :=
  writeLogFrom_targets start 0 m.lh m

/-- `mkfs`: `sb.inodestart = 2 + nlog`. -/
def inodestart (nlog : Nat) : Nat := 2 + nlog

/-- Two of three operations pass the test when 28 blocks are logged and then
both append. -/
def lateAppends : List (Label (Fin 3)) :=
  [.beginOp 0, .beginOp 1, .beginOp 2] ++ logBlocks 0 (List.range' 100 10) ++
    logBlocks 1 (List.range' 110 9) ++ logBlocks 2 (List.range' 120 9) ++
    [.test 1 119, .test 2 129, .append 1, .append 2]

end Xv6.Log.Protocol
