import Xv6.Ptable.Counters

/-!
# Xv6.Ptable.Promotion

When the scheduler calls `promoteAll`: at a pass that starts in the very tick it waits
for.

* `promotion_on_time_iff`: every pass of a run leaves the timer armed, with a promotion
  done if one was due, exactly if no pass starts after the promotion time;
* `promotion_missed`: a run in which a process runs through that tick.
-/

namespace Xv6.Ptable

open Run

variable {NPROC MAX NCPU : Nat}

/-! ## the timer -/

section Steps

variable {s s' : Kern NPROC MAX NCPU} {t : Table NPROC MAX} {op : Op NPROC MAX NCPU} {c : Fin NCPU}

/-- The timer waits for a tick to come, at most `TIME_TO_PROMOTE` away. -/
def Armed (s : Kern NPROC MAX NCPU) : Prop :=
  s.ticks.toNat < s.promoteAtTime.toNat ∧
    s.promoteAtTime.toNat ≤ s.ticks.toNat + TIME_TO_PROMOTE.toNat

/-- A pass of the scheduler leaves the timer armed, and has promoted every `RUNNABLE`
process if the time had come. -/
def PassOk (s : Kern NPROC MAX NCPU) : Op NPROC MAX NCPU → Kern NPROC MAX NCPU → Prop
  | .scheduler _, s' => Armed s' ∧
      (s.promoteAtTime ≤ s.ticks → ∀ p, (s.proc p).state = .RUNNABLE →
        (s'.proc p).priority = (s.proc p).priority - 1)
  | _, _ => True

/-- `ticks` does not wrap. -/
def NoWrap (s : Kern NPROC MAX NCPU) : Op NPROC MAX NCPU → Prop
  | .tick => s.ticks.toNat + 1 < 2 ^ 32
  | _ => True

/-- A pass starts before the promotion time, or in that very tick with room for the
next promotion time. -/
def OnTime (s : Kern NPROC MAX NCPU) : Op NPROC MAX NCPU → Prop
  | .scheduler c => s.cpus c = none → s.ticks < s.promoteAtTime ∨
      s.promoteAtTime = s.ticks ∧ s.ticks.toNat + TIME_TO_PROMOTE.toNat < 2 ^ 32
  | _ => True

theorem Proc.dispatch_priority (t : Table NPROC MAX) (p q : Fin NPROC) (ticks : UInt32) :
    ((t.dispatch p ticks).proc q).priority = (t.proc q).priority := by
  rw [Table.dispatch, Table.moveEnd_proc]
  by_cases hq : q = p
  · subst hq
    rw [Table.set_proc_self]
    split <;> rfl
  · rw [Table.set_proc_of_ne hq]

/-- A pass that is due promotes. -/
theorem scheduler_promotes (h : Inv s t) (hdue : s.promoteAtTime = s.ticks)
    (hs : step s (.scheduler c) = some s') {p : Fin NPROC} (hp : (s.proc p).state = .RUNNABLE) :
    (s'.proc p).priority = (s.proc p).priority - 1 := by
  obtain ⟨m, hm, helim⟩ := step_elim hs
  apply helim fun s' => (s'.proc p).priority = (s.proc p).priority - 1
  obtain ⟨-, hm⟩ := Option.ite_none_right_eq_some.mp hm
  obtain rfl := Option.some.inj hm
  rw [h.becomes.proc_eq] at hp ⊢
  have hprio : (t.promoteAll.proc p).priority = (t.proc p).priority - 1 := by
    rw [Table.promoteAll_proc h.wf.placed, if_pos (.inl hp)]
    rfl
  have hnow : s.promoteAtTime = s.ticks ↔ true = true := by simp [hdue]
  refine (scheduler_spec h.becomes h.wf c hnow).mono ?_
  rintro _ s' (⟨-, hb⟩ | ⟨i, q, zs, -, -, hb⟩)
  · rw [hb.proc_eq]
    exact hprio
  · rw [hb.proc_eq, Proc.dispatch_priority]
    exact hprio

/-- What the passes keep while they are on time. -/
structure Waits (s : Kern NPROC MAX NCPU) : Prop where
  inv : ∃ t, Inv s t
  soon : s.promoteAtTime.toNat ≤ s.ticks.toNat + TIME_TO_PROMOTE.toNat

theorem step_waits (h : Waits s) (hwrap : NoWrap s op) (hop : OnTime s op)
    (hs : step s op = some s') : PassOk s op s' ∧ Waits s' := by
  obtain ⟨⟨t, ht⟩, hsoon⟩ := h
  have hinv := step_inv ⟨t, ht⟩ hs
  have htime := (step_counters ht hs).2
  have hsame (he : (s'.ticks, s'.promoteAtTime) = (s.ticks, s.promoteAtTime)) : Waits s' := by
    obtain ⟨hticks, hat⟩ := Prod.mk.inj he
    refine ⟨hinv, ?_⟩
    rw [hticks, hat]
    exact hsoon
  cases op with
  | tick =>
      obtain ⟨hticks, hat⟩ := Prod.mk.inj htime
      refine ⟨trivial, hinv, ?_⟩
      rw [hticks, hat, UInt32.toNat_add, UInt32.toNat_one, Nat.mod_eq_of_lt hwrap]
      omega
  | scheduler c =>
      obtain ⟨hticks, hat⟩ := Prod.mk.inj htime
      obtain ⟨m, hm, -⟩ := step_elim hs
      obtain ⟨hidle, -⟩ := Option.ite_none_right_eq_some.mp hm
      cases hop hidle with
      | inl hlt =>
          have hne : s.promoteAtTime ≠ s.ticks := (UInt32.ne_of_lt hlt).symm
          rw [if_neg hne] at hat
          refine ⟨⟨?_, fun hdue => absurd hlt (UInt32.not_lt.mpr hdue)⟩, hsame (by rw [hticks, hat])⟩
          rw [Armed, hticks, hat]
          exact ⟨UInt32.lt_iff_toNat_lt.mp hlt, hsoon⟩
      | inr hnow =>
          obtain ⟨heq, hroom⟩ := hnow
          rw [if_pos heq] at hat
          have hnext : s'.promoteAtTime.toNat = s'.ticks.toNat + TIME_TO_PROMOTE.toNat := by
            rw [hat, hticks, UInt32.toNat_add, Nat.mod_eq_of_lt hroom]
          have hpos : 0 < TIME_TO_PROMOTE.toNat := by decide
          refine ⟨⟨?_, fun _ p hp => scheduler_promotes ht heq hs hp⟩, hinv, hnext.le⟩
          rw [Armed, hnext]
          omega
  | _ => exact ⟨trivial, hsame htime⟩

/-- A late pass does not arm the timer. -/
theorem late_pass (h : Waits s) (hop : ¬ OnTime s op) :
    ∃ s', step s op = some s' ∧ ¬ PassOk s op s' := by
  obtain ⟨⟨t, ht⟩, -⟩ := h
  cases op with
  | scheduler c => ?_
  | _ => exact absurd trivial hop
  simp only [OnTime, Classical.not_imp, not_or, not_and] at hop
  obtain ⟨hidle, hle, hround⟩ := hop
  have hcode : (Op.scheduler c).code s = some (Ptable.scheduler c) := by
    rw [Op.code, if_pos hidle]
  obtain ⟨s', hs, -⟩ := step_intro hcode (scheduler_inv ht c)
  obtain ⟨hticks, hat⟩ := Prod.mk.inj (step_counters ht hs).2
  refine ⟨s', hs, fun hok => ?_⟩
  obtain ⟨⟨harmed, -⟩, -⟩ := hok
  rw [hticks, hat] at harmed
  by_cases heq : s.promoteAtTime = s.ticks
  · -- the next promotion time wraps
    rw [if_pos heq, UInt32.toNat_add] at harmed
    have hover := hround heq
    have hlt := s.ticks.toNat_lt
    have hT : TIME_TO_PROMOTE.toNat < 2 ^ 32 := TIME_TO_PROMOTE.toNat_lt
    omega
  · rw [if_neg heq] at harmed
    exact hle (UInt32.lt_iff_toNat_lt.mpr harmed)

/-- The passes of a run. -/
theorem Waits.each_iff (h : Waits s) {ops : List (Op NPROC MAX NCPU)}
    (hwrap : Guarded step NoWrap s ops) : Each step PassOk s ops ↔ Guarded step OnTime s ops :=
  each_iff_guarded (fun _ _ _ => step_waits) (fun _ _ => late_pass) h hwrap

theorem userinit_waits {kalloc setupkvm namei : Option Nat} {ticks : UInt32}
    (hboot : userinit kalloc setupkvm namei (boot ticks) = .ok ((), s)) : Waits s := by
  obtain ⟨p, kstack, hb⟩ := userinit_spec hboot
  refine ⟨userinit_inv hboot, ?_⟩
  rw [(Prod.mk.inj hb.time_eq).2]
  exact Nat.le_add_left _ _

end Steps

/-- **The timer**: as long as `ticks` does not wrap, every pass of a run leaves the timer
armed and promotes when it is due, exactly if every pass starts before the promotion
time or in that very tick. -/
theorem promotion_on_time_iff {kalloc setupkvm namei : Option Nat} {ticks : UInt32}
    {s₀ : Kern NPROC MAX NCPU} {ops : List (Op NPROC MAX NCPU)}
    (hboot : userinit kalloc setupkvm namei (boot ticks) = .ok ((), s₀))
    (hwrap : Guarded step NoWrap s₀ ops) :
    Each step PassOk s₀ ops ↔ Guarded step OnTime s₀ ops :=
  (userinit_waits hboot).each_iff hwrap

/-! ### two runs -/

instance (s : Kern NPROC MAX NCPU) : DecidablePred (NoWrap s)
  | .tick => inferInstanceAs (Decidable (_ < _))
  | .allocproc _ | .fork _ _ _ | .exit _ | .wait _ | .scheduler _ | .promoteAll | .yield _
  | .sleep _ _ | .wakeup _ | .kill _ | .setpriority _ _ => inferInstanceAs (Decidable True)

instance (s : Kern NPROC MAX NCPU) : DecidablePred (OnTime s)
  | .scheduler c => inferInstanceAs (Decidable (s.cpus c = none → _ ∨ _))
  | .tick | .allocproc _ | .fork _ _ _ | .exit _ | .wait _ | .promoteAll | .yield _
  | .sleep _ _ | .wakeup _ | .kill _ | .setpriority _ _ => inferInstanceAs (Decidable True)

/-- The first process runs through `n` ticks. -/
def sleepless (n : Nat) : List (Op 3 1 1) :=
  .scheduler 0 :: (List.replicate n .tick ++ [.yield 0, .scheduler 0])

theorem promotion_on_time_once : ∃ s₀ s : Kern 3 1 1,
    userinit (some 0) (some 0) (some 0) (boot 269) = .ok ((), s₀) ∧
      Guarded step NoWrap s₀ (sleepless 1) ∧ Guarded step OnTime s₀ (sleepless 1) ∧
      exec step s₀ (sleepless 1) = some s ∧ s.promoteAtTime = 540 ∧
      Each step PassOk s₀ (sleepless 1) := by
  obtain ⟨s₀, hboot, hrun⟩ := exists_booted 269 (p := fun s₀ =>
    decide (Guarded step NoWrap s₀ (sleepless 1)) &&
      decide (Guarded step OnTime s₀ (sleepless 1)) &&
      (exec step s₀ (sleepless 1)).any fun s : Kern 3 1 1 => decide (s.promoteAtTime = 540))
    (by decide +kernel)
  rw [Bool.and_eq_true, Bool.and_eq_true, decide_eq_true_eq, decide_eq_true_eq] at hrun
  obtain ⟨⟨hwrap, htime⟩, hrun⟩ := hrun
  obtain ⟨s, hs, hat⟩ := exists_of_exec_any step s₀ _ _ hrun
  exact ⟨s₀, s, hboot, hwrap, htime, hs, of_decide_eq_true hat,
    (promotion_on_time_iff hboot hwrap).mpr htime⟩

/-- **A missed promotion**: two ticks go by, the second pass starts one tick late, and the
timer is left in the past. -/
theorem promotion_missed : ∃ s₀ s : Kern 3 1 1,
    userinit (some 0) (some 0) (some 0) (boot 269) = .ok ((), s₀) ∧
      Guarded step NoWrap s₀ (sleepless 2) ∧ exec step s₀ (sleepless 2) = some s ∧
      s.promoteAtTime = 270 ∧ s.ticks = 271 ∧ ¬ Each step PassOk s₀ (sleepless 2) := by
  obtain ⟨s₀, hboot, hrun⟩ := exists_booted 269 (p := fun s₀ =>
    decide (Guarded step NoWrap s₀ (sleepless 2)) &&
      decide (¬ Guarded step OnTime s₀ (sleepless 2)) &&
      (exec step s₀ (sleepless 2)).any fun s : Kern 3 1 1 =>
        decide (s.promoteAtTime = 270 ∧ s.ticks = 271))
    (by decide +kernel)
  rw [Bool.and_eq_true, Bool.and_eq_true, decide_eq_true_eq, decide_eq_true_eq] at hrun
  obtain ⟨⟨hwrap, htime⟩, hrun⟩ := hrun
  obtain ⟨s, hs, hat⟩ := exists_of_exec_any step s₀ _ _ hrun
  obtain ⟨hat, hticks⟩ := of_decide_eq_true hat
  refine ⟨s₀, s, hboot, hwrap, hs, hat, hticks, fun heach => htime ?_⟩
  exact ((userinit_waits hboot).each_iff hwrap).mp heach

end Xv6.Ptable
