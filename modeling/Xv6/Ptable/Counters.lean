import Xv6.Ptable.Life

/-!
# Xv6.Ptable.Counters

What the operations of `proc.c` do to the counters of the kernel: `nextpid`, `ticks`
and `promoteAtTime`.
-/

namespace Xv6.Ptable

variable {NPROC MAX NCPU : Nat}

/-- `allocproc` takes a pid whenever it finds a free slot, also if it fails later. -/
def TakesPid (s : Kern NPROC MAX NCPU) : Op NPROC MAX NCPU → Prop
  | .allocproc _ => s.links.head .free ≠ none
  | .fork c _ _ => s.cpus c ≠ none ∧ s.links.head .free ≠ none
  | _ => False

/-- `ticks` and `promoteAtTime` after an operation. -/
def Op.time (s : Kern NPROC MAX NCPU) : Op NPROC MAX NCPU → UInt32 × UInt32
  | .tick => (s.ticks + 1, s.promoteAtTime)
  | .scheduler _ =>
      (s.ticks, if s.promoteAtTime = s.ticks then s.ticks + TIME_TO_PROMOTE else s.promoteAtTime)
  | _ => (s.ticks, s.promoteAtTime)

section Steps

variable {s s' : Kern NPROC MAX NCPU} {t : Table NPROC MAX} {op : Op NPROC MAX NCPU}

/-- A step for which the code is known to return. -/
theorem step_intro {m : K NPROC MAX NCPU Unit} {P : Kern NPROC MAX NCPU → Prop}
    (hm : op.code s = some m) (h : wp m s fun _ s' => P s') : ∃ s', step s op = some s' ∧ P s' := by
  obtain ⟨a, s', hok, hp⟩ := h
  refine ⟨s', ?_, hp⟩
  simp [step, attempt, hm, hok, Except.map, Except.toOption]

theorem Kern.Becomes.time_eq (h : s.Becomes t s') :
    (s'.ticks, s'.promoteAtTime) = (s.ticks, s.promoteAtTime) := by
  obtain ⟨k, rfl, -⟩ := h
  rfl

/-- **The counters** move when a pid is taken, when the clock ticks, and when a pass
of the scheduler finds that it is time to promote. -/
theorem step_counters (h : Inv s t) (hs : step s op = some s') :
    (¬ TakesPid s op ∧ s'.nextpid = s.nextpid ∨ TakesPid s op ∧ s'.nextpid = s.nextpid + 1) ∧
      (s'.ticks, s'.promoteAtTime) = op.time s := by
  obtain ⟨s₁, t', ho, hb⟩ := step_outcome h hs
  have htakes {p : Fin NPROC} {zs : List (Fin NPROC)} (hcons : t.list .free = p :: zs) :
      s.links.head .free ≠ none := by
    rw [h.becomes.head_eq, hcons]
    simp
  have hnone (hnil : t.list .free = []) : s.links.head .free = none := by
    rw [h.becomes.head_eq, hnil]
    rfl
  have hpid : (s.promoted s.due).nextpid = s.nextpid := by
    unfold Kern.promoted
    split <;> rfl
  have htime (c : Fin NCPU) : ((s.promoted s.due).ticks, (s.promoted s.due).promoteAtTime) =
      (Op.scheduler c : Op NPROC MAX NCPU).time s := by
    unfold Kern.promoted Kern.due Op.time
    by_cases he : s.promoteAtTime = s.ticks
    · simp [he]
    · simp [he]
  rw [hb.nextpid_eq, hb.time_eq]
  cases ho with
  | noSlot hfree => exact ⟨.inl ⟨fun ht => ht (hnone hfree), rfl⟩, rfl⟩
  | noStack hfree | alloc hfree => exact ⟨.inr ⟨htakes hfree, rfl⟩, rfl⟩
  | forkNoSlot hme hfree => exact ⟨.inl ⟨fun ht => ht.2 (hnone hfree), rfl⟩, rfl⟩
  | forkNoStack hme hfree | forkNoMemory hme hfree | fork hme hfree =>
      exact ⟨.inr ⟨⟨by simp [hme], htakes hfree⟩, rfl⟩, rfl⟩
  | idle => exact ⟨.inl ⟨not_false, hpid⟩, htime _⟩
  | dispatch => exact ⟨.inl ⟨not_false, hpid⟩, htime _⟩
  | _ => exact ⟨.inl ⟨not_false, rfl⟩, rfl⟩

end Steps

end Xv6.Ptable
