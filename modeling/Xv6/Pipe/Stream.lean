import Xv6.Pipe

/-!
# Xv6.Pipe.Stream

Stream integrity: whatever the interleaving, what the readers got is a
prefix of what the writers stored, and the ring holds the rest.

The invariant has two halves.  `Queued s q` ties the ring to the two
histories: `q` is what was stored and not yet handed out, and it lies in the
slots from `nread` on.  `Proc.Recorded` ties each process to its latest
`pipewrite`: what the call has stored, followed by what it still has to
store, is its buffer.
-/

namespace Xv6.Pipe

variable {P : Type}

/-! ## the ring and the histories -/

/-- `q` is in flight: stored, not yet handed out, and held by the ring. -/
structure Queued (s : State P) (q : List UInt8) : Prop where
  stream : s.input = s.output ++ q
  count : s.pipe.nwrite = s.pipe.nread + UInt32.ofNat q.length
  bound : q.length ≤ PIPESIZE
  ring : Ring.Holds s.pipe.data s.pipe.nread q

/-- A queue of at most `PIPESIZE` bytes is counted faithfully by a `uint`. -/
theorem Queued.toNat_sub {s : State P} {q : List UInt8} (h : Queued s q) :
    (s.pipe.nwrite - s.pipe.nread).toNat = q.length := by
  have hlt : q.length < 2 ^ 32 := lt_of_le_of_lt h.bound (by decide)
  rw [h.count, add_sub_cancel_left, UInt32.toNat_ofNat_of_lt' hlt]

theorem ofNat_length_inj {m n : Nat} (hm : m ≤ PIPESIZE) (hn : n ≤ PIPESIZE)
    (h : UInt32.ofNat m = UInt32.ofNat n) : m = n := by
  have hlt : PIPESIZE < UInt32.size := by decide
  have := congrArg UInt32.toNat h
  rwa [UInt32.toNat_ofNat_of_lt' (by omega), UInt32.toNat_ofNat_of_lt' (by omega)] at this

theorem Queued.full_iff {s : State P} {q : List UInt8} (h : Queued s q) :
    s.pipe.full = true ↔ q.length = PIPESIZE := by
  rw [full, beq_iff_eq, h.count, UInt32.add_right_inj]
  exact ⟨ofNat_length_inj h.bound (le_refl _), fun he => by rw [he]⟩

theorem Queued.empty_iff {s : State P} {q : List UInt8} (h : Queued s q) :
    s.pipe.empty = true ↔ q = [] := by
  have hzero : s.pipe.nread = s.pipe.nread + UInt32.ofNat q.length ↔ q.length = 0 := by
    constructor
    · intro he
      have he' : UInt32.ofNat q.length = UInt32.ofNat 0 := by simpa using he
      exact ofNat_length_inj h.bound (Nat.zero_le _) he'
    · intro he; simp [he]
  rw [empty, beq_iff_eq, h.count, hzero, List.length_eq_zero_iff]

theorem Queued.fetch {s : State P} {b : UInt8} {q : List UInt8} (h : Queued s (b :: q)) :
    Queued s.fetch q where
  stream := by simp [State.fetch, h.stream, h.ring.pop.1]
  count := by
    simp only [State.fetch]
    rw [h.count, List.length_cons, Ring.ofNat_succ_eq, add_assoc, add_comm 1]
  bound := Nat.le_of_succ_le h.bound
  ring := h.ring.pop.2

/-- `Queued` reads the ring and the histories only. -/
theorem Queued.congr {s t : State P} {q : List UInt8} (h : Queued s q)
    (hd : t.pipe.data = s.pipe.data) (hr : t.pipe.nread = s.pipe.nread)
    (hw : t.pipe.nwrite = s.pipe.nwrite) (hi : t.input = s.input) (ho : t.output = s.output) :
    Queued t q where
  stream := by rw [hi, ho, h.stream]
  count := by rw [hw, hr, h.count]
  bound := h.bound
  ring := by rw [hd, hr]; exact h.ring

variable [DecidableEq P]

theorem Queued.store {s : State P} {q : List UInt8} (h : Queued s q)
    (hlt : q.length < PIPESIZE) (me : P) (b : UInt8) : Queued (s.store me b) (q ++ [b]) where
  stream := by simp [State.store, h.stream]
  count := by
    simp only [State.store, List.length_append, List.length_singleton]
    rw [h.count, Ring.ofNat_succ_eq, add_assoc]
  bound := by simpa using Nat.succ_le_of_lt hlt
  ring := by
    simp only [State.store]
    rw [h.count]
    exact h.ring.push pipesize_dvd hlt

/-! ## a process and its latest pipewrite -/

/-- The latest `pipewrite` of a process stored a prefix of its buffer, and
all of it if it returned `n`; while it is suspended, what it has stored and
what it still has to store make up the buffer. -/
structure Proc.Recorded (pr : Proc) : Prop where
  isPrefix : pr.stored <+: pr.addr
  whole : pr.ret = some (pr.addr.length : Int) → pr.stored = pr.addr
  rest : ∀ r a, pr.status = .writing r a → pr.stored ++ r = pr.addr ∧ pr.ret = none

theorem Proc.Recorded.of_rest {pr : Proc} {r : List UInt8} (h : pr.stored ++ r = pr.addr)
    (hret : pr.ret = none) (hst : ∀ r' a, pr.status = .writing r' a → r' = r) :
    pr.Recorded where
  isPrefix := ⟨r, h⟩
  whole := by simp [hret]
  rest := fun r' a hs => ⟨hst r' a hs ▸ h, hret⟩

theorem Proc.Recorded.returned {pr : Proc} (hpre : pr.stored <+: pr.addr) {r : Int}
    (hr : r = pr.addr.length → pr.stored = pr.addr) :
    Proc.Recorded { pr with status := .idle, ret := some r } where
  isPrefix := hpre
  whole := fun h => hr (Option.some.inj h)
  rest := by simp

theorem Proc.Recorded.setStatus {pr : Proc} (h : pr.Recorded) {st : Status}
    (hst : ∀ r a, st = .writing r a → ∃ a', pr.status = .writing r a') :
    Proc.Recorded { pr with status := st } where
  isPrefix := h.isPrefix
  whole := h.whole
  rest := fun r a hs => by
    obtain ⟨a', ha'⟩ := hst r a hs
    exact h.rest r a' ha'

/-- Waking a process does not change what it has to store. -/
theorem Status.wake_eq_writing {st : Status} {r : List UInt8} {a : Bool}
    (h : st.wake = .writing r a) : ∃ a', st = .writing r a' := by
  cases st with
  | idle => simp [Status.wake] at h
  | writing rest as =>
      simp only [Status.wake, Status.writing.injEq] at h
      exact ⟨as, by rw [h.1]⟩
  | reading n as => simp [Status.wake] at h

theorem Proc.wakeup_eq (c : Chan) (pr : Proc) :
    pr.wakeup c = pr ∨ pr.wakeup c = { pr with status := pr.status.wake } := by
  unfold Proc.wakeup
  split
  · exact Or.inr rfl
  · exact Or.inr rfl
  · exact Or.inl rfl

theorem Proc.Recorded.wakeup {pr : Proc} (h : pr.Recorded) (c : Chan) :
    (pr.wakeup c).Recorded := by
  rcases pr.wakeup_eq c with he | he
  · rw [he]; exact h
  · rw [he]; exact h.setStatus fun _ _ => Status.wake_eq_writing

@[simp] theorem Proc.wakeup_addr (c : Chan) (pr : Proc) : (pr.wakeup c).addr = pr.addr := by
  rcases pr.wakeup_eq c with he | he <;> rw [he]

@[simp] theorem Proc.wakeup_stored (c : Chan) (pr : Proc) :
    (pr.wakeup c).stored = pr.stored := by
  rcases pr.wakeup_eq c with he | he <;> rw [he]

@[simp] theorem Proc.wakeup_ret (c : Chan) (pr : Proc) : (pr.wakeup c).ret = pr.ret := by
  rcases pr.wakeup_eq c with he | he <;> rw [he]

/-! ## the invariant -/

structure Intact (s : State P) : Prop where
  queued : ∃ q, Queued s q
  recorded : ∀ p, (s.proc p).Recorded

theorem Intact.setProc {s : State P} (h : Intact s) {me : P} {pr : Proc} (hpr : pr.Recorded) :
    Intact (s.setProc me pr) where
  queued := by
    obtain ⟨q, hq⟩ := h.queued
    exact ⟨q, hq.congr rfl rfl rfl rfl rfl⟩
  recorded := fun p => by
    by_cases hp : p = me
    · subst hp; simpa [State.setProc] using hpr
    · simpa [State.setProc, hp] using h.recorded p

omit [DecidableEq P] in
theorem Intact.wakeup {s : State P} (h : Intact s) (c : Chan) : Intact (s.wakeup c) where
  queued := by
    obtain ⟨q, hq⟩ := h.queued
    exact ⟨q, hq.congr rfl rfl rfl rfl rfl⟩
  recorded := fun p => (h.recorded p).wakeup c

/-- A stretch of `pipewrite` keeps the invariant.  The induction is on what
is left of the buffer, with the writer's own record kept apart: while it
runs, `stored ++ rest` is its buffer. -/
theorem pipewriteLoop_intact (me : P) (rest : List UInt8) (s : State P)
    (hq : ∃ q, Queued s q) (hothers : ∀ p, p ≠ me → (s.proc p).Recorded)
    (hme : (s.proc me).stored ++ rest = (s.proc me).addr) (hret : (s.proc me).ret = none) :
    Intact (pipewriteLoop s me rest) := by
  induction rest generalizing s with
  | nil =>
      obtain ⟨q, hq⟩ := hq
      rw [List.append_nil] at hme
      refine ⟨⟨q, hq.congr rfl rfl rfl rfl rfl⟩, fun p => ?_⟩
      by_cases hp : p = me
      · subst hp
        simp only [pipewriteLoop, State.returnWrite, State.setProc, State.wakeup,
          Function.update_self]
        exact Proc.Recorded.returned (by simp [hme]) (fun _ => by simp [hme])
      · simpa [pipewriteLoop, State.returnWrite, State.setProc, State.wakeup, hp]
          using (hothers p hp).wakeup .nread
  | cons b rest ih =>
      obtain ⟨q, hq⟩ := hq
      have hpre : (s.proc me).stored <+: (s.proc me).addr := ⟨b :: rest, hme⟩
      by_cases hf : s.pipe.full = true
      · rw [pipewriteLoop, if_pos hf]
        split
        · -- the early return: -1 is never the length of a buffer
          refine ⟨⟨q, hq.congr rfl rfl rfl rfl rfl⟩, fun p => ?_⟩
          by_cases hp : p = me
          · subst hp
            simp only [State.returnWrite, State.setProc, Function.update_self]
            exact Proc.Recorded.returned hpre (fun h => by omega)
          · simpa [State.returnWrite, State.setProc, hp] using hothers p hp
        · refine ⟨⟨q, hq.congr rfl rfl rfl rfl rfl⟩, fun p => ?_⟩
          by_cases hp : p = me
          · subst hp
            simp only [State.sleepWrite, State.setProc, State.wakeup, Function.update_self]
            refine Proc.Recorded.of_rest (r := b :: rest) (by simpa using hme)
              (by simpa using hret) ?_
            intro r' a h
            exact (Status.writing.inj h).1.symm
          · simpa [State.sleepWrite, State.setProc, State.wakeup, hp]
              using (hothers p hp).wakeup .nread
      · have hlt : q.length < PIPESIZE :=
          lt_of_le_of_ne hq.bound fun h => hf (hq.full_iff.mpr h)
        rw [pipewriteLoop, if_neg hf]
        refine ih (s.store me b) ⟨q ++ [b], hq.store hlt me b⟩ ?_ ?_ ?_
        · intro p hp
          simpa [State.store, hp] using hothers p hp
        · simpa [State.store] using hme
        · simpa [State.store] using hret

omit [DecidableEq P] in
theorem pipereadCopy_intact (n : Nat) (s : State P) (h : Intact s) :
    Intact (pipereadCopy s n) := by
  induction n generalizing s with
  | zero => exact h
  | succ n ih =>
      rw [pipereadCopy]
      split
      · exact h
      · next hne =>
          obtain ⟨q, hq⟩ := h.queued
          cases q with
          | nil => exact absurd (hq.empty_iff.mpr rfl) hne
          | cons b q => exact ih s.fetch ⟨⟨q, hq.fetch⟩, h.recorded⟩

theorem piperead_intact {s : State P} (h : Intact s) (me : P) (n : Nat) :
    Intact (piperead s me n) := by
  have hidle : ∀ (t : State P), Intact t → Intact (t.returnRead me) := fun t ht =>
    ht.setProc ((ht.recorded me).setStatus (by simp))
  rw [piperead]
  split
  · split
    · exact hidle s h
    · exact h.setProc ((h.recorded me).setStatus (by simp))
  · exact hidle _ ((pipereadCopy_intact n s h).wakeup .nwrite)

omit [DecidableEq P] in
theorem pipeclose_intact {s : State P} (h : Intact s) (writable : Bool) :
    Intact (pipeclose s writable) := by
  have hflags : ∀ (r w : Bool),
      Intact { s with pipe := { s.pipe with readopen := r, writeopen := w } } := by
    intro r w
    obtain ⟨q, hq⟩ := h.queued
    exact ⟨⟨q, hq.congr rfl rfl rfl rfl rfl⟩, h.recorded⟩
  rw [pipeclose]
  split
  · exact (hflags s.pipe.readopen false).wakeup .nread
  · exact (hflags false s.pipe.writeopen).wakeup .nwrite

theorem kill_intact {s : State P} (h : Intact s) (q : P) : Intact (kill s q) := by
  refine h.setProc ⟨(h.recorded q).isPrefix, (h.recorded q).whole, fun r a hs => ?_⟩
  obtain ⟨a', ha'⟩ := Status.wake_eq_writing hs
  exact (h.recorded q).rest r a' ha'

theorem step_intact {s s' : State P} {l : Label P} (h : Intact s) (hs : step s l = some s') :
    Intact s' := by
  obtain ⟨me, addr, -, -, rfl⟩ | ⟨me, n, -, -, rfl⟩ | ⟨me, rest, -, hst, rfl⟩ |
    ⟨me, n, -, -, rfl⟩ | ⟨q, -, rfl⟩ | ⟨w, -, rfl⟩ := step_cases hs
  · refine pipewriteLoop_intact me addr _ ?_ ?_ (by simp [State.setProc])
      (by simp [State.setProc])
    · obtain ⟨q, hq⟩ := h.queued
      exact ⟨q, hq.congr rfl rfl rfl rfl rfl⟩
    · intro p hp
      simpa [State.setProc, hp] using h.recorded p
  · exact piperead_intact h me n
  · obtain ⟨hrest, hret⟩ := (h.recorded me).rest rest false hst
    exact pipewriteLoop_intact me rest s h.queued (fun p _ => h.recorded p) hrest hret
  · exact piperead_intact h me n
  · exact kill_intact h q
  · exact pipeclose_intact h w

omit [DecidableEq P] in
theorem start_intact {page : Option (Fin PIPESIZE → UInt8)} {p : Pipe}
    (h : pipealloc page = some p) : Intact (start p : State P) := by
  cases page with
  | none => simp [pipealloc] at h
  | some data =>
      simp only [pipealloc, Option.map_some, Option.some.injEq] at h
      subst h
      refine ⟨⟨[], rfl, by simp [start], Nat.zero_le _, trivial⟩, fun q => ?_⟩
      exact ⟨List.prefix_rfl, fun _ => rfl, by simp [start]⟩

/-- **Stream integrity**: in every state of every interleaving on a pipe
from `pipealloc`, the bytes handed out are a prefix of the bytes stored, the
rest is `nwrite - nread` bytes long, which is at most `PIPESIZE`, and every
`pipewrite` has stored a prefix of its buffer, all of it once it returned
`n`.  The counters are the wrapping `uint`s of the source throughout. -/
theorem stream_integrity {page : Option (Fin PIPESIZE → UInt8)} {p : Pipe}
    (halloc : pipealloc page = some p) {ls : List (Label P)} {s : State P}
    (hrun : Run.exec step (start p) ls = some s) :
    (∃ q, s.input = s.output ++ q ∧ q.length = (s.pipe.nwrite - s.pipe.nread).toNat ∧
      q.length ≤ PIPESIZE) ∧
    ∀ w, (s.proc w).stored <+: (s.proc w).addr ∧
      ((s.proc w).ret = some ((s.proc w).addr.length : Int) →
        (s.proc w).stored = (s.proc w).addr) := by
  have h : Intact s :=
    Run.reachable_invariant (fun _ _ _ => step_intact) (start_intact halloc) ⟨ls, hrun⟩
  obtain ⟨q, hq⟩ := h.queued
  exact ⟨⟨q, hq.stream, hq.toNat_sub.symm, hq.bound⟩,
    fun w => ⟨(h.recorded w).isPrefix, (h.recorded w).whole⟩⟩

/-- Three bytes in, two out: one is left in the ring. -/
theorem stream_integrity_write_read :
    (Run.exec step (start ⟨fun _ => 7, 0, 0, true, true⟩ : State (Fin 2))
        [.write 0 [1, 2, 3], .read 1 2]).map (fun s => s.output) = some [1, 2] ∧
      ∀ s, Run.exec step (start ⟨fun _ => 7, 0, 0, true, true⟩ : State (Fin 2))
          [.write 0 [1, 2, 3], .read 1 2] = some s →
        ∃ q, s.input = s.output ++ q ∧ q.length = (s.pipe.nwrite - s.pipe.nread).toNat ∧
          q.length ≤ PIPESIZE :=
  ⟨by decide +kernel, fun _ h => (stream_integrity (show pipealloc (some fun _ => 7) = some _ from rfl) h).1⟩

end Xv6.Pipe
