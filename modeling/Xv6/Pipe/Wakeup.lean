import Xv6.Pipe.Stream

/-!
# Xv6.Pipe.Wakeup

Who sleeps on a pipe, and whether they should.  `NoLostWakeup` says that a
sleeping reader sleeps on an empty pipe whose write end is open, and a
sleeping writer on a full one whose read end is open.

`pipewrite` owes the readers a `wakeup(&p->nread)` for every byte it stores.
It pays when it sleeps and when it returns `n`, but not on the early return:
a process that is killed (or finds the read end closed) stores what fits,
finds the ring full again and returns -1.  `Abandons` describes the stretches
that do this while a reader sleeps, in terms of the state before them, and
`noLostWakeup_along_iff` shows that they are exactly the ones that lose a
wakeup.

Everything rests on one equation, `pipewriteLoop_append`: a stretch stores
what there is room for and then does one of the three things it can do at
the end of its buffer or at a full ring.
-/

namespace Xv6.Pipe

variable {P : Type}

/-! ## the property -/

/-- No process sleeps on a pipe it could make progress on. -/
def NoLostWakeup (s : State P) : Prop :=
  ∀ p, ((s.proc p).AsleepOn .nread → s.pipe.nread = s.pipe.nwrite ∧ s.pipe.writeopen = true) ∧
    ((s.proc p).AsleepOn .nwrite →
      s.pipe.nwrite = s.pipe.nread + UInt32.ofNat PIPESIZE ∧ s.pipe.readopen = true)

/-- The free slots of the ring. -/
def room (p : Pipe) : Nat := PIPESIZE - (p.nwrite - p.nread).toNat

/-- The process that a label makes run a stretch of `pipewrite`, with what
it still has to store. -/
def toStore (s : State P) : Label P → Option (P × List UInt8)
  | .write me addr =>
      match (s.proc me).status with
      | .idle => some (me, addr)
      | _ => none
  | .resume me =>
      match (s.proc me).status with
      | .writing rest false => some (me, rest)
      | _ => none
  | _ => none

/-- The stretch has more to store than there is room for, its process will
not wait for more room (it is killed, or nobody can read), and a reader is
asleep. -/
def Abandons (s : State P) (l : Label P) : Prop :=
  ∃ me rest, toStore s l = some (me, rest) ∧ room s.pipe < rest.length ∧
    ((s.proc me).killed = true ∨ s.pipe.readopen = false) ∧
    ∃ r, (s.proc r).AsleepOn .nread

theorem Queued.room_eq {s : State P} {q : List UInt8} (h : Queued s q) :
    room s.pipe = PIPESIZE - q.length := by rw [room, h.toNat_sub]

/-! ## sleeping and waking -/

/-- Sleeping is a matter of the status. -/
theorem Proc.asleepOn_congr {pr pr' : Proc} (h : pr.status = pr'.status) (c : Chan) :
    pr.AsleepOn c ↔ pr'.AsleepOn c := by
  unfold Proc.AsleepOn
  rw [h]

theorem Proc.not_asleepOn_of_idle {pr : Proc} (h : pr.status = .idle) (c : Chan) :
    ¬ pr.AsleepOn c := by
  unfold Proc.AsleepOn
  rw [h]
  cases c <;> exact id

theorem Proc.not_asleepOn_wake (pr : Proc) {pr' : Proc} (h : pr'.status = pr.status.wake) (c : Chan) :
    ¬ pr'.AsleepOn c := by
  unfold Proc.AsleepOn
  rw [h]
  cases c <;> cases pr.status <;> exact id

/-- Nobody sleeps on a channel after a `wakeup` on it. -/
theorem Proc.not_asleepOn_wakeup (pr : Proc) (c : Chan) : ¬ (pr.wakeup c).AsleepOn c := by
  obtain ⟨killed, status, addr, stored, ret⟩ := pr
  cases c <;> cases status with
  | idle => exact id
  | writing rest a => cases a <;> exact id
  | reading n a => cases a <;> exact id

/-- `wakeup` puts nobody to sleep. -/
theorem Proc.asleepOn_of_wakeup {pr : Proc} {c c' : Chan} (h : (pr.wakeup c).AsleepOn c') :
    pr.AsleepOn c' := by
  rcases pr.wakeup_eq c with he | he
  · rwa [he] at h
  · rw [he] at h
    exact absurd h (Proc.not_asleepOn_wake pr rfl c')

/-- Any `wakeup` keeps the property. -/
theorem NoLostWakeup.wakeup {s : State P} (h : NoLostWakeup s) (c : Chan) :
    NoLostWakeup (s.wakeup c) := fun p =>
  ⟨fun ha => (h p).1 (Proc.asleepOn_of_wakeup ha), fun ha => (h p).2 (Proc.asleepOn_of_wakeup ha)⟩

/-- A sleeping writer means a full ring. -/
theorem NoLostWakeup.room_eq_zero {s : State P} {q : List UInt8} (h : NoLostWakeup s)
    (hq : Queued s q) {p : P} (hp : (s.proc p).AsleepOn .nwrite) : room s.pipe = 0 := by
  have hfull : s.pipe.full = true := beq_iff_eq.mpr ((h p).2 hp).1
  rw [hq.room_eq, hq.full_iff.mp hfull, Nat.sub_self]

variable [DecidableEq P]

/-- Changing one process keeps the property if that process is then where it
may be. -/
theorem NoLostWakeup.setProc {s : State P} (h : NoLostWakeup s) {me : P} {pr : Proc}
    (hr : pr.AsleepOn .nread → s.pipe.nread = s.pipe.nwrite ∧ s.pipe.writeopen = true)
    (hw : pr.AsleepOn .nwrite →
      s.pipe.nwrite = s.pipe.nread + UInt32.ofNat PIPESIZE ∧ s.pipe.readopen = true) :
    NoLostWakeup (s.setProc me pr) := fun p => by
  by_cases hp : p = me
  · subst hp
    simp only [State.setProc, Function.update_self]
    exact ⟨hr, hw⟩
  · simp only [State.setProc, Function.update_of_ne hp]
    exact h p

/-! ## a stretch of pipewrite -/

/-- The stores of a stretch. -/
def storeAll (s : State P) (me : P) (bs : List UInt8) : State P :=
  bs.foldl (fun t b => t.store me b) s

/-- The stores touch the ring, the write counter and the writer's record. -/
theorem storeAll_frame (s : State P) (me : P) (bs : List UInt8) :
    (storeAll s me bs).pipe.nread = s.pipe.nread ∧
    (storeAll s me bs).pipe.readopen = s.pipe.readopen ∧
    (storeAll s me bs).pipe.writeopen = s.pipe.writeopen ∧
    (∀ p, p ≠ me → (storeAll s me bs).proc p = s.proc p) ∧
    ((storeAll s me bs).proc me).killed = (s.proc me).killed ∧
    ((storeAll s me bs).proc me).status = (s.proc me).status := by
  induction bs generalizing s with
  | nil => exact ⟨rfl, rfl, rfl, fun _ _ => rfl, rfl, rfl⟩
  | cons b bs ih =>
      obtain ⟨h1, h2, h3, h4, h5, h6⟩ := ih (s.store me b)
      refine ⟨h1, h2, h3, fun p hp => ?_, ?_, ?_⟩
      · exact (h4 p hp).trans (Function.update_of_ne hp _ _)
      · exact h5.trans (by simp [State.store])
      · exact h6.trans (by simp [State.store])

theorem storeAll_status (s : State P) (me : P) (bs : List UInt8) (p : P) :
    ((storeAll s me bs).proc p).status = (s.proc p).status := by
  obtain ⟨-, -, -, hothers, -, hme⟩ := storeAll_frame s me bs
  by_cases hp : p = me
  · subst hp; exact hme
  · rw [hothers p hp]

/-- **Shape of a stretch**: as long as there is room the loop only stores. -/
theorem pipewriteLoop_append (me : P) (bs rest : List UInt8) {s : State P} {q : List UInt8}
    (hq : Queued s q) (hroom : q.length + bs.length ≤ PIPESIZE) :
    pipewriteLoop s me (bs ++ rest) = pipewriteLoop (storeAll s me bs) me rest ∧
      Queued (storeAll s me bs) (q ++ bs) := by
  induction bs generalizing s q with
  | nil => exact ⟨rfl, by simpa [storeAll] using hq⟩
  | cons b bs ih =>
      rw [List.length_cons] at hroom
      have hlt : q.length < PIPESIZE := by omega
      have hnf : ¬ s.pipe.full = true := fun h => by
        have := hq.full_iff.mp h
        omega
      obtain ⟨heq, hq'⟩ := ih (hq.store hlt me b) (by simp; omega)
      refine ⟨?_, by simpa [storeAll] using hq'⟩
      rw [List.cons_append, pipewriteLoop, if_neg hnf]
      exact heq

/-- A stretch that has room for all it wants to store wakes the readers and
returns. -/
theorem pipewriteLoop_fits {me : P} {rest : List UInt8} {s : State P} {q : List UInt8}
    (hq : Queued s q) (h : NoLostWakeup s) (hfit : rest.length ≤ room s.pipe) :
    NoLostWakeup (pipewriteLoop s me rest) := by
  have hr := hq.room_eq
  have hbound := hq.bound
  obtain ⟨heq, -⟩ := pipewriteLoop_append me rest [] hq (by omega)
  rw [List.append_nil] at heq
  rw [heq, pipewriteLoop]
  cases rest with
  | nil =>
      refine (h.wakeup .nread).setProc (fun ha => ?_) (fun ha => ?_)
      · exact absurd ha (Proc.not_asleepOn_of_idle rfl _)
      · exact absurd ha (Proc.not_asleepOn_of_idle rfl _)
  | cons b rest =>
      -- something was stored, so no writer was asleep; every reader is woken
      intro p
      have hst := storeAll_status s me (b :: rest) p
      by_cases hp : p = me
      · subst hp
        simp only [State.returnWrite, State.setProc, Function.update_self]
        exact ⟨fun ha => absurd ha (Proc.not_asleepOn_of_idle rfl _),
          fun ha => absurd ha (Proc.not_asleepOn_of_idle rfl _)⟩
      · simp only [State.returnWrite, State.setProc, Function.update_of_ne hp, State.wakeup]
        refine ⟨fun ha => absurd ha (Proc.not_asleepOn_wakeup _ _), fun ha => ?_⟩
        have ha' := (Proc.asleepOn_congr hst _).mp (Proc.asleepOn_of_wakeup ha)
        have := h.room_eq_zero hq ha'
        simp only [List.length_cons] at hfit
        omega

/-- A stretch that runs into a full ring: it has stored `bs`, `b :: rest` is
left, and the ring is full. -/
theorem pipewriteLoop_overflows (me : P) {rest : List UInt8} {s : State P} {q : List UInt8}
    (hq : Queued s q) (hover : room s.pipe < rest.length) :
    ∃ bs b tl, rest = bs ++ b :: tl ∧
      pipewriteLoop s me rest = pipewriteLoop (storeAll s me bs) me (b :: tl) ∧
      Queued (storeAll s me bs) (q ++ bs) ∧ (storeAll s me bs).pipe.full = true := by
  have hr := hq.room_eq
  have hbound := hq.bound
  obtain ⟨b, tl, htl⟩ : ∃ b tl, rest.drop (room s.pipe) = b :: tl :=
    List.exists_cons_of_ne_nil (by simp; omega)
  have hsplit : rest = rest.take (room s.pipe) ++ b :: tl := by
    rw [← htl, List.take_append_drop]
  have hlen : (rest.take (room s.pipe)).length = room s.pipe := by
    rw [List.length_take]; omega
  obtain ⟨heq, hq'⟩ := pipewriteLoop_append me (rest.take (room s.pipe)) (b :: tl) hq
    (by omega)
  refine ⟨rest.take (room s.pipe), b, tl, hsplit, ?_, hq', ?_⟩
  · rw [← heq, ← hsplit]
  · exact hq'.full_iff.mpr (by rw [List.length_append]; omega)

/-- A stretch that does not leave sleeping readers behind keeps the
property. -/
theorem pipewriteLoop_noLostWakeup {me : P} {rest : List UInt8} {s : State P} {q : List UInt8}
    (hq : Queued s q) (h : NoLostWakeup s)
    (hok : ¬ (room s.pipe < rest.length ∧
      ((s.proc me).killed = true ∨ s.pipe.readopen = false) ∧
      ∃ r, (s.proc r).AsleepOn .nread)) :
    NoLostWakeup (pipewriteLoop s me rest) := by
  by_cases hfit : rest.length ≤ room s.pipe
  · exact pipewriteLoop_fits hq h hfit
  · obtain ⟨bs, b, tl, -, heq, -, hfull⟩ :=
      pipewriteLoop_overflows me hq (Nat.lt_of_not_le hfit)
    obtain ⟨-, hro, -, hothers, hkl, -⟩ := storeAll_frame s me bs
    have hfull' : (storeAll s me bs).pipe.nwrite =
        (storeAll s me bs).pipe.nread + UInt32.ofNat PIPESIZE := beq_iff_eq.mp hfull
    -- a writer asleep before the stretch sleeps on the ring that is still full
    have hwriters : ∀ p, (s.proc p).AsleepOn .nwrite →
        (storeAll s me bs).pipe.nwrite =
          (storeAll s me bs).pipe.nread + UInt32.ofNat PIPESIZE ∧
        (storeAll s me bs).pipe.readopen = true := fun p hp =>
      ⟨hfull', hro.trans ((h p).2 hp).2⟩
    rw [heq, pipewriteLoop, if_pos hfull]
    split
    · next hleave =>
        -- the early return without `wakeup`
        rw [hro, hkl] at hleave
        have hleave' : (s.proc me).killed = true ∨ s.pipe.readopen = false := by
          simpa [or_comm] using hleave
        intro p
        by_cases hp : p = me
        · subst hp
          simp only [State.returnWrite, State.setProc, Function.update_self]
          exact ⟨fun ha => absurd ha (Proc.not_asleepOn_of_idle rfl _),
            fun ha => absurd ha (Proc.not_asleepOn_of_idle rfl _)⟩
        · simp only [State.returnWrite, State.setProc, Function.update_of_ne hp, hothers p hp]
          exact ⟨fun ha => absurd ⟨Nat.lt_of_not_le hfit, hleave', p, ha⟩ hok, hwriters p⟩
    · next hstay =>
        have hopen : (storeAll s me bs).pipe.readopen = true := by
          by_contra hne
          exact hstay (by simp [Bool.eq_false_iff.mpr hne])
        intro p
        by_cases hp : p = me
        · subst hp
          simp only [State.sleepWrite, State.setProc, Function.update_self, State.wakeup]
          exact ⟨fun ha => by simp [Proc.AsleepOn] at ha, fun _ => ⟨hfull', hopen⟩⟩
        · simp only [State.sleepWrite, State.setProc, Function.update_of_ne hp, State.wakeup,
            hothers p hp]
          exact ⟨fun ha => absurd ha (Proc.not_asleepOn_wakeup _ _),
            fun ha => hwriters p (Proc.asleepOn_of_wakeup ha)⟩

/-- An abandoning stretch loses the wakeup of every sleeping reader. -/
theorem pipewriteLoop_loses {me : P} {rest : List UInt8} {s : State P} {q : List UInt8}
    (hq : Queued s q) (hover : room s.pipe < rest.length)
    (hleave : (s.proc me).killed = true ∨ s.pipe.readopen = false) {r : P}
    (hr : (s.proc r).AsleepOn .nread) (hne : r ≠ me) :
    ¬ NoLostWakeup (pipewriteLoop s me rest) := by
  obtain ⟨bs, b, tl, -, heq, hq', hfull⟩ := pipewriteLoop_overflows me hq hover
  obtain ⟨-, hro, -, hothers, hkl, -⟩ := storeAll_frame s me bs
  have hout : (!(storeAll s me bs).pipe.readopen || ((storeAll s me bs).proc me).killed) = true := by
    rw [hro, hkl]
    simpa [or_comm] using hleave
  rw [heq, pipewriteLoop, if_pos hfull, if_pos hout]
  intro h
  have hrs : (((storeAll s me bs).returnWrite me (-1)).proc r).AsleepOn .nread := by
    simpa [State.returnWrite, State.setProc, hne, hothers r hne] using hr
  have hempty : (storeAll s me bs).pipe.empty = true := beq_iff_eq.mpr ((h r).1 hrs).1
  have hnil := hq'.empty_iff.mp hempty
  have hlen := hq'.full_iff.mp hfull
  rw [hnil] at hlen
  exact absurd hlen (by decide)

/-! ## the other stretches -/

omit [DecidableEq P] in
/-- The copy loop hands bytes out and touches nothing else. -/
theorem pipereadCopy_frame (s : State P) (n : Nat) :
    (pipereadCopy s n).proc = s.proc ∧
    (pipereadCopy s n).pipe.writeopen = s.pipe.writeopen := by
  induction n generalizing s with
  | zero => exact ⟨rfl, rfl⟩
  | succ n ih =>
      rw [pipereadCopy]
      split
      · exact ⟨rfl, rfl⟩
      · exact ih s.fetch

omit [DecidableEq P] in
theorem pipereadCopy_of_empty {s : State P} (h : s.pipe.empty = true) (n : Nat) :
    pipereadCopy s n = s := by
  cases n with
  | zero => rfl
  | succ n => rw [pipereadCopy, if_pos h]

theorem piperead_noLostWakeup {s : State P} (h : NoLostWakeup s) (me : P) (n : Nat) :
    NoLostWakeup (piperead s me n) := by
  rw [piperead]
  split
  · next hc =>
      obtain ⟨hempty, hopen⟩ := Bool.and_eq_true_iff.mp hc
      split
      · exact h.setProc (fun ha => absurd ha (Proc.not_asleepOn_of_idle rfl _))
          (fun ha => absurd ha (Proc.not_asleepOn_of_idle rfl _))
      · exact h.setProc (fun _ => ⟨beq_iff_eq.mp hempty, hopen⟩)
          (fun ha => by simp [Proc.AsleepOn] at ha)
  · obtain ⟨hproc, hwo⟩ := pipereadCopy_frame s n
    intro p
    by_cases hp : p = me
    · subst hp
      simp only [State.returnRead, State.setProc, Function.update_self]
      exact ⟨fun ha => absurd ha (Proc.not_asleepOn_of_idle rfl _),
        fun ha => absurd ha (Proc.not_asleepOn_of_idle rfl _)⟩
    · simp only [State.returnRead, State.setProc, Function.update_of_ne hp, State.wakeup]
      refine ⟨fun ha => ?_, fun ha => absurd ha (Proc.not_asleepOn_wakeup _ _)⟩
      -- another reader sleeps, so the ring is empty and nothing is copied
      rw [hproc] at ha
      have hrd := (h p).1 (Proc.asleepOn_of_wakeup ha)
      rw [pipereadCopy_of_empty (beq_iff_eq.mpr hrd.1) n]
      exact hrd

omit [DecidableEq P] in
theorem pipeclose_noLostWakeup {s : State P} (h : NoLostWakeup s) (writable : Bool) :
    NoLostWakeup (pipeclose s writable) := by
  rw [pipeclose]
  split
  · exact fun p => ⟨fun ha => absurd ha (Proc.not_asleepOn_wakeup _ _),
      fun ha => (h p).2 (Proc.asleepOn_of_wakeup ha)⟩
  · exact fun p => ⟨fun ha => (h p).1 (Proc.asleepOn_of_wakeup ha),
      fun ha => absurd ha (Proc.not_asleepOn_wakeup _ _)⟩

theorem kill_noLostWakeup {s : State P} (h : NoLostWakeup s) (q : P) :
    NoLostWakeup (kill s q) :=
  h.setProc (fun ha => absurd ha (Proc.not_asleepOn_wake (s.proc q) rfl _))
    (fun ha => absurd ha (Proc.not_asleepOn_wake (s.proc q) rfl _))

/-! ## runs -/

/-- The state in which `pipewrite` enters its loop. -/
theorem enter_noLostWakeup {s : State P} (h : NoLostWakeup s) {me : P}
    (hidle : (s.proc me).status = .idle) (addr : List UInt8) :
    NoLostWakeup (s.setProc me { s.proc me with addr, stored := [], ret := none }) :=
  h.setProc (fun ha => absurd ha (Proc.not_asleepOn_of_idle hidle _))
    (fun ha => absurd ha (Proc.not_asleepOn_of_idle hidle _))

theorem step_noLostWakeup {s s' : State P} {l : Label P} (hi : Intact s) (h : NoLostWakeup s)
    (hok : ¬ Abandons s l) (hs : step s l = some s') : NoLostWakeup s' := by
  obtain ⟨q, hq⟩ := hi.queued
  obtain ⟨me, addr, rfl, hst, rfl⟩ | ⟨me, n, -, -, rfl⟩ | ⟨me, rest, rfl, hst, rfl⟩ |
    ⟨me, n, -, -, rfl⟩ | ⟨q, -, rfl⟩ | ⟨w, -, rfl⟩ := step_cases hs
  · refine pipewriteLoop_noLostWakeup (hq.congr rfl rfl rfl rfl rfl)
      (enter_noLostWakeup h hst addr) ?_
    rintro ⟨hover, hleave, r, hr⟩
    have hrme : r ≠ me := by
      rintro rfl
      exact Proc.not_asleepOn_of_idle (by simpa [State.setProc] using hst) _ hr
    refine hok ⟨me, addr, by simp [toStore, hst], hover, ?_, r, ?_⟩
    · simpa [State.setProc] using hleave
    · simpa [State.setProc, hrme] using hr
  · exact piperead_noLostWakeup h me n
  · refine pipewriteLoop_noLostWakeup hq h ?_
    rintro ⟨hover, hleave, hr⟩
    exact hok ⟨me, rest, by simp [toStore, hst], hover, hleave, hr⟩
  · exact piperead_noLostWakeup h me n
  · exact kill_noLostWakeup h q
  · exact pipeclose_noLostWakeup h w

/-- An abandoning stretch can always run, and loses a wakeup. -/
theorem step_loses {s : State P} {l : Label P} (hi : Intact s) (h : NoLostWakeup s)
    (hbad : Abandons s l) : ∃ s', step s l = some s' ∧ ¬ NoLostWakeup s' := by
  obtain ⟨q, hq⟩ := hi.queued
  obtain ⟨me, rest, hto, hover, hleave, r, hr⟩ := hbad
  -- a reader sleeps, so the write end is open and the pipe is not freed
  have hlive : ¬ (!s.pipe.readopen && !s.pipe.writeopen) = true := by
    simp [((h r).1 hr).2]
  cases l with
  | write me' addr =>
      simp only [toStore] at hto
      split at hto
      · next hst =>
          cases hto
          have hrme : r ≠ me := by
            rintro rfl
            exact Proc.not_asleepOn_of_idle hst _ hr
          refine ⟨pipewrite s me rest, by simp [step, hlive, hst], ?_⟩
          refine pipewriteLoop_loses (hq.congr rfl rfl rfl rfl rfl) hover
            (by simpa [State.setProc] using hleave) (r := r) ?_ hrme
          simpa [State.setProc, hrme] using hr
      · contradiction
  | resume me' =>
      simp only [toStore] at hto
      split at hto
      · next hst =>
          cases hto
          have hrme : r ≠ me := by
            rintro rfl
            simp [Proc.AsleepOn, hst] at hr
          exact ⟨pipewriteLoop s me rest, by simp [step, hlive, hst],
            pipewriteLoop_loses hq hover hleave hr hrme⟩
      · contradiction
  | read me' n => simp [toStore] at hto
  | kill q' => simp [toStore] at hto
  | close w => simp [toStore] at hto

omit [DecidableEq P] in
theorem start_noLostWakeup (p : Pipe) : NoLostWakeup (start p : State P) := fun _ =>
  ⟨fun ha => absurd ha (Proc.not_asleepOn_of_idle rfl _),
    fun ha => absurd ha (Proc.not_asleepOn_of_idle rfl _)⟩

/-- **No lost wakeup, exactly**: a run on a pipe from `pipealloc` keeps every
sleeper where it belongs, in all its states, if and only if none of its
stretches abandons a sleeping reader. -/
theorem noLostWakeup_along_iff {page : Option (Fin PIPESIZE → UInt8)} {p : Pipe}
    (halloc : pipealloc page = some p) (ls : List (Label P)) :
    Run.Along step NoLostWakeup (start p) ls ↔
      Run.Guarded step (fun s l => ¬ Abandons s l) (start p) ls := by
  have hinit : Intact (start p : State P) ∧ NoLostWakeup (start p : State P) :=
    ⟨start_intact halloc, start_noLostWakeup p⟩
  have hstep : ∀ (s : State P) (l : Label P) (s' : State P), Intact s ∧ NoLostWakeup s →
      ¬ Abandons s l → step s l = some s' → Intact s' ∧ NoLostWakeup s' :=
    fun s l s' h hok hs => ⟨step_intact h.1 hs, step_noLostWakeup h.1 h.2 hok hs⟩
  constructor
  · refine Run.guarded_of_along hstep (fun s l h hn => ?_) hinit
    exact step_loses h.1 h.2 (not_not.mp hn)
  · exact Run.along_of_guarded hstep (fun s h => h.2) hinit

/-- A reader that goes to sleep and then sees the write end close. -/
theorem noLostWakeup_read_close :
    Run.Along step NoLostWakeup (start ⟨fun _ => 0, 0, 0, true, true⟩ : State (Fin 2))
      [.read 1 1, .close true] :=
  (noLostWakeup_along_iff (show pipealloc (some fun _ => 0) = some _ from rfl) _).mpr
    ⟨fun ⟨_, _, h, _⟩ => by simp [toStore] at h,
      fun _ _ => ⟨fun ⟨_, _, h, _⟩ => by simp [toStore] at h, fun _ _ => trivial⟩⟩

/-- A writer fills the ring and sleeps, the reader empties it and sleeps, the
writer is killed, resumes with room, fills the ring again and leaves. -/
def abandoningRun : List (Label (Fin 2)) :=
  [.write 0 (List.replicate 1025 0), .read 1 512, .read 1 1, .kill 0, .resume 0]

/-- After `abandoningRun` the reader sleeps on a full pipe. -/
theorem abandoningRun_loses :
    ¬ ∀ ls s, Run.exec step (start ⟨fun _ => 0, 0, 0, true, true⟩ : State (Fin 2)) ls = some s →
      NoLostWakeup s := by
  intro h
  obtain ⟨s, hs, hprop⟩ := Run.exists_of_exec_any step
    (start ⟨fun _ => 0, 0, 0, true, true⟩ : State (Fin 2)) abandoningRun
    (fun s => (s.proc 1).status == .reading 1 true && s.pipe.nread != s.pipe.nwrite)
    (by decide +kernel)
  simp only [Bool.and_eq_true, beq_iff_eq, bne_iff_ne] at hprop
  have hasleep : (s.proc 1).AsleepOn .nread := by simp [Proc.AsleepOn, hprop.1]
  exact hprop.2 ((h abandoningRun s hs 1).1 hasleep).1

end Xv6.Pipe
