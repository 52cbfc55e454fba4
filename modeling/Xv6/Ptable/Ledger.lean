import Xv6.Ptable.Family

/-!
# Xv6.Ptable.Ledger

The accounts of the multi-level feedback queue.  A `Book` says what a process has had of
the CPU: the ticks of its current slice, of the slices that counted against its budget
since that was last reset, of all slices since `allocproc`, and the level it is on.  The
books are kept beside the kernel, by what happens (`Ledger.post`): slices end, budgets are
used up, priorities are set.

`mlfq_accounts`: the fields `budget`, `priority` and `cpu_ticks_total` of every process
agree with its book, in every state of every run, as long as no slice lasts 2³¹ ticks.
-/

namespace Xv6.Ptable

open Run

variable {NPROC MAX NCPU : Nat}

/-! ## books -/

structure Book where
  /-- ticks since it was dispatched -/
  ran : Nat
  /-- ticks of the slices that ended in `yield` or `sleep` since the last reset -/
  used : Nat
  /-- ticks of all slices that have ended -/
  total : Nat
  level : Nat
  deriving DecidableEq

/-- A new process. -/
def Book.fresh : Book := ⟨0, 0, 0, 0⟩

/-- A slice ends. -/
def Book.leave (b : Book) : Book := { b with total := b.total + b.ran }

/-- A slice ends in `yield` or `sleep`: if that uses up the budget, the process is demoted
and begins anew. -/
def Book.charge (MAX : Nat) (b : Book) : Book :=
  if BUDGET.toInt ≤ b.used + b.ran then
    { b.leave with used := 0, level := min MAX (b.level + 1) }
  else { b.leave with used := b.used + b.ran }

def Book.dispatch (b : Book) : Book := { b with ran := 0 }

def Book.promote (b : Book) : Book := { b with level := b.level - 1 }

def Book.setpriority (priority : Nat) (b : Book) : Book :=
  { b with used := 0, level := priority }

/-- The books of all slots. -/
abbrev Ledger (NPROC : Nat) := Fin NPROC → Book

/-- An entry in one book. -/
def Ledger.enter (g : Ledger NPROC) (p : Option (Fin NPROC)) (f : Book → Book) : Ledger NPROC :=
  fun q => if p = some q then f (g q) else g q

def Ledger.promoteAll (g : Ledger NPROC) (s : Kern NPROC MAX NCPU) : Ledger NPROC :=
  fun q => if (s.proc q).Active then (g q).promote else g q

/-- The processes from `p` on. -/
def Links.walk (k : Links NPROC MAX) : Nat → Option (Fin NPROC) → List (Fin NPROC)
  | 0, _ => []
  | _, none => []
  | n + 1, some p => p :: k.walk n (k.next p)

/-- The lists that `setpriority` searches, in order. -/
def activeLists (MAX : Nat) : List (SList MAX) := (levels MAX).map .ready ++ [.running, .sleep]

/-- The process whose priority `setpriority` sets. -/
def Kern.target (s : Kern NPROC MAX NCPU) (pid : Int32) : Option (Fin NPROC) :=
  (activeLists MAX).findSome? fun l =>
    (s.links.walk NPROC (s.links.head l)).find? fun p => (s.proc p).pid = pid.toUInt32

/-- What goes into the books when an operation leads from `s` to `s'`. -/
def Ledger.post (g : Ledger NPROC) (s : Kern NPROC MAX NCPU) (s' : Kern NPROC MAX NCPU) :
    Op NPROC MAX NCPU → Ledger NPROC
  | .tick => fun p => { g p with ran := (g p).ran + 1 }
  | .yield c | .sleep c _ => g.enter (s.cpus c) (Book.charge MAX)
  | .wait c => if s'.cpus c = none then g.enter (s.cpus c) (Book.charge MAX) else g
  | .exit c => g.enter (s.cpus c) Book.leave
  | .scheduler c => (if s.due then g.promoteAll s else g).enter (s'.cpus c) Book.dispatch
  | .promoteAll => g.promoteAll s
  | .setpriority pid priority => g.enter (s.target pid) (Book.setpriority priority)
  | .allocproc _ | .fork _ _ _ | .wakeup _ | .kill _ => g

/-- A part of `fork`: `allocproc` opens a book. -/
def Ledger.opened (g : Ledger NPROC) (s s' : Kern NPROC MAX NCPU) : Ledger NPROC :=
  fun p => if (s.proc p).state = .UNUSED ∧ (s'.proc p).state ≠ .UNUSED then .fresh else g p

/-- The kernel and the books. -/
structure Bank (NPROC MAX NCPU : Nat) where
  sys : Sys NPROC MAX NCPU
  books : Ledger NPROC

def Bank.step (B : Bank NPROC MAX NCPU) (x : Sect NPROC MAX NCPU) : Option (Bank NPROC MAX NCPU) :=
  (advance B.sys x).map fun S =>
    ⟨S, match x with
      | .op op => B.books.post B.sys.kern S.kern op
      | .forkAlloc _ _ | .forkCopy _ _ | .forkReady _ => B.books.opened B.sys.kern S.kern⟩

def Bank.start (s : Kern NPROC MAX NCPU) : Bank NPROC MAX NCPU := ⟨.start s, fun _ => .fresh⟩

/-- No slice that ends has lasted 2³¹ ticks. -/
def ShortSlice (B : Bank NPROC MAX NCPU) (x : Sect NPROC MAX NCPU) : Prop :=
  ∀ c p, B.sys.kern.cpus c = some p → (∃ S, advance B.sys x = some S ∧ S.kern.cpus c = none) →
    (B.books p).ran < 2 ^ 31

instance (B : Bank NPROC MAX NCPU) (x : Sect NPROC MAX NCPU) : Decidable (ShortSlice B x) :=
  decidable_of_iff (∀ c p, B.sys.kern.cpus c = some p →
      (advance B.sys x).any (fun S => S.kern.cpus c = none) = true → (B.books p).ran < 2 ^ 31) (by
    simp only [ShortSlice, Option.any_eq_true, decide_eq_true_eq])

/-! ## the fields agree with the book -/

/-- The fields that the books are about. -/
structure Account where
  priority : Nat
  budget : Int32
  total : UInt32
  since : UInt32

def Proc.account (pr : Proc NPROC) : Account :=
  ⟨pr.priority, pr.budget, pr.cpuTicksTotal, pr.cpuTicksIn⟩

structure Account.Balanced (a : Account) (b : Book) : Prop where
  positive : 1 ≤ a.budget.toInt
  budget : a.budget.toInt = BUDGET.toInt - b.used
  priority : a.priority = b.level
  total : a.total = UInt32.ofNat b.total

namespace Account.Balanced

variable {a : Account} {b b' : Book}

/-- The current slice is not in the accounts. -/
theorem congr (h : a.Balanced b) (hu : b'.used = b.used) (ht : b'.total = b.total)
    (hl : b'.level = b.level) : a.Balanced b' :=
  ⟨h.positive, by rw [hu]; exact h.budget, by rw [hl]; exact h.priority, by rw [ht]; exact h.total⟩

theorem promote (h : a.Balanced b) : Balanced { a with priority := a.priority - 1 } b.promote :=
  ⟨h.positive, h.budget, congrArg (· - 1) h.priority, h.total⟩

theorem setpriority (h : a.Balanced b) (priority : Nat) :
    Balanced { a with priority := priority, budget := BUDGET } (b.setpriority priority) :=
  ⟨show 1 ≤ BUDGET.toInt by decide, by simp [Book.setpriority], rfl, h.total⟩

end Account.Balanced

/-- The length of a slice as an `int`. -/
theorem toInt_toInt32_ofNat {n : Nat} (h : n < 2 ^ 31) : (UInt32.ofNat n).toInt32.toInt = n := by
  have hsmall : n % 4294967296 = n := Nat.mod_eq_of_lt (by omega)
  change (BitVec.ofNat 32 n).toInt = n
  rw [BitVec.toInt_eq_toNat_of_lt]
  · simp [hsmall]
  · simp only [BitVec.toNat_ofNat, Nat.reducePow, hsmall]
    omega

/-- The budget after a slice, which does not wrap around. -/
theorem toInt_budget_sub {budget : Int32} {n : Nat} (hpos : 1 ≤ budget.toInt) (h : n < 2 ^ 31) :
    (budget - (UInt32.ofNat n).toInt32).toInt = budget.toInt - n := by
  have hlt := Int32.toInt_lt budget
  rw [Int32.toInt_sub, toInt_toInt32_ofNat h]
  refine Int.bmod_eq_of_le ?_ ?_
  · omega
  · omega

/-- A slice ends in `yield` or `sleep`. -/
theorem charge_balanced {pr : Proc NPROC} {b : Book} {ticks : UInt32} (resume : Context)
    (h : pr.account.Balanced b) (hle : pr.priority ≤ MAX)
    (hslice : ticks - pr.cpuTicksIn = UInt32.ofNat b.ran) (hran : b.ran < 2 ^ 31) :
    ((pr.charge MAX ticks).leave ticks resume).account.Balanced (b.charge MAX) := by
  have hpos : 1 ≤ pr.budget.toInt := h.positive
  have hbudget : pr.budget.toInt = BUDGET.toInt - b.used := h.budget
  have hlevel : pr.priority = b.level := h.priority
  have htotal : pr.cpuTicksTotal = UInt32.ofNat b.total := h.total
  have hleft := toInt_budget_sub hpos hran
  have hsum : pr.cpuTicksTotal + UInt32.ofNat b.ran = UInt32.ofNat (b.total + b.ran) := by
    rw [htotal, UInt32.ofNat_add]
  have hdone : pr.budget - (UInt32.ofNat b.ran).toInt32 ≤ 0 ↔
      BUDGET.toInt ≤ b.used + b.ran := by
    rw [Int32.le_iff_toInt_le, hleft]
    simp only [Int32.toInt_zero]
    omega
  unfold Proc.charge Book.charge
  simp only [hslice, hdone]
  split
  · refine ⟨show 1 ≤ BUDGET.toInt by decide, by simp [Proc.account, Proc.leave], ?_, ?_⟩
    · simp only [Proc.account, Proc.leave]
      split <;> omega
    · simp only [Proc.account, Proc.leave, hslice]
      exact hsum
  · next hmore =>
      refine ⟨?_, ?_, hlevel, ?_⟩
      · simp only [Proc.account, Proc.leave, hleft]
        omega
      · simp only [Proc.account, Proc.leave, hleft]
        push_cast
        omega
      · simp only [Proc.account, Proc.leave, hslice]
        exact hsum

/-! ## what leaves the accounts alone -/

namespace Table

variable {t : Table NPROC MAX}

def accounts (t : Table NPROC MAX) (p : Fin NPROC) : Account := (t.proc p).account

theorem accounts_set {p : Fin NPROC} {pr : Proc NPROC} (h : pr.account = t.accounts p) :
    (t.set p pr).accounts = t.accounts := by
  funext q
  unfold accounts
  by_cases hq : q = p
  · subst hq
    rw [set_proc_self]
    exact h
  · rw [set_proc_of_ne hq]

/-- A loop leaves the accounts alone if its body does. -/
theorem accounts_foldl {α : Type} {f : Table NPROC MAX → α → Table NPROC MAX}
    (hf : ∀ t a, (f t a).accounts = t.accounts) (as : List α) (t : Table NPROC MAX) :
    (as.foldl f t).accounts = t.accounts := by
  induction as generalizing t with
  | nil => rfl
  | cons a as ih => rw [List.foldl_cons, ih, hf]

theorem accounts_wake (c : Option (Chan NPROC)) : (t.wake c).accounts = t.accounts := by
  refine accounts_foldl (fun t p => ?_) _ t
  unfold wakeOne
  split
  · exact accounts_set rfl
  · rfl

theorem accounts_reparent (me : Fin NPROC) (init : Option (Fin NPROC)) (l : SList MAX) :
    (reparent me init t l).accounts = t.accounts := by
  refine accounts_foldl (fun t p => ?_) _ t
  unfold adopt
  split
  · exact accounts_set rfl
  · rfl

theorem accounts_inherit (me : Fin NPROC) (init : Option (Fin NPROC)) :
    (t.inherit me init).accounts = t.accounts := by
  refine accounts_foldl (fun t p => ?_) _ t
  unfold inheritOne
  split
  · rw [accounts_wake]
    exact accounts_set rfl
  · rfl

theorem accounts_bequeath (me : Fin NPROC) (init : Option (Fin NPROC)) :
    (t.bequeath me init).accounts = t.accounts := by
  unfold bequeath orphans
  simp only [accounts_reparent, accounts_foldl fun t i => accounts_reparent me init (.ready i),
    accounts_inherit, accounts_wake]
  exact accounts_set rfl

end Table

/-! ## the invariant -/

/-- A process that is being made, or is alive. -/
def Proc.InUse (pr : Proc NPROC) : Prop := pr.state ≠ .UNUSED ∧ pr.state ≠ .ZOMBIE

/-- What holds between sections. -/
structure Books (s : Kern NPROC MAX NCPU) (g : Ledger NPROC) : Prop where
  balanced : ∀ p, (s.proc p).InUse → (s.proc p).account.Balanced (g p)
  /-- the slice of a running process, as the code reckons it -/
  slice : ∀ c p, s.cpus c = some p → s.ticks - (s.proc p).cpuTicksIn = UInt32.ofNat (g p).ran

section Changes

variable {s s' : Kern NPROC MAX NCPU} {t : Table NPROC MAX} {g g' : Ledger NPROC}
  {p : Fin NPROC} {pr : Proc NPROC} {c : Fin NCPU}

theorem Ledger.enter_self {f : Book → Book} : g.enter (some p) f p = f (g p) := if_pos rfl

theorem Ledger.enter_of_ne {q : Fin NPROC} {f : Book → Book} (h : q ≠ p) :
    g.enter (some p) f q = g q := if_neg fun e => h (Option.some.inj e).symm

/-- Nothing happens to the accounts. -/
theorem Books.quiet (h : Books s g) (hacc : ∀ p, (s'.proc p).account = (s.proc p).account)
    (huse : ∀ p, (s'.proc p).InUse → (s.proc p).InUse)
    (hcpus : ∀ c p, s'.cpus c = some p → s.cpus c = some p) (hticks : s'.ticks = s.ticks) :
    Books s' g where
  balanced := fun p hp => by
    rw [hacc p]
    exact h.balanced p (huse p hp)
  slice := fun c p hp => by
    have hsince : (s'.proc p).cpuTicksIn = (s.proc p).cpuTicksIn := congrArg Account.since (hacc p)
    rw [hticks, hsince]
    exact h.slice c p (hcpus c p hp)

/-- Something happens to one process. -/
theorem Books.one (h : Books s g)
    (hothers : ∀ q, q ≠ p → (s'.proc q).account = (s.proc q).account ∧ g' q = g q ∧
      ((s'.proc q).InUse → (s.proc q).InUse))
    (hp : (s'.proc p).InUse → (s'.proc p).account.Balanced (g' p))
    (hcpus : ∀ c q, q ≠ p → s'.cpus c = some q → s.cpus c = some q)
    (hslice : ∀ c, s'.cpus c = some p →
      s'.ticks - (s'.proc p).cpuTicksIn = UInt32.ofNat (g' p).ran)
    (hticks : s'.ticks = s.ticks) : Books s' g' where
  balanced := fun q hq => by
    by_cases hqp : q = p
    · subst hqp
      exact hp hq
    · obtain ⟨hacc, hg, huse⟩ := hothers q hqp
      rw [hacc, hg]
      exact h.balanced q (huse hq)
  slice := fun c q hq => by
    by_cases hqp : q = p
    · subst hqp
      exact hslice c hq
    · obtain ⟨hacc, hg, -⟩ := hothers q hqp
      have hsince : (s'.proc q).cpuTicksIn = (s.proc q).cpuTicksIn := congrArg Account.since hacc
      rw [hticks, hsince, hg]
      exact h.slice c q (hcpus c q hqp hq)

theorem Kern.cpus_of_left {d : Fin NCPU} (h : (s.setCpu c none).cpus d = some p) :
    s.cpus d = some p ∧ d ≠ c := by
  change Function.update s.cpus c none d = some p at h
  rw [Function.update_apply] at h
  split at h
  · contradiction
  · next hd => exact ⟨h, hd⟩

theorem Books.tick (h : Books s g) (hproc : s'.proc = s.proc) (hcpus : s'.cpus = s.cpus)
    (hticks : s'.ticks = s.ticks + 1) :
    Books s' fun p => { g p with ran := (g p).ran + 1 } where
  balanced := fun p hp => by
    rw [hproc] at hp ⊢
    exact (h.balanced p hp).congr rfl rfl rfl
  slice := fun c p hp => by
    have hsucc : ∀ n : Nat, UInt32.ofNat (n + 1) = UInt32.ofNat n + 1 := fun n => by
      rw [UInt32.ofNat_add]
      rfl
    have hsub : s.ticks + 1 - (s.proc p).cpuTicksIn = s.ticks - (s.proc p).cpuTicksIn + 1 := by
      grind
    rw [hproc, hticks, hsub, h.slice c p (hcpus ▸ hp), hsucc]

/-- The end of a slice in `yield` or `sleep`; what the code does to the process before
charging it does not matter for the accounts. -/
theorem Books.charge {l : SList MAX} {me : Fin NPROC} {resume : Context} (hinv : Inv s t)
    (h : Books s g) (hme : s.cpus c = some me) (hran : (g me).ran < 2 ^ 31)
    (hb : (s.setCpu c none).Becomes
      (t.moveEnd me l ((pr.charge MAX s.ticks).leave s.ticks resume)) s')
    (hpr : pr.account = (t.proc me).account) : Books s' (g.enter (some me) (Book.charge MAX)) := by
  have hproc := hinv.becomes.proc_eq
  have hin : (s.proc me).InUse := by
    rw [hproc, Proc.InUse, hinv.running c me hme]
    decide
  have hbal : pr.account.Balanced (g me) := by
    rw [hpr, ← hproc]
    exact h.balanced me hin
  have hle : pr.priority ≤ MAX := by
    have hp : pr.priority = (t.proc me).priority := congrArg Account.priority hpr
    rw [hp]
    exact (hinv.wf.sane me).priority
  have hslice : s.ticks - pr.cpuTicksIn = UInt32.ofNat (g me).ran := by
    have hp : pr.cpuTicksIn = (s.proc me).cpuTicksIn := by
      rw [hproc]
      exact congrArg Account.since hpr
    rw [hp]
    exact h.slice c me hme
  have hcpus : ∀ d q, s'.cpus d = some q → s.cpus d = some q ∧ d ≠ c := fun d q hd => by
    rw [hb.cpus_eq] at hd
    exact Kern.cpus_of_left hd
  refine h.one (p := me) (fun q hq => ?_) (fun _ => ?_) (fun d q _ hd => (hcpus d q hd).1)
    (fun d hd => absurd (hinv.once d c me (hcpus d me hd).1 hme) (hcpus d me hd).2) hb.ticks_eq
  · rw [hb.proc_eq, Table.moveEnd_proc, Table.set_proc_of_ne hq, ← hproc]
    exact ⟨rfl, Ledger.enter_of_ne hq, id⟩
  · rw [hb.proc_eq, Table.moveEnd_proc, Table.set_proc_self, Ledger.enter_self]
    exact charge_balanced resume hbal hle hslice hran

theorem Books.promoteAll (hinv : Inv s t) (h : Books s g) :
    Books { s with proc := t.promoteAll.proc } (g.promoteAll s) where
  balanced := fun p hp => by
    have hproc := hinv.becomes.proc_eq
    have hin : (s.proc p).InUse := by
      rw [hproc, Proc.InUse, ← Table.promoteAll_state hinv.wf.placed]
      exact hp
    have hbal := h.balanced p hin
    change (t.promoteAll.proc p).account.Balanced _
    rw [Table.promoteAll_proc hinv.wf.placed, Ledger.promoteAll, hproc]
    rw [hproc] at hbal
    split
    · exact hbal.promote
    · exact hbal
  slice := fun c p hp => by
    have hsame : (t.promoteAll.proc p).cpuTicksIn = (s.proc p).cpuTicksIn := by
      rw [Table.promoteAll_proc hinv.wf.placed, hinv.becomes.proc_eq]
      split <;> rfl
    have hran : (g.promoteAll s p).ran = (g p).ran := by
      unfold Ledger.promoteAll
      split <;> rfl
    rw [hran]
    change s.ticks - (t.promoteAll.proc p).cpuTicksIn = _
    rw [hsame]
    exact h.slice c p hp

theorem Books.promoted (hinv : Inv s t) (h : Books s g) :
    Books { s with proc := (t.promoted s.due).proc } (if s.due then g.promoteAll s else g) := by
  unfold Table.promoted
  split
  · exact h.promoteAll hinv
  · exact h.quiet (fun p => by rw [hinv.becomes.proc_eq]) (fun p hp => by
      rw [hinv.becomes.proc_eq]
      exact hp) (fun _ _ hp => hp) rfl

theorem Books.exit {me : Fin NPROC} (hinv : Inv s t) (h : Books s g) (hme : s.cpus c = some me)
    (hticks : s'.ticks = s.ticks) (hproc' : s'.proc = (t.exit me s.initproc s.ticks).proc)
    (hcpus' : s'.cpus = (s.setCpu c none).cpus) : Books s' (g.enter (some me) Book.leave) := by
  have hproc := hinv.becomes.proc_eq
  have heased := Table.bequeath_eased hinv.wf.fit me s.initproc
  have hcpus : ∀ d q, s'.cpus d = some q → s.cpus d = some q ∧ d ≠ c := fun d q hd => by
    rw [hcpus'] at hd
    exact Kern.cpus_of_left hd
  refine h.one (p := me) (fun q hq => ?_) (fun hin => ?_) (fun d q _ hd => (hcpus d q hd).1)
    (fun d hd => absurd (hinv.once d c me (hcpus d me hd).1 hme) (hcpus d me hd).2) hticks
  · have hacc : ((t.bequeath me s.initproc).proc q).account = (t.proc q).account :=
      congrFun (Table.accounts_bequeath me s.initproc) q
    rw [hproc', Table.exit, Table.moveHead_proc, Table.set_proc_of_ne hq, hproc]
    refine ⟨hacc, Ledger.enter_of_ne hq, fun hin => ?_⟩
    have hstate := (heased.proc q).state
    unfold Proc.InUse at hin ⊢
    grind
  · rw [hproc', Table.exit, Table.moveHead_proc, Table.set_proc_self] at hin
    exact absurd rfl hin.2

/-- A process is dispatched; its slice begins. -/
theorem Books.dispatch {t' : Table NPROC MAX} (h : Books { s with proc := t'.proc } g)
    (hp : (t'.proc p).state = .RUNNABLE)
    (hproc' : s'.proc = (t'.dispatch p s.ticks).proc) (hticks : s'.ticks = s.ticks)
    (hcpus' : s'.cpus = (s.setCpu c (some p)).cpus) :
    Books s' (g.enter (some p) Book.dispatch) := by
  have hself : (s'.proc p).account = { (t'.proc p).account with since := s.ticks } := by
    rw [hproc', Table.dispatch, Table.moveEnd_proc, Table.set_proc_self]
    split <;> rfl
  refine h.one (p := p) (fun q hq => ?_) (fun _ => ?_) (fun d q hq hd => ?_) (fun d _ => ?_) hticks
  · rw [hproc', Table.dispatch, Table.moveEnd_proc, Table.set_proc_of_ne hq]
    exact ⟨rfl, Ledger.enter_of_ne hq, id⟩
  · have hin : (t'.proc p).InUse := by
      rw [Proc.InUse, hp]
      decide
    have hbal : (t'.proc p).account.Balanced (g p) := h.balanced p hin
    rw [hself, Ledger.enter_self]
    exact ⟨hbal.positive, hbal.budget, hbal.priority, hbal.total⟩
  · rw [hcpus'] at hd
    change Function.update s.cpus c (some p) d = some q at hd
    rw [Function.update_apply] at hd
    split at hd
    · exact absurd (Option.some.inj hd).symm hq
    · exact hd
  · have hsince : (s'.proc p).cpuTicksIn = s.ticks := congrArg Account.since hself
    rw [hsince, hticks, UInt32.sub_self, Ledger.enter_self]
    rfl

/-- The priority of one process is set. -/
theorem Books.setpriority (hinv : Inv s t) (h : Books s g) (priority : Nat)
    (hproc' : s'.proc = (t.set p pr).proc)
    (hpr : pr.account = ⟨priority, BUDGET, (t.proc p).cpuTicksTotal, (t.proc p).cpuTicksIn⟩)
    (hstate : pr.state = (t.proc p).state) (hcpus : s'.cpus = s.cpus)
    (hticks : s'.ticks = s.ticks) :
    Books s' (g.enter (some p) (Book.setpriority priority)) := by
  have hproc := hinv.becomes.proc_eq
  refine h.one (p := p) (fun q hq => ?_) (fun hin => ?_) (fun d q _ hd => hcpus ▸ hd)
    (fun d hd => ?_) hticks
  · rw [hproc', Table.set_proc_of_ne hq, hproc]
    exact ⟨rfl, Ledger.enter_of_ne hq, id⟩
  · rw [hproc', Table.set_proc_self] at hin ⊢
    have hbal : (t.proc p).account.Balanced (g p) := by
      rw [← hproc]
      refine h.balanced p ?_
      rw [hproc, Proc.InUse, ← hstate]
      exact hin
    rw [hpr, Ledger.enter_self]
    exact hbal.setpriority priority
  · have hsince : (s'.proc p).cpuTicksIn = (s.proc p).cpuTicksIn := by
      rw [hproc', Table.set_proc_self, hproc]
      exact congrArg Account.since hpr
    rw [hsince, hticks, Ledger.enter_self]
    exact h.slice d p (hcpus ▸ hd)

/-- A slot that was free is taken. -/
theorem Books.alloc (hinv : Inv s t) (h : Books s g) (hp : (t.proc p).state = .UNUSED)
    (hproc' : s'.proc = (t.set p pr).proc) (hpr : pr.account = ⟨0, BUDGET, 0, 0⟩)
    (hstate : pr.state = .EMBRYO) (hcpus : s'.cpus = s.cpus) (hticks : s'.ticks = s.ticks) :
    Books s' (g.opened s s') := by
  have hproc := hinv.becomes.proc_eq
  have hself : g.opened s s' p = .fresh := by
    refine if_pos ⟨by rw [hproc, hp], ?_⟩
    rw [hproc', Table.set_proc_self, hstate]
    decide
  refine h.one (p := p) (fun q hq => ?_) (fun _ => ?_) (fun d q _ hd => hcpus ▸ hd)
    (fun d hd => ?_) hticks
  · have hsame : s'.proc q = s.proc q := by rw [hproc', Table.set_proc_of_ne hq, hproc]
    rw [hsame]
    refine ⟨rfl, if_neg fun hnew => ?_, id⟩
    rw [hsame] at hnew
    exact hnew.2 hnew.1
  · rw [hproc', Table.set_proc_self, hpr, hself]
    exact ⟨by decide, by decide, rfl, rfl⟩
  · have hrun := hinv.running d p (hcpus ▸ hd)
    rw [hp] at hrun
    contradiction

/-- No slot is taken. -/
theorem Ledger.opened_eq (h : ∀ p, (s.proc p).state = .UNUSED → (s'.proc p).state = .UNUSED) :
    g.opened s s' = g := by
  funext p
  exact if_neg fun hnew => hnew.2 (h p hnew.1)

end Changes

/-! ## the process that `setpriority` finds -/

section Target

variable {s : Kern NPROC MAX NCPU} {t : Table NPROC MAX} {p : Fin NPROC} {pid : Int32}

theorem Links.walk_eq {k : Links NPROC MAX} {xs : List (Fin NPROC)} {a : Option (Fin NPROC)}
    {n : Nat} (h : Chain k.next a xs) (hn : xs.length ≤ n) : k.walk n a = xs := by
  induction xs generalizing a n with
  | nil =>
      rw [show a = none from h]
      cases n <;> rfl
  | cons x xs ih =>
      obtain ⟨n, rfl⟩ : ∃ m, n = m + 1 := ⟨n - 1, by simp only [List.length_cons] at hn; omega⟩
      rw [h.1]
      exact congrArg (x :: ·) (ih h.2 (by simpa using hn))

theorem Kern.target_eq (h : Inv s t) :
    s.target pid = (activeLists MAX).findSome? (t.found pid) := by
  unfold Kern.target Table.found
  congr 1
  funext l
  have hchain := h.becomes.reps l
  rw [Links.walk_eq hchain (chain_length_le hchain), h.becomes.proc_eq]

theorem Kern.target_of_ready {i : Fin (MAX + 1)} (h : Inv s t)
    (hfirst : ∀ j < i, t.found pid (.ready j) = none) (hp : t.found pid (.ready i) = some p) :
    s.target pid = some p := by
  obtain ⟨as, bs, hlevels⟩ := List.append_of_mem (show i ∈ levels MAX from List.mem_finRange i)
  have hlt : (as ++ i :: bs).Pairwise (· < ·) :=
    hlevels ▸ (List.sortedLT_finRange (MAX + 1)).pairwise
  have hbefore : ∀ j ∈ as, j < i := fun j hj =>
    (List.pairwise_append.mp hlt).2.2 j hj i List.mem_cons_self
  have hnone : ∀ l ∈ as.map SList.ready, t.found pid l = none := by
    intro l hl
    obtain ⟨j, hj, rfl⟩ := List.mem_map.mp hl
    exact hfirst j (hbefore j hj)
  rw [Kern.target_eq h, activeLists, hlevels]
  simp only [List.map_append, List.map_cons, List.append_assoc, List.findSome?_append,
    List.findSome?_eq_none_iff.mpr hnone, List.cons_append, List.findSome?_cons, hp, Option.none_or]

theorem Kern.target_of_other {r : Option (Fin NPROC)} (h : Inv s t)
    (hready : ∀ i, t.found pid (.ready i) = none)
    (hr : [SList.running, .sleep].findSome? (t.found pid) = r) : s.target pid = r := by
  have hnone : ∀ l ∈ (levels MAX).map SList.ready, t.found pid l = none := by
    intro l hl
    obtain ⟨j, -, rfl⟩ := List.mem_map.mp hl
    exact hready j
  rw [Kern.target_eq h, activeLists, List.findSome?_append,
    List.findSome?_eq_none_iff.mpr hnone, Option.none_or]
  exact hr

end Target

/-! ## every step keeps the books -/

section Steps

variable {s s₁ s' : Kern NPROC MAX NCPU} {t t' : Table NPROC MAX} {g : Ledger NPROC}
  {S : Sys NPROC MAX NCPU} {B B' : Bank NPROC MAX NCPU}

/-- An operation that leaves the accounts, the CPUs and the time alone. -/
theorem Books.still (hinv : Inv s t) (h : Books s g) (hb : s₁.Becomes t' s')
    (hs₁ : s₁.cpus = s.cpus ∧ s₁.ticks = s.ticks) (hacc : t'.accounts = t.accounts)
    (huse : ∀ p, (t'.proc p).InUse → (t.proc p).InUse) : Books s' g := by
  have hproc := hinv.becomes.proc_eq
  refine h.quiet (fun p => ?_) (fun p hp => ?_) (fun c p hp => ?_) (hb.ticks_eq.trans hs₁.2)
  · rw [hb.proc_eq, hproc]
    exact congrFun hacc p
  · rw [hb.proc_eq] at hp
    rw [hproc]
    exact huse p hp
  · rwa [hb.cpus_eq, hs₁.1] at hp

/-- An operation that changes other fields of one process. -/
theorem Books.touch {p : Fin NPROC} {pr : Proc NPROC} (hinv : Inv s t) (h : Books s g)
    (hb : s₁.Becomes t' s') (hs₁ : s₁.cpus = s.cpus ∧ s₁.ticks = s.ticks)
    (hset : t'.proc = (t.set p pr).proc) (hacc : pr.account = (t.proc p).account)
    (huse : pr.InUse → (t.proc p).InUse) : Books s' g := by
  refine h.still hinv hb hs₁ ?_ fun q hq => ?_
  · funext q
    rw [← Table.accounts_set hacc, Table.accounts, hset, Table.accounts]
  · rw [hset] at hq
    by_cases hqp : q = p
    · subst hqp
      rw [Table.set_proc_self] at hq
      exact huse hq
    · rwa [Table.set_proc_of_ne hqp] at hq

theorem Outcome.books {op : Op NPROC MAX NCPU} (hinv : Inv s t) (h : Books s g)
    (hmay : S.MayRun op) (ho : Outcome s t op s₁ t') (hb : s₁.Becomes t' s')
    (hshort : ∀ c p, s.cpus c = some p → s'.cpus c = none → (g p).ran < 2 ^ 31) :
    Books s' (g.post s s' op) := by
  have hproc' := hb.proc_eq
  have hleft {c : Fin NCPU} (hs₁ : s₁.cpus = (s.setCpu c none).cpus) : s'.cpus c = none := by
    rw [hb.cpus_eq, hs₁]
    exact Function.update_self _ _ _
  cases ho with
  | tick => exact h.tick (hproc'.trans hinv.becomes.proc_eq.symm) hb.cpus_eq hb.ticks_eq
  | noSlot | noStack | alloc | forkNoSlot | forkNoStack | forkNoMemory | fork => exact hmay.elim
  | exit hme =>
      rw [Ledger.post, hme]
      exact h.exit hinv hme hb.ticks_eq hproc' hb.cpus_eq
  | @reap c me z hme hfind =>
      have hcpu : s'.cpus c ≠ none := by
        rw [hb.cpus_eq]
        exact fun hnone => Option.some_ne_none me (hme.symm.trans hnone)
      rw [Ledger.post, if_neg hcpu]
      exact h.touch hinv hb ⟨rfl, rfl⟩ rfl rfl fun hin => absurd rfl hin.1
  | @waitNone c me hme =>
      have hcpu : s'.cpus c ≠ none := by
        rw [hb.cpus_eq]
        exact fun hnone => Option.some_ne_none me (hme.symm.trans hnone)
      rw [Ledger.post, if_neg hcpu]
      exact h.still hinv hb ⟨rfl, rfl⟩ rfl fun _ => id
  | wait hme =>
      rw [Ledger.post, if_pos (hleft rfl), hme]
      exact h.charge hinv hme (hshort _ _ hme (hleft rfl)) hb rfl
  | @idle c hcpu hall =>
      have hnone : s'.cpus c = none := by
        rw [hb.cpus_eq, Kern.promoted]
        split <;> exact hcpu
      have hsame : s'.cpus = s.cpus ∧ s'.ticks = s.ticks := by
        rw [hb.cpus_eq, hb.ticks_eq, Kern.promoted]
        split <;> exact ⟨rfl, rfl⟩
      rw [Ledger.post, hnone]
      refine (h.promoted hinv).quiet (fun p => ?_) (fun p hp => ?_) (fun d p hp => ?_) hsame.2
      · rw [hproc']
      · rwa [hproc'] at hp
      · rwa [hsame.1] at hp
  | @dispatch c i p zs hcpu hlist hfirst =>
      have hcpus : s'.cpus = (s.setCpu c (some p)).cpus := by
        rw [hb.cpus_eq, Kern.promoted]
        split <;> rfl
      have hticks : s'.ticks = s.ticks := by
        rw [hb.ticks_eq, Kern.promoted]
        split <;> rfl
      have hp : s'.cpus c = some p := by
        rw [hcpus]
        exact Function.update_self _ _ _
      have hwf : (t.promoted s.due).WF := by
        unfold Table.promoted
        split
        · exact (Table.promoteAll_kept hinv.wf).wf
        · exact hinv.wf
      have hp' : p ∈ (t.promoted s.due).list (.ready i) := by
        rw [hlist]
        exact List.mem_cons_self
      have hrunnable := (Proc.onList_ready_iff.mp (hwf.listed.onList hp')).1
      rw [Ledger.post, hp]
      exact (h.promoted hinv).dispatch hrunnable hproc' hticks hcpus
  | promoteAll =>
      refine (h.promoteAll hinv).quiet (fun p => ?_) (fun p hp => ?_) (fun d p hp => ?_) hb.ticks_eq
      · rw [hproc']
      · rwa [hproc'] at hp
      · rwa [hb.cpus_eq] at hp
  | yield hme =>
      rw [Ledger.post, hme]
      exact h.charge hinv hme (hshort _ _ hme (hleft rfl)) hb rfl
  | sleep hme =>
      rw [Ledger.post, hme]
      exact h.charge hinv hme (hshort _ _ hme (hleft rfl)) hb rfl
  | @wakeup chan =>
      refine h.still hinv hb ⟨rfl, rfl⟩ (Table.accounts_wake chan) fun p hp => ?_
      have hstate := ((Table.wake_woken hinv.wf.fit chan).eased.proc p).state
      unfold Proc.InUse at hp ⊢
      grind
  | @killSleeper pid p hp =>
      have hsleep : (t.proc p).state = .SLEEPING :=
        hinv.wf.listed.onList (Table.mem_of_found hp).1
      refine h.touch hinv hb ⟨rfl, rfl⟩ rfl rfl fun _ => ?_
      rw [Proc.InUse, hsleep]
      decide
  | kill => exact h.touch hinv hb ⟨rfl, rfl⟩ rfl rfl id
  | killNone => exact h.still hinv hb ⟨rfl, rfl⟩ rfl fun _ => id
  | setReady hfirst hp =>
      rw [Ledger.post, Kern.target_of_ready hinv hfirst hp]
      exact h.setpriority hinv _ hproc' rfl rfl hb.cpus_eq hb.ticks_eq
  | @setOther pid priority l p hready hfirst hp =>
      have htarget : [SList.running, .sleep].findSome? (t.found pid) = some p := by
        rcases hfirst with rfl | ⟨rfl, hrunning⟩
        · simp [hp]
        · simp [hp, hrunning]
      rw [Ledger.post, Kern.target_of_other hinv hready htarget]
      exact h.setpriority hinv _ hproc' rfl rfl hb.cpus_eq hb.ticks_eq
  | @setNone pid priority hready hrunning hsleep =>
      have htarget : [SList.running, .sleep].findSome? (t.found pid) = none := by
        simp [hrunning, hsleep]
      rw [Ledger.post, Kern.target_of_other hinv hready htarget]
      exact h.still hinv hb ⟨rfl, rfl⟩ rfl fun _ => id

theorem ForkPart.books {me : Fin NPROC} {pc pc' : Pending NPROC} (hinv : Inv s t) (h : Books s g)
    (hp : ForkPart me s t pc pc' s₁ t') (hb : s₁.Becomes t' s') : Books s' (g.opened s s') := by
  have hproc := hinv.becomes.proc_eq
  have hproc' := hb.proc_eq
  have hfree {p : Fin NPROC} {zs : List (Fin NPROC)} (hp : t.list .free = p :: zs) :
      (t.proc p).state = .UNUSED := by
    have hmem : p ∈ t.list .free := by
      rw [hp]
      exact List.mem_cons_self
    exact hinv.wf.listed.onList hmem
  -- all parts but `allocproc` take no slot and leave the accounts alone
  have hopened {p : Fin NPROC} {pr : Proc NPROC} (hset : t'.proc = (t.set p pr).proc)
      (hpr : (t.proc p).state = .UNUSED → pr.state = .UNUSED) : g.opened s s' = g := by
    refine Ledger.opened_eq fun q hq => ?_
    rw [hproc', hset]
    rw [hproc] at hq
    by_cases hqp : q = p
    · subst hqp
      rw [Table.set_proc_self]
      exact hpr hq
    · rwa [Table.set_proc_of_ne hqp]
  cases hp with
  | noSlot =>
      rw [Ledger.opened_eq fun q hq => by rwa [hproc', ← hproc]]
      exact h.still hinv hb ⟨rfl, rfl⟩ rfl fun _ => id
  | noStack hp =>
      rw [hopened rfl fun _ => rfl]
      exact h.touch hinv hb ⟨rfl, rfl⟩ rfl rfl fun hin => absurd rfl hin.1
  | alloc hp => exact h.alloc hinv (hfree hp) hproc' rfl rfl hb.cpus_eq hb.ticks_eq
  | noMemory hnp =>
      rw [hopened rfl fun _ => rfl]
      exact h.touch hinv hb ⟨rfl, rfl⟩ rfl rfl fun hin => absurd rfl hin.1
  | assign hnp =>
      rw [hopened rfl id]
      exact h.touch hinv hb ⟨rfl, rfl⟩ rfl rfl id
  | @ready np hnp =>
      rw [hopened rfl fun hun => absurd (hun.symm.trans hnp) (by decide)]
      refine h.touch hinv hb ⟨rfl, rfl⟩ rfl rfl fun _ => ?_
      rw [Proc.InUse, hnp]
      decide

theorem Bank.step_books {x : Sect NPROC MAX NCPU} (hsys : SysInv B.sys)
    (h : Books B.sys.kern B.books) (hshort : ShortSlice B x) (hs : B.step x = some B') :
    SysInv B'.sys ∧ Books B'.sys.kern B'.books := by
  obtain ⟨S, hS, rfl⟩ := Option.map_eq_some_iff.mp hs
  refine ⟨advance_inv hsys hS, ?_⟩
  obtain ⟨t, hinv, ⟨op, rfl, hmay, hstep, -⟩ | ⟨c, me, pc, s₁, t', hne, hme, hp, hb, -⟩⟩ :=
    advance_cases hsys hS
  · obtain ⟨s₁, t', ho, hb⟩ := step_outcome hinv hstep
    exact ho.books hinv h hmay hb fun c p hp hnone => hshort c p hp ⟨S, hS, hnone⟩
  · cases x with
    | op op => exact absurd rfl (hne op)
    | _ => exact hp.books hinv h hb

end Steps

/-! ## every run -/

section Runs

variable {s : Kern NPROC MAX NCPU} {S : Sys NPROC MAX NCPU}

/-- Keeping books does not hold up the kernel. -/
theorem Bank.exec_sys (B : Bank NPROC MAX NCPU) (xs : List (Sect NPROC MAX NCPU)) :
    (exec Bank.step B xs).map Bank.sys = exec advance B.sys xs := by
  induction xs generalizing B with
  | nil => rfl
  | cons x xs ih =>
      rw [exec_cons, exec_cons, Bank.step]
      cases advance B.sys x with
      | none => rfl
      | some T => exact ih _

theorem userinit_books {kalloc setupkvm namei : Option Nat} {ticks : UInt32}
    (hboot : userinit kalloc setupkvm namei (boot ticks) = .ok ((), s)) :
    Books s fun _ => .fresh := by
  obtain ⟨p, kstack, hb⟩ := userinit_spec hboot
  refine ⟨fun q hq => ?_, fun c q hq => ?_⟩
  · by_cases hqp : q = p
    · subst hqp
      rw [hb.proc_eq, Table.first, Table.moveEnd_proc, Table.set_proc_self, Table.alloc,
        Table.moveHead_proc, Table.set_proc_self]
      exact ⟨show 1 ≤ BUDGET.toInt by decide, show BUDGET.toInt = _ by decide, rfl, rfl⟩
    · have hfree : (s.proc q).state = .UNUSED := by
        rw [hb.proc_eq, Table.first, Table.moveEnd_proc, Table.set_proc_of_ne hqp, Table.alloc,
          Table.moveHead_proc, Table.set_proc_of_ne hqp]
        rfl
      exact absurd hfree hq.1
  · rw [hb.cpus_eq] at hq
    contradiction

/-- **The accounts are right**: in every state of every run without slices of 2³¹ ticks,
the budget of a process is `BUDGET` less the slices charged to it since its last reset,
its priority and total are those of its book, and so is the slice of a process that runs. -/
theorem mlfq_accounts {kalloc setupkvm namei : Option Nat} {ticks : UInt32}
    {xs : List (Sect NPROC MAX NCPU)}
    (hboot : userinit kalloc setupkvm namei (boot ticks) = .ok ((), s))
    (hrun : exec advance (Sys.start s) xs = some S)
    (hshort : Guarded Bank.step ShortSlice (Bank.start s) xs) :
    ∃ g : Ledger NPROC, exec Bank.step (Bank.start s) xs = some ⟨S, g⟩ ∧
      (∀ p, (S.kern.proc p).Active →
        1 ≤ (S.kern.proc p).budget.toInt ∧ (S.kern.proc p).budget.toInt ≤ BUDGET.toInt ∧
        (S.kern.proc p).budget.toInt = BUDGET.toInt - (g p).used ∧
        (S.kern.proc p).priority = (g p).level ∧
        (S.kern.proc p).cpuTicksTotal.toNat = (g p).total % 2 ^ 32) ∧
      ∀ c p, S.kern.cpus c = some p →
        (S.kern.ticks - (S.kern.proc p).cpuTicksIn).toNat = (g p).ran % 2 ^ 32 := by
  obtain ⟨⟨T, g⟩, hB, hT⟩ :=
    Option.map_eq_some_iff.mp ((Bank.exec_sys (Bank.start s) xs).trans hrun)
  obtain rfl : S = T := hT.symm
  obtain ⟨-, hbooks⟩ := exec_invariant
    (I := fun B : Bank NPROC MAX NCPU => SysInv B.sys ∧ Books B.sys.kern B.books)
    (fun B x B' h hg hs => Bank.step_books h.1 h.2 hg hs)
    ⟨userinit_sysInv hboot, userinit_books hboot⟩ hshort hB
  refine ⟨g, hB, fun p hp => ?_, fun c p hp => ?_⟩
  · have hin : (S.kern.proc p).InUse := by
      unfold Proc.Active at hp
      unfold Proc.InUse
      grind
    have hbal := hbooks.balanced p hin
    have hbudget : (S.kern.proc p).budget.toInt = BUDGET.toInt - (g p).used := hbal.budget
    refine ⟨hbal.positive, by omega, hbudget, hbal.priority, ?_⟩
    have htotal : (S.kern.proc p).cpuTicksTotal = UInt32.ofNat (g p).total := hbal.total
    rw [htotal, UInt32.toNat_ofNat']
  · rw [hbooks.slice c p hp, UInt32.toNat_ofNat']

end Runs

/-- The first process uses up its budget in two slices, and then runs on. -/
def demotion : List (Sect 3 1 1) :=
  .op (.scheduler 0) :: .op .tick :: .op (.yield 0) :: .op (.scheduler 0) ::
    (List.replicate 119 (.op .tick) ++ [.op (.yield 0), .op (.scheduler 0), .op .tick])

theorem mlfq_accounts_demotion : ∃ (s₀ : Kern 3 1 1) (S : Sys 3 1 1) (g : Ledger 3),
    userinit (some 0) (some 0) (some 0) (boot 0) = .ok ((), s₀) ∧
      exec Bank.step (Bank.start s₀) demotion = some ⟨S, g⟩ ∧
      g 0 = ⟨1, 0, 120, 1⟩ ∧ (S.kern.proc 0).budget = BUDGET ∧ (S.kern.proc 0).priority = 1 ∧
      (S.kern.proc 0).cpuTicksTotal = 120 ∧
      (S.kern.proc 0).budget.toInt = BUDGET.toInt - (g 0).used := by
  obtain ⟨s₀, hboot, hrun⟩ := exists_booted 0 (p := fun s₀ =>
    decide (Guarded Bank.step ShortSlice (Bank.start s₀) demotion) &&
    (exec Bank.step (Bank.start s₀) demotion).any fun B : Bank 3 1 1 =>
      decide (B.books 0 = ⟨1, 0, 120, 1⟩ ∧ (B.sys.kern.proc 0).budget = BUDGET ∧
        (B.sys.kern.proc 0).priority = 1 ∧ (B.sys.kern.proc 0).cpuTicksTotal = 120 ∧
        (B.sys.kern.proc 0).Active)) (by decide +kernel)
  obtain ⟨hshort, hrun⟩ := (Bool.and_eq_true _ _).mp hrun
  obtain ⟨⟨S, g'⟩, hB, hp⟩ := exists_of_exec_any Bank.step (Bank.start s₀) _ _ hrun
  obtain ⟨hbook, hbudget, hpriority, htotal, hactive⟩ := of_decide_eq_true hp
  have hS : exec advance (Sys.start s₀) demotion = some S := by
    have hsys := Bank.exec_sys (Bank.start s₀) demotion
    rw [hB] at hsys
    exact hsys.symm
  obtain ⟨g, hg, hacc, -⟩ := mlfq_accounts hboot hS (of_decide_eq_true hshort)
  obtain rfl : g' = g := congrArg Bank.books (Option.some.inj (hB.symm.trans hg))
  exact ⟨s₀, S, g', hboot, hB, hbook, hbudget, hpriority, htotal, (hacc 0 hactive).2.2.1⟩

end Xv6.Ptable
