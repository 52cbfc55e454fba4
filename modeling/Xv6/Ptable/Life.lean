import Xv6.Ptable.Outcome

/-!
# Xv6.Ptable.Life

What the operations of `proc.c` do to the processes, lists and scheduling data
left aside.  A `Life` is the part of a `struct proc` that says where the process
stands: its state, its parent, its pid, what it sleeps on, whether it is killed,
and what it owns.

The loops of `wakeup1` and `exit` over the state lists are changes of all lives
at once (`Lives.wake`, `Lives.adopt`, `Lives.exit`), since a process is on the
list of its state.  `step_effect` says what each operation can do.
-/

namespace Xv6.Ptable

variable {NPROC MAX NCPU : Nat}

structure Life (NPROC : Nat) where
  state : ProcState
  parent : Option (Fin NPROC)
  pid : UInt32
  killed : Bool
  chan : Option (Chan NPROC)
  kstack : Option Nat
  ofile : Fin NOFILE → Option Nat

def Proc.life (pr : Proc NPROC) : Life NPROC where
  state := pr.state
  parent := pr.parent
  pid := pr.pid
  killed := pr.killed
  chan := pr.chan
  kstack := pr.kstack
  ofile := pr.ofile

abbrev Lives (NPROC : Nat) := Fin NPROC → Life NPROC

def Kern.lives (s : Kern NPROC MAX NCPU) : Lives NPROC := fun p => (s.proc p).life

def Table.lives (t : Table NPROC MAX) : Lives NPROC := fun p => (t.proc p).life

theorem Kern.Becomes.lives_eq {s s' : Kern NPROC MAX NCPU} {t : Table NPROC MAX}
    (h : s.Becomes t s') : s'.lives = t.lives := by
  unfold Kern.lives Table.lives
  rw [h.proc_eq]

/-- The books of the scheduler are no part of a life. -/
@[simp] theorem Proc.life_charge (pr : Proc NPROC) (ticks : UInt32) :
    (pr.charge MAX ticks).life = pr.life := by
  unfold Proc.charge
  dsimp only
  split <;> rfl

@[simp] theorem Proc.life_leave (pr : Proc NPROC) (ticks : UInt32) (resume : Context) :
    (pr.leave ticks resume).life = pr.life := rfl

/-! ## changes of all lives -/

namespace Lives

variable (v : Lives NPROC)

/-- The sleepers on a channel wake up. -/
def wake (c : Option (Chan NPROC)) : Lives NPROC := fun q =>
  if (v q).state = .SLEEPING ∧ (v q).chan = c then { v q with state := .RUNNABLE } else v q

/-- The children of `me` become children of init. -/
def adopt (me : Fin NPROC) (init : Option (Fin NPROC)) : Lives NPROC := fun q =>
  if (v q).parent = some me then { v q with parent := init } else v q

/-- A process has a dead child. -/
def HasZombie (me : Fin NPROC) : Prop := ∃ z, (v z).state = .ZOMBIE ∧ (v z).parent = some me

instance (me : Fin NPROC) : Decidable (v.HasZombie me) :=
  inferInstanceAs (Decidable (∃ z, (v z).state = .ZOMBIE ∧ (v z).parent = some me))

/-- Init is woken if it inherits a dead child. -/
def tell (me : Fin NPROC) (init : Option (Fin NPROC)) : Lives NPROC :=
  if v.HasZombie me then v.wake (init.map .proc) else v

/-- The files of a process are closed. -/
def close (me : Fin NPROC) : Lives NPROC :=
  Function.update v me { v me with ofile := fun _ => none }

/-- `exit` -/
def exit (me : Fin NPROC) (init : Option (Fin NPROC)) : Lives NPROC :=
  let w := (((v.close me).wake ((v me).parent.map .proc)).tell me init).adopt me init
  Function.update w me { w me with state := .ZOMBIE }

variable {v} {p q me : Fin NPROC} {c : Option (Chan NPROC)} {init : Option (Fin NPROC)}

@[simp] theorem wake_parent : (v.wake c q).parent = (v q).parent := by
  unfold wake
  split <;> rfl

theorem wake_wake : (v.wake c).wake c = v.wake c := by
  funext q
  by_cases hq : (v q).state = .SLEEPING ∧ (v q).chan = c
  · have hw : v.wake c q = { v q with state := .RUNNABLE } := if_pos hq
    rw [wake, hw, if_neg (by simp)]
  · have hw : v.wake c q = v q := if_neg hq
    rw [wake, hw, if_neg hq]

/-- Waking up does not look at parents. -/
theorem wake_update_parent : wake (Function.update v p { v p with parent := init }) c =
    Function.update (v.wake c) p { v.wake c p with parent := init } := by
  funext q
  by_cases hq : q = p
  · subst hq
    rw [Function.update_self]
    unfold wake
    rw [Function.update_self]
    split <;> rfl
  · rw [Function.update_of_ne hq]
    unfold wake
    rw [Function.update_of_ne hq]

@[simp] theorem tell_parent : (v.tell me init q).parent = (v q).parent := by
  unfold tell
  split
  · exact wake_parent
  · rfl

/-- Waking up neither kills nor raises the dead. -/
theorem wake_zombie_iff : (v.wake c q).state = .ZOMBIE ↔ (v q).state = .ZOMBIE := by
  unfold wake
  split
  · next h => simp [h.1]
  · rfl

theorem tell_zombie_iff : (v.tell me init q).state = .ZOMBIE ↔ (v q).state = .ZOMBIE := by
  unfold tell
  split
  · exact wake_zombie_iff
  · rfl

end Lives

/-! ## the loops -/

namespace Table

variable {t : Table NPROC MAX} {p q : Fin NPROC} {pr : Proc NPROC} {l : SList MAX}

/-- `wait` finds no zombie child if there is none. -/
theorem find?_zombie_none_iff (h : t.Listed none) {me : Fin NPROC} :
    (t.list .zombie).find? (fun p => (t.proc p).parent = some me) = none ↔
      ¬ t.lives.HasZombie me := by
  have hmem (z : Fin NPROC) : z ∈ t.list .zombie ↔ (t.lives z).state = .ZOMBIE := h.mem_iff
  rw [List.find?_eq_none]
  simp only [hmem, decide_eq_true_eq, Lives.HasZombie, not_exists, not_and]
  rfl

theorem lives_set : (t.set p pr).lives = Function.update t.lives p pr.life := by
  funext q
  by_cases hq : q = p
  · subst hq
    rw [lives, set_proc_self, Function.update_self]
  · rw [lives, set_proc_of_ne hq, Function.update_of_ne hq, lives]

@[simp] theorem lives_moveEnd : (t.moveEnd p l pr).lives = Function.update t.lives p pr.life :=
  lives_set

@[simp] theorem lives_moveHead : (t.moveHead p l pr).lives = Function.update t.lives p pr.life :=
  lives_set

theorem lives_wakeOne (c : Option (Chan NPROC)) :
    (wakeOne c t p).lives q =
      if q = p ∧ (t.lives q).chan = c then { t.lives q with state := .RUNNABLE } else t.lives q := by
  unfold wakeOne
  by_cases hq : q = p
  · subst hq
    split
    · next hc =>
      rw [lives_moveEnd, Function.update_self, if_pos ⟨rfl, hc⟩]
      rfl
    · next hc => rw [if_neg fun h => hc h.2]
  · split
    · rw [lives_moveEnd, Function.update_of_ne hq, if_neg fun h => hq h.1]
    · rw [if_neg fun h => hq h.1]

/-- The loop of `wakeup1`, wherever it begins. -/
theorem lives_foldl_wakeOne (c : Option (Chan NPROC)) (zs : List (Fin NPROC))
    (t : Table NPROC MAX) (q : Fin NPROC) :
    (zs.foldl (wakeOne c) t).lives q =
      if q ∈ zs ∧ (t.lives q).chan = c then { t.lives q with state := .RUNNABLE }
      else t.lives q := by
  induction zs generalizing t with
  | nil => simp
  | cons p zs ih =>
      rw [List.foldl_cons, ih, lives_wakeOne]
      by_cases hp : q = p ∧ (t.lives q).chan = c
      · rw [if_pos hp, if_pos (⟨by simp [hp.1], hp.2⟩ : q ∈ p :: zs ∧ (t.lives q).chan = c)]
        split <;> rfl
      · rw [if_neg hp]
        have hiff : (q ∈ p :: zs ∧ (t.lives q).chan = c) ↔ (q ∈ zs ∧ (t.lives q).chan = c) := by
          rw [List.mem_cons]
          tauto
        simp only [hiff]

/-- **`wakeup1`** wakes the sleepers on the channel. -/
theorem lives_wake (h : t.Listed none) (c : Option (Chan NPROC)) : (t.wake c).lives = t.lives.wake c := by
  funext q
  have hmem : q ∈ t.list .sleep ↔ (t.lives q).state = .SLEEPING := h.mem_iff
  rw [wake, lives_foldl_wakeOne, Lives.wake]
  simp only [hmem]

theorem adopt_list (me : Fin NPROC) (init : Option (Fin NPROC)) :
    (adopt me init t p).list = t.list := by
  unfold adopt
  split <;> rfl

theorem lives_adopt (me : Fin NPROC) (init : Option (Fin NPROC)) :
    (adopt me init t p).lives q =
      if q = p ∧ (t.lives q).parent = some me then { t.lives q with parent := init }
      else t.lives q := by
  unfold adopt
  by_cases hq : q = p
  · subst hq
    split
    · next hc =>
      rw [lives_set, Function.update_self, if_pos ⟨rfl, hc⟩]
      rfl
    · next hc => rw [if_neg fun h => hc h.2]
  · split
    · rw [lives_set, Function.update_of_ne hq, if_neg fun h => hq h.1]
    · rw [if_neg fun h => hq h.1]

theorem reparent_list (me : Fin NPROC) (init : Option (Fin NPROC)) (l : SList MAX) :
    (reparent me init t l).list = t.list := by
  unfold reparent
  generalize t.list l = zs
  induction zs generalizing t with
  | nil => rfl
  | cons p zs ih => rw [List.foldl_cons, ih, adopt_list]

/-- The loop of `exit` over a list of processes that are alive. -/
theorem lives_foldl_adopt (me : Fin NPROC) (init : Option (Fin NPROC)) (zs : List (Fin NPROC))
    (t : Table NPROC MAX) (q : Fin NPROC) :
    (zs.foldl (adopt me init) t).lives q =
      if q ∈ zs ∧ (t.lives q).parent = some me then { t.lives q with parent := init }
      else t.lives q := by
  induction zs generalizing t with
  | nil => simp
  | cons p zs ih =>
      rw [List.foldl_cons, ih, lives_adopt]
      by_cases hp : q = p ∧ (t.lives q).parent = some me
      · rw [if_pos hp,
          if_pos (⟨by simp [hp.1], hp.2⟩ : q ∈ p :: zs ∧ (t.lives q).parent = some me)]
        split <;> rfl
      · rw [if_neg hp]
        have hiff : (q ∈ p :: zs ∧ (t.lives q).parent = some me) ↔
            (q ∈ zs ∧ (t.lives q).parent = some me) := by
          rw [List.mem_cons]
          tauto
        simp only [hiff]

/-- The loops of `exit` over several lists. -/
theorem lives_foldl_reparent (me : Fin NPROC) (init : Option (Fin NPROC)) (ls : List (SList MAX))
    (t : Table NPROC MAX) (q : Fin NPROC) :
    (ls.foldl (reparent me init) t).lives q =
      if (∃ l ∈ ls, q ∈ t.list l) ∧ (t.lives q).parent = some me then
        { t.lives q with parent := init }
      else t.lives q := by
  induction ls generalizing t with
  | nil => simp
  | cons l ls ih =>
      rw [List.foldl_cons, ih, reparent_list, reparent, lives_foldl_adopt]
      by_cases hp : q ∈ t.list l ∧ (t.lives q).parent = some me
      · rw [if_pos hp, if_pos (⟨⟨l, by simp, hp.1⟩, hp.2⟩ :
          (∃ m ∈ l :: ls, q ∈ t.list m) ∧ (t.lives q).parent = some me)]
        split <;> rfl
      · rw [if_neg hp]
        have hiff : ((∃ m ∈ l :: ls, q ∈ t.list m) ∧ (t.lives q).parent = some me) ↔
            ((∃ m ∈ ls, q ∈ t.list m) ∧ (t.lives q).parent = some me) := by
          simp only [List.exists_mem_cons_iff]
          tauto
        simp only [hiff]

/-- The lists that `exit` goes through after the zombies, in order. -/
def orphanLists (MAX : Nat) : List (SList MAX) :=
  .running :: (levels MAX).map .ready ++ [.sleep, .embryo, .free]

theorem orphans_eq (me : Fin NPROC) (init : Option (Fin NPROC)) :
    t.orphans me init = (orphanLists MAX).foldl (reparent me init) t := by
  simp only [orphans, orphanLists, List.foldl_append, List.foldl_cons, List.foldl_nil,
    List.foldl_map, List.cons_append]

/-- The loop of `exit` over the zombies, wherever it begins. -/
theorem lives_foldl_inheritOne (me : Fin NPROC) (init : Option (Fin NPROC))
    (zs : List (Fin NPROC)) (h : t.Fit) (q : Fin NPROC) :
    (zs.foldl (inheritOne me init) t).lives q =
      let w := if ∃ z ∈ zs, (t.lives z).parent = some me then t.lives.wake (init.map .proc)
        else t.lives
      if q ∈ zs ∧ (t.lives q).parent = some me then { w q with parent := init } else w q := by
  induction zs generalizing t with
  | nil => simp
  | cons p zs ih =>
      rw [List.foldl_cons]
      by_cases hp : (t.lives p).parent = some me
      · have hset : (t.set p { t.proc p with parent := init }).Fit :=
          h.eased (.set h.listed rfl rfl rfl)
        have hone : inheritOne me init t p =
            (t.set p { t.proc p with parent := init }).wake (init.map .proc) := if_pos hp
        have hlives : (inheritOne me init t p).lives = Function.update
            (t.lives.wake (init.map .proc)) p
            { t.lives.wake (init.map .proc) p with parent := init } := by
          rw [hone, lives_wake hset.listed, lives_set, ← Lives.wake_update_parent]
          rfl
        have hfit : (inheritOne me init t p).Fit := by
          rw [hone]
          exact hset.eased (wake_woken hset _).eased
        have hsame : (inheritOne me init t p).lives.wake (init.map .proc) =
            (inheritOne me init t p).lives := by
          rw [hone, lives_wake hset.listed, Lives.wake_wake]
        rw [ih hfit, hsame, ite_self, if_pos (⟨p, List.mem_cons_self, hp⟩ :
          ∃ z ∈ p :: zs, (t.lives z).parent = some me), hlives]
        by_cases hq : q = p
        · subst hq
          dsimp only
          rw [Function.update_self, if_pos (⟨List.mem_cons_self, hp⟩ :
            q ∈ q :: zs ∧ (t.lives q).parent = some me)]
          split <;> rfl
        · dsimp only
          rw [Function.update_of_ne hq, Lives.wake_parent]
          simp only [List.mem_cons, hq, false_or]
      · have hone : inheritOne me init t p = t := if_neg hp
        have hex : (∃ z ∈ p :: zs, (t.lives z).parent = some me) ↔
            ∃ z ∈ zs, (t.lives z).parent = some me := by
          simp [hp]
        have hmem : (q ∈ p :: zs ∧ (t.lives q).parent = some me) ↔
            (q ∈ zs ∧ (t.lives q).parent = some me) := by
          rw [List.mem_cons]
          constructor
          · rintro ⟨rfl | hq, hpar⟩
            · exact absurd hpar hp
            · exact ⟨hq, hpar⟩
          · exact fun hq => ⟨.inr hq.1, hq.2⟩
        rw [hone, ih h]
        simp only [hex, hmem]

theorem lives_inherit (me : Fin NPROC) (init : Option (Fin NPROC)) (h : t.Fit) (q : Fin NPROC) :
    (t.inherit me init).lives q =
      if (t.lives q).state = .ZOMBIE ∧ (t.lives q).parent = some me then
        { t.lives.tell me init q with parent := init }
      else t.lives.tell me init q := by
  have hmem (z : Fin NPROC) : z ∈ t.list .zombie ↔ (t.lives z).state = .ZOMBIE := h.listed.mem_iff
  rw [inherit, lives_foldl_inheritOne me init _ h]
  simp only [hmem]
  rfl

/-- Everybody is on one of the lists. -/
theorem exists_orphanLists (h : t.Fit) (hq : (t.lives q).state ≠ .ZOMBIE) :
    ∃ l ∈ orphanLists MAX, q ∈ t.list l := by
  obtain ⟨l, hl⟩ := Proc.exists_onList fun hr => h.priority q (.inr hr)
  refine ⟨l, ?_, h.listed.mem_iff.mpr hl⟩
  cases l with
  | ready i => simp [orphanLists, levels]
  | zombie => exact absurd hl hq
  | free => simp [orphanLists]
  | sleep => simp [orphanLists]
  | running => simp [orphanLists]
  | embryo => simp [orphanLists]

/-- All the loops of `exit` over children. -/
theorem lives_orphans_inherit (me : Fin NPROC) (init : Option (Fin NPROC)) (h : t.Fit) :
    ((t.inherit me init).orphans me init).lives = (t.lives.tell me init).adopt me init := by
  funext q
  have hfit := h.eased (inherit_eased me init h)
  rw [orphans_eq, lives_foldl_reparent, lives_inherit me init h, Lives.adopt, Lives.tell_parent]
  by_cases hpar : (t.lives q).parent = some me
  · by_cases hz : (t.lives q).state = .ZOMBIE
    · rw [if_pos (⟨hz, hpar⟩ : (t.lives q).state = .ZOMBIE ∧ (t.lives q).parent = some me),
        if_pos hpar]
      split <;> rfl
    · have hnot : ¬ ((t.lives q).state = .ZOMBIE ∧ (t.lives q).parent = some me) := fun hc => hz hc.1
      have hlist : ∃ l ∈ orphanLists MAX, q ∈ (t.inherit me init).list l := by
        refine exists_orphanLists hfit ?_
        rw [lives_inherit me init h, if_neg hnot, ne_eq, Lives.tell_zombie_iff]
        exact hz
      rw [if_neg hnot, if_pos hpar, if_pos ⟨hlist, by rw [Lives.tell_parent]; exact hpar⟩]
  · have hnot : ¬ ((t.lives q).state = .ZOMBIE ∧ (t.lives q).parent = some me) := fun hc =>
      hpar hc.2
    rw [if_neg hnot, if_neg hpar, if_neg fun hc => hpar (by
      have := hc.2
      rwa [Lives.tell_parent] at this)]

/-- **`exit`** -/
theorem lives_exit (h : t.Fit) (me : Fin NPROC) (init : Option (Fin NPROC)) (ticks : UInt32) :
    (t.exit me init ticks).lives = t.lives.exit me init := by
  have hset : (t.set me { t.proc me with ofile := fun _ => none, cwd := none }).Fit :=
    h.eased (.set h.listed rfl rfl rfl)
  have hclose : (t.set me { t.proc me with ofile := fun _ => none, cwd := none }).lives =
      t.lives.close me := lives_set
  have hparent : ((t.set me { t.proc me with ofile := fun _ => none, cwd := none }).proc me).parent
      = (t.lives me).parent := by
    rw [set_proc_self]
    rfl
  have hbequeath : (t.bequeath me init).lives =
      (((t.lives.close me).wake ((t.lives me).parent.map .proc)).tell me init).adopt me init := by
    unfold bequeath
    dsimp only
    rw [lives_orphans_inherit me init (hset.eased (wake_woken hset _).eased),
      lives_wake hset.listed, hclose, hparent]
  unfold exit Lives.exit
  dsimp only
  rw [lives_moveHead, ← hbequeath]
  rfl

end Table

/-! ## the operations -/

namespace Life

variable (l : Life NPROC)

def kill : Life NPROC :=
  { l with killed := true, state := if l.state = .SLEEPING then .RUNNABLE else l.state }

/-- `allocproc` -/
def alloc (pid : UInt32) (kstack : Nat) : Life NPROC :=
  { l with state := .EMBRYO, pid := pid, kstack := some kstack }

/-- `allocproc` without memory for a kernel stack. -/
def allocFail (pid : UInt32) : Life NPROC :=
  { l with state := .UNUSED, pid := pid, kstack := none }

/-- `fork` without memory for the address space. -/
def forkFail : Life NPROC := { l with kstack := none, state := .UNUSED }

/-- What `fork` copies from the parent. -/
def assign (me : Fin NPROC) (proc : Life NPROC) : Life NPROC :=
  { l with parent := some me, ofile := fun i => (proc.ofile i).or (l.ofile i) }

def reap : Life NPROC :=
  { l with kstack := none, state := .UNUSED, pid := 0, parent := none, killed := false }

end Life

section Kill

variable {s s₀ : Kern NPROC MAX NCPU} {t : Table NPROC MAX} {p : Fin NPROC} {l : SList MAX}
  {pid : Int32}

/-- A sleeper is killed. -/
theorem Table.lives_killSleeper (h : t.Listed none) (hp : t.found pid .sleep = some p)
    (l : SList MAX) :
    (t.moveEnd p l { t.proc p with killed := true, state := .RUNNABLE }).lives =
      Function.update t.lives p (t.lives p).kill := by
  have hstate : (t.lives p).state = .SLEEPING := h.onList (Table.mem_of_found hp).1
  rw [Table.lives_moveEnd, Life.kill, if_pos hstate]
  rfl

/-- Any other process is killed. -/
theorem Table.lives_kill (h : t.Listed none) (hfirst : t.FirstOn pid (killLists MAX) l)
    (hp : t.found pid l = some p) :
    (t.set p { t.proc p with killed := true }).lives =
      Function.update t.lives p (t.lives p).kill := by
  have hstate : (t.lives p).state ≠ .SLEEPING := by
    intro hs
    have hlist := (h.onList (Table.mem_of_found hp).1).unique (m := .sleep) hs
    have hmem := hfirst.mem
    rw [hlist] at hmem
    simp [killLists] at hmem
  rw [Table.lives_set, Life.kill, if_neg hstate]
  rfl

/-- `kill` kills one process with the pid, or there is none. -/
theorem kill_lives (h : s₀.Becomes t s) (hfit : t.Fit) (pid : Int32) :
    wp (kill pid) s fun r s' => s'.initproc = s₀.initproc ∧
      ((r = 0 ∧ ∃ p, (t.lives p).pid = pid.toUInt32 ∧
          s'.lives = Function.update t.lives p (t.lives p).kill) ∨
        (r = -1 ∧ (∀ p, (t.lives p).pid ≠ pid.toUInt32) ∧ s'.lives = t.lives)) := by
  refine (kill_spec h hfit pid).mono ?_
  rintro r s' (⟨rfl, p, hp, hb⟩ | ⟨rfl, -, l, hl, p, hp, hb⟩ | ⟨rfl, hsleep, hrest, -, hb⟩)
  · refine ⟨hb.initproc_eq, .inl ⟨rfl, p, (Table.mem_of_found hp).2, ?_⟩⟩
    rw [hb.lives_eq, Table.lives_killSleeper hfit.listed hp]
  · refine ⟨hb.initproc_eq, .inl ⟨rfl, p, (Table.mem_of_found hp).2, ?_⟩⟩
    rw [hb.lives_eq, Table.lives_kill hfit.listed hl hp]
  · exact ⟨hb.initproc_eq, .inr ⟨rfl, Table.pid_ne_of_searched hfit.placed hsleep hrest,
      hb.lives_eq⟩⟩

end Kill

/-- What an operation can do to the lives of the processes. -/
inductive Effect (s : Kern NPROC MAX NCPU) : Op NPROC MAX NCPU → Lives NPROC → Prop
  | same {op} : Effect s op s.lives
  | alloc {p kstack} (hp : (s.lives p).state = .UNUSED) :
      Effect s (.allocproc (some kstack))
        (Function.update s.lives p ((s.lives p).alloc s.nextpid kstack))
  | allocFail {p} (hp : (s.lives p).state = .UNUSED) :
      Effect s (.allocproc none) (Function.update s.lives p ((s.lives p).allocFail s.nextpid))
  | forkAllocFail {c p copyuvm} (hp : (s.lives p).state = .UNUSED) :
      Effect s (.fork c none copyuvm)
        (Function.update s.lives p ((s.lives p).allocFail s.nextpid))
  | forkFail {c p kstack} (hp : (s.lives p).state = .UNUSED) :
      Effect s (.fork c (some kstack) none)
        (Function.update s.lives p ((s.lives p).alloc s.nextpid kstack).forkFail)
  | fork {c me p kstack pgdir} (hme : s.cpus c = some me) (hp : (s.lives p).state = .UNUSED) :
      Effect s (.fork c (some kstack) (some pgdir))
        (Function.update s.lives p
          { ((s.lives p).alloc s.nextpid kstack).assign me (s.lives me) with state := .RUNNABLE })
  | exit {c me} (hme : s.cpus c = some me) (hinit : s.initproc ≠ some me) :
      Effect s (.exit c) (s.lives.exit me s.initproc)
  | reap {c me p} (hme : s.cpus c = some me) (hp : (s.lives p).state = .ZOMBIE)
      (hpar : (s.lives p).parent = some me) :
      Effect s (.wait c) (Function.update s.lives p (s.lives p).reap)
  | wait {c me} (hme : s.cpus c = some me) (hkids : ¬ s.lives.HasZombie me) :
      Effect s (.wait c)
        (Function.update s.lives me
          { s.lives me with state := .SLEEPING, chan := some (.proc me) })
  | dispatch {c p} (hp : (s.lives p).state = .RUNNABLE) (chan)
      (hchan : chan = none ∨ chan = (s.lives p).chan) :
      Effect s (.scheduler c)
        (Function.update s.lives p { s.lives p with state := .RUNNING, chan := chan })
  | yield {c me} (hme : s.cpus c = some me) :
      Effect s (.yield c) (Function.update s.lives me { s.lives me with state := .RUNNABLE })
  | sleep {c me chan} (hme : s.cpus c = some me) :
      Effect s (.sleep c chan)
        (Function.update s.lives me { s.lives me with state := .SLEEPING, chan := chan })
  | wakeup {chan} : Effect s (.wakeup chan) (s.lives.wake chan)
  | kill {pid p} (hp : (s.lives p).pid = pid.toUInt32) :
      Effect s (.kill pid) (Function.update s.lives p (s.lives p).kill)

section Steps

variable {s s' : Kern NPROC MAX NCPU} {t : Table NPROC MAX} {op : Op NPROC MAX NCPU}

section Moves

variable {p me : Fin NPROC} {pid ticks : UInt32}

theorem Table.lives_alloc {kstack : Nat} : (t.alloc p pid kstack ticks).lives =
    Function.update t.lives p ((t.lives p).alloc pid kstack) := Table.lives_moveHead

theorem Table.lives_allocFail : (t.allocFail p pid).lives =
    Function.update t.lives p ((t.lives p).allocFail pid) := Table.lives_moveHead

theorem Table.lives_forkFail : (t.forkFail p).lives =
    Function.update t.lives p (t.lives p).forkFail := Table.lives_moveHead

theorem Table.lives_forkDone {pgdir : Nat} : (t.forkDone me p pgdir).lives =
    Function.update t.lives p
      { (t.lives p).assign me (t.lives me) with state := .RUNNABLE } := Table.lives_moveEnd

theorem Table.lives_reap : (t.reap p).lives = Function.update t.lives p (t.lives p).reap :=
  Table.lives_moveHead

theorem Table.lives_yield : (t.yield me ticks).lives =
    Function.update t.lives me { t.lives me with state := .RUNNABLE } := by
  rw [Table.yield, Table.lives_moveEnd, Proc.life_leave, Proc.life_charge]
  rfl

theorem Table.lives_sleep {chan : Option (Chan NPROC)} : (t.sleep me chan ticks).lives =
    Function.update t.lives me { t.lives me with state := .SLEEPING, chan := chan } := by
  rw [Table.sleep, Table.lives_moveEnd, Proc.life_leave, Proc.life_charge]
  rfl

/-- A process that slept clears its channel when it runs again. -/
theorem Table.lives_dispatch (p : Fin NPROC) (ticks : UInt32) :
    ∃ chan, (chan = none ∨ chan = (t.lives p).chan) ∧ (t.dispatch p ticks).lives =
      Function.update t.lives p { t.lives p with state := .RUNNING, chan := chan } := by
  by_cases hctx : (t.proc p).context = .sleep
  · refine ⟨none, .inl rfl, ?_⟩
    rw [Table.dispatch, Table.lives_moveEnd, if_pos hctx]
    rfl
  · refine ⟨(t.lives p).chan, .inr rfl, ?_⟩
    rw [Table.dispatch, Table.lives_moveEnd, if_neg hctx]
    rfl

end Moves

/-- Promotion changes priorities. -/
theorem Table.lives_promoteAll (h : t.Placed) : t.promoteAll.lives = t.lives := by
  funext q
  show (t.promoteAll.proc q).life = (t.proc q).life
  rw [Table.promoteAll_proc h]
  split <;> rfl

/-! ### what each operation can do -/

/-- The processes are those of the table, so effects are read off the table. -/
theorem Inv.lives_eq (h : Inv s t) : s.lives = t.lives := h.becomes.lives_eq

theorem Inv.state_eq (h : Inv s t) (p : Fin NPROC) : (s.lives p).state = (t.proc p).state := by
  rw [h.lives_eq]
  rfl

/-- The head of the free list is free. -/
theorem Inv.unused (h : Inv s t) {p : Fin NPROC} {zs : List (Fin NPROC)}
    (hfree : t.list .free = p :: zs) : (s.lives p).state = .UNUSED := by
  rw [h.state_eq]
  exact h.wf.listed.onList (show p ∈ t.list .free by simp [hfree])

theorem Outcome.initproc_eq {s₁ : Kern NPROC MAX NCPU} {t' : Table NPROC MAX}
    (ho : Outcome s t op s₁ t') : s₁.initproc = s.initproc := by
  cases ho with
  | idle => unfold Kern.promoted; split <;> rfl
  | dispatch => unfold Kern.setCpu Kern.promoted; split <;> rfl
  | _ => rfl

/-- What the operation does to the lives, read off the table. -/
theorem Outcome.effect {s₁ : Kern NPROC MAX NCPU} {t' : Table NPROC MAX} (h : Inv s t)
    (ho : Outcome s t op s₁ t') : Effect s op t'.lives := by
  have hl := h.wf.listed
  have hsame : Effect s op t.lives := by
    rw [← h.lives_eq]
    exact .same
  have hpromoted : (t.promoted s.due).lives = s.lives := by
    rw [h.lives_eq]
    unfold Table.promoted
    split
    · exact Table.lives_promoteAll h.wf.placed
    · rfl
  cases ho with
  | tick | noSlot | forkNoSlot | waitNone | killNone | setNone => exact hsame
  | noStack hfree =>
      rw [Table.lives_allocFail, ← h.lives_eq]
      exact .allocFail (h.unused hfree)
  | alloc hfree =>
      rw [Table.lives_alloc, ← h.lives_eq]
      exact .alloc (h.unused hfree)
  | forkNoStack hme hfree =>
      rw [Table.lives_allocFail, ← h.lives_eq]
      exact .forkAllocFail (h.unused hfree)
  | forkNoMemory hme hfree =>
      rw [Table.lives_forkFail, Table.lives_alloc, Function.update_idem, Function.update_self,
        ← h.lives_eq]
      exact .forkFail (h.unused hfree)
  | @fork c me p zs a d hme hfree =>
      have hne : me ≠ p := by
        rintro rfl
        have hu := h.unused hfree
        rw [h.state_eq, h.running c me hme] at hu
        contradiction
      rw [Table.lives_forkDone, Table.lives_alloc, Function.update_idem, Function.update_self,
        Function.update_of_ne hne, ← h.lives_eq]
      exact .fork hme (h.unused hfree)
  | exit hme hinit =>
      rw [Table.lives_exit h.wf.fit, ← h.lives_eq]
      exact .exit hme hinit.symm
  | @reap c me z hme hfind =>
      have hz : (s.lives z).state = .ZOMBIE := by
        rw [h.state_eq]
        exact hl.onList (List.mem_of_find?_eq_some hfind)
      have hpar : (s.lives z).parent = some me := by
        have hfound := List.find?_some hfind
        rw [decide_eq_true_eq] at hfound
        rw [h.lives_eq]
        exact hfound
      rw [Table.lives_reap, ← h.lives_eq]
      exact .reap hme hz hpar
  | @wait c me hme hnone =>
      have hkids : ¬ s.lives.HasZombie me := by
        rw [h.lives_eq]
        exact Table.find?_zombie_none_iff hl |>.mp hnone
      rw [Table.lives_sleep, ← h.lives_eq]
      exact .wait hme hkids
  | idle =>
      rw [hpromoted]
      exact .same
  | @dispatch c i p zs hcpu hlist hfirst =>
      have hwf : (t.promoted s.due).WF := by
        unfold Table.promoted
        split
        · exact (Table.promoteAll_kept h.wf).wf
        · exact h.wf
      have hp : (s.lives p).state = .RUNNABLE := by
        rw [← hpromoted]
        exact (hwf.listed.onList (show p ∈ (t.promoted s.due).list (.ready i) by simp [hlist])).1
      obtain ⟨chan, hchan, hdispatch⟩ := Table.lives_dispatch (t := t.promoted s.due) p s.ticks
      rw [hpromoted] at hchan hdispatch
      rw [hdispatch]
      exact .dispatch hp chan hchan
  | promoteAll =>
      rw [Table.lives_promoteAll h.wf.placed]
      exact hsame
  | yield hme =>
      rw [Table.lives_yield, ← h.lives_eq]
      exact .yield hme
  | sleep hme =>
      rw [Table.lives_sleep, ← h.lives_eq]
      exact .sleep hme
  | wakeup =>
      rw [Table.lives_wake hl, ← h.lives_eq]
      exact .wakeup
  | killSleeper hp =>
      have hpid := (Table.mem_of_found hp).2
      rw [← h.becomes.proc_eq] at hpid
      rw [Table.lives_killSleeper hl hp, ← h.lives_eq]
      exact .kill hpid
  | kill hsleep hfirst hp =>
      have hpid := (Table.mem_of_found hp).2
      rw [← h.becomes.proc_eq] at hpid
      rw [Table.lives_kill hl hfirst hp, ← h.lives_eq]
      exact .kill hpid
  | @setReady pid priority i p =>
      have heq : Function.update t.lives p (t.lives p) = t.lives := Function.update_eq_self p _
      rw [Table.lives_moveEnd]
      change Effect s _ (Function.update t.lives p (t.lives p))
      rw [heq]
      exact hsame
  | @setOther pid priority l p =>
      have heq : Function.update t.lives p (t.lives p) = t.lives := Function.update_eq_self p _
      rw [Table.lives_set]
      change Effect s _ (Function.update t.lives p (t.lives p))
      rw [heq]
      exact hsame

/-- **Effect of a step.** -/
theorem step_effect (h : Inv s t) (hs : step s op = some s') :
    Effect s op s'.lives ∧ s'.initproc = s.initproc := by
  obtain ⟨s₁, t', ho, hb⟩ := step_outcome h hs
  rw [hb.lives_eq]
  exact ⟨ho.effect h, hb.initproc_eq.trans ho.initproc_eq⟩

end Steps

/-! ## the first process -/

def Life.zero : Life NPROC := Proc.zero.life

/-- The first process is its own parent. -/
def Life.first (p : Fin NPROC) (kstack : Nat) : Life NPROC :=
  { Life.zero with state := .RUNNABLE, parent := some p, pid := 1, kstack := some kstack }

theorem userinit_lives {s : Kern NPROC MAX NCPU} {kalloc setupkvm namei : Option Nat}
    {ticks : UInt32} (hboot : userinit kalloc setupkvm namei (boot ticks) = .ok ((), s)) :
    ∃ p kstack, s.initproc = some p ∧
      s.lives = Function.update (fun _ => Life.zero) p (Life.first p kstack) := by
  obtain ⟨p, kstack, hb⟩ := userinit_spec hboot
  refine ⟨p, kstack, hb.initproc_eq, ?_⟩
  rw [hb.lives_eq, Table.first, Table.lives_moveEnd, Table.lives_alloc, Function.update_idem,
    Table.alloc, Table.moveHead_proc, Table.set_proc_self]
  rfl

end Xv6.Ptable
