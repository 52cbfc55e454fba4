import Xv6.Ptable.Promotion

/-!
# Xv6.Ptable.Order

The order in which `RUNNABLE` processes are dispatched.  Ready lists grow only at the
end, and `promoteAll` puts a whole level behind the one above it, so a process that is
ahead of another on a ready list stays ahead of it, whatever list they are on.

* `Table.Ahead`: `p` is somewhere before `q` on a common ready list;
* `step_ahead`: a step keeps this, or dispatches `p`, or is `setpriority` on one of them;
* `strict_priority_no_overtaking`: a pass dispatches the head of the first ready list
  that is not empty, and nobody is overtaken on the way there.
-/

namespace Xv6.Ptable

open Run

variable {NPROC MAX NCPU : Nat}

/-! ## being ahead, and what keeps it -/

namespace Table

variable {t t' : Table NPROC MAX} {p q r : Fin NPROC} {l : SList MAX} {pr : Proc NPROC}

/-- `p` and `q` wait on one ready list, `p` before `q`. -/
def Ahead (t : Table NPROC MAX) (p q : Fin NPROC) : Prop :=
  ∃ i, [p, q].Sublist (t.list (.ready i))

/-- An invariant of a walk along a list can be strengthened afterwards. -/
theorem Follows.and {f : Table NPROC MAX → Fin NPROC → Table NPROC MAX}
    {I J : Table NPROC MAX → Prop} (hf : Follows l f I)
    (hJ : ∀ t p, I t → J t → p ∈ t.list l → J (f t p)) : Follows l f fun t => I t ∧ J t := by
  intro t p ys zs h hlist
  obtain ⟨hI, hsuffix⟩ := hf t p ys zs h.1 hlist
  exact ⟨⟨hI, hJ t p h.1 h.2 (by simp [hlist])⟩, hsuffix⟩

namespace Ahead

theorem mem (h : t.Ahead p q) : ∃ i, p ∈ t.list (.ready i) ∧ q ∈ t.list (.ready i) := by
  obtain ⟨i, hi⟩ := h
  exact ⟨i, hi.subset (by simp), hi.subset (by simp)⟩

theorem runnable (h : t.Ahead p q) (hl : t.Listed none) :
    (t.proc p).state = .RUNNABLE ∧ (t.proc q).state = .RUNNABLE := by
  obtain ⟨i, hp, hq⟩ := h.mem
  exact ⟨(hl.onList hp).1, (hl.onList hq).1⟩

/-- A process that does not wait is neither of the two. -/
theorem ne_of_state (h : t.Ahead p q) (hl : t.Listed none) (hr : (t.proc r).state ≠ .RUNNABLE) :
    r ≠ p ∧ r ≠ q := by
  obtain ⟨hp, hq⟩ := h.runnable hl
  exact ⟨fun he => hr (he ▸ hp), fun he => hr (he ▸ hq)⟩

theorem of_lists (h : t.Ahead p q) (hlist : t'.list = t.list) : t'.Ahead p q := by
  obtain ⟨i, hi⟩ := h
  exact ⟨i, hlist ▸ hi⟩

theorem set (h : t.Ahead p q) : (t.set r pr).Ahead p q := h.of_lists rfl

/-- A third process leaves its list and arrives somewhere, first or last. -/
theorem move (h : t.Ahead p q) (hr : r ≠ p ∧ r ≠ q)
    (hlist : ∀ m, ((t.list m).erase r).Sublist (t'.list m)) : t'.Ahead p q := by
  obtain ⟨i, hi⟩ := h
  have herase : [p, q].erase r = [p, q] := List.erase_of_not_mem (by simp [hr.1, hr.2])
  have hout := hi.erase r
  rw [herase] at hout
  exact ⟨i, hout.trans (hlist _)⟩

theorem moveEnd (h : t.Ahead p q) (hr : r ≠ p ∧ r ≠ q) : (t.moveEnd r l pr).Ahead p q := by
  refine h.move hr fun m => ?_
  by_cases hm : m = l
  · subst hm
    rw [moveEnd_list_self]
    exact List.sublist_append_left _ _
  · rw [moveEnd_list_of_ne hm]

theorem moveHead (h : t.Ahead p q) (hr : r ≠ p ∧ r ≠ q) : (t.moveHead r l pr).Ahead p q := by
  refine h.move hr fun m => ?_
  by_cases hm : m = l
  · subst hm
    simp only [Table.moveHead, pushHead, Function.update_self]
    exact List.sublist_cons_self _ _
  · simp only [Table.moveHead, pushHead, Function.update_of_ne hm]
    exact List.Sublist.refl _

/-! ### operations -/

theorem wake (h : t.Ahead p q) (hfit : t.Fit) (c : Option (Chan NPROC)) :
    (t.wake c).Ahead p q := by
  refine ((wakeOne_follows c hfit).and (J := fun t => t.Ahead p q) ?_).foldl
    ⟨⟨.refl hfit.listed, fun _ _ _ => rfl⟩, h⟩ |>.2
  intro t r hw hahead hr
  have hsleep : (t.proc r).state = .SLEEPING := hw.eased.listed.onList hr
  unfold wakeOne
  split
  · exact hahead.moveEnd (hahead.ne_of_state hw.eased.listed (by simp [hsleep]))
  · exact hahead

theorem inherit (h : t.Ahead p q) (hfit : t.Fit) (me : Fin NPROC) (init : Option (Fin NPROC)) :
    (t.inherit me init).Ahead p q := by
  refine ((inheritOne_follows me init hfit).and (J := fun t => t.Ahead p q) ?_).foldl
    ⟨.refl hfit.listed, h⟩ |>.2
  intro t r he hahead _
  unfold inheritOne
  split
  · have hset : t.Eased (t.set r { t.proc r with parent := init }) := .set he.listed rfl rfl rfl
    exact hahead.set.wake ((hfit.eased he).eased hset) _
  · exact hahead

theorem reparent (h : t.Ahead p q) (me : Fin NPROC) (init : Option (Fin NPROC)) :
    (Table.reparent me init t l).Ahead p q := by
  have hkeep : ∀ (zs : List (Fin NPROC)) (t : Table NPROC MAX), t.Ahead p q →
      (zs.foldl (adopt me init) t).Ahead p q := by
    intro zs
    induction zs with
    | nil => exact fun _ h => h
    | cons r zs ih =>
        intro t h
        refine ih _ ?_
        unfold adopt
        split
        · exact h.set
        · exact h
  exact hkeep _ t h

theorem orphans (h : t.Ahead p q) (me : Fin NPROC) (init : Option (Fin NPROC)) :
    (t.orphans me init).Ahead p q := by
  have hlevels : ∀ (is : List (Fin (MAX + 1))) (t : Table NPROC MAX), t.Ahead p q →
      (is.foldl (fun t i => Table.reparent me init t (.ready i)) t).Ahead p q := by
    intro is
    induction is with
    | nil => exact fun _ h => h
    | cons i is ih => exact fun t h => ih _ (h.reparent me init)
  exact (((hlevels _ _ (h.reparent me init)).reparent me init).reparent me init).reparent me init

theorem exit (h : t.Ahead p q) (hfit : t.Fit) {me : Fin NPROC} (init : Option (Fin NPROC))
    (ticks : UInt32) (hrun : (t.proc me).state = .RUNNING) : (t.exit me init ticks).Ahead p q := by
  have hme := h.ne_of_state hfit.listed (show (t.proc me).state ≠ .RUNNABLE by simp [hrun])
  have hset : t.Eased (t.set me { t.proc me with ofile := fun _ => none, cwd := none }) :=
    .set hfit.listed rfl rfl rfl
  have hfit₁ := hfit.eased hset
  have hfit₂ := hfit₁.eased (wake_woken hfit₁
    (((t.set me { t.proc me with ofile := fun _ => none, cwd := none }).proc me).parent.map .proc)).eased
  exact (((h.set.wake hfit₁ _).inherit hfit₂ me init).orphans me init).moveHead hme

theorem promoteAll (h : t.Ahead p q) (ht : t.Placed) : t.promoteAll.Ahead p q := by
  obtain ⟨k, hk⟩ := h
  have hmove := promoteAll_level ht
  rw [← level_eq] at hk
  obtain hzero | hpos := Nat.eq_zero_or_pos k.val
  · refine ⟨⟨0, by omega⟩, ?_⟩
    rw [← level_eq, hmove, if_pos rfl]
    rw [hzero] at hk
    exact hk.trans (List.sublist_append_left _ _)
  · refine ⟨⟨k.val - 1, by omega⟩, ?_⟩
    rw [← level_eq, hmove]
    split
    · next hone =>
        have hk1 : k.val = 1 := by simp only at hone; omega
        rw [hk1] at hk
        exact hk.trans (List.sublist_append_right _ _)
    · have hnext : k.val - 1 + 1 = k.val := by omega
      simp only [hnext]
      exact hk

/-- Nobody is at the head of a list behind `p`. -/
theorem ne_head (h : t.Ahead p q) (hl : t.Listed none) {i : Fin (MAX + 1)}
    {zs : List (Fin NPROC)} (hlist : t.list (.ready i) = r :: zs) : r ≠ q := by
  rintro rfl
  obtain ⟨k, hk⟩ := h
  have hki := hl.eq_of_mem (hk.subset (show r ∈ [p, r] by simp))
    (show r ∈ t.list (.ready i) by simp [hlist])
  have hnodup := hl.nodup (.ready i)
  rw [hki, hlist] at hk
  rw [hlist] at hnodup
  cases hk with
  | cons _ hzs => exact (List.nodup_cons.mp hnodup).1 (hzs.subset (by simp))
  | cons_cons _ hzs => exact (List.nodup_cons.mp hnodup).1 (hzs.subset (by simp))

end Ahead

end Table

/-! ## steps -/

section Steps

variable {s s' : Kern NPROC MAX NCPU} {t t' : Table NPROC MAX} {op : Op NPROC MAX NCPU}
  {p q : Fin NPROC} {c : Fin NCPU}

/-- The lists of the kernel hold `p` ahead of `q`. -/
def Kern.Ahead (s : Kern NPROC MAX NCPU) (p q : Fin NPROC) : Prop :=
  ∃ L i, Partition s L ∧ [p, q].Sublist (L (.ready i))

/-- `setpriority` is called on `p`. -/
def SetsPriority (s : Kern NPROC MAX NCPU) (p : Fin NPROC) : Op NPROC MAX NCPU → Prop
  | .setpriority pid _ => (s.proc p).pid = pid.toUInt32
  | _ => False

/-- A pass of the scheduler dispatches `p` while `q` waits. -/
def Dispatches (p q : Fin NPROC) : Op NPROC MAX NCPU → Kern NPROC MAX NCPU → Prop
  | .scheduler c, s' => s'.cpus c = some p ∧ (s'.proc q).state = .RUNNABLE
  | _, _ => False

/-- The steps after which `p` need not be ahead of `q`. -/
def Released (p q : Fin NPROC) (s : Kern NPROC MAX NCPU) (op : Op NPROC MAX NCPU)
    (s' : Kern NPROC MAX NCPU) : Prop :=
  Dispatches p q op s' ∨ SetsPriority s p op ∨ SetsPriority s q op

/-- A kernel state represents one table. -/
theorem Inv.unique (h : Inv s t) (hb : s.Becomes t' s) : t' = t := by
  have hproc : t'.proc = t.proc := hb.proc_eq.symm.trans h.becomes.proc_eq
  have hlist : t'.list = t.list := funext fun l => (hb.reps l).unique (h.becomes.reps l)
  cases t
  cases t'
  simp_all

theorem Inv.ahead_iff (h : Inv s t) : s.Ahead p q ↔ t.Ahead p q := by
  constructor
  · rintro ⟨L, i, hpart, hsub⟩
    have hlist : L (.ready i) = t.list (.ready i) :=
      (hpart.chain _).unique (h.becomes.reps _)
    exact ⟨i, hlist ▸ hsub⟩
  · rintro ⟨i, hsub⟩
    exact ⟨t.list, i, h.partition, hsub⟩

/-- The head of a ready list is ahead of the next on it. -/
theorem Inv.ahead_of_next (h : Inv s t) {i : Fin (MAX + 1)}
    (hhead : s.links.head (.ready i) = some p) (hnext : s.links.next p = some q) : s.Ahead p q := by
  have hchain := h.partition.chain (.ready i)
  have hp : (t.list (.ready i)).head? = some p := hchain.head_eq.symm.trans hhead
  obtain ⟨xs, hxs⟩ := List.head?_eq_some_iff.mp hp
  rw [hxs] at hchain
  have hnode {zs : List (Fin NPROC)} (hc : Chain s.links.next (s.links.head (.ready i)) ([] ++ p :: zs)) :
      s.links.next p = zs.head? := hc.next_eq
  have hq : xs.head? = some q := (hnode hchain).symm.trans hnext
  obtain ⟨ys, rfl⟩ := List.head?_eq_some_iff.mp hq
  refine ⟨t.list, i, h.partition, ?_⟩
  rw [hxs]
  exact List.sublist_append_left [p, q] ys

/-- **Step lemma**: `p` stays ahead of `q` unless the step releases it. -/
theorem step_table_ahead (h : Inv s t) (ha : t.Ahead p q) (hs : step s op = some s') :
    Released p q s op s' ∨ ∃ t', s'.Becomes t' s' ∧ t'.Ahead p q := by
  obtain ⟨s₁, t', ho, hb⟩ := step_outcome h hs
  have hl := h.wf.listed
  have hcur {c : Fin NCPU} {me : Fin NPROC} (hme : s.cpus c = some me) : me ≠ p ∧ me ≠ q :=
    ha.ne_of_state hl (by simp [h.running c me hme])
  have hfree {r : Fin NPROC} {zs : List (Fin NPROC)} (hcons : t.list .free = r :: zs) :
      r ≠ p ∧ r ≠ q := by
    have hr : (t.proc r).state = .UNUSED := hl.onList (show r ∈ t.list .free by simp [hcons])
    exact ha.ne_of_state hl (by simp [hr])
  have hpromoted : (t.promoted s.due).WF ∧ (t.promoted s.due).Ahead p q := by
    unfold Table.promoted
    split
    · exact ⟨(Table.promoteAll_kept h.wf).wf, ha.promoteAll h.wf.placed⟩
    · exact ⟨h.wf, ha⟩
  cases ho with
  | tick | noSlot | forkNoSlot | waitNone | killNone | setNone => exact .inr ⟨t, hb.self, ha⟩
  | noStack hcons | alloc hcons => exact .inr ⟨_, hb.self, ha.moveHead (hfree hcons)⟩
  | forkNoStack hme hcons => exact .inr ⟨_, hb.self, ha.moveHead (hfree hcons)⟩
  | forkNoMemory hme hcons =>
      exact .inr ⟨_, hb.self, (ha.moveHead (hfree hcons)).moveHead (hfree hcons)⟩
  | fork hme hcons =>
      exact .inr ⟨_, hb.self, (ha.moveHead (hfree hcons)).moveEnd (hfree hcons)⟩
  | @exit c me hme =>
      exact .inr ⟨_, hb.self, ha.exit h.wf.fit _ _ (h.running c me hme)⟩
  | @reap c me r hme hfind =>
      have hr : (t.proc r).state = .ZOMBIE := hl.onList (List.mem_of_find?_eq_some hfind)
      exact .inr ⟨_, hb.self, ha.moveHead (ha.ne_of_state hl (by simp [hr]))⟩
  | wait hme => exact .inr ⟨_, hb.self, ha.moveEnd (hcur hme)⟩
  | idle => exact .inr ⟨_, hb.self, hpromoted.2⟩
  | @dispatch c i r zs hcpu hlist hfirst =>
      obtain ⟨hwf, ha'⟩ := hpromoted
      have hrq := ha'.ne_head hwf.listed hlist
      by_cases hrp : r = p
      · subst hrp
        refine .inl (.inl ⟨?_, ?_⟩)
        · rw [hb.cpus_eq]
          exact Function.update_self _ _ _
        · rw [hb.proc_eq, Table.dispatch, Table.moveEnd_proc, Table.set_proc_of_ne hrq.symm]
          exact (ha'.runnable hwf.listed).2
      · exact .inr ⟨_, hb.self, ha'.moveEnd ⟨hrp, hrq⟩⟩
  | promoteAll => exact .inr ⟨_, hb.self, ha.promoteAll h.wf.placed⟩
  | yield hme => exact .inr ⟨_, hb.self, ha.moveEnd (hcur hme)⟩
  | sleep hme => exact .inr ⟨_, hb.self, ha.moveEnd (hcur hme)⟩
  | wakeup => exact .inr ⟨_, hb.self, ha.wake h.wf.fit _⟩
  | @killSleeper pid r hr =>
      have hstate : (t.proc r).state = .SLEEPING := hl.onList (Table.mem_of_found hr).1
      exact .inr ⟨_, hb.self, ha.moveEnd (ha.ne_of_state hl (by simp [hstate]))⟩
  | kill => exact .inr ⟨_, hb.self, ha.set⟩
  | @setReady pid priority i r hfirst hr =>
      have hpid := (Table.mem_of_found hr).2
      rw [← h.becomes.proc_eq] at hpid
      by_cases hrp : r = p
      · exact .inl (.inr (.inl (hrp ▸ hpid)))
      · by_cases hrq : r = q
        · exact .inl (.inr (.inr (hrq ▸ hpid)))
        · exact .inr ⟨_, hb.self, ha.moveEnd ⟨hrp, hrq⟩⟩
  | setOther => exact .inr ⟨_, hb.self, ha.set⟩

theorem step_ahead (h : (∃ t, Inv s t) ∧ s.Ahead p q) (hs : step s op = some s') :
    Released p q s op s' ∨ (∃ t, Inv s' t) ∧ s'.Ahead p q := by
  obtain ⟨⟨t, ht⟩, ha⟩ := h
  refine (step_table_ahead ht (ht.ahead_iff.mp ha) hs).imp_right ?_
  rintro ⟨t', hb, ha'⟩
  obtain ⟨t'', ht'⟩ := step_inv ⟨t, ht⟩ hs
  obtain rfl := ht'.unique hb
  exact ⟨⟨t', ht'⟩, ht'.ahead_iff.mpr ha'⟩

/-! ## a pass of the scheduler -/

/-- The first statement of a pass: promote, if it is time. -/
def promotion : K NPROC MAX NCPU Unit := do
  if (← get).promoteAtTime = (← get).ticks then
    promoteAll
    modify fun s => { s with promoteAtTime := s.ticks + TIME_TO_PROMOTE }

theorem scheduler_eq (c : Fin NCPU) : (scheduler c : K NPROC MAX NCPU Unit) =
    promotion >>= fun _ => firstOf (dispatch c) (levels MAX) >>= fun _ => pure () := by
  unfold scheduler promotion
  simp only [bind_assoc]
  congr 1
  funext a
  congr 1
  funext b
  split
  · simp only [bind_assoc]
  · rw [pure_bind]

/-- The promotion keeps the partition and everybody's state. -/
theorem promotion_spec (h : Inv s t) : wp promotion s fun _ s₁ =>
    ∃ t₁, Inv s₁ t₁ ∧ s₁.cpus = s.cpus ∧ ∀ p, (s₁.proc p).state = (s.proc p).state := by
  unfold promotion
  rw [wp_bind, wp_get, wp_bind, wp_get]
  split
  · refine wp_bind_of (promoteAll_spec h.becomes h.wf.placed) fun _ s₁ hb => ?_
    have hk := Table.promoteAll_kept h.wf
    have hinv := h.step hb rfl h.quiet hk.wf hk.keeps
    refine wp_modify.mpr ⟨t.promoteAll, ?_, hb.cpus_eq, fun p => ?_⟩
    · exact ⟨.refl hinv.becomes.proc_eq hinv.becomes.reps, hinv.wf, hinv.running, hinv.once,
        hinv.quiet⟩
    · change (s₁.proc p).state = _
      rw [hb.proc_eq, h.becomes.proc_eq, Table.promoteAll_proc h.wf.placed]
      split <;> rfl
  · exact wp_pure.mpr ⟨t, h, rfl, fun _ => rfl⟩

/-- **Strict priority**: with a `RUNNABLE` process there, the search dispatches the head of
its list, and nobody `RUNNABLE` has a lower priority value. -/
theorem search_minimal (h : Inv s t) {r : Fin NPROC} (hr : (s.proc r).state = .RUNNABLE) :
    ∃ i p zs, t.list (.ready i) = p :: zs ∧
      (∀ q, (s.proc q).state = .RUNNABLE → i.val ≤ (s.proc q).priority) ∧
      wp (firstOf (dispatch c) (levels MAX)) s fun _ s' =>
        s'.cpus c = some p ∧ (s'.proc p).state = .RUNNING := by
  have hready {q : Fin NPROC} (hq : (s.proc q).state = .RUNNABLE) :
      ∃ k : Fin (MAX + 1), k.val = (s.proc q).priority ∧ q ∈ t.list (.ready k) := by
    rw [h.becomes.proc_eq] at hq ⊢
    have hle := (h.wf.sane q).priority
    exact ⟨⟨(t.proc q).priority, by omega⟩, rfl, h.wf.listed.mem_iff.mpr ⟨hq, rfl⟩⟩
  obtain ⟨a, s', hok, hcase⟩ := search_spec h.becomes h.wf c
  rcases hcase with ⟨hempty, -⟩ | ⟨i, p, zs, hlist, hfirst, hb⟩
  · obtain ⟨k, -, hk⟩ := hready hr
    simp [hempty k] at hk
  · refine ⟨i, p, zs, hlist, fun q hq => ?_, a, s', hok, ?_, ?_⟩
    · obtain ⟨k, hk, hqk⟩ := hready hq
      by_contra hlt
      rw [hfirst k (by omega)] at hqk
      simp at hqk
    · rw [hb.cpus_eq]
      exact Function.update_self _ _ _
    · rw [hb.proc_eq, Table.dispatch, Table.moveEnd_proc, Table.set_proc_self]
      split <;> rfl

/-- A pass on an idle CPU. -/
theorem step_scheduler (h : Inv s t) (hidle : s.cpus c = none) {r : Fin NPROC}
    (hr : (s.proc r).state = .RUNNABLE) : ∃ s₁ s' L i p zs,
      promotion s = .ok ((), s₁) ∧ step s (.scheduler c) = some s' ∧ Partition s₁ L ∧
      L (.ready i) = p :: zs ∧
      (∀ q, (s₁.proc q).state = .RUNNABLE → i.val ≤ (s₁.proc q).priority) ∧
      s'.cpus c = some p ∧ (s'.proc p).state = .RUNNING := by
  obtain ⟨_, s₁, hok, t₁, ht₁, -, hstate⟩ := promotion_spec h
  rw [← hstate r] at hr
  obtain ⟨i, p, zs, hlist, hmin, hsearch⟩ := search_minimal (c := c) ht₁ hr
  have hpass : wp (scheduler c) s fun _ s' => s'.cpus c = some p ∧ (s'.proc p).state = .RUNNING := by
    rw [scheduler_eq]
    exact wp_bind.mpr ⟨(), s₁, hok, wp_bind_of hsearch fun _ s' hs' => wp_pure.mpr hs'⟩
  have hcode : (Op.scheduler c).code s = some (Ptable.scheduler c) := by
    rw [Op.code, if_pos hidle]
  obtain ⟨s', hs, hcpu, hrun⟩ := step_intro hcode hpass
  exact ⟨s₁, s', t₁.list, i, p, zs, hok, hs, ht₁.partition, hlist, hmin, hcpu, hrun⟩

end Steps

/-- **Strict priority and no overtaking**, in every state that is reached.  A pass of the
scheduler, after its promotion, dispatches the head of a ready list, and no `RUNNABLE`
process has a lower priority value.  And if `p` is ahead of `q`, then in every run from
there on it stays ahead until it is dispatched, with `q` still waiting, or `setpriority`
is called on one of them. -/
theorem strict_priority_no_overtaking {kalloc setupkvm namei : Option Nat} {ticks : UInt32}
    {s₀ s : Kern NPROC MAX NCPU} {ops : List (Op NPROC MAX NCPU)}
    (hboot : userinit kalloc setupkvm namei (boot ticks) = .ok ((), s₀))
    (hrun : exec step s₀ ops = some s) :
    (∀ c, s.cpus c = none → (∃ r, (s.proc r).state = .RUNNABLE) → ∃ s₁ s' L i p zs,
      promotion s = .ok ((), s₁) ∧ step s (.scheduler c) = some s' ∧ Partition s₁ L ∧
      L (.ready i) = p :: zs ∧
      (∀ q, (s₁.proc q).state = .RUNNABLE → i.val ≤ (s₁.proc q).priority) ∧
      s'.cpus c = some p ∧ (s'.proc p).state = .RUNNING) ∧
    ∀ p q, s.Ahead p q → ∀ later, Until step (fun s => s.Ahead p q) (Released p q) s later := by
  have hinv : ∃ t, Inv s t :=
    reachable_invariant (fun _ _ _ => step_inv) (userinit_inv hboot) ⟨ops, hrun⟩
  constructor
  · rintro c hidle ⟨r, hr⟩
    obtain ⟨t, ht⟩ := hinv
    exact step_scheduler ht hidle hr
  · intro p q hahead later
    exact until_of_step (fun _ _ _ => step_ahead) (fun _ h => h.2) ⟨hinv, hahead⟩

/-- The first process forks twice and gives up the CPU: two children and their parent wait. -/
def siblings : List (Op 3 1 1) :=
  [.scheduler 0, .fork 0 (some 1) (some 2), .fork 0 (some 3) (some 4), .yield 0]

theorem strict_priority_no_overtaking_siblings : ∃ s₀ s s' : Kern 3 1 1,
    userinit (some 0) (some 0) (some 0) (boot 0) = .ok ((), s₀) ∧
      exec step s₀ siblings = some s ∧ s.Ahead 1 2 ∧
      step s (.scheduler 0) = some s' ∧ s'.cpus 0 = some 1 ∧
      ∀ later, Until step (fun s => s.Ahead 1 2) (Released 1 2) s later := by
  obtain ⟨s₀, s, hboot, hs, hp⟩ := exists_run step id siblings
    (p := fun s => decide (s.links.head (.ready 0) = some 1 ∧ s.links.next 1 = some 2) &&
      (step s (.scheduler 0)).any fun s' : Kern 3 1 1 => decide (s'.cpus 0 = some 1))
    (by decide +kernel)
  rw [Bool.and_eq_true, decide_eq_true_eq] at hp
  obtain ⟨⟨hhead, hnext⟩, hpass⟩ := hp
  obtain ⟨s', hs', hcpu⟩ := (Option.any_eq_true _ _).mp hpass
  obtain ⟨t, ht⟩ : ∃ t, Inv s t :=
    reachable_invariant (fun _ _ _ => step_inv) (userinit_inv hboot) ⟨siblings, hs⟩
  have hahead := ht.ahead_of_next hhead hnext
  exact ⟨s₀, s, s', hboot, hs, hahead, hs', of_decide_eq_true hcpu,
    (strict_priority_no_overtaking hboot hs).2 1 2 hahead⟩

end Xv6.Ptable
