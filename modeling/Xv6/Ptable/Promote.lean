import Mathlib.Data.List.Sort
import Xv6.Ptable.Table

/-!
# Xv6.Ptable.Promote

What `promoteAll` does to the table, in closed form.  Level by level, from the top, each
list is taken apart along its own links while its processes are appended to the list
above; so what matters is that a process is only ever put on a list that is done.

* `Table.promoteAll_proc`: the priority of every `RUNNABLE`, `SLEEPING` and `RUNNING`
  process goes up by one level, once;
* `Table.promoteAll_level`: the first level gains the second, every other level becomes
  the one below it.
-/

namespace Xv6.Ptable

variable {NPROC MAX : Nat}

/-- One level up. -/
def Proc.promote (pr : Proc NPROC) : Proc NPROC := { pr with priority := pr.priority - 1 }

/-- The processes that `promoteAll` promotes. -/
def Proc.Active (pr : Proc NPROC) : Prop :=
  pr.state = .RUNNABLE ∨ pr.state = .SLEEPING ∨ pr.state = .RUNNING

instance (pr : Proc NPROC) : Decidable pr.Active :=
  inferInstanceAs (Decidable (_ ∨ _ ∨ _))

theorem Proc.promote_of_zero {pr : Proc NPROC} (h : pr.priority = 0) : pr.promote = pr := by
  have hsame : pr.priority - 1 = pr.priority := by omega
  rw [Proc.promote, hsame]

namespace Table

variable {t t' : Table NPROC MAX} {i j : Fin (MAX + 1)} {l : SList MAX} {p q : Fin NPROC}
  {zs : List (Fin NPROC)}

/-- A process in the loop of `promoteAll` over the ready lists. -/
def promoteOne (t : Table NPROC MAX) (p : Fin NPROC) : Table NPROC MAX :=
  t.moveEnd p (readyOf ((t.proc p).priority - 1))
    { t.proc p with priority := (t.proc p).priority - 1 }

def promoteLevel (t : Table NPROC MAX) (i : Fin (MAX + 1)) : Table NPROC MAX :=
  (t.list (.ready i)).foldl promoteOne t

/-- `if (p->priority > 0) --(p->priority);` -/
def raise (t : Table NPROC MAX) (p : Fin NPROC) : Table NPROC MAX :=
  t.set p { t.proc p with priority := (t.proc p).priority - 1 }

def promoteList (t : Table NPROC MAX) (l : SList MAX) : Table NPROC MAX :=
  (t.list l).foldl raise t

/-- `promoteAll` -/
def promoteAll (t : Table NPROC MAX) : Table NPROC MAX :=
  ((((levels MAX).drop 1).foldl promoteLevel t).promoteList .sleep).promoteList .running


/-- The partition, with a ready list for every `RUNNABLE` process. -/
structure Placed (t : Table NPROC MAX) : Prop where
  listed : t.Listed none
  priority : ∀ q, (t.proc q).state = .RUNNABLE → (t.proc q).priority ≤ MAX

theorem Fit.placed (h : t.Fit) : t.Placed := ⟨h.listed, fun q hq => h.priority q (.inr hq)⟩

theorem WF.placed (h : t.WF) : t.Placed := h.fit.placed

/-- A process on some list has the priority for it. -/
theorem priority_le_of_onList {pr : Proc NPROC} (h : pr.OnList l) (hs : pr.state = .RUNNABLE) :
    pr.priority ≤ MAX := by
  cases l with
  | ready i =>
      rw [h.2]
      exact Nat.le_of_lt_succ i.isLt
  | _ =>
      rw [Proc.OnList, hs] at h
      contradiction

theorem Placed.of_set {pr : Proc NPROC} (h : t.Placed) (hl : t'.Listed none)
    (hproc : t'.proc = (t.set p pr).proc) (hpr : pr.OnList l) : t'.Placed where
  listed := hl
  priority := fun q hq => by
    rw [hproc] at hq ⊢
    by_cases hqp : q = p
    · subst hqp
      rw [set_proc_self] at hq ⊢
      exact priority_le_of_onList hpr hq
    · rw [set_proc_of_ne hqp] at hq ⊢
      exact h.priority q hq

theorem Placed.moveEnd {pr : Proc NPROC} (h : t.Placed) (hl : pr.OnList l) :
    (t.moveEnd p l pr).Placed :=
  h.of_set (h.listed.moveEnd hl) rfl hl

/-- A change that does not affect where the process belongs. -/
theorem Placed.set {pr : Proc NPROC} (h : t.Placed) (hs : pr.state = (t.proc p).state)
    (hp : pr.state = .RUNNABLE → pr.priority = (t.proc p).priority) : (t.set p pr).Placed := by
  obtain ⟨l, hl⟩ := Proc.exists_onList (h.priority p)
  have hiff : ∀ m : SList MAX, pr.OnList m ↔ (t.proc p).OnList m :=
    Proc.onList_congr hs fun hr => hp (hs.trans hr)
  exact h.of_set (h.listed.set_of_onList hiff) rfl ((hiff l).mpr hl)

/-! ## the loops -/

theorem promoteOne_follows (hi : 0 < i.val) :
    Follows (.ready i) promoteOne (@Placed NPROC MAX) := by
  intro t p ys zs h hl
  obtain ⟨hstate, hprio⟩ := h.listed.onList (show p ∈ t.list (.ready i) by simp [hl])
  refine ⟨h.moveEnd (Proc.onList_readyOf hstate ?_), ys, ?_⟩
  · simp only
    omega
  · refine moveEnd_suffix h.listed ?_ hl
    simp only [readyOf, ne_eq, SList.ready.injEq, Fin.ext_iff]
    omega

theorem promoteLevel_placed (h : t.Placed) (hi : 0 < i.val) : (t.promoteLevel i).Placed :=
  (promoteOne_follows hi).foldl h

/-- On a list other than the ready lists a priority is just a field. -/
theorem raise_follows (hl : ∀ i, l ≠ .ready i) :
    Follows l raise (@Placed NPROC MAX) := by
  intro t p ys zs h hlist
  have hon := h.listed.onList (show p ∈ t.list l by simp [hlist])
  have hnot : (t.proc p).state ≠ .RUNNABLE := fun hr =>
    hl _ (hon.unique (Proc.onList_readyOf hr (h.priority p hr)))
  refine ⟨h.set rfl fun hr => absurd hr hnot, ys ++ [p], ?_⟩
  rw [raise, set_list, hlist, List.append_assoc]; rfl

theorem promoteList_placed (h : t.Placed) (hl : ∀ i, l ≠ .ready i) : (t.promoteList l).Placed :=
  (raise_follows hl).foldl h

theorem foldl_promoteLevel_placed (is : List (Fin (MAX + 1))) (hi : ∀ i ∈ is, 0 < i.val)
    (h : t.Placed) : (is.foldl promoteLevel t).Placed := by
  induction is generalizing t with
  | nil => exact h
  | cons i is ih =>
      exact ih (fun j hj => hi j (by simp [hj])) (promoteLevel_placed h (hi i (by simp)))

/-- The levels that `promoteAll` goes through are those above the first. -/
theorem mem_drop_levels : i ∈ (levels MAX).drop 1 ↔ 0 < i.val := by
  rw [levels, List.finRange_succ, List.drop_one, List.tail_cons, List.mem_map]
  constructor
  · rintro ⟨j, -, rfl⟩
    simp
  · intro hi
    exact ⟨⟨i.val - 1, by omega⟩, List.mem_finRange _, Fin.ext (by simp; omega)⟩

theorem sorted_drop_levels : ((levels MAX).drop 1).Pairwise (· < ·) :=
  (List.sortedLT_finRange (MAX + 1)).pairwise.sublist (List.drop_sublist 1 _)

theorem promoteAll_placed (h : t.Placed) : t.promoteAll.Placed := by
  have h₁ := foldl_promoteLevel_placed _ (fun _ => mem_drop_levels.mp) h
  exact promoteList_placed (promoteList_placed h₁ (by simp)) (by simp)

/-! ## a level -/

/-- Level `i` has moved to the end of level `j`. -/
structure Risen (j i : Fin (MAX + 1)) (t t' : Table NPROC MAX) : Prop where
  proc : ∀ q, t'.proc q = if q ∈ t.list (.ready i) then (t.proc q).promote else t.proc q
  upper : t'.list (.ready j) = t.list (.ready j) ++ t.list (.ready i)
  lower : t'.list (.ready i) = []
  other : ∀ m, m ≠ .ready i → m ≠ .ready j → t'.list m = t.list m

theorem risen_foldl (h : t.Placed) (hij : j.val + 1 = i.val) (hlist : t.list (.ready i) = zs) :
    Risen j i t (zs.foldl promoteOne t) := by
  have hne : SList.ready i ≠ .ready j := by
    rw [ne_eq, SList.ready.injEq, Fin.ext_iff]
    omega
  induction zs generalizing t with
  | nil => exact ⟨fun q => by simp [hlist], by simp [hlist], hlist, fun _ _ _ => rfl⟩
  | cons p zs ih =>
      have hp : p ∈ t.list (.ready i) := by simp [hlist]
      have hprio := (h.listed.onList hp).2
      have hone : promoteOne t p = t.moveEnd p (.ready j) (t.proc p).promote := by
        have hj : (readyOf ((t.proc p).priority - 1) : SList MAX) = .ready j := by
          rw [readyOf, SList.ready.injEq, Fin.ext_iff]
          simp only
          omega
        rw [promoteOne, hj]
        rfl
      have hplaced : (promoteOne t p).Placed :=
        (promoteOne_follows (by omega) t p [] zs h hlist).1
      have hrest : (promoteOne t p).list (.ready i) = zs := by
        have hfront : t.list (.ready i) = [] ++ p :: zs := hlist
        rw [hone]
        exact moveEnd_suffix h.listed hne hfront
      have hgone : p ∉ zs := by
        have hnodup := h.listed.nodup (.ready i)
        rw [hlist] at hnodup
        exact (List.nodup_cons.mp hnodup).1
      obtain ⟨hproc, hupper, hlower, hother⟩ := ih hplaced hrest
      refine ⟨fun q => ?_, ?_, hlower, fun m hi hj => ?_⟩
      · rw [List.foldl_cons, hproc q, hrest, hlist, hone, moveEnd_proc]
        by_cases hq : q = p
        · subst hq
          rw [if_neg hgone, if_pos List.mem_cons_self, set_proc_self]
        · rw [set_proc_of_ne hq]
          simp [hq]
      · rw [List.foldl_cons, hupper, hrest, hlist, hone, moveEnd_list_self,
          List.erase_of_not_mem (h.listed.not_mem_of_ne hp hne.symm), List.append_assoc]
        rfl
      · rw [List.foldl_cons, hother m hi hj, hone]
        exact moveEnd_list_other hj (h.listed.not_mem_of_ne hp hi)

theorem promoteLevel_risen (h : t.Placed) (hij : j.val + 1 = i.val) :
    Risen j i t (t.promoteLevel i) :=
  risen_foldl h hij rfl

/-! ## the processes -/

/-- The levels rise one after the other, from the top, so nobody rises twice. -/
theorem foldl_promoteLevel_proc {is : List (Fin (MAX + 1))} (hsorted : is.Pairwise (· < ·))
    (hpos : ∀ i ∈ is, 0 < i.val) (h : t.Placed) (q : Fin NPROC) :
    (is.foldl promoteLevel t).proc q =
      if ∃ i ∈ is, q ∈ t.list (.ready i) then (t.proc q).promote else t.proc q := by
  induction is generalizing t with
  | nil => simp
  | cons i is ih =>
      obtain ⟨hlt, hsorted⟩ := List.pairwise_cons.mp hsorted
      have hi := hpos i List.mem_cons_self
      have hr : Risen ⟨i.val - 1, by omega⟩ i t (t.promoteLevel i) :=
        promoteLevel_risen h (by simp only; omega)
      have hlists : ∀ k ∈ is, (t.promoteLevel i).list (.ready k) = t.list (.ready k) := by
        intro k hk
        have := hlt k hk
        refine hr.other _ ?_ ?_
        · rw [ne_eq, SList.ready.injEq]
          omega
        · rw [ne_eq, SList.ready.injEq, Fin.ext_iff]
          simp only
          omega
      have hiff : (∃ k ∈ is, q ∈ (t.promoteLevel i).list (.ready k)) ↔
          ∃ k ∈ is, q ∈ t.list (.ready k) := by
        refine exists_congr fun k => and_congr_right fun hk => ?_
        rw [hlists k hk]
      rw [List.foldl_cons, ih hsorted (fun k hk => hpos k (List.mem_cons_of_mem i hk))
        (promoteLevel_placed h hi), if_congr hiff rfl rfl, hr.proc q]
      by_cases hq : q ∈ t.list (.ready i)
      · have hnot : ¬ ∃ k ∈ is, q ∈ t.list (.ready k) := by
          rintro ⟨k, hk, hqk⟩
          have := hlt k hk
          rw [SList.ready.inj (h.listed.eq_of_mem hqk hq)] at this
          exact absurd this (lt_irrefl i)
        rw [if_neg hnot, if_pos hq, if_pos ⟨i, List.mem_cons_self, hq⟩]
      · simp [hq]

@[simp] theorem foldl_raise_list : (zs.foldl raise t).list = t.list := by
  induction zs generalizing t with
  | nil => rfl
  | cons p zs ih => rw [List.foldl_cons, ih, raise, set_list]

@[simp] theorem promoteList_list : (t.promoteList l).list = t.list := foldl_raise_list

theorem foldl_raise_proc (hnodup : zs.Nodup) (q : Fin NPROC) :
    (zs.foldl raise t).proc q = if q ∈ zs then (t.proc q).promote else t.proc q := by
  induction zs generalizing t with
  | nil => simp
  | cons p zs ih =>
      obtain ⟨hp, hnodup⟩ := List.nodup_cons.mp hnodup
      rw [List.foldl_cons, ih hnodup]
      by_cases hq : q = p
      · subst hq
        rw [if_neg hp, if_pos List.mem_cons_self, raise, set_proc_self]
        rfl
      · rw [raise, set_proc_of_ne hq]
        simp [hq]

/-- **`promoteAll`** promotes every active process once and touches no other. -/
theorem promoteAll_proc (h : t.Placed) (q : Fin NPROC) :
    t.promoteAll.proc q = if (t.proc q).Active then (t.proc q).promote else t.proc q := by
  have hk := foldl_promoteLevel_placed _ (fun _ => mem_drop_levels.mp) h
  have hlevels := foldl_promoteLevel_proc sorted_drop_levels (fun _ => mem_drop_levels.mp) h q
  unfold promoteAll
  generalize ((levels MAX).drop 1).foldl promoteLevel t = t₁ at hk hlevels
  have hstate : (t₁.proc q).state = (t.proc q).state := by
    rw [hlevels]
    split <;> rfl
  have hmemSleep : q ∈ t₁.list .sleep ↔ (t.proc q).state = .SLEEPING := by
    rw [hk.listed.mem_iff, ← hstate]
    rfl
  have hmemRun : q ∈ t₁.list .running ↔ (t.proc q).state = .RUNNING := by
    rw [hk.listed.mem_iff, ← hstate]
    rfl
  rw [promoteList, promoteList_list, foldl_raise_proc (hk.listed.nodup .running), promoteList,
    foldl_raise_proc (hk.listed.nodup .sleep), if_congr hmemRun rfl rfl,
    if_congr hmemSleep rfl rfl, hlevels]
  by_cases hready : (t.proc q).state = .RUNNABLE
  · -- level 0 stays, and there a promotion changes nothing
    have hact : (t.proc q).Active := .inl hready
    have hle := h.priority q hready
    have hmem := h.listed.mem_iff.mpr (Proc.onList_readyOf hready hle)
    rw [if_pos hact, hready, if_neg (by decide), if_neg (by decide)]
    by_cases hzero : (t.proc q).priority = 0
    · rw [Proc.promote_of_zero hzero, ite_self]
    · refine if_pos ⟨_, mem_drop_levels.mpr ?_, hmem⟩
      simp only
      omega
  · have hnot : ¬ ∃ i ∈ (levels MAX).drop 1, q ∈ t.list (.ready i) := fun ⟨i, _, hq⟩ =>
      hready (h.listed.onList hq).1
    rw [if_neg hnot]
    unfold Proc.Active
    by_cases hs : (t.proc q).state = .SLEEPING
    · simp [hs]
    · by_cases hr : (t.proc q).state = .RUNNING
      · simp [hr]
      · simp [hs, hr, hready]

theorem promoteAll_state (h : t.Placed) (q : Fin NPROC) :
    (t.promoteAll.proc q).state = (t.proc q).state := by
  rw [promoteAll_proc h]
  split <;> rfl

theorem promoteAll_kept (h : t.WF) : Kept t t.promoteAll where
  wf := ⟨(promoteAll_placed h.placed).listed, fun q => by
    have hq := h.sane q
    rw [promoteAll_proc h.placed]
    split
    · exact ⟨(Nat.sub_le _ 1).trans hq.priority, hq.context⟩
    · exact hq⟩
  keeps := fun q hq => (promoteAll_state h.placed q).trans hq

/-! ## the lists -/

/-- `ready[n]`, and nothing behind the last level. -/
def level (t : Table NPROC MAX) (n : Nat) : List (Fin NPROC) :=
  if h : n < MAX + 1 then t.list (.ready ⟨n, h⟩) else []

theorem level_eq (i : Fin (MAX + 1)) : t.level i = t.list (.ready i) := dif_pos i.isLt

theorem level_of_le {n : Nat} (h : MAX < n) : t.level n = [] := dif_neg (by omega)

theorem Risen.level {n : Nat} {hn : n + 1 < MAX + 1}
    (h : Risen ⟨n, Nat.lt_of_succ_lt hn⟩ ⟨n + 1, hn⟩ t t') (k : Nat) :
    t'.level k = if k = n then t.level n ++ t.level (n + 1) else
      if k = n + 1 then [] else t.level k := by
  have hupper := h.upper
  have hlower := h.lower
  rw [← level_eq, ← level_eq, ← level_eq] at hupper
  rw [← level_eq] at hlower
  split
  · next hk => rw [hk, hupper]
  · next hk =>
      split
      · next hk' => rw [hk', hlower]
      · next hk' =>
          unfold Table.level
          split
          · exact h.other _ (by simpa using hk') (by simpa using hk)
          · rfl

/-- Level by level from `n + 1` on: level `n` gains the next one, and each level behind it
becomes the one below. -/
theorem foldl_promoteLevel_level (n : Nat) (h : t.Placed) (k : Nat) :
    (((levels MAX).drop (n + 1)).foldl promoteLevel t).level k =
      if k < n then t.level k else
      if k = n then t.level n ++ t.level (n + 1) else t.level (k + 1) := by
  induction hd : MAX - n generalizing n t with
  | zero =>
      have hnil : (levels MAX).drop (n + 1) = [] :=
        List.drop_eq_nil_of_le (by simp only [levels, List.length_finRange]; omega)
      rw [hnil, List.foldl_nil]
      rcases Nat.lt_trichotomy k n with hk | rfl | hk
      · rw [if_pos hk]
      · simp [level_of_le (t := t) (show MAX < k + 1 by omega)]
      · rw [if_neg (by omega), if_neg (by omega), level_of_le (by omega), level_of_le (by omega)]
  | succ d ih =>
      have hn : n + 1 < MAX + 1 := by omega
      have hcons : (levels MAX).drop (n + 1) = ⟨n + 1, hn⟩ :: (levels MAX).drop (n + 1 + 1) := by
        rw [List.drop_eq_getElem_cons (by simpa [levels] using hn)]
        simp [levels]
      have hr := promoteLevel_risen (j := ⟨n, Nat.lt_of_succ_lt hn⟩) (i := ⟨n + 1, hn⟩) h rfl
      rw [hcons, List.foldl_cons, ih (n + 1) (promoteLevel_placed h (by simp)) (by omega)]
      rcases Nat.lt_trichotomy k n with hk | rfl | hk
      · rw [if_pos (by omega), if_pos hk, hr.level, if_neg (by omega), if_neg (by omega)]
      · rw [if_pos (by omega), if_neg (by omega), if_pos rfl, hr.level, if_pos rfl]
      · have hpast : ¬ k < n + 1 := by omega
        have hfar : ¬ k < n := by omega
        have hne : k ≠ n := by omega
        have hnext : k + 1 ≠ n := by omega
        simp only [hpast, hfar, hne, hnext, if_false, hr.level, Nat.add_right_cancel_iff]
        split
        · next hk' =>
            subst hk'
            simp [hnext]
        · rfl

theorem foldl_promoteLevel_other {is : List (Fin (MAX + 1))} (hpos : ∀ i ∈ is, 0 < i.val)
    (h : t.Placed) (hl : ∀ i, l ≠ .ready i) : (is.foldl promoteLevel t).list l = t.list l := by
  induction is generalizing t with
  | nil => rfl
  | cons i is ih =>
      have hi := hpos i List.mem_cons_self
      have hr : Risen ⟨i.val - 1, by omega⟩ i t (t.promoteLevel i) :=
        promoteLevel_risen h (by simp only; omega)
      rw [List.foldl_cons, ih (fun k hk => hpos k (List.mem_cons_of_mem i hk))
        (promoteLevel_placed h hi), hr.other l (hl _) (hl _)]

/-- The loops over the sleepers and the running processes leave the lists alone. -/
theorem promoteAll_list :
    t.promoteAll.list = (((levels MAX).drop 1).foldl promoteLevel t).list := by
  simp [promoteAll]

/-- **The levels move up**: the first level gains the second, and each other level becomes
the one below it. -/
theorem promoteAll_level (h : t.Placed) (k : Nat) :
    t.promoteAll.level k = if k = 0 then t.level 0 ++ t.level 1 else t.level (k + 1) := by
  have hsame : t.promoteAll.level k = (((levels MAX).drop 1).foldl promoteLevel t).level k := by
    unfold Table.level
    rw [promoteAll_list]
  rw [hsame, foldl_promoteLevel_level 0 h, if_neg (by omega)]

theorem promoteAll_list_other (h : t.Placed) (hl : ∀ i, l ≠ .ready i) :
    t.promoteAll.list l = t.list l := by
  rw [promoteAll_list, foldl_promoteLevel_other (fun _ => mem_drop_levels.mp) h hl]

end Table

end Xv6.Ptable
