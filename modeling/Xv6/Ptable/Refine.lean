import Xv6.Ptable.StateList
import Xv6.Ptable.Table

/-!
# Xv6.Ptable.Refine

The code of `proc.c` does to the linked table what the operations of
`Xv6.Ptable.Table` do to lists.

`s.Becomes t s'` says that the kernel state `s` has become `s'` by a change of
the processes and the links alone, and that these now represent the table
`t`.  There is one rule for each statement that relinks or changes a process
and one for each kind of loop; an operation is then followed statement by
statement.  Every rule says that the code returns: there is no panic, no
index out of bounds, no endless traversal.
-/

namespace Xv6.Ptable

variable {NPROC MAX NCPU : Nat}

/-- From `s` to `s'` only processes and links change, to represent `t`. -/
def Kern.Becomes (s : Kern NPROC MAX NCPU) (t : Table NPROC MAX) (s' : Kern NPROC MAX NCPU) :
    Prop :=
  ∃ k, s' = { s with proc := t.proc, links := k } ∧ k.Reps t.list

/-! ## single statements -/

section Statements

variable {s s₀ : Kern NPROC MAX NCPU} {t : Table NPROC MAX} {p : Fin NPROC} {l : SList MAX}
  {pr : Proc NPROC}

@[simp] theorem wp_headOf {Q : Option (Fin NPROC) → Kern NPROC MAX NCPU → Prop} :
    wp (headOf l) s Q ↔ Q (s.links.head l) s := by
  simp only [headOf, wp_bind, wp_get, wp_pure]

@[simp] theorem wp_nextOf {Q : Option (Fin NPROC) → Kern NPROC MAX NCPU → Prop} :
    wp (nextOf p) s Q ↔ Q (s.links.next p) s := by
  simp only [nextOf, wp_bind, wp_get, wp_pure]

@[simp] theorem wp_procOf {Q : Proc NPROC → Kern NPROC MAX NCPU → Prop} :
    wp (procOf p) s Q ↔ Q (s.proc p) s := by
  simp only [procOf, wp_bind, wp_get, wp_pure]

@[simp] theorem wp_setProc {f : Proc NPROC → Proc NPROC}
    {Q : Unit → Kern NPROC MAX NCPU → Prop} :
    wp (setProc p f) s Q ↔ Q () { s with proc := Function.update s.proc p (f (s.proc p)) } :=
  wp_modify

@[simp] theorem wp_calls {es : List Call} {Q : Unit → Kern NPROC MAX NCPU → Prop} :
    wp (calls es) s Q ↔ Q () (s.record es) := wp_modify

@[simp] theorem wp_call {e : Call} {Q : Unit → Kern NPROC MAX NCPU → Prop} :
    wp (call e) s Q ↔ Q () (s.record [e]) := wp_modify

/-- A primitive that returned 0 gives no warning. -/
@[simp] theorem wp_warnIf_lt {msg : String} {Q : Unit → Kern NPROC MAX NCPU → Prop} :
    wp (warnIf (decide ((0 : Int) < 0)) msg) s Q ↔ Q () s := by simp [warnIf]

@[simp] theorem wp_warnIf_beq {msg : String} {Q : Unit → Kern NPROC MAX NCPU → Prop} :
    wp (warnIf ((0 : Int) == -1) msg) s Q ↔ Q () s := by simp [warnIf]

theorem wp_assertState {state : ProcState} {Q : Unit → Kern NPROC MAX NCPU → Prop}
    (h : (s.proc p).state = state) : wp (assertState (some p) state) s Q ↔ Q () s := by
  simp [assertState, h]

theorem wp_readyList {n : Nat} (h : n ≤ MAX) {Q : SList MAX → Kern NPROC MAX NCPU → Prop} :
    wp (readyList n) s Q ↔ Q (readyOf n) s := by
  have hn : n < MAX + 1 := by omega
  have heq : (⟨min n MAX, by omega⟩ : Fin (MAX + 1)) = ⟨n, hn⟩ := by ext; simp [h]
  rw [readyList, dif_pos hn, wp_pure, readyOf, heq]

/-- The processes are those of the table. -/
theorem Kern.Becomes.proc_eq (h : s₀.Becomes t s) : s.proc = t.proc := by
  obtain ⟨k, rfl, -⟩ := h
  rfl

theorem Kern.Becomes.ticks_eq (h : s₀.Becomes t s) : s.ticks = s₀.ticks := by
  obtain ⟨k, rfl, -⟩ := h
  rfl

theorem Kern.Becomes.initproc_eq (h : s₀.Becomes t s) : s.initproc = s₀.initproc := by
  obtain ⟨k, rfl, -⟩ := h
  rfl

theorem Kern.Becomes.nextpid_eq (h : s₀.Becomes t s) : s.nextpid = s₀.nextpid := by
  obtain ⟨k, rfl, -⟩ := h
  rfl

theorem Kern.Becomes.takePid (h : s₀.Becomes t s) : s₀.takePid.Becomes t s.takePid := by
  obtain ⟨k, rfl, hk⟩ := h
  exact ⟨k, rfl, hk⟩

theorem Kern.Becomes.record (h : s₀.Becomes t s) (es : List Call) :
    (s₀.record es).Becomes t (s.record es) := by
  obtain ⟨k, rfl, hk⟩ := h
  exact ⟨k, rfl, hk⟩

theorem Kern.Becomes.setCpu (h : s₀.Becomes t s) (c : Fin NCPU) (p : Option (Fin NPROC)) :
    (s₀.setCpu c p).Becomes t (s.setCpu c p) := by
  obtain ⟨k, rfl, hk⟩ := h
  exact ⟨k, rfl, hk⟩

theorem Kern.Becomes.reps (h : s₀.Becomes t s) : s.links.Reps t.list := by
  obtain ⟨k, rfl, hk⟩ := h
  exact hk

theorem Kern.Becomes.head_eq (h : s₀.Becomes t s) (l : SList MAX) :
    s.links.head l = (t.list l).head? := (h.reps l).head_eq

theorem Kern.Becomes.next_eq (h : s₀.Becomes t s) {ys zs : List (Fin NPROC)}
    (hl : t.list l = ys ++ p :: zs) : s.links.next p = zs.head? := by
  have hchain := h.reps l
  rw [hl] at hchain
  exact hchain.next_eq

theorem Kern.Becomes.refl (h : s.proc = t.proc) (hk : s.links.Reps t.list) : s.Becomes t s :=
  ⟨s.links, by rw [← h], hk⟩

/-- Any statement that changes the links of one list. -/
theorem Kern.Becomes.relink (h : s₀.Becomes t s) {α : Type} {m : Prog Stop (Links NPROC MAX) α}
    {a : α} {nodes xs : List (Fin NPROC)}
    (hm : wp m s.links fun r k => r = a ∧ Relinked s.links k l nodes xs)
    (hdisj : ∀ m, m ≠ l → ∀ q ∈ t.list m, q ∉ nodes) :
    wp (onLinks m) s fun r s' =>
      r = a ∧ s₀.Becomes { t with list := Function.update t.list l xs } s' := by
  rw [onLinks, wp_focus]
  refine hm.mono ?_
  rintro r k ⟨rfl, hr⟩
  refine ⟨rfl, k, ?_, h.reps.relinked hr hdisj⟩
  obtain ⟨k₀, rfl, -⟩ := h
  rfl

theorem Kern.Becomes.setProc (h : s₀.Becomes t s) (p : Fin NPROC) (f : Proc NPROC → Proc NPROC) :
    s₀.Becomes (t.set p (f (t.proc p)))
      { s with proc := Function.update s.proc p (f (s.proc p)) } := by
  obtain ⟨k, rfl, hk⟩ := h
  exact ⟨k, rfl, hk⟩

theorem Kern.Becomes.remove (h : s₀.Becomes t s) (hd : t.Disjoint) (hp : p ∈ t.list l) :
    wp (onLinks (removeFromStateList l (some p))) s fun r s' =>
      r = 0 ∧ s₀.Becomes (t.remove p) s' := by
  have hrm : wp (removeFromStateList l (some p)) s.links fun r k =>
      r = 0 ∧ Relinked s.links k l (t.list l) ((t.list l).erase p) :=
    (removeFromStateList_spec (h.reps l) hp).mono fun r k hr => ⟨hr.1, hr.2.1⟩
  refine (h.relink hrm fun m hm q hq hql => hm (hd m l q hq hql)).mono ?_
  rintro r s' ⟨hr, hb⟩
  exact ⟨hr, Table.remove_eq hd hp rfl ▸ hb⟩

/-- What is added is on no list, so nothing else is touched. -/
theorem Table.Disjoint.not_mem_cons (hd : t.Disjoint) (hp : ∀ m, p ∉ t.list m) (l : SList MAX) :
    ∀ m, m ≠ l → ∀ q ∈ t.list m, q ∉ p :: t.list l := by
  intro m hm q hq hmem
  rcases List.mem_cons.mp hmem with rfl | hql
  · exact hp m hq
  · exact hm (hd m l q hq hql)

theorem Kern.Becomes.addEnd (h : s₀.Becomes t s) (hd : t.Disjoint) (hp : ∀ m, p ∉ t.list m)
    (l : SList MAX) :
    wp (onLinks (addToStateListEnd l (some p))) s fun r s' =>
      r = 0 ∧ s₀.Becomes (t.pushEnd l p) s' :=
  h.relink (addToStateListEnd_spec (h.reps l) (hp l)) (hd.not_mem_cons hp l)

theorem Kern.Becomes.addHead (h : s₀.Becomes t s) (hd : t.Disjoint) (hp : ∀ m, p ∉ t.list m)
    (l : SList MAX) :
    wp (onLinks (addToStateListHead l (some p))) s fun r s' =>
      r = 0 ∧ s₀.Becomes (t.pushHead l p) s' :=
  h.relink (addToStateListHead_spec (h.reps l) (hp l)) (hd.not_mem_cons hp l)

theorem Kern.Becomes.removeHead (h : s₀.Becomes t s) (hd : t.Disjoint)
    {zs : List (Fin NPROC)} (hlist : t.list l = p :: zs) :
    wp (onLinks (removeHead l)) s fun r s' => r = some p ∧ s₀.Becomes (t.remove p) s' := by
  have hrm : wp (Ptable.removeHead l) s.links fun r k =>
      r = some p ∧ Relinked s.links k l (p :: zs) zs := removeHead_spec (hlist ▸ h.reps l)
  refine (h.relink hrm fun m hm q hq hql => hm (hd m l q hq (hlist ▸ hql))).mono ?_
  rintro r s' ⟨hr, hb⟩
  have hp : p ∈ t.list l := by simp [hlist]
  exact ⟨hr, Table.remove_eq hd hp (by rw [hlist, List.erase_cons_head]) ▸ hb⟩

/-! ## statements followed by the rest of the code -/

variable {α : Type} {Q : α → Kern NPROC MAX NCPU → Prop}

theorem wp_readyList_bind {n : Nat} {g : SList MAX → K NPROC MAX NCPU α} (h : n ≤ MAX)
    (hg : wp (g (readyOf n)) s Q) : wp (readyList n >>= g) s Q :=
  wp_bind.mpr ((wp_readyList h).mpr hg)

theorem wp_assertState_bind {state : ProcState} {g : Unit → K NPROC MAX NCPU α}
    (h : (s.proc p).state = state) (hg : wp (g ()) s Q) :
    wp (assertState (some p) state >>= g) s Q :=
  wp_bind.mpr ((wp_assertState h).mpr hg)

theorem Kern.Becomes.remove_bind (h : s₀.Becomes t s) (hd : t.Disjoint) (hp : p ∈ t.list l)
    {g : Int → K NPROC MAX NCPU α}
    (hg : ∀ s', s₀.Becomes (t.remove p) s' → wp (g 0) s' Q) :
    wp (onLinks (removeFromStateList l (some p)) >>= g) s Q :=
  wp_bind_of (h.remove hd hp) fun _ s' hr => hr.1 ▸ hg s' hr.2

/-- Adding what has been removed from a table with the partition. -/
theorem Kern.Becomes.addEnd_bind {t' : Table NPROC MAX} (h : s₀.Becomes t' s)
    (hl : t.Listed (some p)) (hlist : t'.list = t.list) {g : Int → K NPROC MAX NCPU α}
    (hg : ∀ s', s₀.Becomes (t'.pushEnd l p) s' → wp (g 0) s' Q) :
    wp (onLinks (addToStateListEnd l (some p)) >>= g) s Q :=
  wp_bind_of (h.addEnd (fun a b q => hlist ▸ hl.disjoint a b q) (fun m => hlist ▸ hl.not_mem_out m)
    l) fun _ s' hr => hr.1 ▸ hg s' hr.2

theorem Kern.Becomes.addHead_bind {t' : Table NPROC MAX} (h : s₀.Becomes t' s)
    (hl : t.Listed (some p)) (hlist : t'.list = t.list) {g : Int → K NPROC MAX NCPU α}
    (hg : ∀ s', s₀.Becomes (t'.pushHead l p) s' → wp (g 0) s' Q) :
    wp (onLinks (addToStateListHead l (some p)) >>= g) s Q :=
  wp_bind_of (h.addHead (fun a b q => hlist ▸ hl.disjoint a b q) (fun m => hlist ▸ hl.not_mem_out m)
    l) fun _ s' hr => hr.1 ▸ hg s' hr.2

theorem Kern.Becomes.setProc_bind (h : s₀.Becomes t s) {f : Proc NPROC → Proc NPROC}
    {g : Unit → K NPROC MAX NCPU α}
    (hg : ∀ s', s₀.Becomes (t.set p (f (t.proc p))) s' → wp (g ()) s' Q) :
    wp (Ptable.setProc p f >>= g) s Q := by
  rw [wp_bind, wp_setProc]
  exact hg _ (h.setProc p f)

theorem Kern.Becomes.calls_bind (h : s₀.Becomes t s) {es : List Call}
    {g : Unit → K NPROC MAX NCPU α}
    (hg : ∀ s', (s₀.record es).Becomes t s' → wp (g ()) s' Q) : wp (calls es >>= g) s Q := by
  rw [wp_bind, wp_calls]
  exact hg _ (h.record es)

/-- The fragment that makes a process `RUNNABLE`: off its list, and to the
end of the ready list of its priority. -/
theorem Kern.Becomes.makeRunnable (h : s₀.Becomes (t.set p pr) s) (hl : t.Listed none)
    (hp : p ∈ t.list l) (hpr : pr.priority ≤ MAX)
    {msg msg' : String} {m : K NPROC MAX NCPU α}
    (hm : ∀ s', s₀.Becomes (t.moveEnd p (readyOf pr.priority) { pr with state := .RUNNABLE }) s' →
      wp m s' Q) :
    wp (do
      warnIf ((← onLinks (removeFromStateList l (some p))) < 0) msg
      Ptable.setProc p fun pr => { pr with state := .RUNNABLE }
      let sList ← readyList (← procOf p).priority
      warnIf ((← onLinks (addToStateListEnd sList (some p))) < 0) msg'
      m) s Q := by
  refine h.remove_bind hl.disjoint hp fun s₁ h₁ => ?_
  rw [wp_bind, wp_warnIf_lt]
  refine h₁.setProc_bind fun s₂ h₂ => ?_
  rw [Table.set_remove, Table.set_set, Table.set_proc_self] at h₂
  rw [wp_bind, wp_procOf, h₂.proc_eq, Table.set_proc_self]
  refine wp_readyList_bind hpr ?_
  refine h₂.addEnd_bind (hl.remove p) rfl fun s₃ h₃ => ?_
  rw [wp_bind, wp_warnIf_lt]
  exact hm s₃ h₃

end Statements

/-! ## loops -/

section Loops

variable {s s₀ : Kern NPROC MAX NCPU} {t : Table NPROC MAX} {l : SList MAX}

/-- A loop over a whole list that does `f` for each process. -/
theorem Kern.Becomes.walkAll (h : s₀.Becomes t s)
    {f : Table NPROC MAX → Fin NPROC → Table NPROC MAX} {I : Table NPROC MAX → Prop}
    {body : Fin NPROC → K NPROC MAX NCPU (Option (Fin NPROC))} (hf : Table.Follows l f I)
    (hbody : ∀ t p ys zs s, I t → t.list l = ys ++ p :: zs → s₀.Becomes t s →
      wp (body p) s fun q s' => q = zs.head? ∧ s₀.Becomes (f t p) s')
    (hI : I t) : wp (walkAll l body) s fun _ s' => s₀.Becomes ((t.list l).foldl f t) s' := by
  unfold Ptable.walkAll walkList
  simp only [wp_bind, wp_headOf, wp_pure]
  rw [h.head_eq]
  refine wp_walk (fun done todo s' => done ++ todo = t.list l ∧
    ∃ ys, (done.foldl f t).list l = ys ++ todo ∧ I (done.foldl f t) ∧
      s₀.Becomes (done.foldl f t) s') ?_ ?_ (chain_length_le (h.reps l))
    ⟨rfl, [], rfl, hI, h⟩
  · rintro done s' ⟨hdone, -, -, -, hb⟩
    rw [List.append_nil] at hdone
    rw [← hdone]
    exact hb
  · rintro done p todo s' ⟨hdone, ys, hlist, hi, hb⟩
    obtain ⟨hi', ys', hlist'⟩ := hf _ p ys todo hi hlist
    simp only [wp_bind]
    refine (hbody _ p ys todo s' hi hlist hb).mono ?_
    rintro q s'' ⟨rfl, hb'⟩
    refine wp_pure.mpr (.inl ⟨rfl, by simp [hdone], ys', ?_⟩)
    rw [List.foldl_append]
    exact ⟨hlist', hi', hb'⟩

/-- A search for the first process of a list with a property. -/
theorem Kern.Becomes.walkList (h : s₀.Becomes t s) {ρ : Type} {P : Fin NPROC → Bool}
    {body : Fin NPROC → K NPROC MAX NCPU (Option (Fin NPROC) ⊕ ρ)}
    {Q : Option ρ → Kern NPROC MAX NCPU → Prop}
    (hskip : ∀ p, P p = false → wp (body p) s fun r s' => r = .inl (s.links.next p) ∧ s' = s)
    (hfound : ∀ p, (t.list l).find? P = some p → wp (body p) s fun r s' =>
      ∃ b, r = .inr b ∧ Q (some b) s')
    (hnone : (t.list l).find? P = none → Q none s) : wp (walkList l body) s Q := by
  unfold Ptable.walkList
  simp only [wp_bind, wp_headOf]
  rw [h.head_eq]
  refine wp_walk (fun done todo s' => s' = s ∧ done ++ todo = t.list l ∧ ∀ q ∈ done, P q = false)
    ?_ ?_ (chain_length_le (h.reps l)) ⟨rfl, rfl, by simp⟩
  · rintro done s' ⟨rfl, hdone, hall⟩
    rw [List.append_nil] at hdone
    exact hnone (List.find?_eq_none.mpr fun q hq => by simp [hall q (hdone ▸ hq)])
  · rintro done p todo s' ⟨rfl, hdone, hall⟩
    cases hp : P p with
    | false =>
        refine (hskip p hp).mono ?_
        rintro r s'' ⟨rfl, rfl⟩
        refine .inl ⟨by rw [h.next_eq hdone.symm], rfl, by simp [hdone], fun q hq => ?_⟩
        rcases List.mem_append.mp hq with hq | hq
        · exact hall q hq
        · rw [List.mem_singleton.mp hq]; exact hp
    | true =>
        have hfind : (t.list l).find? P = some p := by
          rw [← hdone, List.find?_append, List.find?_eq_none.mpr fun q hq => by simp [hall q hq]]
          simp [hp]
        exact (hfound p hfind).mono fun r s'' hr => .inr hr

/-- The first that has a result: those before it leave everything as it is. -/
theorem wp_firstOf {ι ρ : Type} {f : ι → K NPROC MAX NCPU (Option ρ)}
    {Q : Option ρ → Kern NPROC MAX NCPU → Prop} (N : ι → Prop) (is : List ι)
    (hf : ∀ as i bs, is = as ++ i :: bs → (∀ j ∈ as, N j) → wp (f i) s fun r s' =>
      (r = none ∧ s' = s ∧ N i) ∨ ∃ b, r = some b ∧ Q (some b) s')
    (hnone : (∀ i ∈ is, N i) → Q none s) : wp (firstOf f is) s Q := by
  have main : ∀ bs as, is = as ++ bs → (∀ j ∈ as, N j) → wp (firstOf f bs) s Q := by
    intro bs
    induction bs with
    | nil =>
        intro as his has
        rw [List.append_nil] at his
        exact wp_pure.mpr (hnone (his ▸ has))
    | cons i bs ih =>
        intro as his has
        refine wp_bind_of (hf as i bs his has) fun r s' hr => ?_
        rcases hr with ⟨rfl, rfl, hi⟩ | ⟨b, rfl, hq⟩
        · refine ih (as ++ [i]) (by simp [his]) fun j hj => ?_
          rcases List.mem_append.mp hj with hj | hj
          · exact has j hj
          · rw [List.mem_singleton.mp hj]; exact hi
        · exact wp_pure.mpr hq
  exact main is [] rfl (by simp)

/-- A loop over the levels that does `f` for each of them. -/
theorem Kern.Becomes.forLevels {f : Table NPROC MAX → Fin (MAX + 1) → Table NPROC MAX}
    {I : Table NPROC MAX → Prop} {body : Fin (MAX + 1) → K NPROC MAX NCPU Unit}
    (is : List (Fin (MAX + 1))) (hf : ∀ t, ∀ i ∈ is, I t → I (f t i))
    (hbody : ∀ t s, ∀ i ∈ is, I t → s₀.Becomes t s →
      wp (body i) s fun _ s' => s₀.Becomes (f t i) s')
    (h : s₀.Becomes t s) (hI : I t) :
    wp (is.forM body) s fun _ s' => s₀.Becomes (is.foldl f t) s' ∧ I (is.foldl f t) := by
  refine (wp_forM (fun done todo s => done ++ todo = is ∧ s₀.Becomes (done.foldl f t) s ∧
    I (done.foldl f t)) ?_ ⟨rfl, h, hI⟩).mono fun _ s' hr => hr.2
  rintro done i todo s ⟨his, hb, hi⟩
  have hmem : i ∈ is := by simp [← his]
  refine (hbody _ s i hmem hi hb).mono fun _ s' hb' => ?_
  rw [List.foldl_append]
  exact ⟨by simp [his], hb', hf _ i hmem hi⟩

end Loops

end Xv6.Ptable
