import Mathlib.Data.Fintype.Card
import Xv6.Ide
import Xv6.Lib.Chain
import Xv6.Lib.Run

/-!
# Xv6.Ide.Order

Requests are served in the order in which they are queued, and with the right data as long as
the drive reports no error.

`ideintr` marks a buffer valid in any case: after an error the data of a read was not
transferred, and that of a write is not on the disk (`ide_error_ignored`).
-/

namespace Xv6.Ide

variable {N : Nat} {s s' : State N} {b : Fin N} {q : List (Fin N)}

/-- The command for a buffer. -/
def State.command (s : State N) (b : Fin N) : Command :=
  { drive := (s.buf b).drive
    sector := (s.buf b).sector
    write := if (s.buf b).dirty then some (s.buf b).data else none }

/-- **Requests are in order**, for the queue `q`. -/
structure Ordered (s : State N) (q : List (Fin N)) : Prop where
  queue : Chain s.qnext s.idequeue q
  /-- each request is served once, the first one first -/
  order : s.queued = s.served ++ q
  /-- the head of the queue is in progress -/
  active : s.cmd = q.head?.map s.command
  /-- when `iderw` can return, the buffer has the block, which is what was to be written -/
  right : ∀ b r, s.call b = some r → (s.buf b).valid = true → (s.buf b).dirty = false →
    r.result = some (s.buf b).data ∧ (r.write = true → (s.buf b).data = r.data)

/-- A buffer whose request is in the queue. -/
structure Waiting (x : Buf) (r : Request) : Prop where
  result : r.result = none
  write : r.write = x.dirty
  data : r.data = x.data
  open_ : ¬ (x.valid = true ∧ x.dirty = false)

/-- The invariant of a run: the requests in the queue wait, and the other ones are done. -/
structure Inv (s : State N) (q : List (Fin N)) : Prop where
  ordered : Ordered s q
  waiting : ∀ b ∈ q, ∃ r, s.call b = some r ∧ Waiting (s.buf b) r

theorem Inv.notMem (h : Inv s q) (hb : s.call b = none) : b ∉ q := by
  intro hmem
  obtain ⟨r, hr, -⟩ := h.waiting b hmem
  rw [hb] at hr
  cases hr

/-! ## the queue -/

/-- The loop of `iderw` ends at the last buffer. -/
theorem lastOf_eq {next : Fin N → Option (Fin N)} {p : Fin N} {xs : List (Fin N)} {y : Fin N}
    (h : Chain next (some p) (xs ++ [y])) {n : Nat} (hn : xs.length < n) :
    lastOf next n p = some y := by
  induction xs generalizing p n with
  | nil =>
      obtain ⟨n, rfl⟩ := Nat.exists_eq_add_one_of_ne_zero (Nat.ne_zero_of_lt hn)
      obtain ⟨hp, hend⟩ := h
      obtain rfl := Option.some.inj hp
      have hnone : next p = none := hend
      rw [lastOf, hnone]
  | cons x xs ih =>
      obtain ⟨n, rfl⟩ := Nat.exists_eq_add_one_of_ne_zero (Nat.ne_zero_of_lt hn)
      obtain ⟨hp, hrest⟩ := h
      obtain rfl := Option.some.inj hp
      obtain ⟨p', hp'⟩ : ∃ p', next p = some p' := by
        rw [hrest.head_eq]
        cases xs with
        | nil => exact ⟨y, rfl⟩
        | cons x' xs => exact ⟨x', rfl⟩
      rw [lastOf, hp']
      rw [hp'] at hrest
      exact ih hrest (Nat.lt_of_succ_lt_succ hn)

theorem length_le_of_nodup {xs : List (Fin N)} (h : xs.Nodup) : xs.length ≤ N := by
  have := List.Nodup.length_le_card h
  simpa using this

/-- **Append** to the queue. -/
theorem append_spec (hq : Chain s.qnext s.idequeue q) (hb : b ∉ q) (h : append s b = some s') :
    ∃ qnext idequeue, s' = { s with qnext, idequeue } ∧ Chain qnext idequeue (q ++ [b]) := by
  unfold append at h
  cases hhead : s.idequeue with
  | none =>
      rw [hhead] at h hq
      obtain rfl : q = [] := by
        cases q with
        | nil => rfl
        | cons x q => cases hq.1
      obtain rfl := Option.some.inj h
      exact ⟨_, _, rfl, rfl, by rw [Function.update_self]; rfl⟩
  | some p =>
      rw [hhead] at h hq
      obtain ⟨xs, y, rfl⟩ : ∃ xs y, q = xs ++ [y] := by
        rcases List.eq_nil_or_concat q with rfl | ⟨xs, y, rfl⟩
        · cases hq
        · exact ⟨xs, y, List.concat_eq_append⟩
      have hyb : y ≠ b := fun e => hb (by simp [e])
      have hsame : Chain (Function.update s.qnext b none) (some p) (xs ++ [y]) :=
        hq.congr fun x hx => Function.update_of_ne (ne_of_mem_of_not_mem hx hb) _ _
      have hlen := length_le_of_nodup hq.nodup
      rw [List.length_append, List.length_singleton] at hlen
      have hlast := lastOf_eq hsame (n := N) (by omega)
      simp only [hlast, Option.map_some, Option.some.injEq] at h
      have hchain := hq.concat hb
      rw [Function.update_comm hyb] at hchain
      exact ⟨_, _, h.symm, hchain⟩

theorem idestart_spec (h : idestart s b = some s') : s' = { s with cmd := some (s.command b) } := by
  unfold idestart at h
  split at h
  · cases h
  · split at h
    · cases h
    · exact (Option.some.inj h).symm

/-! ## steps -/

theorem command_congr {t : State N} (h : t.buf b = s.buf b) : t.command b = s.command b := by
  simp only [State.command, h]

/-- The command of the head does not depend on other buffers. -/
theorem active_congr {t : State N} (h : ∀ b ∈ q, t.buf b = s.buf b) :
    q.head?.map t.command = q.head?.map s.command := by
  cases q with
  | nil => rfl
  | cons b q => exact congrArg some (command_congr (h b List.mem_cons_self))

theorem Inv.use (h : Inv s q) (hb : s.call b = none) (x : Buf) :
    Inv { s with buf := Function.update s.buf b x } q := by
  have hne (c : Fin N) {r : Request} (hc : s.call c = some r) :
      Function.update s.buf b x c = s.buf c := by
    refine Function.update_of_ne ?_ _ _
    rintro rfl
    rw [hb] at hc
    cases hc
  have hqueue : ∀ c ∈ q, Function.update s.buf b x c = s.buf c := fun c hc => by
    obtain ⟨r, hr, -⟩ := h.waiting c hc
    exact hne c hr
  refine ⟨⟨h.ordered.queue, h.ordered.order, ?_, fun c r hc hv hd => ?_⟩, fun c hc => ?_⟩
  · rw [active_congr (s := s) hqueue]
    exact h.ordered.active
  · simp only [hne c hc] at hv hd ⊢
    exact h.ordered.right c r hc hv hd
  · obtain ⟨r, hr, hw⟩ := h.waiting c hc
    exact ⟨r, hr, by simp only [hqueue c hc]; exact hw⟩

theorem Inv.ret (h : Inv s q) (hv : (s.buf b).valid = true) (hd : (s.buf b).dirty = false) :
    Inv { s with call := Function.update s.call b none } q := by
  have hb : b ∉ q := fun hmem => by
    obtain ⟨r, -, hw⟩ := h.waiting b hmem
    exact hw.open_ ⟨hv, hd⟩
  refine ⟨⟨h.ordered.queue, h.ordered.order, h.ordered.active, fun c r hc => ?_⟩, fun c hc => ?_⟩
  · by_cases hcb : c = b
    · simp [hcb] at hc
    · simp only [Function.update_of_ne hcb] at hc
      exact h.ordered.right c r hc
  · have hcb : c ≠ b := ne_of_mem_of_not_mem hc hb
    simp only [Function.update_of_ne hcb]
    exact h.waiting c hc

/-- A new request. -/
theorem Inv.call (h : Inv s q) (hb : s.call b = none) (hstep : iderw s b = some s') :
    Inv s' (q ++ [b]) := by
  unfold iderw at hstep
  simp only [Option.bind_eq_bind, Option.pure_def] at hstep
  split at hstep
  · cases hstep
  · split at hstep
    · cases hstep
    · next hopen =>
      split at hstep
      · cases hstep
      · obtain ⟨s₁, happend, hstep⟩ := Option.bind_eq_some_iff.mp hstep
        obtain ⟨s₂, hstart, hstep⟩ := Option.bind_eq_some_iff.mp hstep
        obtain rfl := Option.some.inj hstep
        have hnew := h.notMem hb
        obtain ⟨qnext, idequeue, rfl, hchain⟩ := append_spec h.ordered.queue hnew happend
        -- the command is that of the head, old or new
        have hs₂ : s₂ = { s with qnext, idequeue, cmd := (q ++ [b]).head?.map s.command } := by
          cases q with
          | nil =>
              rw [startFirst, if_pos hchain.1] at hstart
              exact idestart_spec hstart
          | cons p q =>
              have hpb : p ≠ b := fun e => hnew (by simp [e])
              have hne : idequeue ≠ some b := by
                rw [hchain.1]
                exact fun e => hpb (Option.some.inj e)
              rw [startFirst, if_neg hne] at hstart
              obtain rfl := Option.some.inj hstart
              have hactive := h.ordered.active
              simp only [List.cons_append, List.head?_cons, Option.map_some] at hactive ⊢
              rw [← hactive]
        subst hs₂
        refine ⟨⟨hchain, ?_, rfl, fun c r hc hv hd => ?_⟩, fun c hc => ?_⟩
        · simp only [h.ordered.order, List.append_assoc]
        · by_cases hcb : c = b
          · subst hcb
            exact absurd ⟨hv, hd⟩ hopen
          · simp only [Function.update_of_ne hcb] at hc
            exact h.ordered.right c r hc hv hd
        · by_cases hcb : c = b
          · subst hcb
            exact ⟨⟨(s.buf c).dirty, (s.buf c).data, none⟩, Function.update_self _ _ _,
              rfl, rfl, rfl, hopen⟩
          · have hmem : c ∈ q := by
              rcases List.mem_append.mp hc with hc | hc
              · exact hc
              · exact absurd (List.mem_singleton.mp hc) hcb
            obtain ⟨r, hr, hw⟩ := h.waiting c hmem
            exact ⟨r, (Function.update_of_ne hcb _ _).trans hr, hw⟩

/-- A command without an error: the block of the buffer is then what was to be written, or what
it was. -/
theorem finish_spec (h : s.cmd = some (s.command b)) : ∃ disk, finish s true = { s with
    cmd := none, disk } ∧ disk (s.buf b).drive (s.buf b).sector =
      if (s.buf b).dirty then (s.buf b).data else s.block b := by
  unfold finish
  rw [h, State.command]
  cases (s.buf b).dirty with
  | true => exact ⟨_, rfl, by simp⟩
  | false => exact ⟨s.disk, rfl, rfl⟩

/-- The next request is started. -/
theorem startNext_spec (hchain : Chain s.qnext s.idequeue q) (hcmd : s.cmd = none)
    (h : startNext s = some s') : s' = { s with cmd := q.head?.map s.command } := by
  unfold startNext at h
  rw [hchain.head_eq] at h
  cases q with
  | nil =>
      obtain rfl := Option.some.inj h
      rw [List.head?_nil, Option.map_none, ← hcmd]
  | cons c q => exact idestart_spec h

/-- **An interrupt** without an error serves the head of the queue. -/
theorem Inv.intr (h : Inv s (b :: q)) (hstep : interrupt s true = some s') : Inv s' q := by
  have hactive : s.cmd = some (s.command b) := h.ordered.active
  obtain ⟨disk, hfinish, hblock⟩ := finish_spec hactive
  obtain ⟨r, hr, hw⟩ := h.waiting b List.mem_cons_self
  have hqueue := h.ordered.queue
  have hnew : b ∉ q := (List.nodup_cons.mp hqueue.nodup).1
  unfold interrupt ideintr at hstep
  rw [hfinish] at hstep
  simp only [hactive, hqueue.1] at hstep
  obtain rfl := startNext_spec (q := q) hqueue.2 rfl hstep
  have hne (c : Fin N) (hc : c ∈ q) : c ≠ b := ne_of_mem_of_not_mem hc hnew
  refine ⟨⟨hqueue.2, ?_, rfl, fun c r' hc hv hd => ?_⟩, fun c hc => ?_⟩
  · simp [serve, h.ordered.order]
  · by_cases hcb : c = b
    · subst hcb
      simp only [serve, Function.update_self, hr, Option.map_some, Option.some.injEq] at hc ⊢
      subst hc
      -- the data is the block, as it was to be written or as it was read
      have hdata : ((s.buf c).done true (s.disk (s.command c).drive (s.command c).sector)).data =
          disk (s.buf c).drive (s.buf c).sector := by
        rw [hblock]
        cases hdirty : (s.buf c).dirty with
        | true => simp [Buf.done, hdirty]
        | false =>
            simp [Buf.done, hdirty]
            rfl
      rw [hdata]
      refine ⟨rfl, fun hwrite => ?_⟩
      rw [hw.write] at hwrite
      rw [hblock, if_pos hwrite, hw.data]
    · simp only [serve, Function.update_of_ne hcb] at hc hv hd ⊢
      exact h.ordered.right c r' hc hv hd
  · obtain ⟨r', hr', hw'⟩ := h.waiting c (List.mem_cons_of_mem _ hc)
    simp only [serve, Function.update_of_ne (hne c hc)]
    exact ⟨r', hr', hw'⟩

/-- A spurious interrupt. -/
theorem Inv.spurious (h : Inv s []) {ok : Bool} (hstep : interrupt s ok = some s') : s' = s := by
  have hcmd : s.cmd = none := h.ordered.active
  have hqueue : s.idequeue = none := h.ordered.queue
  have hfinish : finish s ok = s := by
    unfold finish
    rw [hcmd]
    simp only [← hcmd]
  unfold interrupt ideintr at hstep
  rw [hfinish, hqueue] at hstep
  exact (Option.some.inj hstep).symm

/-! ## runs -/

/-- The drive reports no error for a command. -/
def Succeeds (s : State N) : Label N → Prop
  | .intr ok => s.idequeue = none ∨ ok = true
  | _ => True

/-- A step keeps the invariant. -/
theorem step_inv {l : Label N} (h : ∃ q, Inv s q) (hok : Succeeds s l) (hstep : step s l = some s') :
    ∃ q, Inv s' q := by
  obtain ⟨q, h⟩ := h
  cases l with
  | use b x =>
      simp only [step] at hstep
      split at hstep
      · cases hstep
      · next hb =>
        obtain rfl := Option.some.inj hstep
        exact ⟨q, h.use (by simpa using hb) x⟩
  | call b =>
      simp only [step] at hstep
      split at hstep
      · cases hstep
      · next hb => exact ⟨q ++ [b], h.call (by simpa using hb) hstep⟩
  | intr ok =>
      cases q with
      | nil =>
          obtain rfl := h.spurious hstep
          exact ⟨[], h⟩
      | cons b q =>
          have hok : ok = true := by
            refine hok.resolve_left fun hnone => ?_
            rw [h.ordered.queue.1] at hnone
            cases hnone
          rw [hok] at hstep
          exact ⟨q, h.intr hstep⟩
  | ret b =>
      simp only [step] at hstep
      split at hstep
      · next hb =>
        obtain rfl := Option.some.inj hstep
        exact ⟨q, h.ret hb.2.1 hb.2.2⟩
      · cases hstep

theorem Initial.inv (h : Initial s) : Inv s [] where
  ordered :=
    { queue := h.queue
      order := by rw [h.queued, h.served]; rfl
      active := h.cmd
      right := fun b r hr => by
        rw [h.call b] at hr
        cases hr }
  waiting b hb := by cases hb

/-- **Requests are served in order and with the right data**, in every run in which the drive
reports no error. -/
theorem requests_ordered (h : Initial s) {ls : List (Label N)}
    (hok : Run.Guarded step Succeeds s ls) : Run.Along step (fun t => ∃ q, Ordered t q) s ls :=
  Run.along_of_guarded (I := fun t => ∃ q, Inv t q) (fun _ _ _ hi hg hs => step_inv hi hg hs)
    (fun _ hi => hi.imp fun _ hi => hi.ordered) ⟨[], h.inv⟩ hok

/-- Two buffers, for blocks 3 and 5 of a disk with a 7 in each byte. -/
def someBufs : State 2 where
  buf := fun b => ⟨true, false, false, 0, if b = 0 then 3 else 5, fun _ => 0⟩
  idequeue := none
  qnext := fun _ => none
  havedisk1 := false
  disk := fun _ _ _ => 7
  cmd := none
  call := fun _ => none
  queued := []
  served := []

theorem someBufs_initial : Initial someBufs := ⟨rfl, rfl, fun _ => rfl, rfl, rfl⟩

/-- A read, a write and the interrupts for them. -/
def someLabels : List (Label 2) :=
  [.use 1 ⟨true, true, true, 0, 5, fun _ => 1⟩, .call 0, .call 1, .intr true, .ret 0, .intr true,
    .ret 1]

theorem requests_ordered_someBufs : Initial someBufs ∧ Run.Guarded step Succeeds someBufs someLabels ∧
    (∃ t, Run.exec step someBufs someLabels = some t ∧ t.served = [0, 1]) ∧
    Run.Along step (fun t => ∃ q, Ordered t q) someBufs someLabels := by
  have hok : Run.Guarded step Succeeds someBufs someLabels := by
    refine Run.guarded_of_forall_mem fun l hl t => ?_
    simp only [someLabels, List.mem_cons, List.not_mem_nil, or_false] at hl
    rcases hl with rfl | rfl | rfl | rfl | rfl | rfl | rfl <;> simp [Succeeds]
  obtain ⟨t, ht, hserved⟩ := Run.exists_of_exec_any step someBufs someLabels
    (fun t => t.served = [0, 1]) (by decide +kernel)
  exact ⟨someBufs_initial, hok, ⟨t, ht, by simpa using hserved⟩, requests_ordered someBufs_initial hok⟩

/-- After an error the buffer of a read is valid, and has not the block. -/
theorem ide_error_ignored : ∃ t, Run.exec step someBufs [.call 0, .intr false] = some t ∧
    (t.buf 0).valid = true ∧ (t.buf 0).dirty = false ∧ (t.buf 0).data ≠ t.block 0 ∧
    ¬ ∃ q, Ordered t q := by
  refine ⟨_, rfl, rfl, rfl, fun h => ?_, fun ⟨q, h⟩ => ?_⟩
  · exact absurd (congrFun h ⟨0, by decide⟩) (by decide)
  · have hresult := (h.right 0 _ rfl rfl rfl).1
    exact absurd (congrFun (Option.some.inj hresult) ⟨0, by decide⟩) (by decide)

end Xv6.Ide
