import Xv6.Log
import Xv6.Lib.Run

/-!
# Xv6.Log.Crash

Crash atomicity of the redo log.  A system alternates between being up,
where it commits transactions, and being down, where `recover_from_log`
runs; a crash may strike after any number of block writes of either, any
number of times.  The state keeps the list of the transactions whose commit
point — the first write of the header block — reached the disk.

The invariant is `Pending disk t target`: the on-disk header and log blocks
describe the transaction `t`, and redoing `t` on the home blocks gives
`target`.  An empty log is the case `t = []`.  Both `commit` past its commit
point and `recover_from_log` perform the same writes, `t` followed by the
write that clears the header (`redo`), so one lemma about prefixes of these
writes (`Pending.redo_prefix`) covers every crash point of both.
-/

namespace Xv6.Log.Crash

open Writes

/-- A transaction: the blocks it logs, with their new contents. -/
abbrev Txn : Type := List (Nat × Block)

section Crash

variable (start size : Nat)

/-- The log area: the header block and the blocks after it. -/
def InLog (b : Nat) : Prop := b = start ∨ (start ≤ b ∧ b < start + size)

/-- The transactions `log_write` lets through: distinct blocks outside the
log area, at most `log.size - 1` of them (and at most `LOGSIZE`, the other
half of the same test); block numbers are `uint`s. -/
structure Txn.Valid (t : Txn) : Prop where
  nodup : (t.map Prod.fst).Nodup
  fits : t.length ≤ size - 1
  logsize : t.length ≤ LOGSIZE
  uint : ∀ w ∈ t, w.1 < 2 ^ 32
  home : ∀ w ∈ t, ¬ InLog start size w.1

/-! ## schedules -/

/-- `commit t` runs a transaction and its commit, `recover` runs
`recover_from_log`; with `some k` the machine crashes after `k` block
writes. -/
inductive Event
  | commit (t : Txn) (crash : Option Nat)
  | recover (crash : Option Nat)

structure Sys where
  m : Machine
  up : Bool
  committed : List Txn

/-- The operations of a transaction, each logging one block. -/
def logAll (m : Machine) (t : Txn) : Machine := t.foldl (fun m w => logWrite m w.1 w.2) m

/-- The header block is among the blocks written. -/
def reached (trace : List (Nat × Block)) : Bool := trace.any fun w => w.1 == start

/-- The committed transactions, with `t` if the writes of its commit got as
far as the header block. -/
def record (t : Txn) (trace : List (Nat × Block)) (ts : List Txn) : List Txn :=
  if reached start trace then ts ++ [t] else ts

/-- The block writes that happen: all of them, or the first `k`. -/
def happened (trace : List (Nat × Block)) : Option Nat → List (Nat × Block)
  | none => trace
  | some k => trace.take k

/-- What is left after running to `m'` from `m`: the machine itself, or the
disk after the writes that happened. -/
def outcome (m m' : Machine) : Option Nat → Machine
  | none => m'
  | some k => boot (apply (m'.trace.take k) m.disk)

def step (s : Sys) : Event → Option Sys
  | .commit t crash =>
      if s.up then
        let m := { s.m with trace := [] }
        let m' := Log.commit start (logAll m t)
        some {
          m := outcome m m' crash
          up := crash.isNone
          committed := record start t (happened m'.trace crash) s.committed }
      else none
  | .recover crash =>
      if s.up then none
      else
        let m := { s.m with trace := [] }
        some { m := outcome m (recoverFromLog start m) crash, up := crash.isNone,
               committed := s.committed }

/-- A running system on the disk `d`. -/
def init (d : Nat → Block) : Sys := ⟨boot d, true, []⟩

/-- The transactions applied to the disk, in order and in full. -/
def applyAll (ts : List Txn) (d : Nat → Block) : Nat → Block :=
  ts.foldl (fun d t => apply t d) d

end Crash

/-! ## what the loops write -/

variable {start size : Nat}

/-- The log blocks from index `i` on hold the contents of `t`. -/
def LogHolds (start : Nat) (d : Nat → Block) : Nat → Txn → Prop
  | _, [] => True
  | i, w :: t => d (start + i + 1) = w.2 ∧ LogHolds start d (i + 1) t

/-- The writes of `write_log` from index `i` on. -/
def logWrites (start : Nat) : Nat → Txn → List (Nat × Block)
  | _, [] => []
  | i, w :: t => (start + i + 1, w.2) :: logWrites start (i + 1) t

theorem mem_logWrites {i : Nat} {t : Txn} {w : Nat × Block} (h : w ∈ logWrites start i t) :
    start + i < w.1 ∧ w.1 ≤ start + i + t.length := by
  induction t generalizing i with
  | nil => simp [logWrites] at h
  | cons v t ih =>
      simp only [logWrites, List.mem_cons, List.length_cons] at h ⊢
      rcases h with rfl | h
      · simp only; omega
      · have := ih h; omega

/-- The log area after `write_log`. -/
theorem logHolds_apply_logWrites (i : Nat) (t : Txn) (d : Nat → Block) :
    LogHolds start (apply (logWrites start i t) d) i t := by
  induction t generalizing i d with
  | nil => trivial
  | cons w t ih =>
      refine ⟨?_, ih (i + 1) _⟩
      rw [logWrites, apply_cons, apply_of_forall_ne fun v hv => ?_]
      · exact Function.update_self ..
      · have := mem_logWrites hv; omega

theorem LogHolds.congr {d d' : Nat → Block} {i : Nat} {t : Txn} (h : LogHolds start d i t)
    (heq : ∀ b, start + i < b → b ≤ start + i + t.length → d' b = d b) :
    LogHolds start d' i t := by
  induction t generalizing i with
  | nil => trivial
  | cons w t ih =>
      rw [List.length_cons] at heq
      refine ⟨(heq _ (by omega) (by omega)).trans h.1, ih h.2 fun b h1 h2 => ?_⟩
      exact heq b (by omega) (by omega)

/-- `write_log` reads the cached contents and writes them behind the
header. -/
theorem writeLogFrom_eq (start i : Nat) (t : Txn) (m : Machine)
    (hcache : ∀ w ∈ t, m.cache w.1 = some w.2)
    (hhome : ∀ w ∈ t, ∀ k, start + k + 1 = w.1 → k < i ∨ i + t.length ≤ k) :
    (writeLogFrom start i (t.map Prod.fst) m).disk = apply (logWrites start i t) m.disk ∧
    (writeLogFrom start i (t.map Prod.fst) m).trace = m.trace ++ logWrites start i t ∧
    (writeLogFrom start i (t.map Prod.fst) m).lh = m.lh ∧
    ∀ b, (writeLogFrom start i (t.map Prod.fst) m).cache b =
      if start + i < b ∧ b ≤ start + i + t.length then none else m.cache b := by
  induction t generalizing i m with
  | nil =>
      refine ⟨rfl, by simp [writeLogFrom, logWrites], rfl, fun b => ?_⟩
      rw [if_neg (by simp)]; rfl
  | cons w t ih =>
      have hread : bread m w.1 = w.2 := by
        simp [bread, hcache w List.mem_cons_self]
      rw [List.map_cons, writeLogFrom, hread]
      have hcache' : ∀ v ∈ t, (bwrite m (start + i + 1) w.2).cache v.1 = some v.2 := by
        intro v hv
        have hne : v.1 ≠ start + i + 1 := fun he => by
          have := hhome v (List.mem_cons_of_mem w hv) i he.symm
          simp only [List.length_cons] at this
          omega
        simp only [bwrite, Function.update_of_ne hne]
        exact hcache v (List.mem_cons_of_mem w hv)
      obtain ⟨h1, h2, h3, h4⟩ := ih (i + 1) (bwrite m (start + i + 1) w.2) hcache' fun v hv k hk => by
        have := hhome v (List.mem_cons_of_mem w hv) k hk
        simp only [List.length_cons] at this
        omega
      refine ⟨h1, ?_, h3, fun b => ?_⟩
      · rw [h2]; simp [bwrite, logWrites]
      · rw [h4 b]
        simp only [List.length_cons, bwrite]
        by_cases hb : b = start + i + 1
        · subst hb
          rw [if_neg (by omega), Function.update_self, if_pos (by omega)]
        · rw [Function.update_of_ne hb]
          congr 1
          simp only [eq_iff_iff]
          omega

/-- `install_trans` copies the log blocks to the home blocks of `t`, which
are not log blocks, so the reads see what the log held at the start. -/
theorem installFrom_eq (start i : Nat) (t : Txn) (m : Machine)
    (hlog : LogHolds start m.disk i t)
    (hclean : ∀ b, start + i < b → b ≤ start + i + t.length → m.cache b = none)
    (hhome : ∀ w ∈ t, ∀ k, start + k + 1 = w.1 → k < i ∨ i + t.length ≤ k) :
    (installFrom start i (t.map Prod.fst) m).disk = apply t m.disk ∧
    (installFrom start i (t.map Prod.fst) m).trace = m.trace ++ t ∧
    (installFrom start i (t.map Prod.fst) m).lh = m.lh ∧
    ∀ b, (installFrom start i (t.map Prod.fst) m).cache b =
      if b ∈ t.map Prod.fst then none else m.cache b := by
  induction t generalizing i m with
  | nil =>
      refine ⟨rfl, by simp [installFrom], rfl, fun b => ?_⟩
      rw [if_neg (by simp)]; rfl
  | cons w t ih =>
      simp only [List.length_cons] at hclean hhome
      have hread : bread m (start + i + 1) = w.2 := by
        rw [bread, hclean _ (by omega) (by omega)]
        exact hlog.1
      have hw : ∀ b, start + (i + 1) < b → b ≤ start + (i + 1) + t.length → b ≠ w.1 := by
        intro b h1 h2 he
        have := hhome w List.mem_cons_self (b - start - 1) (by omega)
        omega
      rw [List.map_cons, installFrom, hread]
      have hlog' : LogHolds start (bwrite m w.1 w.2).disk (i + 1) t :=
        hlog.2.congr fun b h1 h2 => Function.update_of_ne (hw b h1 h2) _ _
      have hclean' : ∀ b, start + (i + 1) < b → b ≤ start + (i + 1) + t.length →
          (bwrite m w.1 w.2).cache b = none := fun b h1 h2 => by
        simp only [bwrite, Function.update_of_ne (hw b h1 h2)]
        exact hclean b (by omega) (by omega)
      obtain ⟨h1, h2, h3, h4⟩ := ih (i + 1) (bwrite m w.1 w.2) hlog' hclean' fun v hv k hk => by
        have := hhome v (List.mem_cons_of_mem w hv) k hk
        omega
      refine ⟨h1, ?_, h3, fun b => ?_⟩
      · rw [h2]; simp [bwrite]
      · rw [h4 b]
        simp only [bwrite, List.mem_cons]
        by_cases hb : b = w.1
        · subst hb; simp
        · rw [Function.update_of_ne hb]
          simp only [hb, false_or]

/-! ## pending transactions -/

/-- The on-disk log describes `t`, and redoing `t` makes the home blocks
those of `target`. -/
structure Pending (start size : Nat) (d : Nat → Block) (t : Txn) (target : Nat → Block) :
    Prop where
  valid : t.Valid start size
  header : readHead (d start) = t.map Prod.fst
  log : LogHolds start d 0 t
  home : ∀ b, ¬ InLog start size b → apply t d b = target b

theorem Txn.valid_nil : Txn.Valid start size [] :=
  ⟨List.nodup_nil, by simp, by simp, by simp, by simp⟩

/-- The home blocks of a transaction are not log blocks it uses. -/
theorem Txn.Valid.away {t : Txn} (h : t.Valid start size) :
    ∀ w ∈ t, ∀ k, start + k + 1 = w.1 → k < 0 ∨ 0 + t.length ≤ k := by
  intro w hw k hk
  have hout := h.home w hw
  have hfits := h.fits
  unfold InLog at hout
  omega

theorem Txn.Valid.ne_start {t : Txn} (h : t.Valid start size) : ∀ w ∈ t, w.1 ≠ start :=
  fun w hw he => h.home w hw (Or.inl he)

theorem Txn.Valid.headerFits {t : Txn} (h : t.Valid start size) :
    entryOff (t.map Prod.fst).length ≤ BSIZE := by
  have := h.logsize
  rw [List.length_map]
  unfold entryOff BSIZE LOGSIZE MAXOPBLOCKS at *
  omega

theorem Txn.Valid.readHead_putHead {t : Txn} (h : t.Valid start size) (b : Block) :
    readHead (putHead b (t.map Prod.fst)) = t.map Prod.fst := by
  refine Log.readHead_putHead b _ h.headerFits fun x hx => ?_
  obtain ⟨w, hw, rfl⟩ := List.mem_map.mp hx
  exact h.uint w hw

theorem readHead_putHead_nil (b : Block) : readHead (putHead b []) = [] :=
  Log.readHead_putHead b [] (by decide) (by simp)

/-- Redoing some of `t` leaves `t` pending. -/
theorem Pending.redo_take {d target : Nat → Block} {t : Txn} (h : Pending start size d t target)
    (k : Nat) : Pending start size (apply (t.take k) d) t target where
  valid := h.valid
  header := by
    rw [apply_of_forall_ne fun w hw => h.valid.ne_start w (List.mem_of_mem_take hw)]
    exact h.header
  log := h.log.congr fun b h1 h2 => apply_of_forall_ne (fun w hw he => by
    have := h.valid.away w (List.mem_of_mem_take hw) (b - start - 1) (by omega)
    omega) d
  home := fun b hb => by rw [apply_apply_take]; exact h.home b hb

/-- Redoing all of `t` and clearing the header leaves nothing pending. -/
theorem Pending.redo_all {d target : Nat → Block} {t : Txn} (h : Pending start size d t target)
    {h0 : Block} (hh0 : readHead h0 = []) :
    Pending start size (apply (t ++ [(start, h0)]) d) [] target where
  valid := Txn.valid_nil
  header := by rw [apply_concat, Function.update_self, hh0]; rfl
  log := trivial
  home := fun b hb => by
    have hne : b ≠ start := fun he => hb (Or.inl he)
    rw [apply_nil, apply_concat, Function.update_of_ne hne]
    exact h.home b hb

/-- **Every crash point of a redo**: after any number of the writes, a
transaction with the same target is pending. -/
theorem Pending.redo_prefix {d target : Nat → Block} {t : Txn}
    (h : Pending start size d t target) {h0 : Block} (hh0 : readHead h0 = []) (k : Nat) :
    ∃ t', Pending start size (apply ((t ++ [(start, h0)]).take k) d) t' target := by
  by_cases hk : k ≤ t.length
  · rw [List.take_append_of_le_length hk]
    exact ⟨t, h.redo_take k⟩
  · rw [List.take_of_length_le (by simp; omega)]
    exact ⟨[], h.redo_all hh0⟩

/-! ## recovery -/

/-- Memory holds nothing that is not on disk. -/
def Clean (m : Machine) : Prop := (∀ b, m.cache b = none) ∧ m.lh = []

theorem clean_boot (d : Nat → Block) : Clean (boot d) := ⟨fun _ => rfl, rfl⟩

/-- From the header write on, `commit` and `recover_from_log` do the same:
install the pending transaction and clear the header. -/
theorem install_clear {m : Machine} {t : Txn} {target : Nat → Block}
    (hp : Pending start size m.disk t target) (hlh : m.lh = t.map Prod.fst)
    (hcache : ∀ b, (∀ w ∈ t, w.1 ≠ b) → m.cache b = none) :
    ∃ h0, readHead h0 = [] ∧
      (writeHead start { installTrans start m with lh := [] }).trace =
        m.trace ++ (t ++ [(start, h0)]) ∧
      (writeHead start { installTrans start m with lh := [] }).disk =
        apply (t ++ [(start, h0)]) m.disk ∧
      Clean (writeHead start { installTrans start m with lh := [] }) := by
  obtain ⟨h1, h2, h3, h4⟩ := installFrom_eq start 0 t m hp.log
    (fun b hb1 hb2 => hcache b fun w hw he => by
      have := hp.valid.away w hw (b - start - 1) (by omega)
      omega)
    hp.valid.away
  have hin : installTrans start m = installFrom start 0 (t.map Prod.fst) m := by
    rw [installTrans, hlh]
  refine ⟨putHead (bread { installTrans start m with lh := [] } start) [],
    readHead_putHead_nil _, ?_, ?_, ?_, rfl⟩
  · simp only [writeHead, bwrite]
    rw [hin, h2, List.append_assoc]
  · rw [apply_concat]
    simp only [writeHead, bwrite]
    rw [hin, h1]
  · intro b
    simp only [writeHead, bwrite]
    by_cases hb : b = start
    · subst hb; exact Function.update_self ..
    · rw [Function.update_of_ne hb, hin, h4 b]
      split
      · rfl
      · next hnot =>
          exact hcache b fun w hw he => hnot (List.mem_map.mpr ⟨w, hw, he⟩)

theorem recoverFromLog_eq {m : Machine} {t : Txn} {target : Nat → Block} (hm : Clean m)
    (hp : Pending start size m.disk t target) (htr : m.trace = []) :
    ∃ h0, readHead h0 = [] ∧ (recoverFromLog start m).trace = t ++ [(start, h0)] ∧
      (recoverFromLog start m).disk = apply (t ++ [(start, h0)]) m.disk ∧
      Clean (recoverFromLog start m) := by
  have hread : readHead (bread m start) = t.map Prod.fst := by
    rw [bread, hm.1 start]; exact hp.header
  obtain ⟨h0, hh0, h1, h2, h3⟩ := install_clear
    (m := { m with lh := readHead (bread m start) }) hp hread (fun b _ => hm.1 b)
  refine ⟨h0, hh0, ?_, h2, h3⟩
  rw [recoverFromLog, h1, htr]
  rfl

/-! ## commit -/

theorem logAll_eq {m : Machine} (t : Txn) (hnodup : (t.map Prod.fst).Nodup)
    (hfresh : ∀ w ∈ t, w.1 ∉ m.lh) :
    (logAll m t).lh = m.lh ++ t.map Prod.fst ∧ (logAll m t).disk = m.disk ∧
    (logAll m t).trace = m.trace ∧ (∀ w ∈ t, (logAll m t).cache w.1 = some w.2) ∧
    ∀ b, (∀ w ∈ t, w.1 ≠ b) → (logAll m t).cache b = m.cache b := by
  induction t generalizing m with
  | nil => exact ⟨by simp [logAll], rfl, rfl, by simp, fun _ _ => rfl⟩
  | cons w t ih =>
      rw [List.map_cons, List.nodup_cons] at hnodup
      have hlh : (logWrite m w.1 w.2).lh = m.lh ++ [w.1] :=
        absorb_of_not_mem (hfresh w List.mem_cons_self)
      obtain ⟨h1, h2, h3, h4, h5⟩ := ih (m := logWrite m w.1 w.2) hnodup.2 fun v hv hmem => by
        rw [hlh, List.mem_append, List.mem_singleton] at hmem
        rcases hmem with hmem | hmem
        · exact hfresh v (List.mem_cons_of_mem w hv) hmem
        · exact hnodup.1 (List.mem_map.mpr ⟨v, hv, hmem⟩)
      refine ⟨?_, h2, h3, ?_, ?_⟩
      · rw [show logAll m (w :: t) = logAll (logWrite m w.1 w.2) t from rfl, h1, hlh]
        simp
      · intro v hv
        rcases List.mem_cons.mp hv with rfl | hv
        · rw [show logAll m (v :: t) = logAll (logWrite m v.1 v.2) t from rfl, h5 v.1]
          · exact Function.update_self ..
          · intro u hu he
            exact hnodup.1 (List.mem_map.mpr ⟨u, hu, he⟩)
        · exact h4 v hv
      · intro b hb
        rw [show logAll m (w :: t) = logAll (logWrite m w.1 w.2) t from rfl,
          h5 b fun v hv => hb v (List.mem_cons_of_mem w hv)]
        exact Function.update_of_ne (hb w List.mem_cons_self).symm _ _

/-- **The writes of a commit**: the log blocks, the commit point, then the
redo of the transaction that is pending from there on. -/
theorem commit_eq {m : Machine} {t : Txn} {target : Nat → Block} (hm : Clean m)
    (hp : Pending start size m.disk [] target) (htr : m.trace = [])
    (ht : t.Valid start size) (hne : t ≠ []) :
    ∃ h h0, readHead h = t.map Prod.fst ∧ readHead h0 = [] ∧
      Pending start size (apply (logWrites start 0 t ++ [(start, h)]) m.disk) t
        (apply t target) ∧
      (commit start (logAll m t)).trace =
        logWrites start 0 t ++ [(start, h)] ++ (t ++ [(start, h0)]) ∧
      (commit start (logAll m t)).disk =
        apply (t ++ [(start, h0)]) (apply (logWrites start 0 t ++ [(start, h)]) m.disk) ∧
      Clean (commit start (logAll m t)) := by
  obtain ⟨hlh, hdisk, htrace, hcached, hothers⟩ := logAll_eq (m := m) t ht.nodup (by simp [hm.2])
  rw [hm.2, List.nil_append] at hlh
  have hpos : 0 < (logAll m t).lh.length := by
    rw [hlh, List.length_map]; exact List.length_pos_of_ne_nil hne
  -- the log blocks
  obtain ⟨w1, w2, w3, w4⟩ := writeLogFrom_eq start 0 t (logAll m t) hcached ht.away
  have hwl : writeLog start (logAll m t) = writeLogFrom start 0 (t.map Prod.fst) (logAll m t) := by
    rw [writeLog, hlh]
  rw [← hwl] at w1 w2 w3 w4
  rw [hdisk] at w1
  rw [htrace, htr, List.nil_append] at w2
  rw [hlh] at w3
  -- the commit point
  let h := putHead (bread (writeLog start (logAll m t)) start) (t.map Prod.fst)
  have hhead : readHead h = t.map Prod.fst := ht.readHead_putHead _
  have hm2 : writeHead start (writeLog start (logAll m t)) =
      bwrite (writeLog start (logAll m t)) start h := by rw [writeHead, w3]
  have hd2 : (writeHead start (writeLog start (logAll m t))).disk =
      apply (logWrites start 0 t ++ [(start, h)]) m.disk := by
    rw [hm2, apply_concat]; simp only [bwrite, w1]
  have hpend : Pending start size (apply (logWrites start 0 t ++ [(start, h)]) m.disk) t
      (apply t target) := by
    refine ⟨ht, ?_, ?_, ?_⟩
    · rw [apply_concat, Function.update_self, hhead]
    · rw [apply_concat]
      refine (logHolds_apply_logWrites 0 t m.disk).congr fun b h1 h2 => ?_
      exact Function.update_of_ne (by omega) _ _
    · intro b hb
      refine apply_congr fun _ => ?_
      have hbs : b ≠ start := fun he => hb (Or.inl he)
      rw [apply_concat, Function.update_of_ne hbs, apply_of_forall_ne fun w hw he => ?_]
      · exact hp.home b hb
      · have hrange := mem_logWrites hw
        have hfits := ht.fits
        have htpos := List.length_pos_of_ne_nil hne
        exact hb (Or.inr ⟨by omega, by omega⟩)
  -- the rest is the redo of `t`
  obtain ⟨h0, hh0, r1, r2, r3⟩ := install_clear
    (m := writeHead start (writeLog start (logAll m t))) (hd2 ▸ hpend)
    (by rw [hm2]; exact w3) (fun b hb => by
      rw [hm2]
      simp only [bwrite]
      by_cases hbs : b = start
      · subst hbs; exact Function.update_self ..
      · rw [Function.update_of_ne hbs, w4 b, hothers b hb, hm.1 b, ite_self])
  have hcommit : commit start (logAll m t) = writeHead start
      { installTrans start (writeHead start (writeLog start (logAll m t))) with lh := [] } := by
    rw [commit, if_pos hpos]
  refine ⟨h, h0, hhead, hh0, hpend, ?_, ?_, ?_⟩
  · rw [hcommit, r1, hm2]
    simp only [bwrite, w2]
  · rw [hcommit, r2, hd2]
  · rw [hcommit]; exact r3

/-! ## runs -/

/-- The transactions of the event are ones `log_write` lets through. -/
def Event.Valid (start size : Nat) : Event → Prop
  | .commit t _ => t.Valid start size
  | .recover _ => True

/-- Memory is clean, and what is pending on disk is the rest of the committed
transactions — nothing while the system is up. -/
structure Inv (start size : Nat) (d0 : Nat → Block) (s : Sys) : Prop where
  clean : Clean s.m
  pending : ∃ t, Pending start size s.m.disk t (applyAll s.committed d0) ∧ (s.up = true → t = [])

theorem applyAll_concat (ts : List Txn) (t : Txn) (d : Nat → Block) :
    applyAll (ts ++ [t]) d = apply t (applyAll ts d) := by
  unfold applyAll
  rw [List.foldl_append]
  rfl

/-- A transaction with no blocks writes nothing. -/
theorem commit_logAll_nil (start : Nat) {m : Machine} (hm : Clean m) : commit start (logAll m []) = m := by
  have hlen : ¬ 0 < (logAll m []).lh.length := by simp [logAll, hm.2]
  rw [commit, if_neg hlen]
  rfl

theorem not_reached_logWrites {t : Txn} (k : Nat) :
    reached start ((logWrites start 0 t).take k) = false := by
  rw [reached, List.any_eq_false]
  intro w hw
  have := mem_logWrites (List.mem_of_mem_take hw)
  simp only [beq_iff_eq]
  omega

/-- The blocks written by a commit before its commit point are log blocks,
so nothing is pending and no home block has changed. -/
theorem Pending.apply_logWrites_take {d target : Nat → Block} {t : Txn}
    (h : Pending start size d [] target) (ht : t.Valid start size) (k : Nat) :
    Pending start size (apply ((logWrites start 0 t).take k) d) [] target where
  valid := Txn.valid_nil
  header := by
    rw [apply_of_forall_ne fun w hw => ?_]
    · exact h.header
    · have := mem_logWrites (List.mem_of_mem_take hw)
      omega
  log := trivial
  home := fun b hb => by
    rw [apply_nil, apply_of_forall_ne fun w hw he => ?_]
    · exact h.home b hb
    · have hrange := mem_logWrites (List.mem_of_mem_take hw)
      have hfits := ht.fits
      exact hb (Or.inr ⟨by omega, by omega⟩)

/-- The crash points of a commit. -/
theorem step_commit_inv {d0 : Nat → Block} {s s' : Sys} {t : Txn} {crash : Option Nat}
    (hinv : Inv start size d0 s) (ht : t.Valid start size)
    (hs : step start s (.commit t crash) = some s') : Inv start size d0 s' := by
  obtain ⟨hclean, t0, hp, hup0⟩ := hinv
  simp only [step] at hs
  split at hs
  · next hup =>
      rw [hup0 hup] at hp
      rw [Option.some.injEq] at hs
      subst hs
      by_cases hne : t = []
      · subst hne
        have hc := commit_logAll_nil start (m := { s.m with trace := [] }) hclean
        rw [hc]
        cases crash with
        | none => exact ⟨hclean, [], hp, fun _ => rfl⟩
        | some k =>
            refine ⟨clean_boot _, [], ?_, fun _ => rfl⟩
            simpa [outcome, boot, happened, record, reached] using hp
      · obtain ⟨h, h0, -, hh0, hpend, htrace, hdisk, hcl⟩ :=
          commit_eq (m := { s.m with trace := [] }) hclean hp rfl ht hne
        rw [htrace]
        cases crash with
        | none =>
            have hre : record start t (happened (logWrites start 0 t ++ [(start, h)] ++
                (t ++ [(start, h0)])) none) s.committed = s.committed ++ [t] := by
              simp [happened, record, reached]
            rw [hre]
            refine ⟨hcl, [], ?_, fun _ => rfl⟩
            rw [applyAll_concat]
            simp only [outcome]
            rw [hdisk]
            exact hpend.redo_all hh0
        | some k =>
            simp only [outcome, happened, Option.isNone_some]
            rw [htrace]
            by_cases hk : k ≤ (logWrites start 0 t).length
            · -- before the commit point
              have hre : record start t ((logWrites start 0 t).take k) s.committed =
                  s.committed := by
                rw [record, not_reached_logWrites, if_neg Bool.false_ne_true]
              rw [List.append_assoc, List.take_append_of_le_length hk, hre]
              exact ⟨clean_boot _, [], hp.apply_logWrites_take ht k, fun _ => rfl⟩
            · -- the header is on disk: `t` is committed, and the rest is its redo
              have hlen : (logWrites start 0 t ++ [(start, h)]).length ≤ k := by
                rw [List.length_append, List.length_singleton]; omega
              have hre : record start t ((logWrites start 0 t ++ [(start, h)] ++
                  (t ++ [(start, h0)])).take k) s.committed = s.committed ++ [t] := by
                rw [List.take_append, List.take_of_length_le hlen]
                simp [record, reached]
              obtain ⟨t', hp'⟩ := hpend.redo_prefix hh0
                (k - (logWrites start 0 t ++ [(start, h)]).length)
              rw [hre]
              refine ⟨clean_boot _, t', ?_, by simp⟩
              rw [applyAll_concat]
              simp only [boot]
              rw [List.take_append, List.take_of_length_le hlen, apply_append]
              exact hp'
  · contradiction

/-- The crash points of a recovery. -/
theorem step_recover_inv {d0 : Nat → Block} {s s' : Sys} {crash : Option Nat}
    (hinv : Inv start size d0 s) (hs : step start s (.recover crash) = some s') :
    Inv start size d0 s' := by
  obtain ⟨hclean, t, hp, -⟩ := hinv
  simp only [step] at hs
  split at hs
  · contradiction
  · rw [Option.some.injEq] at hs
    subst hs
    obtain ⟨h0, hh0, htrace, hdisk, hcl⟩ :=
      recoverFromLog_eq (m := { s.m with trace := [] }) hclean hp rfl
    cases crash with
    | none =>
        refine ⟨hcl, [], ?_, fun _ => rfl⟩
        simp only [outcome]
        rw [hdisk]
        exact hp.redo_all hh0
    | some k =>
        obtain ⟨t', hp'⟩ := hp.redo_prefix hh0 k
        refine ⟨clean_boot _, t', ?_, by simp⟩
        simp only [outcome, boot]
        rw [htrace]
        exact hp'

theorem step_inv {d0 : Nat → Block} {s s' : Sys} {e : Event} (hinv : Inv start size d0 s)
    (he : e.Valid start size) (hs : step start s e = some s') : Inv start size d0 s' := by
  cases e with
  | commit t crash => exact step_commit_inv hinv he hs
  | recover crash => exact step_recover_inv hinv hs

/-- **Crash atomicity**: start from a disk with an empty log and run any
schedule of commits, crashes after any number of block writes, and
recoveries that may crash themselves.  Whenever the system is up again, the
home blocks are those of the transactions whose commit point reached the
disk, applied in order and in full. -/
theorem crash_atomic {d0 : Nat → Block} (hempty : readHead (d0 start) = []) {es : List Event}
    (hvalid : ∀ e ∈ es, e.Valid start size) {s : Sys}
    (hrun : Run.exec (step start) (init d0) es = some s) (hup : s.up = true) :
    ∀ b, ¬ InLog start size b → s.m.disk b = applyAll s.committed d0 b := by
  have hinit : Inv start size d0 (init d0) :=
    ⟨clean_boot d0, [], ⟨Txn.valid_nil, hempty, trivial, fun _ _ => rfl⟩, fun _ => rfl⟩
  have hguard : Run.Guarded (step start) (fun _ e => e.Valid start size) (init d0) es :=
    Run.guarded_of_forall_mem fun e he _ => hvalid e he
  obtain ⟨-, t, hp, hnil⟩ := Run.exec_invariant
    (fun _ _ _ hi he hs => step_inv hi he hs) hinit hguard hrun
  intro b hb
  have := hp.home b hb
  rwa [hnil hup, apply_nil] at this

/-- A crash right after the commit point: the transaction is there once
recovery has completed. -/
theorem crash_atomic_after_header :
    ∃ s, Run.exec (step 2) (init fun _ _ => 0)
        [.commit [(100, fun _ => 1)] (some 2), .recover none] = some s ∧
      s.committed.length = 1 ∧
      ∀ b, ¬ InLog 2 30 b → s.m.disk b = applyAll s.committed (fun _ _ => 0) b := by
  obtain ⟨s, hs, hp⟩ := Run.exists_of_exec_any (step 2) (init fun _ _ => 0)
    [.commit [(100, fun _ => 1)] (some 2), .recover none]
    (fun s => s.up && s.committed.length == 1) (by decide +kernel)
  simp only [Bool.and_eq_true, beq_iff_eq] at hp
  refine ⟨s, hs, hp.2, crash_atomic (by decide +kernel) (fun e he => ?_) hs hp.1⟩
  simp only [List.mem_cons, List.not_mem_nil, or_false] at he
  rcases he with rfl | rfl
  · exact ⟨by simp, by simp, by simp [LOGSIZE, MAXOPBLOCKS], by simp, by simp [InLog]⟩
  · trivial

end Xv6.Log.Crash
