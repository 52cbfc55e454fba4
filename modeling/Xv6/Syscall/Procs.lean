import Xv6.Syscall.Args
import Xv6.Ptable.Partition
import Xv6.Ptable.Uproc

/-!
# Xv6.Syscall.Procs

`sys_getprocs` and the table that it fills for the user.

`argptr` gets the product of the count and the size of an entry, which is computed
modulo `2 ^ 32` and taken as a signed number, and `getprocs` loops up to the count
itself, as an unsigned number.  The two agree for counts from 0 up to the largest
one whose product is below `2 ^ 31`.

* `getprocs_inside`: `sys_getprocs` meets its contract exactly for these counts;
* `wrapped_count_overruns`: a call with a larger count.
-/

namespace Xv6.Syscall

open MemProg Ptable

variable {NPROC MAX NCPU : Nat}

/-! ## proc.c -/

/-- `sizeof(struct uproc)`. -/
def sizeofUproc : Nat := 96

/-- The bytes that `safestrcpy(s, t, n + 1)` stores. -/
def safestrcpyBytes : Nat → List UInt8 → List UInt8
  | 0, _ => [0]
  -- the final 0 is copied, and there is another one behind it
  | _ + 1, [] => [0, 0]
  | n + 1, b :: t => if b = 0 then [0, 0] else b :: safestrcpyBytes n t

/-- `table[i].ppid`.  A null pointer is read through: page 0 belongs to the user, and
`pid` is at offset 16 of a `struct proc`. -/
def ppidOf (mem : Bytes.Mem) (k : Kern NPROC MAX NCPU) (p : Fin NPROC) : UInt32 :=
  if (k.proc p).pid = 1 then 1
  else
    match (k.proc p).parent with
    | some q => (k.proc q).pid
    | none => word mem 16

/-- The fields of `table[i]` up to `gid`. -/
def firstFields (k : Kern NPROC MAX NCPU) (p : Fin NPROC) : List (Nat × List UInt8) :=
  [(0, Bytes.le 4 (k.proc p).pid.toNat),
   (4, Bytes.le 4 (k.proc p).uid.toNat),
   (8, Bytes.le 4 (k.proc p).gid.toNat)]

/-- The others, in the order in which `getprocs` assigns them. -/
def otherFields (k : Kern NPROC MAX NCPU) (p : Fin NPROC) (ppid : UInt32) :
    List (Nat × List UInt8) :=
  [(12, Bytes.le 4 ppid.toNat),
   (92, Bytes.le 4 (k.proc p).priority),
   (16, Bytes.le 4 (k.ticks - (k.proc p).startTicks).toNat),
   (20, Bytes.le 4 (k.proc p).cpuTicksTotal.toNat),
   (24, safestrcpyBytes (STRMAX - 1) (states (k.proc p).state)),
   (56, Bytes.le 4 (k.proc p).sz.toNat),
   (60, safestrcpyBytes (STRMAX - 1) (k.proc p).name)]

/-- `table[i] = …` for an active process. -/
def setEntry (a : UInt32) (p : Fin NPROC) : M (Kern NPROC MAX NCPU) Unit := do
  let k ← now
  setFields a (firstFields k p)
  let s ← get
  setFields a (otherFields k p (ppidOf s.mem k p))

/-- The loop of `getprocs`. -/
def getprocsLoop (max table : UInt32) : Nat → List (Fin NPROC) → M (Kern NPROC MAX NCPU) Nat
  | i, [] => return i
  | i, p :: ps => do
      if max.toNat ≤ i then return i
      else if ((← now).proc p).state.Active then do
        setEntry (table + UInt32.ofNat (sizeofUproc * i)) p
        getprocsLoop max table (i + 1) ps
      else getprocsLoop max table i ps

def getprocs (max table : UInt32) : M (Kern NPROC MAX NCPU) Int32 := do
  lock
  let i ← getprocsLoop max table 0 (List.finRange NPROC)
  return Int32.ofNat i

/-! ## sysproc.c -/

/-- `sizeof(struct uproc) * n`. -/
def tableSize (n : Int32) : Int32 := (UInt32.ofNat sizeofUproc * n.toUInt32).toInt32

def sysGetprocs : M (Kern NPROC MAX NCPU) Int32 := do
  let s ← get
  match argint s 0 with
  | none => return -1
  | some n =>
      match argptr s 1 (tableSize n) with
      | none => return -1
      | some table => getprocs n.toUInt32 table

/-! ## what the user gets -/

/-- A `uint` in a structure. -/
def uint (bs : List UInt8) (off : Nat) : UInt32 :=
  UInt32.ofNat (Bytes.leNat ((bs.drop off).take 4))

/-- A string in a structure. -/
def string (bs : List UInt8) (off : Nat) : List UInt8 :=
  ((bs.drop off).take STRMAX).takeWhile (· ≠ 0)

/-- The bytes of a `struct uproc`, as a program reads them. -/
def uproc (bs : List UInt8) : Uproc where
  pid := uint bs 0
  uid := uint bs 4
  gid := uint bs 8
  ppid := uint bs 12
  elapsedTicks := uint bs 16
  cpuTotalTicks := uint bs 20
  state := string bs 24
  size := uint bs 56
  name := string bs 60
  priority := (uint bs 92).toNat

/-- The entry for process `p`. -/
structure Describes (k : Kern NPROC MAX NCPU) (p : Fin NPROC) (u : Uproc) : Prop where
  pid : u.pid = (k.proc p).pid
  uid : u.uid = (k.proc p).uid
  gid : u.gid = (k.proc p).gid
  /-- the first process is its own parent -/
  ppid_one : (k.proc p).pid = 1 → u.ppid = 1
  ppid : (k.proc p).pid ≠ 1 → ∀ q, (k.proc p).parent = some q → u.ppid = (k.proc q).pid
  elapsedTicks : u.elapsedTicks = k.ticks - (k.proc p).startTicks
  cpuTotalTicks : u.cpuTotalTicks = (k.proc p).cpuTicksTotal
  state : u.state = safestrcpy (states (k.proc p).state) STRMAX
  size : u.size = (k.proc p).sz
  name : u.name = safestrcpy (k.proc p).name STRMAX
  priority : u.priority = (k.proc p).priority % 2 ^ 32

/-- The active processes in the order of the table. -/
def active (k : Kern NPROC MAX NCPU) : List (Fin NPROC) :=
  (List.finRange NPROC).filter fun p => (k.proc p).state.Active

/-! ## strings -/

theorem length_safestrcpyBytes_le (n : Nat) (t : List UInt8) :
    (safestrcpyBytes n t).length ≤ n + 1 := by
  induction n generalizing t with
  | zero => simp [safestrcpyBytes]
  | succ n ih =>
      cases t with
      | nil => simp [safestrcpyBytes]
      | cons b t =>
          have := ih t
          rw [safestrcpyBytes]
          split
          · simp
          · simp only [List.length_cons]
            omega

/-- Whatever stands behind the bytes, they are read as the string. -/
theorem takeWhile_safestrcpyBytes (n : Nat) (t rest : List UInt8) :
    (safestrcpyBytes n t ++ rest).takeWhile (· ≠ 0) = (t.takeWhile (· ≠ 0)).take n := by
  induction n generalizing t with
  | zero => simp [safestrcpyBytes]
  | succ n ih =>
      cases t with
      | nil => simp [safestrcpyBytes]
      | cons b t =>
          rw [safestrcpyBytes]
          by_cases hb : b = 0
          · simp [hb]
          · simpa [hb] using ih t

/-! ## one entry -/

section Entry

variable {k : Kern NPROC MAX NCPU} {p : Fin NPROC} {ppid : UInt32} {mem : Bytes.Mem} {a : UInt32}

def entryFields (k : Kern NPROC MAX NCPU) (p : Fin NPROC) (ppid : UInt32) :
    List (Nat × List UInt8) := firstFields k p ++ otherFields k p ppid

theorem entryFields_le : ∀ field ∈ entryFields k p ppid, field.1 + field.2.length ≤ sizeofUproc := by
  have hstate := length_safestrcpyBytes_le 31 (states (k.proc p).state)
  have hname := length_safestrcpyBytes_le 31 (k.proc p).name
  simp only [entryFields, firstFields, otherFields, sizeofUproc, STRMAX, List.cons_append,
    List.nil_append, List.forall_mem_cons, Bytes.length_le]
  simp
  omega

theorem entryFields_apart : (entryFields k p ppid).Pairwise fun f g =>
    Bytes.Apart f.1 f.2.length g.1 g.2.length := by
  have hstate := length_safestrcpyBytes_le 31 (states (k.proc p).state)
  have hname := length_safestrcpyBytes_le 31 (k.proc p).name
  simp only [entryFields, firstFields, otherFields, STRMAX, List.cons_append, List.nil_append,
    List.pairwise_cons, List.forall_mem_cons, Bytes.Apart, Bytes.length_le]
  simp
  omega

theorem get_entry (mem : Bytes.Mem) (a : UInt32) {off : Nat} {bs : List UInt8}
    (hf : (off, bs) ∈ entryFields k p ppid) :
    Bytes.get (Bytes.fills mem a (entryFields k p ppid)) (a + UInt32.ofNat off) bs.length = bs :=
  Bytes.get_fills (fun field hf => (entryFields_le field hf).trans (by decide)) entryFields_apart hf

theorem uint_entry {off v : Nat} (hf : (off, Bytes.le 4 v) ∈ entryFields k p ppid) :
    uint (Bytes.get (Bytes.fills mem a (entryFields k p ppid)) a sizeofUproc) off =
      UInt32.ofNat v := by
  have hle := entryFields_le _ hf
  have hget := get_entry mem a hf
  simp only [Bytes.length_le] at hle hget
  rw [uint, Bytes.take_drop_get hle, hget, Bytes.leNat_le]
  refine UInt32.toNat_inj.mp ?_
  rw [UInt32.toNat_ofNat', UInt32.toNat_ofNat']
  omega

theorem string_entry {off : Nat} {t : List UInt8}
    (hf : (off, safestrcpyBytes (STRMAX - 1) t) ∈ entryFields k p ppid)
    (hoff : off + STRMAX ≤ sizeofUproc) :
    string (Bytes.get (Bytes.fills mem a (entryFields k p ppid)) a sizeofUproc) off =
      safestrcpy t STRMAX := by
  have hget := get_entry mem a hf
  have hlen := length_safestrcpyBytes_le (STRMAX - 1) t
  have hsplit : STRMAX = (safestrcpyBytes (STRMAX - 1) t).length +
      (STRMAX - (safestrcpyBytes (STRMAX - 1) t).length) := by
    unfold STRMAX at *
    omega
  rw [string, Bytes.take_drop_get hoff, safestrcpy, hsplit, Bytes.get_add, hget, ← hsplit]
  exact takeWhile_safestrcpyBytes _ t _

/-- An entry that was filled in describes its process. -/
theorem describes_fills (hone : (k.proc p).pid = 1 → ppid = 1)
    (hparent : (k.proc p).pid ≠ 1 → ∀ q, (k.proc p).parent = some q → ppid = (k.proc q).pid) :
    Describes k p (uproc (Bytes.get (Bytes.fills mem a (entryFields k p ppid)) a sizeofUproc)) where
  pid := (uint_entry (by simp [entryFields, firstFields])).trans UInt32.ofNat_toNat
  uid := (uint_entry (by simp [entryFields, firstFields])).trans UInt32.ofNat_toNat
  gid := (uint_entry (by simp [entryFields, firstFields])).trans UInt32.ofNat_toNat
  ppid_one := fun h => by
    rw [← hone h]
    exact (uint_entry (by simp [entryFields, otherFields])).trans UInt32.ofNat_toNat
  ppid := fun h q hq => by
    rw [← hparent h q hq]
    exact (uint_entry (by simp [entryFields, otherFields])).trans UInt32.ofNat_toNat
  elapsedTicks := (uint_entry (by simp [entryFields, otherFields])).trans UInt32.ofNat_toNat
  cpuTotalTicks := (uint_entry (by simp [entryFields, otherFields])).trans UInt32.ofNat_toNat
  state := string_entry (by simp [entryFields, otherFields]) (by decide)
  size := (uint_entry (by simp [entryFields, otherFields])).trans UInt32.ofNat_toNat
  name := string_entry (by simp [entryFields, otherFields]) (by decide)
  priority := by
    have h : uint (Bytes.get (Bytes.fills mem a (entryFields k p ppid)) a sizeofUproc) 92 =
        UInt32.ofNat (k.proc p).priority := uint_entry (by simp [entryFields, otherFields])
    exact (congrArg UInt32.toNat h).trans (UInt32.toNat_ofNat' ..)

end Entry

/-! ## the loop -/

section Loop

variable {K : Type} {P : UInt32 → Prop} {k : Kern NPROC MAX NCPU} {p : Fin NPROC}
  {s : State (Kern NPROC MAX NCPU)} {table : UInt32}

theorem setEntry_within {a : UInt32} (h : Covers P a sizeofUproc) (p : Fin NPROC) :
    Within P (setEntry a p : M (Kern NPROC MAX NCPU) Unit) := by
  refine now_within.bind fun k => (setFields_within h fun f hf => ?_).bind fun _ s => ?_
  · exact entryFields_le f (List.mem_append_left (otherFields k p 0) hf)
  · exact withinAt_get_bind (setFields_within h (fun f hf =>
      entryFields_le f (List.mem_append_right (firstFields k p) hf)) s)

theorem setEntry_spec (hk : s.rest.now = k) (a : UInt32) : wp (setEntry a p) s fun _ s' =>
    s'.rest = s.rest ∧ ∃ ppid, s'.mem = Bytes.fills s.mem a (entryFields k p ppid) ∧
      ((k.proc p).pid = 1 → ppid = 1) ∧
      ((k.proc p).pid ≠ 1 → ∀ q, (k.proc p).parent = some q → ppid = (k.proc q).pid) := by
  subst hk
  have hle {ppid : UInt32} {field : Nat × List UInt8}
      (hf : field ∈ entryFields s.rest.now p ppid) : field.2.length ≤ 2 ^ 32 := by
    have := entryFields_le field hf
    unfold sizeofUproc at this
    omega
  refine wp_now_bind.mpr (wp_bind_of (wp_setFields fun f hf => ?_) ?_)
  · exact hle (List.mem_append_left (otherFields s.rest.now p 0) hf)
  · rintro _ s₁ ⟨hrest, hmem⟩
    refine wp_bind.mpr (wp_get.mpr ((wp_setFields fun f hf => ?_).mono ?_))
    · exact hle (List.mem_append_right (firstFields s.rest.now p) hf)
    · rintro _ s₂ ⟨hrest', hmem'⟩
      refine ⟨hrest'.trans hrest, ppidOf s₁.mem s.rest.now p, ?_, fun h => ?_, fun h q hq => ?_⟩
      · rw [hmem', hmem, entryFields, Bytes.fills, Bytes.fills, Bytes.fills, List.foldl_append]
      · rw [ppidOf, if_pos h]
      · rw [ppidOf, if_neg h, hq]

theorem getprocsLoop_within {max : UInt32} (h : Covers P table (sizeofUproc * max.toNat)) (i : Nat)
    (ps : List (Fin NPROC)) :
    Within P (getprocsLoop max table i ps : M (Kern NPROC MAX NCPU) Nat) := by
  induction ps generalizing i with
  | nil => exact within_pure _
  | cons p ps ih =>
      refine .ite (fun _ => within_pure _) fun hi => now_within.bind fun k => ?_
      refine .ite (fun _ => (setEntry_within (h.sub ?_) p).bind fun _ => ih _) fun _ => ih _
      unfold sizeofUproc
      omega

/-- The first entries of the table describe these processes. -/
def Entries (k : Kern NPROC MAX NCPU) (mem : Bytes.Mem) (table : UInt32) (ps : List (Fin NPROC)) :
    Prop :=
  ∀ i p, ps[i]? = some p →
    Describes k p (uproc (Bytes.get mem (table + UInt32.ofNat (sizeofUproc * i)) sizeofUproc))

theorem Entries.snoc {mem : Bytes.Mem} {ps : List (Fin NPROC)} {ppid : UInt32}
    (h : Entries k mem table ps) (hlen : sizeofUproc * (ps.length + 1) ≤ 2 ^ 32)
    (hone : (k.proc p).pid = 1 → ppid = 1)
    (hparent : (k.proc p).pid ≠ 1 → ∀ q, (k.proc p).parent = some q → ppid = (k.proc q).pid) :
    Entries k (Bytes.fills mem (table + UInt32.ofNat (sizeofUproc * ps.length))
      (entryFields k p ppid)) table (ps ++ [p]) := by
  intro i q hq
  by_cases hi : i < ps.length
  · rw [List.getElem?_append_left hi] at hq
    unfold sizeofUproc at hlen
    rw [Bytes.fills_base, Bytes.get_fills_of_apart (by unfold sizeofUproc; omega)]
    · exact h i q hq
    · intro field hf
      obtain ⟨f, hf', rfl⟩ := List.mem_map.mp hf
      have := entryFields_le f hf'
      unfold sizeofUproc Bytes.Apart at *
      dsimp only
      omega
  · have hil : i < (ps ++ [p]).length := (List.getElem?_eq_some_iff.mp hq).1
    obtain rfl : i = ps.length := by
      rw [List.length_append, List.length_singleton] at hil
      omega
    obtain rfl : q = p := by simpa using hq.symm
    exact describes_fills hone hparent

theorem getprocsLoop_spec {max : UInt32} {done ps : List (Fin NPROC)} (hk : s.rest.now = k)
    (hdone : Entries k s.mem table done) (hle : done.length ≤ max.toNat)
    (hsize : sizeofUproc * (done.length + ps.length) ≤ 2 ^ 32) :
    wp (getprocsLoop max table done.length ps) s fun j s' => ∃ all,
      all = (done ++ ps.filter fun p => (k.proc p).state.Active).take max.toNat ∧
      j = all.length ∧ Entries k s'.mem table all := by
  induction ps generalizing s done with
  | nil =>
      refine wp_pure.mpr ⟨done, ?_, rfl, hdone⟩
      rw [List.filter_nil, List.append_nil, List.take_of_length_le hle]
  | cons p ps ih =>
      rw [getprocsLoop]
      split
      · next hge =>
        refine wp_pure.mpr ⟨done, ?_, rfl, hdone⟩
        rw [List.take_append_of_le_length hge, List.take_of_length_le hle]
      · next hlt =>
        rw [wp_now_bind, hk]
        rw [List.length_cons] at hsize
        split
        · next hact =>
          refine wp_bind_of (setEntry_spec hk _) ?_
          rintro _ s' ⟨hrest, ppid, hmem, hone, hparent⟩
          have hsnoc := hdone.snoc (by unfold sizeofUproc at *; omega) hone hparent
          rw [← hmem] at hsnoc
          have hnext := ih (s := s') (by rw [hrest, hk]) hsnoc (by simp; omega)
            (by simp only [List.length_append, List.length_singleton]; unfold sizeofUproc at *; omega)
          rw [List.length_append, List.length_singleton] at hnext
          refine hnext.mono ?_
          rintro j s'' ⟨all, hall, hj, hE⟩
          refine ⟨all, ?_, hj, hE⟩
          rw [hall, List.filter_cons_of_pos (by simpa using hact), List.append_assoc,
            List.singleton_append]
        · next hact =>
          refine (ih hk hdone hle (by unfold sizeofUproc at *; omega)).mono ?_
          rintro j s'' ⟨all, hall, hj, hE⟩
          refine ⟨all, ?_, hj, hE⟩
          rw [hall, List.filter_cons_of_neg (by simpa using hact)]

theorem getprocs_within {max : UInt32} (h : Covers P table (sizeofUproc * max.toNat)) :
    Within P (getprocs max table : M (Kern NPROC MAX NCPU) Int32) :=
  lock_within.bind fun _ => (getprocsLoop_within h _ _).bind fun _ => within_pure _

theorem active_length_le (k : Kern NPROC MAX NCPU) : (active k).length ≤ NPROC := by
  have := List.length_filter_le (fun p => decide (k.proc p).state.Active) (List.finRange NPROC)
  rwa [List.length_finRange] at this

/-- What `getprocs` returns and leaves behind. -/
theorem getprocs_spec {max : UInt32} {ks : List (Kern NPROC MAX NCPU)}
    (hN : sizeofUproc * NPROC ≤ 2 ^ 31) (hl : s.rest.later = k :: ks) :
    wp (getprocs max table) s fun r s' =>
      r.toInt = min max.toNat (active k).length ∧
      Entries k s'.mem table ((active k).take max.toNat) := by
  have hE : Entries k (s.found k ks).mem table [] := fun i p hp => absurd hp (by simp)
  have hloop : wp (getprocsLoop max table ([] : List (Fin NPROC)).length (List.finRange NPROC))
      (s.found k ks) _ := getprocsLoop_spec (k := k) rfl hE (Nat.zero_le _) (by
    rw [List.length_nil, List.length_finRange, Nat.zero_add]
    omega)
  refine wp_lock_bind hl (wp_bind_of hloop ?_)
  rintro j s' ⟨all, rfl, rfl, hE⟩
  refine wp_pure.mpr ⟨?_, hE⟩
  have hlen := active_length_le k
  unfold active at hlen
  unfold sizeofUproc at hN
  rw [List.nil_append, List.length_take]
  exact Int32.toInt_ofNat_of_lt (Nat.lt_of_le_of_lt (Nat.min_le_right _ _) (by omega))

end Loop

/-! ## the system call -/

variable {k : Kern NPROC MAX NCPU} {ks : List (Kern NPROC MAX NCPU)}
  {s : State (Kern NPROC MAX NCPU)}

/-- A call with a count and a table that stores entries: they fit in the process, no
other byte is stored, and the entries describe the active processes. -/
structure Reported (s : State (Kern NPROC MAX NCPU)) (k : Kern NPROC MAX NCPU) (n : Int32)
    (table : UInt32) (r : Int32) (s' : State (Kern NPROC MAX NCPU)) : Prop where
  count : 0 ≤ n.toInt
  fits : table.toNat + sizeofUproc * n.toInt ≤ s.rest.proc.sz.toNat
  stores : ∀ a ∈ s'.touched, table.toNat ≤ a.toNat ∧
    (a.toNat : Int) < table.toNat + sizeofUproc * n.toInt
  ret : r.toInt = min n.toInt (active k).length
  entries : Entries k s'.mem table ((active k).take n.toInt.toNat)

/-- The contract of `sys_getprocs` in a state where it finds the process table `k`. -/
def Meets (s : State (Kern NPROC MAX NCPU)) (k : Kern NPROC MAX NCPU) : Prop :=
  ∃ r s', sysGetprocs { s with touched := [] } = .ok (r, s') ∧
    (r = -1 ∧ s'.touched = [] ∧ s'.mem = s.mem ∨
      ∃ n table, argint s 0 = some n ∧ argptr s 1 (tableSize n) = some table ∧
        Reported s k n table r s')

theorem tableSize_toInt {n : Int32} (h0 : 0 ≤ n.toInt) (h : sizeofUproc * n.toInt < 2 ^ 31) :
    (tableSize n).toInt = sizeofUproc * n.toInt := by
  have hn := toInt_cond n
  have ht := toInt_cond (tableSize n)
  rw [tableSize, UInt32.toUInt32_toInt32, UInt32.toNat_mul, UInt32.toNat_ofNat'] at ht
  rw [tableSize]
  unfold sizeofUproc at *
  split at hn <;> split at ht <;> omega

theorem sysGetprocs_eq {n : Int32} {table : UInt32} (hn : argint s 0 = some n)
    (ht : argptr s 1 (tableSize n) = some table) : sysGetprocs s = getprocs n.toUInt32 table s := by
  rw [sysGetprocs, get_bind, hn]
  dsimp only
  rw [ht]

theorem sysGetprocs_none (h : ∀ n, argint s 0 = some n → argptr s 1 (tableSize n) = none) :
    sysGetprocs s = .ok (-1, s) := by
  rw [sysGetprocs, get_bind]
  cases hn : argint s 0 with
  | none => rfl
  | some n =>
      dsimp only
      rw [h n hn]
      rfl

/-- **`getprocs` stays inside the process** exactly for the counts whose product with
the size of an entry is a signed number. -/
theorem getprocs_inside (hN : sizeofUproc * NPROC ≤ 2 ^ 31) (hl : s.rest.later = k :: ks) :
    Meets s k ↔ ∀ n, argint s 0 = some n → (argptr s 1 (tableSize n)).isSome →
      0 ≤ n.toInt ∧ sizeofUproc * n.toInt < 2 ^ 31 := by
  constructor
  · rintro ⟨r, s', hrun, hmeets⟩ n hn hsome
    obtain ⟨table, ht⟩ := Option.isSome_iff_exists.mp hsome
    have hproc := (sysGetprocs_eq (s := { s with touched := [] }) hn ht).symm.trans hrun
    obtain ⟨hret, -⟩ := (getprocs_spec (s := { s with touched := [] }) hN hl).of_ok hproc
    cases hmeets with
    | inl hfail =>
        rw [hfail.1] at hret
        have hneg : ((-1 : Int32)).toInt = -1 := rfl
        omega
    | inr hok =>
        obtain ⟨m, table', hm, ht', hrep⟩ := hok
        obtain rfl := Option.some.inj (hn.symm.trans hm)
        have hsz := s.rest.proc.sz_lt
        have hfits := hrep.fits
        unfold KERNBASE at hsz
        exact ⟨hrep.count, by omega⟩
  · intro hcond
    by_cases hargs : ∀ n, argint s 0 = some n → argptr s 1 (tableSize n) = none
    · exact ⟨-1, _, sysGetprocs_none hargs, .inl ⟨rfl, rfl, rfl⟩⟩
    · simp only [not_forall] at hargs
      obtain ⟨n, hn, hsome⟩ := hargs
      obtain ⟨table, ht⟩ := Option.ne_none_iff_exists'.mp hsome
      obtain ⟨h0, hlt⟩ := hcond n hn (by rw [ht]; rfl)
      have hfits := argptr_eq_some ht
      rw [tableSize_toInt h0 hlt] at hfits
      have hcount : n.toUInt32.toNat = n.toInt.toNat := by
        have hint := toInt_cond n
        have hlt := n.toUInt32.toNat_lt
        split at hint <;> omega
      have hspec : wp (getprocs n.toUInt32 table) { s with touched := [] } _ :=
        getprocs_spec (k := k) hN hl
      obtain ⟨r, s', hrun, hret, hE⟩ := hspec
      have hcov : Covers (fun a => table.toNat ≤ a.toNat ∧
          (a.toNat : Int) < table.toNat + sizeofUproc * n.toInt) table
          (sizeofUproc * n.toUInt32.toNat) := by
        intro i hi
        have hsz := s.rest.proc.sz_lt
        unfold KERNBASE at hsz
        rw [hcount] at hi
        unfold sizeofUproc at *
        rw [UInt32.toNat_add, UInt32.toNat_ofNat']
        omega
      refine ⟨r, s', (sysGetprocs_eq (s := { s with touched := [] }) hn ht).trans hrun,
        .inr ⟨n, table, hn, ht, h0, by omega, fun a ha => ?_, ?_, ?_⟩⟩
      · exact ((getprocs_within hcov { s with touched := [] }).grew.of_ok hrun a ha).resolve_left
          List.not_mem_nil
      · rw [hret, hcount]
        omega
      · rwa [← hcount]

/-! ### after the first process was made -/

/-- A table of two slots when `userinit` has returned. -/
def started : Kern 2 1 1 :=
  match userinit (some 0) (some 0) (some 0) (boot 0) with
  | .ok (_, k) => k
  | .error _ => boot 0

/-- A process of one page calls `getprocs(n, table)`. -/
def psCaller (n table : UInt32) : State (Kern 2 1 1) where
  mem := fun a => UInt8.ofNat
    (([0, n.toNat, table.toNat].getD (a.toNat / 4) 0) / 256 ^ (a.toNat % 4))
  touched := []
  rest := ⟨⟨4096, page_lt_KERNBASE, 0, fun _ => none⟩, started, [started]⟩

theorem getprocs_inside_two : Meets (psCaller 2 100) started := by
  refine (getprocs_inside (by decide) rfl).mpr fun n hn _ => ?_
  have hargs : argint (psCaller 2 100) 0 = some 2 := by decide +kernel
  obtain rfl := Option.some.inj (hargs.symm.trans hn)
  decide

/-- **A table outside the process**: for `getprocs(134217728, 4095)` the size of the
table is 0 modulo `2 ^ 32`, and the entry of the one process is stored behind the
last page. -/
theorem wrapped_count_overruns : argint (psCaller 134217728 4095) 0 = some 134217728 ∧
    argptr (psCaller 134217728 4095) 1 (tableSize 134217728) = some 4095 ∧
    (psCaller 134217728 4095).rest.proc.sz = 4096 ∧
    4096 ∈ accesses sysGetprocs (psCaller 134217728 4095) := by
  decide +kernel

end Xv6.Syscall
