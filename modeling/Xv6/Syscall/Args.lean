import Xv6.Syscall

/-!
# Xv6.Syscall.Args

The checks of `syscall.c` and the transfers from and to the user, for any data `K`
of the kernel.

`Covers P p n` says that the `n` bytes from `p` on satisfy `P`; a transfer is
`Within P` if its block is covered.  `argptr` checks that the block is inside the
process, for a size that is not negative; a negative size passes when its absolute
value is at most the pointer (`argptr_eq_some`).
-/

namespace Xv6.Syscall

open MemProg

variable {K : Type} {P : UInt32 → Prop} {s : State K}

/-! ## blocks -/

/-- The `n` bytes from `p` on satisfy `P`. -/
def Covers (P : UInt32 → Prop) (p : UInt32) (n : Nat) : Prop := ∀ k < n, P (p + UInt32.ofNat k)

variable {p : UInt32} {n : Nat}

theorem Covers.sub (h : Covers P p n) {i m : Nat} (hm : i + m ≤ n) :
    Covers P (p + UInt32.ofNat i) m := by
  intro k hk
  rw [UInt32.add_assoc, ← UInt32.ofNat_add]
  exact h (i + k) (by omega)

theorem Covers.take (h : Covers P p n) {m : Nat} (hm : m ≤ n) : Covers P p m :=
  fun k hk => h k (by omega)

theorem Covers.head (h : Covers P p (n + 1)) : P p := by
  have h0 := h 0 (by omega)
  rwa [show UInt32.ofNat 0 = 0 from rfl, UInt32.add_zero] at h0

theorem Covers.tail (h : Covers P p (n + 1)) : Covers P (p + 1) n :=
  h.sub (i := 1) (by omega)

/-! ## locks -/

theorem now_within : Within P (now : M K K) := within_rest.bind fun _ => within_pure _

theorem lock_within : Within P (lock : M K Unit) := by
  refine within_rest.bind fun r => ?_
  cases r.later with
  | nil => exact within_stop _
  | cons k ks => exact within_modifyRest _

theorem sleepWhile_within (wait : K → Bool) : Within P (sleepWhile wait : M K Unit) := by
  refine within_rest.bind fun r => ?_
  cases (r.now :: r.later).dropWhile wait with
  | nil => exact within_stop _
  | cons k ks => exact within_modifyRest _

/-! ## transfers -/

theorem copyTo_within {bs : List UInt8} (h : Covers P p bs.length) :
    Within P (copyTo p bs : M K Unit) := by
  induction bs generalizing p with
  | nil => exact within_pure _
  | cons b bs ih => exact (within_store h.head _).bind fun _ => ih h.tail

theorem copyFrom_within (h : Covers P p n) : Within P (copyFrom p n : M K (List UInt8)) := by
  induction n generalizing p with
  | zero => exact within_pure _
  | succ n ih =>
      exact (within_load h.head).bind fun b => (ih h.tail).bind fun bs => within_pure _

theorem setFields_within (h : Covers P p n) {fields : List (Nat × List UInt8)}
    (hn : ∀ field ∈ fields, field.1 + field.2.length ≤ n) :
    Within P (setFields p fields : M K Unit) :=
  within_forM fun field hf => copyTo_within (h.sub (hn field hf))

/-- The addresses of a block. -/
def block (p : UInt32) (n : Nat) : List UInt32 := (List.range n).map (p + UInt32.ofNat ·)

theorem block_add (p : UInt32) (m n : Nat) :
    block p (m + n) = block p m ++ block (p + UInt32.ofNat m) n := by
  simp [block, List.range_add, UInt32.add_assoc]

theorem wp_copyTo {bs : List UInt8} (hbs : bs.length ≤ 2 ^ 32) : wp (copyTo p bs) s fun _ s' =>
    s'.rest = s.rest ∧ s'.mem = Bytes.fill s.mem p bs ∧
      s'.touched = s.touched ++ block p bs.length := by
  induction bs generalizing p s with
  | nil => exact wp_pure.mpr ⟨rfl, Bytes.fill_nil.symm, by simp [block]⟩
  | cons b bs ih =>
      rw [List.length_cons] at hbs
      refine wp_bind.mpr ⟨(), _, rfl, (ih (by omega)).mono ?_⟩
      rintro _ s' ⟨hrest, hmem, ht⟩
      refine ⟨hrest, hmem.trans (Bytes.fill_cons (by omega)), ht.trans ?_⟩
      rw [List.length_cons, Nat.add_comm, block_add, ← List.append_assoc]
      simp [block]

theorem wp_setFields {fields : List (Nat × List UInt8)}
    (h : ∀ field ∈ fields, field.2.length ≤ 2 ^ 32) : wp (setFields p fields) s fun _ s' =>
      s'.rest = s.rest ∧ s'.mem = Bytes.fills s.mem p fields := by
  induction fields generalizing s with
  | nil => exact wp_pure.mpr ⟨rfl, rfl⟩
  | cons field fields ih =>
      rw [setFields, List.forM, ← setFields]
      refine wp_bind_of (wp_copyTo (h field List.mem_cons_self)) ?_
      rintro _ s₁ ⟨hrest, hmem, -⟩
      refine (ih fun f hf => h f (List.mem_cons_of_mem field hf)).mono ?_
      rintro _ s₂ ⟨hrest', hmem'⟩
      exact ⟨hrest'.trans hrest, by rw [hmem', hmem]; rfl⟩

/-! ## running on -/

/-- A process of one page. -/
theorem page_lt_KERNBASE : UInt32.toNat 4096 < KERNBASE := by decide

/-- The state after a lock was taken. -/
def State.found (s : State K) (k : K) (ks : List K) : State K :=
  { s with rest := { s.rest with now := k, later := ks } }

theorem lock_nil (h : s.rest.later = []) : lock s = .error (.waiting, s) := by
  obtain ⟨mem, touched, proc, now, later⟩ := s
  obtain rfl : later = [] := h
  rfl

theorem lock_cons {k : K} {ks : List K} (h : s.rest.later = k :: ks) :
    lock s = .ok ((), s.found k ks) := by
  obtain ⟨mem, touched, proc, now, later⟩ := s
  obtain rfl : later = k :: ks := h
  rfl

theorem wp_now_bind {α : Type} {f : K → M K α} {Q : α → State K → Prop} :
    wp (now >>= f) s Q ↔ wp (f s.rest.now) s Q := Iff.rfl

theorem wp_lock_bind {α : Type} {f : Unit → M K α} {Q : α → State K → Prop} {k : K}
    {ks : List K} (h : s.rest.later = k :: ks) (hf : wp (f ()) (s.found k ks) Q) :
    wp (lock >>= f) s Q := wp_bind.mpr ⟨(), _, lock_cons h, hf⟩

theorem withinAt_now_bind {α : Type} {f : K → M K α} (h : WithinAt P (f s.rest.now) s) :
    WithinAt P (now >>= f) s := ⟨h.grew⟩

theorem withinAt_lock_bind {α : Type} {f : Unit → M K α}
    (h : ∀ k ks, s.rest.later = k :: ks → WithinAt P (f ()) (s.found k ks)) :
    WithinAt P (lock >>= f) s := by
  refine (lock_within s).bind fun _ s' hs => ?_
  cases hl : s.rest.later with
  | nil =>
      rw [lock_nil hl] at hs
      contradiction
  | cons k ks =>
      rw [lock_cons hl] at hs
      obtain ⟨-, rfl⟩ := Prod.mk.inj (Except.ok.inj hs)
      exact h k ks hl

/-! ## the checks -/

/-- A number below `2 ^ 31` is not negative. -/
theorem toInt_cond (n : Int32) :
    n.toInt = if n.toUInt32.toNat < 2 ^ 31 then (n.toUInt32.toNat : Int)
      else n.toUInt32.toNat - 2 ^ 32 := by
  have h : n.toInt = _ := BitVec.toInt_eq_toNat_cond n.toBitVec
  have hnat : n.toBitVec.toNat = n.toUInt32.toNat := rfl
  rw [h, hnat]
  split <;> split <;> omega

/-- What `argptr` guarantees. -/
theorem argptr_eq_some {i : Nat} {size : Int32} (h : argptr s i size = some p) :
    p.toNat < s.rest.proc.sz.toNat ∧
      (0 ≤ size.toInt ∧ p.toNat + size.toInt ≤ s.rest.proc.sz.toNat ∨
        size.toInt < 0 ∧ -size.toInt ≤ p.toNat) := by
  obtain ⟨a, -, ha⟩ := Option.bind_eq_some_iff.mp h
  obtain ⟨hok, ha⟩ := Option.ite_none_left_eq_some.mp ha
  obtain rfl := Option.some.inj ha
  rw [not_or, UInt32.not_le, UInt32.not_lt, UInt32.lt_iff_toNat_lt, UInt32.le_iff_toNat_le,
    UInt32.toNat_add] at hok
  have hsz := s.rest.proc.sz_lt
  have hsize := size.toUInt32.toNat_lt
  have hint := toInt_cond size
  unfold KERNBASE at hsz
  refine ⟨hok.1, ?_⟩
  split at hint
  · left
    omega
  · right
    omega

/-- The addresses of the process. -/
def Inside (s : State K) (a : UInt32) : Prop := a.toNat < s.rest.proc.sz.toNat

theorem covers_inside (h : p.toNat + n ≤ s.rest.proc.sz.toNat) : Covers (Inside s) p n := by
  intro k hk
  have hsz := s.rest.proc.sz_lt
  unfold KERNBASE at hsz
  rw [Inside, UInt32.toNat_add, UInt32.toNat_ofNat']
  omega

/-- A block that `argptr` has let through, with the count as a signed number. -/
theorem argptr_covers {i : Nat} {size : Int32} (h : argptr s i size = some p) :
    Covers (Inside s) p size.toInt.toNat := by
  refine covers_inside ?_
  have := argptr_eq_some h
  omega


end Xv6.Syscall
