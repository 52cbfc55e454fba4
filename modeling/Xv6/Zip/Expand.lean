import Xv6.Zip

/-!
# Xv6.Zip.Expand

The format that `Encode` documents, given by its expansion: a ring buffer of
`N` zero bytes, and groups of a flag byte and up to eight units.

* `expand` reads a code stream byte by byte;
* `Code` is a unit of code, `Code.bytes` how it is written and `Ring.unit`
  what it does to the ring;
* `expandFrom_units` says that reading the bytes of a group does what its
  units do;
* `isCode` says that a stream is not cut inside a group: it ends with a whole
  unit.  A stream that goes on after another one expands to more
  (`length_expand_lt`).
-/

namespace Xv6.Zip

/-! ## the expansion -/

structure Ring where
  buf : Nat → UInt8
  /-- the write index -/
  r : Nat
  out : List UInt8

/-- `N` zero bytes, to be written from `N - F` on. -/
def Ring.zero : Ring := ⟨fun _ => 0, N - F, []⟩

/-- An output byte is also stored in the ring. -/
def Ring.put (d : Ring) (c : UInt8) : Ring :=
  ⟨Function.update d.buf d.r c, (d.r + 1) % N, d.out ++ [c]⟩

/-- Output `length` bytes of the ring from `pos` on. -/
def Ring.copy (d : Ring) (pos : Nat) : Nat → Ring
  | 0 => d
  | length + 1 => Ring.copy (d.put (d.buf (pos % N))) (pos + 1) length

/-- Expand a stream in which `n` more flags are to be used before the next
flag byte. -/
def expandFrom : Nat → UInt8 → Ring → List UInt8 → Ring
  | _, _, d, [] => d
  | 0, _, d, flags :: bytes => expandFrom 8 flags d bytes
  | n + 1, flags, d, b0 :: bytes =>
      if flags &&& 1 = 1 then expandFrom n (flags >>> 1) (d.put b0) bytes
      else
        match bytes with
        | [] => d
        | b1 :: bytes =>
            expandFrom n (flags >>> 1)
              (d.copy (b0.toNat ||| ((b1 &&& 0xf0).toNat <<< 4))
                ((b1 &&& 0x0f).toNat + THRESHOLD + 1)) bytes

def expand (bytes : List UInt8) : List UInt8 := (expandFrom 0 0 Ring.zero bytes).out

/-! ## units of code -/

inductive Code
  | literal (c : UInt8)
  | pair (pos length : Nat)

def Code.isLiteral : Code → Bool
  | .literal _ => true
  | .pair _ _ => false

/-- A unit as `Encode` puts it into `code_buf`. -/
def Code.bytes : Code → List UInt8
  | .literal c => [c]
  | .pair pos length =>
      [UInt8.ofNat pos,
        UInt8.ofNat (((pos >>> 4) &&& 0xf0) ||| (length - (THRESHOLD + 1)))]

/-- The units that can be written. -/
def Code.Fits : Code → Prop
  | .literal _ => True
  | .pair pos length => pos < N ∧ THRESHOLD < length ∧ length ≤ F

def Ring.unit (d : Ring) : Code → Ring
  | .literal c => d.put c
  | .pair pos length => d.copy pos length

theorem nibbles : ∀ h l : Fin 16, (16 * h.val + l.val) &&& 0xf0 = 16 * h.val ∧
    (UInt8.ofNat (16 * h.val ||| l.val) &&& 0xf0).toNat = 16 * h.val ∧
      (UInt8.ofNat (16 * h.val ||| l.val) &&& 0x0f).toNat = l.val := by decide

/-- The two bytes of a pair hold its position and its length. -/
theorem pair_split {pos l : Nat} (hpos : pos < N) (hl : l < 16) :
    (UInt8.ofNat pos).toNat |||
        ((UInt8.ofNat (((pos >>> 4) &&& 0xf0) ||| l) &&& 0xf0).toNat <<< 4) = pos ∧
      (UInt8.ofNat (((pos >>> 4) &&& 0xf0) ||| l) &&& 0x0f).toNat = l := by
  have hdiv : pos / 256 < 16 := by simp only [N] at hpos; omega
  have hshift : (pos >>> 4) &&& 0xf0 = 16 * (pos / 256) := by
    have h := (nibbles ⟨pos / 256, hdiv⟩ ⟨pos / 16 % 16, by omega⟩).1
    have heq : pos >>> 4 = 16 * (pos / 256) + pos / 16 % 16 := by
      rw [Nat.shiftRight_eq_div_pow]; omega
    rw [heq]
    exact h
  obtain ⟨-, h1, h2⟩ := nibbles ⟨pos / 256, hdiv⟩ ⟨l, hl⟩
  rw [hshift, h1, h2]
  have hlo : (UInt8.ofNat pos).toNat = pos % 256 := by simp
  have hhi : (16 * (pos / 256)) <<< 4 = 2 ^ 8 * (pos / 256) := by rw [Nat.shiftLeft_eq]; omega
  rw [hlo, hhi, Nat.or_comm, ← Nat.two_pow_add_eq_or_of_lt (by omega)]
  exact ⟨by omega, rfl⟩

/-- The lowest flag. -/
theorem and_one_eq_one_iff (f : UInt8) : f &&& 1 = 1 ↔ f.toNat.testBit 0 = true := by
  rw [← UInt8.toNat_inj, UInt8.toNat_and, Nat.testBit_zero]
  simp [Nat.and_one_is_mod]

theorem testBit_shiftRight_one (f : UInt8) (i : Nat) :
    (f >>> 1).toNat.testBit i = f.toNat.testBit (i + 1) := by
  rw [UInt8.toNat_shiftRight, Nat.testBit_shiftRight]
  congr 1
  simp [Nat.add_comm]

/-- The bytes of one unit, with its flag lowest. -/
theorem expandFrom_unit {u : Code} (hu : u.Fits) {f : UInt8}
    (hf : f.toNat.testBit 0 = u.isLiteral) (n : Nat) (d : Ring) (rest : List UInt8) :
    expandFrom (n + 1) f d (u.bytes ++ rest) = expandFrom n (f >>> 1) (d.unit u) rest := by
  cases u with
  | literal c =>
      have h1 : f &&& 1 = 1 := (and_one_eq_one_iff f).mpr hf
      cases rest <;>
        simp only [Code.bytes, List.cons_append, List.nil_append, expandFrom, if_pos h1, Ring.unit]
  | pair pos length =>
      have h1 : ¬ f &&& 1 = 1 := fun h => by simp [(and_one_eq_one_iff f).mp h, Code.isLiteral] at hf
      obtain ⟨hpos, hmin, hmax⟩ := hu
      simp only [THRESHOLD, F] at hmin hmax
      obtain ⟨h2, h3⟩ := pair_split (l := length - 3) hpos (by omega)
      simp only [Code.bytes, List.cons_append, List.nil_append, expandFrom, if_neg h1, Ring.unit,
        THRESHOLD, h2, h3]
      rw [show length - 3 + 2 + 1 = length by omega]

/-- The bytes of a group do what its units do. -/
theorem expandFrom_units (us : List Code) (hus : ∀ u ∈ us, u.Fits) {n : Nat}
    (hn : us.length ≤ n) {f : UInt8}
    (hf : ∀ i (hi : i < us.length), f.toNat.testBit i = us[i].isLiteral)
    (d : Ring) (rest : List UInt8) :
    ∃ f', expandFrom n f d (us.flatMap Code.bytes ++ rest) =
      expandFrom (n - us.length) f' (us.foldl Ring.unit d) rest := by
  induction us generalizing n f d with
  | nil => exact ⟨f, rfl⟩
  | cons u us ih =>
      obtain ⟨n, rfl⟩ : ∃ m, n = m + 1 := ⟨n - 1, by simp only [List.length_cons] at hn; omega⟩
      simp only [List.length_cons, Nat.add_le_add_iff_right] at hn
      have hu : f.toNat.testBit 0 = u.isLiteral := hf 0 (by simp)
      rw [List.flatMap_cons, List.append_assoc,
        expandFrom_unit (hus u (by simp)) hu, List.length_cons, Nat.add_sub_add_right]
      refine ih (fun v hv => hus v (by simp [hv])) hn (fun i hi => ?_) _
      rw [testBit_shiftRight_one]
      exact hf (i + 1) (by simpa using hi)

/-- Between two groups the flags that were used last do not matter. -/
theorem expandFrom_zero (f : UInt8) (d : Ring) (bytes : List UInt8) :
    expandFrom 0 f d bytes = expandFrom 0 0 d bytes := by
  cases bytes <;> simp only [expandFrom]

theorem expandFrom_nil (n : Nat) (f : UInt8) (d : Ring) : expandFrom n f d [] = d := by
  cases n <;> simp only [expandFrom]

/-! ## whole streams -/

/-- The flags that are left behind `bytes`; none if a unit is cut. -/
def scan : Nat → UInt8 → List UInt8 → Option (Nat × UInt8)
  | n, flags, [] => some (n, flags)
  | 0, _, flags :: bytes => scan 8 flags bytes
  | n + 1, flags, _ :: bytes =>
      if flags &&& 1 = 1 then scan n (flags >>> 1) bytes
      else
        match bytes with
        | [] => none
        | _ :: bytes => scan n (flags >>> 1) bytes

/-- A code stream: it ends with a unit. -/
def isCode (bytes : List UInt8) : Bool := (scan 0 0 bytes).any fun x => x.1 != 8

theorem isCode_iff {bytes : List UInt8} :
    isCode bytes = true ↔ ∃ n f, scan 0 0 bytes = some (n, f) ∧ n ≠ 8 := by
  cases h : scan 0 0 bytes with
  | none => simp [isCode, h]
  | some x =>
      obtain ⟨n, f⟩ := x
      simp [isCode, h]

theorem scan_nil (n : Nat) (f : UInt8) : scan n f [] = some (n, f) := by
  cases n <;> simp only [scan]

theorem scan_literal {f : UInt8} (hf : f &&& 1 = 1) (n : Nat) (b : UInt8) (bytes : List UInt8) :
    scan (n + 1) f (b :: bytes) = scan n (f >>> 1) bytes := by
  cases bytes <;> simp only [scan, if_pos hf]

theorem expandFrom_literal {f : UInt8} (hf : f &&& 1 = 1) (n : Nat) (d : Ring) (b : UInt8)
    (bytes : List UInt8) :
    expandFrom (n + 1) f d (b :: bytes) = expandFrom n (f >>> 1) (d.put b) bytes := by
  cases bytes <;> simp only [expandFrom, if_pos hf]

theorem scan_append {n n' : Nat} {f f' : UInt8} {w : List UInt8}
    (h : scan n f w = some (n', f')) (rest : List UInt8) :
    scan n f (w ++ rest) = scan n' f' rest := by
  induction n, f, w using scan.induct with
  | case1 n f =>
      rw [scan_nil, Option.some.injEq, Prod.mk.injEq] at h
      rw [List.nil_append, h.1, h.2]
  | case2 f flags bytes ih =>
      rw [scan] at h
      rw [List.cons_append, scan, ih h]
  | case3 n f b bytes hf ih =>
      rw [scan_literal hf] at h
      rw [List.cons_append, scan_literal hf, ih h]
  | case4 n f b hf => simp [scan, hf] at h
  | case5 n f b hf b' bytes ih =>
      simp only [scan, if_neg hf] at h
      simp only [List.cons_append, scan, if_neg hf, ih h]

/-- Reading on. -/
theorem expandFrom_append {n n' : Nat} {f f' : UInt8} {w : List UInt8}
    (h : scan n f w = some (n', f')) (d : Ring) (rest : List UInt8) :
    expandFrom n f d (w ++ rest) = expandFrom n' f' (expandFrom n f d w) rest := by
  induction n, f, w using scan.induct generalizing d with
  | case1 n f =>
      rw [scan_nil, Option.some.injEq, Prod.mk.injEq] at h
      rw [List.nil_append, expandFrom_nil, h.1, h.2]
  | case2 f flags bytes ih =>
      rw [scan] at h
      rw [List.cons_append, expandFrom, expandFrom, ih h]
  | case3 n f b bytes hf ih =>
      rw [scan_literal hf] at h
      rw [List.cons_append, expandFrom_literal hf, expandFrom_literal hf, ih h]
  | case4 n f b hf => simp [scan, hf] at h
  | case5 n f b hf b' bytes ih =>
      simp only [scan, if_neg hf] at h
      simp only [List.cons_append, expandFrom, if_neg hf, ih h]

@[simp] theorem length_put (d : Ring) (c : UInt8) : (d.put c).out.length = d.out.length + 1 := by
  simp [Ring.put]

@[simp] theorem length_copy (d : Ring) (pos length : Nat) :
    (d.copy pos length).out.length = d.out.length + length := by
  induction length generalizing d pos with
  | zero => rfl
  | succ n ih =>
      rw [Ring.copy, ih, length_put]
      omega

theorem length_expandFrom_le (n : Nat) (f : UInt8) (d : Ring) (bytes : List UInt8) :
    d.out.length ≤ (expandFrom n f d bytes).out.length := by
  induction n, f, bytes using scan.induct generalizing d with
  | case1 n f => rw [expandFrom_nil]
  | case2 f flags bytes ih =>
      rw [expandFrom]
      exact ih d
  | case3 n f b bytes hf ih =>
      rw [expandFrom_literal hf]
      have := ih (d.put b)
      rw [length_put] at this
      omega
  | case4 n f b hf => simp [expandFrom, hf]
  | case5 n f b hf b' bytes ih =>
      simp only [expandFrom, if_neg hf]
      refine le_trans ?_ (ih _)
      rw [length_copy]
      omega

/-- With a flag left, the next whole unit adds to the text. -/
theorem length_lt_of_scan {n : Nat} {f : UInt8} {d : Ring} {bytes : List UInt8}
    (h : (scan (n + 1) f bytes).isSome = true) (hne : bytes ≠ []) :
    d.out.length < (expandFrom (n + 1) f d bytes).out.length := by
  cases bytes with
  | nil => exact absurd rfl hne
  | cons b bytes =>
      by_cases hf : f &&& 1 = 1
      · rw [expandFrom_literal hf]
        have := length_expandFrom_le n (f >>> 1) (d.put b) bytes
        rw [length_put] at this
        omega
      · cases bytes with
        | nil => simp [scan, hf] at h
        | cons b' bytes =>
            simp only [expandFrom, if_neg hf]
            refine lt_of_lt_of_le ?_ (length_expandFrom_le _ _ _ _)
            rw [length_copy]
            omega

/-- With a flag left, two bytes add to the text. -/
theorem length_two_lt (n : Nat) (f : UInt8) (d : Ring) (b b' : UInt8) :
    d.out.length < (expandFrom (n + 1) f d [b, b']).out.length := by
  by_cases hf : f &&& 1 = 1
  · rw [expandFrom_literal hf]
    have := length_expandFrom_le n (f >>> 1) (d.put b) [b']
    rw [length_put] at this
    omega
  · simp only [expandFrom, if_neg hf, length_copy]
    omega

/-- The byte that completes a unit adds to the text. -/
theorem length_expandFrom_cut {n : Nat} {f : UInt8} {w : List UInt8} (h : scan n f w = none)
    (d : Ring) (b : UInt8) :
    (expandFrom n f d w).out.length < (expandFrom n f d (w ++ [b])).out.length := by
  induction n, f, w using scan.induct generalizing d with
  | case1 n f => simp [scan_nil] at h
  | case2 f flags bytes ih =>
      rw [scan] at h
      rw [List.cons_append, expandFrom, expandFrom]
      exact ih h d
  | case3 n f b' bytes hf ih =>
      rw [scan_literal hf] at h
      rw [List.cons_append, expandFrom_literal hf, expandFrom_literal hf]
      exact ih h _
  | case4 n f b' hf =>
      simp only [List.cons_append, List.nil_append, expandFrom, if_neg hf, length_copy]
      omega
  | case5 n f b₁ hf b₂ bytes ih =>
      simp only [scan, if_neg hf] at h
      simp only [List.cons_append, expandFrom, if_neg hf]
      exact ih h _

/-- What follows a code stream in another one adds to the text. -/
theorem length_expand_lt {w rest : List UInt8} (hw : isCode w = true)
    (hall : isCode (w ++ rest) = true) (hne : rest ≠ []) :
    (expand w).length < (expand (w ++ rest)).length := by
  obtain ⟨n, f, hscan, hn⟩ := isCode_iff.mp hw
  obtain ⟨n', f', hscan', hn'⟩ := isCode_iff.mp hall
  rw [scan_append hscan] at hscan'
  rw [expand, expand, expandFrom_append hscan]
  cases n with
  | succ n => exact length_lt_of_scan (by rw [hscan']; rfl) hne
  | zero =>
      cases rest with
      | nil => exact absurd rfl hne
      | cons flags bytes =>
          rw [scan] at hscan'
          rw [expandFrom]
          refine length_lt_of_scan (by rw [hscan']; rfl) ?_
          rintro rfl
          rw [scan_nil, Option.some.injEq, Prod.mk.injEq] at hscan'
          exact hn' hscan'.1.symm

/-- A unit is no longer than its text, and eight of them share a byte of flags. -/
theorem length_le_of_scan {n n' : Nat} {f f' : UInt8} {w : List UInt8}
    (h : scan n f w = some (n', f')) (hn : n ≤ 8) (d : Ring) : n' ≤ 8 ∧
    8 * w.length + n + 9 * d.out.length ≤ 9 * (expandFrom n f d w).out.length + n' := by
  induction n, f, w using scan.induct generalizing d with
  | case1 n f =>
      rw [scan_nil, Option.some.injEq, Prod.mk.injEq] at h
      rw [expandFrom_nil, List.length_nil]
      omega
  | case2 f flags bytes ih =>
      rw [scan] at h
      have hle := ih h le_rfl d
      rw [expandFrom, List.length_cons]
      omega
  | case3 n f b bytes hf ih =>
      rw [scan_literal hf] at h
      have hle := ih h (by omega) (d.put b)
      rw [length_put] at hle
      rw [expandFrom_literal hf, List.length_cons]
      omega
  | case4 n f b hf => simp [scan, hf] at h
  | case5 n f b hf b' bytes ih =>
      simp only [scan, if_neg hf] at h
      simp only [expandFrom, if_neg hf, List.length_cons]
      refine ⟨(ih h (by omega) d).1, le_trans ?_ (ih h (by omega) _).2⟩
      rw [length_copy, THRESHOLD]
      omega

/-- The flags of a unit and of a group are used up. -/
theorem scan_unit {u : Code} {f : UInt8} (hf : f.toNat.testBit 0 = u.isLiteral) (n : Nat)
    (rest : List UInt8) : scan (n + 1) f (u.bytes ++ rest) = scan n (f >>> 1) rest := by
  cases u with
  | literal c =>
      exact scan_literal ((and_one_eq_one_iff f).mpr hf) n c rest
  | pair pos length =>
      have h1 : ¬ f &&& 1 = 1 := fun h => by simp [(and_one_eq_one_iff f).mp h, Code.isLiteral] at hf
      simp only [Code.bytes, List.cons_append, List.nil_append, scan, if_neg h1]

theorem scan_units (us : List Code) {n : Nat} (hn : us.length ≤ n) {f : UInt8}
    (hf : ∀ i (hi : i < us.length), f.toNat.testBit i = us[i].isLiteral) :
    ∃ f', scan n f (us.flatMap Code.bytes) = some (n - us.length, f') := by
  induction us generalizing n f with
  | nil => exact ⟨f, scan_nil n f⟩
  | cons u us ih =>
      obtain ⟨n, rfl⟩ : ∃ m, n = m + 1 := ⟨n - 1, by simp only [List.length_cons] at hn; omega⟩
      simp only [List.length_cons, Nat.add_le_add_iff_right] at hn
      have hu : f.toNat.testBit 0 = u.isLiteral := hf 0 (by simp)
      rw [List.flatMap_cons, scan_unit hu, List.length_cons, Nat.add_sub_add_right]
      refine ih hn fun i hi => ?_
      rw [testBit_shiftRight_one]
      exact hf (i + 1) (by simpa using hi)

end Xv6.Zip
