import Mathlib.Algebra.Ring.Nat
import Xv6.Zip.Expand
import Xv6.Zip.Tree

/-!
# Xv6.Zip.Send

The code buffer: `code_buf[0]` holds the flags of the units that wait to be
sent and `code_buf[1..code_buf_ptr)` their bytes, and what has been sent
consists of full groups.  So the units sent and waiting, one after the other,
are what the expansion of all these bytes does.
-/

namespace Xv6.Zip

/-- `code_buf[0..code_buf_ptr)` -/
def Out.group (o : Out) : List UInt8 := (List.range o.codeBufPtr).map o.codeBuf

/-- Full groups that lead to `d` have been sent, and `us` waits. -/
structure Holding (o : Out) (us : List Code) (d : Ring) : Prop where
  sent : ∀ rest, expandFrom 0 0 Ring.zero (o.written ++ rest) = expandFrom 0 0 d rest
  fits : ∀ u ∈ us, u.Fits
  length_le : us.length ≤ 8
  code : o.group = o.codeBuf 0 :: us.flatMap Code.bytes
  flags : ∀ i < 8, (o.codeBuf 0).toNat.testBit i = us[i]?.any Code.isLiteral

/-- Eight units require at most 16 bytes of code. -/
theorem length_bytes_le (us : List Code) : (us.flatMap Code.bytes).length ≤ 2 * us.length := by
  induction us with
  | nil => simp
  | cons u us ih =>
      have hu : u.bytes.length ≤ 2 := by cases u <;> simp [Code.bytes]
      simp only [List.flatMap_cons, List.length_append, List.length_cons]
      omega

section Buffer

variable {o : Out} {us : List Code} {d : Ring}

theorem Holding.ptr_eq (h : Holding o us d) :
    o.codeBufPtr = 1 + (us.flatMap Code.bytes).length := by
  have := congrArg List.length h.code
  simp only [Out.group, List.length_map, List.length_range, List.length_cons] at this
  omega

theorem wp_setCode {i : Nat} (h : i < 17) {c : UInt8} {Q : Unit → Out → Prop} :
    wp (setCode i c) o Q ↔ Q () { o with codeBuf := Function.update o.codeBuf i c } := by
  simp only [setCode, wp_bind, wp_check h, wp_modify]

/-- One more byte at the end of the buffer. -/
theorem pushCode_spec (h0 : 0 < o.codeBufPtr) (h17 : o.codeBufPtr < 17) (c : UInt8) :
    wp (pushCode c) o fun _ o' => o'.group = o.group ++ [c] ∧ o'.codeBuf 0 = o.codeBuf 0 ∧
      o'.codeBufPtr = o.codeBufPtr + 1 ∧ o'.mask = o.mask ∧ o'.written = o.written := by
  unfold pushCode
  rw [wp_bind, wp_get, wp_bind, wp_setCode h17, wp_modify]
  refine ⟨?_, Function.update_of_ne (by omega) _ _, rfl, rfl, rfl⟩
  simp only [Out.group, List.range_succ, List.map_append, List.map_cons, List.map_nil,
    Function.update_self]
  congr 1
  refine List.map_congr_left fun i hi => Function.update_of_ne ?_ _ _
  rw [List.mem_range] at hi
  omega

theorem any_getElem?_concat (u : Code) (i : Nat) :
    (us ++ [u])[i]?.any Code.isLiteral =
      (us[i]?.any Code.isLiteral || (decide (us.length = i) && u.isLiteral)) := by
  rcases Nat.lt_trichotomy i us.length with hlt | heq | hgt
  · simp [List.getElem?_append_left hlt, Nat.ne_of_gt hlt]
  · simp [heq]
  · have h1 : us[i]? = none := List.getElem?_eq_none (by omega)
    have h2 : (us ++ [u])[i]? = none := List.getElem?_eq_none (by simp; omega)
    simp [h1, h2, Nat.ne_of_lt hgt]

/-- Nothing but the flags. -/
theorem Holding.eq_nil (h : Holding o us d) (hptr : o.codeBufPtr ≤ 1) : us = [] := by
  have hlen := h.ptr_eq
  cases us with
  | nil => rfl
  | cons u us =>
      have : 0 < u.bytes.length := by cases u <;> simp [Code.bytes]
      simp only [List.flatMap_cons, List.length_append] at hlen
      omega

/-- Room for another unit. -/
theorem Holding.ptr_lt (h : Holding o us d) (hlt : us.length < 8) : o.codeBufPtr < 16 := by
  have := length_bytes_le us
  have := h.ptr_eq
  omega

/-- Another unit in the buffer. -/
theorem Holding.concat {o' : Out} {u : Code} (h : Holding o us d) (hlt : us.length < 8)
    (hu : u.Fits) (hwritten : o'.written = o.written)
    (hcode : o'.group = o'.codeBuf 0 :: (us.flatMap Code.bytes ++ u.bytes))
    (hflags : ∀ i < 8, (o'.codeBuf 0).toNat.testBit i =
      ((o.codeBuf 0).toNat.testBit i || (decide (us.length = i) && u.isLiteral))) :
    Holding o' (us ++ [u]) d where
  sent := by rw [hwritten]; exact h.sent
  fits := fun v hv => by
    rcases List.mem_append.mp hv with hv | hv
    · exact h.fits v hv
    · rw [List.mem_singleton.mp hv]; exact hu
  length_le := by rw [List.length_append, List.length_singleton]; omega
  code := by rw [hcode, List.flatMap_append, List.flatMap_singleton]
  flags := fun i hi => by rw [hflags i hi, h.flags i hi, any_getElem?_concat]

/-- Other flags over the same bytes. -/
theorem Holding.group_setCode (h : Holding o us d) (f : UInt8) :
    Out.group { o with codeBuf := Function.update o.codeBuf 0 f } =
      f :: us.flatMap Code.bytes := by
  have hcode := h.code
  have hptr := h.ptr_eq
  rw [Nat.add_comm] at hptr
  simp only [Out.group, hptr, List.range_succ_eq_map, List.map_cons, List.map_map,
    List.cons.injEq, true_and, Function.update_self] at hcode ⊢
  refine Eq.trans (List.map_congr_left fun i _ => ?_) hcode
  exact Function.update_of_ne (Nat.succ_ne_zero i) _ _

theorem sendByte_spec (h : Holding o us d) (hlt : us.length < 8)
    (hmask : o.mask.toNat = 2 ^ us.length) (c : UInt8) :
    wp (sendByte c) o fun _ o' => Holding o' (us ++ [.literal c]) d ∧ o'.mask = o.mask := by
  have hptr := h.ptr_eq
  have hlt' := h.ptr_lt hlt
  unfold sendByte
  rw [wp_bind, wp_get, wp_bind, wp_get, wp_bind, wp_setCode (by omega)]
  refine (pushCode_spec (by simp only; omega) (by simp only; omega) c).mono ?_
  rintro _ o' ⟨hgroup, hzero, -, hmask', hwritten⟩
  rw [h.group_setCode] at hgroup
  simp only [Function.update_self] at hzero
  refine ⟨h.concat hlt trivial hwritten ?_ fun i hi => ?_, hmask'⟩
  · rw [hgroup, hzero, List.cons_append]
    rfl
  · rw [hzero, UInt8.toNat_or, Nat.testBit_or, hmask, Nat.testBit_two_pow]
    simp [Code.isLiteral]

theorem sendPair_spec (h : Holding o us d) (hlt : us.length < 8) {pos length : Nat}
    (hu : Code.Fits (.pair pos length)) :
    wp (sendPair pos length) o fun _ o' =>
      Holding o' (us ++ [.pair pos length]) d ∧ o'.mask = o.mask := by
  have hptr := h.ptr_eq
  have hlt' := h.ptr_lt hlt
  unfold sendPair
  refine wp_bind_of (pushCode_spec (by omega) (by omega) _) ?_
  rintro _ o₁ ⟨hgroup₁, hzero₁, hptr₁, hmask₁, hwritten₁⟩
  refine (pushCode_spec (by omega) (by omega) _).mono ?_
  rintro _ o₂ ⟨hgroup₂, hzero₂, -, hmask₂, hwritten₂⟩
  refine ⟨h.concat hlt hu (hwritten₂.trans hwritten₁) ?_ fun i hi => ?_, hmask₂.trans hmask₁⟩
  · rw [hgroup₂, hgroup₁, h.code, hzero₂, hzero₁]
    simp [Code.bytes]
  · rw [hzero₂, hzero₁]
    simp [Code.isLiteral]

theorem writeCode_spec (hptr : o.codeBufPtr ≤ 17) :
    wp writeCode o fun _ o' => o'.written = o.written ++ o.group := by
  unfold writeCode
  rw [wp_bind, wp_get]
  refine wp_bind_of (wp_forM (fun done todo o' => done ++ todo = List.range o.codeBufPtr ∧
    o'.codeBuf = o.codeBuf ∧ o'.written = o.written ++ done.map o.codeBuf) ?_
    ⟨List.nil_append _, rfl, by simp⟩) ?_
  · rintro done i todo o' ⟨hdone, hcode, hwritten⟩
    have hi : i < o.codeBufPtr := List.mem_range.mp (hdone ▸ by simp)
    rw [wp_bind, wp_check (by omega), wp_modify]
    refine ⟨by simp [hdone], hcode, ?_⟩
    simp only [hwritten, hcode, List.map_append, List.map_cons, List.map_nil, List.append_assoc]
  · rintro _ o' ⟨-, -, hwritten⟩
    exact wp_modify.mpr hwritten

/-- The bytes of the waiting group do what its units do. -/
theorem Holding.expand_group (h : Holding o us d) (rest : List UInt8) :
    ∃ f, expandFrom 0 0 Ring.zero (o.written ++ (o.group ++ rest)) =
      expandFrom (8 - us.length) f (us.foldl Ring.unit d) rest := by
  rw [h.sent, h.code, List.cons_append, expandFrom]
  refine expandFrom_units us h.fits h.length_le (fun i hi => ?_) d rest
  rw [h.flags i (Nat.lt_of_lt_of_le hi h.length_le), List.getElem?_eq_getElem hi, Option.any_some]

/-- Nothing is waiting. -/
theorem clearCode_spec (hsent : ∀ rest, expandFrom 0 0 Ring.zero (o.written ++ rest) =
    expandFrom 0 0 d rest) :
    wp clearCode o fun _ o' => Holding o' [] d ∧ o'.mask.toNat = 1 ∧
      o'.written = o.written := by
  unfold clearCode
  rw [wp_bind, wp_setCode (by omega), wp_modify]
  refine ⟨⟨hsent, by simp, by simp, ?_, fun i _ => ?_⟩, rfl, rfl⟩
  · simp [Out.group]
  · simp

/-- The mask is shifted; a full group is sent, and nothing waits any more. -/
theorem shiftMask_spec (h : Holding o us d) {n : Nat} (hus : us.length = n + 1)
    (hmask : o.mask.toNat = 2 ^ n) :
    wp shiftMask o fun _ o' => ∃ us' d', Holding o' us' d' ∧ us'.length < 8 ∧
      o'.mask.toNat = 2 ^ us'.length ∧ us'.foldl Ring.unit d' = us.foldl Ring.unit d := by
  have hlen := h.length_le
  have hshift : (o.mask <<< 1).toNat = 2 ^ (n + 1) % 256 := by
    rw [UInt8.toNat_shiftLeft, hmask]
    simp [Nat.shiftLeft_eq, Nat.pow_succ]
  have hsmall : n < 7 → 2 ^ (n + 1) % 256 = 2 ^ (n + 1) := fun hn =>
    Nat.mod_eq_of_lt (show 2 ^ (n + 1) < 2 ^ 8 from Nat.pow_lt_pow_right (by omega) (by omega))
  unfold shiftMask
  rw [wp_bind, wp_modify, wp_bind, wp_get]
  split
  next hzero =>
    have hfull : us.length = 8 := by
      by_contra hne
      simp only at hzero
      rw [hzero, hsmall (by omega)] at hshift
      exact absurd hshift.symm (Nat.pos_iff_ne_zero.mp (Nat.two_pow_pos _))
    have hptr := h.ptr_eq
    have := length_bytes_le us
    refine wp_bind_of (writeCode_spec (by simp only; omega)) fun _ o₁ hw => ?_
    have hsent : ∀ rest, expandFrom 0 0 Ring.zero (o₁.written ++ rest) =
        expandFrom 0 0 (us.foldl Ring.unit d) rest := fun rest => by
      obtain ⟨f, hf⟩ := h.expand_group rest
      rw [hfull, Nat.sub_self] at hf
      rw [hw, List.append_assoc]
      exact hf.trans (expandFrom_zero f _ rest)
    exact (clearCode_spec hsent).mono fun _ o₂ ho => ⟨[], _, ho.1, by simp, ho.2.1, rfl⟩
  next hzero =>
    have hn : n < 7 := by
      by_contra hge
      have h8 : n + 1 = 8 := by omega
      rw [h8] at hshift
      exact hzero (UInt8.toNat_inj.mp hshift)
    refine wp_pure.mpr ⟨us, d, ⟨h.sent, h.fits, h.length_le, h.code, h.flags⟩, by omega, ?_, rfl⟩
    rw [hus, ← hsmall hn]
    exact hshift

/-- **The bytes sent expand to the units sent.** -/
theorem Holding.expand_flush (h : Holding o us d) :
    expand (o.written ++ o.group) = (us.foldl Ring.unit d).out := by
  obtain ⟨f, hf⟩ := h.expand_group []
  rw [List.append_nil, expandFrom_nil] at hf
  rw [expand, hf]

theorem Holding.expand_written (h : Holding o [] d) : expand o.written = d.out := by
  have := h.sent []
  rw [List.append_nil, expandFrom_nil] at this
  rw [expand, this]

/-! ## the end -/

/-- What has been written when `Encode` is done: the full groups, and the one that was
waiting. -/
def Flushed (xs written : List UInt8) : Prop :=
  ∃ o us d, Holding o us d ∧ (us.foldl Ring.unit d).out = xs ∧
    (us ≠ [] ∧ written = o.written ++ o.group ∨ us = [] ∧ written = o.written)

theorem Flushed.expand_eq {xs written : List UInt8} (h : Flushed xs written) :
    expand written = xs := by
  obtain ⟨o, us, d, hold, hout, ⟨-, rfl⟩ | ⟨rfl, rfl⟩⟩ := h
  · rw [hold.expand_flush, hout]
  · rw [hold.expand_written]
    exact hout

/-- The full groups end where a flag byte is next: otherwise the bytes `0`, `0` behind them
would add to the text, which they do not as the start of a group. -/
theorem Holding.scan_written (h : Holding o us d) : ∃ f, scan 0 0 o.written = some (0, f) := by
  have hnil := h.sent []
  have hzero : expandFrom 0 0 d [0, 0] = d := rfl
  have hlast : expandFrom 0 0 d [0] = d := rfl
  rw [List.append_nil, expandFrom_nil] at hnil
  cases hscan : scan 0 0 o.written with
  | none =>
      have hcut := length_expandFrom_cut hscan Ring.zero 0
      rw [hnil, h.sent [0], hlast] at hcut
      omega
  | some x =>
      obtain ⟨n, f⟩ := x
      cases n with
      | zero => exact ⟨f, rfl⟩
      | succ n =>
          have htwo := h.sent [0, 0]
          rw [expandFrom_append hscan, hnil, hzero] at htwo
          have hlt := length_two_lt n f d 0 0
          rw [htwo] at hlt
          omega

/-- Behind the waiting group its other flags are left. -/
theorem Holding.scan_group (h : Holding o us d) :
    ∃ f, scan 0 0 (o.written ++ o.group) = some (8 - us.length, f) := by
  obtain ⟨_, hscan⟩ := h.scan_written
  obtain ⟨f, hunits⟩ := scan_units us h.length_le fun i hi => by
    rw [h.flags i (Nat.lt_of_lt_of_le hi h.length_le), List.getElem?_eq_getElem hi, Option.any_some]
  exact ⟨f, by rw [scan_append hscan, h.code, scan, hunits]⟩

/-- **What `Encode` leaves is a code stream.** -/
theorem Flushed.isCode {xs written : List UInt8} (h : Flushed xs written) :
    isCode written = true := by
  obtain ⟨o, us, d, hold, -, ⟨hne, rfl⟩ | ⟨rfl, rfl⟩⟩ := h
  · obtain ⟨f, hscan⟩ := hold.scan_group
    have hpos := List.length_pos_iff.mpr hne
    exact isCode_iff.mpr ⟨_, f, hscan, by omega⟩
  · obtain ⟨f, hscan⟩ := hold.scan_written
    exact isCode_iff.mpr ⟨0, f, hscan, by decide⟩

end Buffer

end Xv6.Zip
