import Xv6.Zip.Move

/-!
# Xv6.Zip.Files

`zip` of several files.  `Encode` returns at the first empty file, and what waits in
`code_buf` is not sent then (`encode_files_iff`).  Behind a file that is not empty the
positions start from where that file ended: `r - i` may be no index at all
(`encode_files_lost`).
-/

namespace Xv6.Zip

variable {xs : List UInt8} {codeBuf : Nat → UInt8}

/-- A code stream with all its groups full. -/
def isWhole (bytes : List UInt8) : Bool := (scan 0 0 bytes).any fun x => x.1 == 0

/-- A group stands for at least as many bytes as it has units. -/
theorem length_expandFrom_ge {n : Nat} {f f' : UInt8} {w : List UInt8}
    (h : scan n f w = some (0, f')) (d : Ring) :
    d.out.length + n ≤ (expandFrom n f d w).out.length := by
  induction n, f, w using scan.induct generalizing d with
  | case1 n f =>
      rw [scan_nil, Option.some.injEq, Prod.mk.injEq] at h
      rw [expandFrom_nil, h.1, Nat.add_zero]
  | case2 f flags bytes ih =>
      rw [scan] at h
      rw [expandFrom]
      exact Nat.le_trans (Nat.le_add_right _ 8) (ih h d)
  | case3 n f b bytes hf ih =>
      rw [scan_literal hf] at h
      rw [expandFrom_literal hf]
      refine Nat.le_trans ?_ (ih h _)
      rw [length_put]
      omega
  | case4 n f b hf => simp [scan, hf] at h
  | case5 n f b hf b' bytes ih =>
      simp only [scan, if_neg hf] at h
      simp only [expandFrom, if_neg hf]
      refine Nat.le_trans ?_ (ih h _)
      rw [length_copy]
      omega

/-- Fewer than eight bytes leave a group that is not full. -/
theorem not_isWhole_of_short {w : List UInt8} (hne : expand w ≠ []) (hlt : (expand w).length < 8) :
    isWhole w = false := by
  rw [isWhole]
  cases hscan : scan 0 0 w with
  | none => rfl
  | some x =>
      obtain ⟨n, f⟩ := x
      cases w with
      | nil => exact absurd rfl hne
      | cons flags bytes =>
          cases n with
          | succ n => rfl
          | zero =>
              rw [scan] at hscan
              have := length_expandFrom_ge hscan Ring.zero
              rw [expand, expandFrom] at hlt
              omega

/-- An empty file. -/
theorem encodeFile_nil (e : Enc) :
    wp (encodeFile []) e fun b e' => b = true ∧ e'.out = e.out := by
  simp only [encodeFile, fillLoop, readByte, wp_bind, wp_modify, wp_get, wp_pure]
  rw [if_pos (by decide), wp_pure]
  exact ⟨rfl, rfl⟩

/-- With an empty file behind it, only the full groups of a file are sent. -/
theorem encode_cut (hxs : xs ≠ []) (codeBuf : Nat → UInt8) (files : List (List UInt8)) :
    wp (encode (xs :: [] :: files)) (start codeBuf) fun _ e =>
      isWhole (codeOf codeBuf xs) = true ∧ expand e.out.written = xs ∨
      isWhole (codeOf codeBuf xs) = false ∧ (expand e.out.written).length < xs.length := by
  obtain ⟨e, ⟨us, d, hold, hlt, -, hexp⟩, -, hrun⟩ := encode_first hxs codeBuf
  obtain ⟨_, e₁, hone, hend⟩ := flush_spec hold hlt
  have hcode := codeOf_eq ((hrun []).trans hone)
  obtain ⟨f, hscan⟩ := hold.scan_written
  rw [wp, hrun, ← wp, encodeFiles]
  simp only [wp_bind]
  refine (encodeFile_nil e).mono ?_
  rintro _ e₂ ⟨rfl, hout⟩
  simp only [if_true, wp_pure, hout, hcode]
  have hout : (us.foldl Ring.unit d).out = xs := by rw [hexp.out, List.take_length]
  rcases hend with ⟨hne, hwritten⟩ | ⟨rfl, hwritten⟩
  · -- the group that is not full is lost
    obtain ⟨f', hscan'⟩ := hold.scan_group
    have hpos := List.length_pos_iff.mpr hne
    refine .inr ⟨?_, ?_⟩
    · rw [hwritten, isWhole, hscan', Option.any_some, beq_eq_false_iff_ne]
      omega
    · rw [← hout, ← hold.expand_flush]
      refine length_expand_lt (isCode_iff.mpr ⟨0, f, hscan, by decide⟩)
        (isCode_iff.mpr ⟨_, f', hscan', by omega⟩) ?_
      rw [hold.code]
      exact List.cons_ne_nil _ _
  · refine .inl ⟨?_, hold.expand_written.trans hout⟩
    rw [hwritten, isWhole, hscan]
    rfl

/-- A file cannot start at `r = 0`: there is no string before it. -/
theorem encodeFile_outOfBounds {e : Enc} (hr : e.r = 0) (c : UInt8) :
    encodeFile [c] e = .error .outOfBounds := by
  have hfill : wp (fillLoop F 0) { e with file := [c] } fun len e' => len = 1 ∧ e'.r = 0 := by
    simp only [fillLoop, readByte, wp_bind, wp_get, wp_modify, wp_pure, wp_onSearch]
    rw [hr, wp_setText (by decide)]
    exact ⟨trivial, rfl⟩
  obtain ⟨_, e₁, hrun, rfl, hr₁⟩ := hfill
  unfold encodeFile
  rw [bind_of_ok (t := { e with file := [c] }) rfl, bind_of_ok hrun, bind_of_ok rfl, get_bind,
    if_neg (show ¬ UInt32.ofNat 1 = 0 by decide), List.range_succ_eq_map, List.forM]
  rw [bind_assoc, bind_assoc, get_bind]
  simp only [hr₁, Nat.zero_add, Nat.one_pos, if_true]
  rfl

end Xv6.Zip
