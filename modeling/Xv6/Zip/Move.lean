import Xv6.Zip.Lossless

/-!
# Xv6.Zip.Move

`zip -m`: the input file is encoded and then unlinked.

`main` looks at no result of `write`, and `open` without truncation leaves the old content of
the output file where nothing is written over it.  So the input is lost when a write fails
(`move_loses`), and when the old content is longer than the code.  `move_safe_iff` says that
these are the only ways, for writes that succeed up to some point.
-/

namespace Xv6.Zip

/-! ## the output file -/

/-- A `write` of one byte at the offset of the descriptor. -/
def store (content : List UInt8) (off : Nat) (c : UInt8) : List UInt8 :=
  content.take off ++ c :: content.drop (off + 1)

/-- The writes of `bytes`, from call `i` on; `ok i` says whether call `i` succeeds. -/
def writes (ok : Nat → Bool) : Nat → Nat → List UInt8 → List UInt8 → List UInt8
  | _, _, content, [] => content
  | i, off, content, c :: bytes =>
      if ok i then writes ok (i + 1) (off + 1) (store content off c) bytes
      else writes ok (i + 1) off content bytes

/-- `main` with the argument `-m`: the output file, and whether the input file has been
unlinked, which `unlinks` says. -/
def mainMove (codeBuf : Nat → UInt8) (file old : List UInt8) (ok : Nat → Bool) (unlinks : Bool) :
    Except Fault (List UInt8 × Bool) :=
  (encode [file] (start codeBuf)).map fun x => (writes ok 0 0 old x.2.out.written, unlinks)

/-- The bytes passed to `write`. -/
def sent : Except Fault (Unit × Enc) → List UInt8
  | .ok (_, e) => e.out.written
  | .error _ => []

/-- The stream that `Encode` makes of a file. -/
def codeOf (codeBuf : Nat → UInt8) (file : List UInt8) : List UInt8 :=
  sent (encode [file] (start codeBuf))

/-- The output file is a code stream that stands for the input file. -/
def Kept (file output : List UInt8) : Prop := isCode output = true ∧ expand output = file

variable {codeBuf : Nat → UInt8} {file old : List UInt8} {ok : Nat → Bool}

theorem writes_none {i off : Nat} {content bytes : List UInt8}
    (h : ∀ j, i ≤ j → j < i + bytes.length → ok j = false) :
    writes ok i off content bytes = content := by
  induction bytes generalizing i with
  | nil => rfl
  | cons c bytes ih =>
      rw [List.length_cons] at h
      have hi : ¬ ok i = true := by simp [h i le_rfl (by omega)]
      rw [writes, if_neg hi]
      exact ih fun j h1 h2 => h j (by omega) (by omega)

/-- The first `m` calls succeed and the others fail. -/
theorem writes_first {i off m : Nat} {content bytes : List UInt8} (hoff : off ≤ content.length)
    (h : ∀ j, i ≤ j → j < i + bytes.length → ok j = decide (j < m)) :
    writes ok i off content bytes = content.take off ++ bytes.take (m - i) ++
      content.drop (off + (bytes.take (m - i)).length) := by
  induction bytes generalizing i off content with
  | nil => simp [writes]
  | cons c bytes ih =>
      rw [List.length_cons] at h
      have hi := h i le_rfl (by omega)
      by_cases him : i < m
      · have hok : ok i = true := by simp [hi, him]
        have hlen : off < (store content off c).length := by
          simp only [store, List.length_append, List.length_take, List.length_cons]
          omega
        have htake : (store content off c).take (off + 1) = content.take off ++ [c] := by
          have hl : (content.take off).length = off := by simp [hoff]
          rw [store, List.take_append, hl, List.take_of_length_le (by omega), Nat.add_sub_cancel_left]
          rfl
        have hdrop (a : Nat) : (store content off c).drop (off + 1 + a) =
            content.drop (off + (a + 1)) := by
          have hl : (content.take off).length = off := by simp [hoff]
          rw [store, List.drop_append, hl, List.drop_of_length_le (by omega),
            show off + 1 + a - off = a + 1 by omega]
          simp [List.drop_drop, Nat.add_comm, Nat.add_left_comm]
        rw [writes, if_pos hok, ih (by omega) fun j h1 h2 => h j (by omega) (by omega), htake,
          hdrop, show m - i = m - (i + 1) + 1 by omega, List.take_succ_cons, List.length_cons]
        simp
      · have hok : ¬ ok i = true := by simp [hi, him]
        rw [writes, if_neg hok, ih hoff fun j h1 h2 => h j (by omega) (by omega),
          show m - i = 0 by omega, show m - (i + 1) = 0 by omega]
        simp

/-! ## the code -/

/-- `Encode` returns at an empty first file. -/
theorem encode_nil (codeBuf : Nat → UInt8) (files : List (List UInt8)) :
    wp (encode ([] :: files)) (start codeBuf) fun _ e => e.out.written = [] := by
  unfold encode
  refine prepare_spec codeBuf fun e hr _ _ _ _ hwritten => ?_
  simp only [encodeFiles, encodeFile, fillLoop, readByte, wp_bind, wp_modify, wp_get, wp_pure]
  rw [if_pos (by decide), wp_pure, if_pos rfl, wp_pure, if_pos rfl, wp_pure]
  exact hwritten

theorem codeOf_eq {e : Enc} (he : encode [file] (start codeBuf) = .ok ((), e)) :
    codeOf codeBuf file = e.out.written := by
  rw [codeOf, he, sent]

theorem mainMove_eq {e : Enc} (he : encode [file] (start codeBuf) = .ok ((), e))
    (unlinks : Bool) :
    mainMove codeBuf file old ok unlinks = .ok (writes ok 0 0 old e.out.written, unlinks) := by
  rw [mainMove, he, Except.map]

/-- `Encode` returns, and what it has sent stands for the file. -/
theorem encode_kept (codeBuf : Nat → UInt8) (file : List UInt8) :
    ∃ e, encode [file] (start codeBuf) = .ok ((), e) ∧ e.out.written = codeOf codeBuf file ∧
      Kept file (codeOf codeBuf file) := by
  have hwp : wp (encode [file]) (start codeBuf) fun _ e => Kept file e.out.written := by
    by_cases hfile : file = []
    · subst hfile
      exact (encode_nil codeBuf []).mono fun _ e he => by rw [he]; exact ⟨rfl, rfl⟩
    · exact (encode_flushed hfile codeBuf).mono fun _ e he => ⟨he.isCode, he.expand_eq⟩
  obtain ⟨_, e, he, hkept⟩ := hwp
  have hcode := codeOf_eq he
  exact ⟨e, he, hcode.symm, hcode ▸ hkept⟩

/-- **`zip` adds at most one byte to every eight**, and one at the end, whatever the file. -/
theorem encode_length_le (codeBuf : Nat → UInt8) (file : List UInt8) :
    ∃ e, encode [file] (start codeBuf) = .ok ((), e) ∧
      8 * e.out.written.length ≤ 9 * file.length + 7 := by
  obtain ⟨e, he, hcode, hkept⟩ := encode_kept codeBuf file
  obtain ⟨n, f, hscan, hne⟩ := isCode_iff.mp hkept.1
  obtain ⟨hn, hle⟩ := length_le_of_scan hscan (Nat.zero_le 8) Ring.zero
  rw [← expand, hkept.2, ← hcode] at hle
  exact ⟨e, he, by omega⟩

/-- Of two streams of which one begins with the other, only one stands for the file. -/
theorem Kept.unique {w rest : List UInt8} (hw : Kept file w) (hall : Kept file (w ++ rest)) :
    rest = [] := by
  by_contra hne
  have hlt := length_expand_lt hw.1 hall.1 hne
  rw [hw.2, hall.2] at hlt
  exact Nat.lt_irrefl _ hlt

/-- **`zip -m` keeps the data** if no write fails and the old content of the output file is
not longer than the code, and in no other case in which the calls that succeed come first and
what they write is not shorter than the old content. -/
theorem move_safe_iff (codeBuf : Nat → UInt8) (file old : List UInt8) (ok : Nat → Bool)
    (m : Nat) (hok : ∀ i < (codeOf codeBuf file).length, ok i = decide (i < m))
    (hold : m < (codeOf codeBuf file).length → old.length ≤ m) :
    ∃ output, mainMove codeBuf file old ok true = .ok (output, true) ∧
      (Kept file output ↔
        (∀ i < (codeOf codeBuf file).length, ok i = true) ∧
          old.length ≤ (codeOf codeBuf file).length) := by
  obtain ⟨e, he, hcode, hkept⟩ := encode_kept codeBuf file
  refine ⟨writes ok 0 0 old (codeOf codeBuf file), ?_, ?_⟩
  · rw [mainMove_eq he, hcode]
  · rw [writes_first (Nat.zero_le _) fun j _ hj => hok j (by omega), List.take_zero, List.nil_append,
      Nat.sub_zero, Nat.zero_add]
    by_cases hm : m < (codeOf codeBuf file).length
    · -- the code is cut
      have hlen : ((codeOf codeBuf file).take m).length = m := by simp [hm.le]
      rw [hlen, List.drop_of_length_le (hold hm), List.append_nil]
      refine ⟨fun hcut => ?_, fun hall => ?_⟩
      · rw [← List.take_append_drop m (codeOf codeBuf file)] at hkept
        have hrest := List.drop_eq_nil_iff.mp (hcut.unique hkept)
        omega
      · have := hall.1 m hm
        rw [hok m hm] at this
        simp at this
    · -- the code is all there, and the rest of the old content behind it
      rw [List.take_of_length_le (by omega)]
      refine ⟨fun hall => ⟨fun i hi => ?_, ?_⟩, fun hall => ?_⟩
      · rw [hok i hi, decide_eq_true_eq]
        omega
      · exact List.drop_eq_nil_iff.mp (hkept.unique hall)
      · rw [List.drop_of_length_le hall.2, List.append_nil]
        exact hkept

/-- With a new output file and no failure the data is kept. -/
theorem move_safe_iff_new : ∃ output, mainMove (fun _ => 255) [97, 98] [] (fun _ => true) true =
    .ok (output, true) ∧ Kept [97, 98] output := by
  obtain ⟨output, hmain, hiff⟩ := move_safe_iff (fun _ => 255) [97, 98] [] (fun _ => true)
    (codeOf (fun _ => 255) [97, 98]).length (fun i hi => by simp [hi]) (fun h => absurd h (by simp))
  exact ⟨output, hmain, hiff.mpr ⟨fun _ _ => rfl, Nat.zero_le _⟩⟩

/-- When no write succeeds, the file is gone and the output is empty; and when the input is
empty, the old content of the output stays. -/
theorem move_loses :
    (∃ output, mainMove (fun _ => 0) [97] [] (fun _ => false) true = .ok (output, true) ∧
      ¬ Kept [97] output) ∧
    ∃ output, mainMove (fun _ => 0) [] [1] (fun _ => true) true = .ok (output, true) ∧
      ¬ Kept [] output := by
  constructor
  · obtain ⟨e, he, -, -⟩ := encode_kept (fun _ => 0) [97]
    refine ⟨[], ?_, by simp [Kept, expand, expandFrom, Ring.zero]⟩
    rw [mainMove_eq he, writes_none fun _ _ _ => rfl]
  · obtain ⟨_, e, he, hcode⟩ := encode_nil (fun _ => 0) []
    refine ⟨[1], ?_, by simp [Kept, isCode, scan]⟩
    rw [mainMove_eq he, hcode, writes]

end Xv6.Zip
