import Xv6.Sh.Parse

/-!
# Xv6.Sh.Terminate

`nulterminate` writes its terminators into the line that was parsed, over the
operators and the white space behind the words.

* `Delimits` are the words of the line, as `gettoken` finds them from wherever it is
  called; `delimits_iff` says which spans they are.
* `nulterminate_recovers`: no terminator falls inside a word, so that each pointer
  of the tree points to its word.
-/

namespace Xv6.Sh

/-- Called somewhere in `s`, `gettoken` finds the word `w`. -/
def Delimits (s : List UInt8) (w : Span) : Prop :=
  ∃ p, p <:+ s ∧ (gettoken p).1 = 0x61 ∧ (gettoken p).2.1 = w

/-- The bytes `q..eq` of memory. -/
def between (n : Nat) (buf : Buf) (w : Span) : List UInt8 :=
  (buf.drop (addr n w.1)).take (addr n w.2 - addr n w.1)

section Words

variable {s : List UInt8} {w : Span}

theorem WordAt.head (h : WordAt s w) : ∃ c u, w.1 = c :: u ∧ isWord c = true ∧ c ≠ 0 := by
  obtain ⟨c, u, hcu⟩ := List.exists_cons_of_ne_nil h.word.ne_nil
  have hmem : c ∈ w.text := by simp [hcu]
  refine ⟨c, u ++ w.2, by rw [h.split, hcu, List.cons_append], h.word.isWord c hmem, ?_⟩
  rintro rfl
  exact h.word.no_nul hmem

theorem WordAt.gettoken_eq (h : WordAt s w) : gettoken w.1 = (0x61, w, skip w.2) := by
  obtain ⟨c, u, hw, hword, hc⟩ := h.head
  have hwhite : whitespace.contains c = false := by
    unfold isWord at hword
    simp_all
  have hsym := contains_symbols_of_isWord hword
  have hgt : c ≠ 0x3e := by
    rintro rfl
    exact absurd hsym (by decide)
  have hdrop : (c :: u).dropWhile isWord = w.2 := by
    have hends : w.2.dropWhile isWord = w.2 := by
      cases hu : w.2 with
      | nil => rfl
      | cons d v => exact List.dropWhile_cons_of_neg (by simp [h.ends d (by simp [hu])])
    rw [← hw, h.split, List.dropWhile_append_of_pos h.word.isWord, hends]
  unfold gettoken
  rw [hw, skip_cons hwhite]
  simp only [hc, hgt, hsym, hdrop, if_false, Bool.false_eq_true]
  rw [← hw]

/-- The words that `gettoken` finds. -/
theorem delimits_iff (h₀ : 0 ∉ s) : Delimits s w ↔ WordAt s w := by
  constructor
  · rintro ⟨p, hp, hcode, rfl⟩
    have hnul : 0 ∉ p := fun h => h₀ (hp.subset h)
    rcases gettoken_cases hnul with ⟨-, hg⟩ | ⟨t, u, hnext, hg⟩
    · rw [hg] at hcode
      exact absurd hcode (by decide)
    · rw [hg] at hcode ⊢
      obtain ⟨v, rfl⟩ := Token.exists_word hcode
      exact hnext.wordAt hp
  · intro h
    exact ⟨w.1, h.suffix, by rw [h.gettoken_eq], by rw [h.gettoken_eq]⟩

theorem WordAt.between_eq (h : WordAt s w) : between s.length s w = w.text := by
  have haddr := h.addr_eq.1
  unfold between
  rw [haddr, Nat.add_sub_cancel_left, addr, ← List.suffix_iff_eq_drop.mp h.suffix, h.split]
  simp

end Words

/-- What is at a word, whichever terminators are written. -/
theorem Stands.between_eq {s : List UInt8} {w : Span} {z : Prop} {buf : Buf}
    (hs : Stands s w z buf) (h : WordAt s w) : between s.length buf w = w.text := by
  obtain ⟨c, rest, hdrop, -⟩ := hs
  unfold between
  rw [hdrop, h.addr_eq.1, Nat.add_sub_cancel_left, List.take_left]

/-- **`nulterminate` recovers every word**: the string at each pointer of the tree is
the text of a word of the line, as `gettoken` delimits it there; no terminator falls
inside a word of the line, and every word still stands where it stood. -/
theorem nulterminate_recovers {s : CString} {cmd : Cmd Span} {buf : Buf}
    (h : parsecmd s = .ok (cmd, buf)) :
    (∀ w ∈ cmd.words, Delimits s.bytes w ∧
      cstr s.bytes.length buf w.1 = between s.bytes.length s.bytes w) ∧
    ∀ w, Delimits s.bytes w →
      (∀ w' ∈ cmd.words, addr s.bytes.length w'.2 < addr s.bytes.length w.1 ∨
        addr s.bytes.length w.2 ≤ addr s.bytes.length w'.2) ∧
      between s.bytes.length buf w = between s.bytes.length s.bytes w := by
  obtain ⟨rfl, hwords, -⟩ := parsecmd_parsed h
  have hstands {w : Span} (hw : WordAt s.bytes w) : Stands s.bytes w (False ∨ w ∈ cmd.words)
      (nulterminate s.bytes.length cmd (s.bytes ++ [0])) := by
    rw [nulterminate_eq]
    exact hw.stands.foldl hw cmd.words hwords
  refine ⟨fun w hw => ⟨(delimits_iff s.no_nul).mpr (hwords w hw), ?_⟩, fun w hw => ?_⟩
  · obtain ⟨c, rest, hdrop, hc⟩ := hstands (hwords w hw)
    rw [(hwords w hw).between_eq]
    exact Stands.cstr ⟨c, rest, hdrop, fun _ => hc (.inr hw)⟩ (hwords w hw)
  · have hw' := (delimits_iff s.no_nul).mp hw
    exact ⟨fun v hv => hw'.not_inside (hwords v hv),
      ((hstands hw').between_eq hw').trans hw'.between_eq.symm⟩

/-- `a>b|(c;d)<e` -/
def dense : CString :=
  ⟨[0x61, 0x3e, 0x62, 0x7c, 0x28, 0x63, 0x3b, 0x64, 0x29, 0x3c, 0x65], by decide⟩

theorem nulterminate_recovers_dense : ∃ cmd buf, parsecmd dense = .ok (cmd, buf) ∧
    cmd.words.map Span.text = [[0x61], [0x62], [0x63], [0x64], [0x65]] ∧
    buf = [0x61, 0, 0x62, 0, 0x28, 0x63, 0, 0x64, 0, 0x3c, 0x65, 0] ∧
    ∀ w ∈ cmd.words,
      cstr dense.bytes.length buf w.1 = between dense.bytes.length dense.bytes w := by
  have hrun : (parsecmd dense).toOption.any (fun r =>
      decide (r.1.words.map Span.text = [[0x61], [0x62], [0x63], [0x64], [0x65]] ∧
        r.2 = [0x61, 0, 0x62, 0, 0x28, 0x63, 0, 0x64, 0, 0x3c, 0x65, 0])) = true := by
    decide +kernel
  cases hr : parsecmd dense with
  | error e => rw [hr] at hrun; contradiction
  | ok r =>
      obtain ⟨cmd, buf⟩ := r
      rw [hr] at hrun
      obtain ⟨hwords, hbuf⟩ := of_decide_eq_true hrun
      exact ⟨cmd, buf, rfl, hwords, hbuf, fun w hw => ((nulterminate_recovers hr).1 w hw).2⟩

end Xv6.Sh
