import Xv6.Grep
import Xv6.Lib.Cstr

/-!
# Xv6.Grep.Chunks

How the output of `grep` depends on the pieces that its input comes in.

A pass that finds no end of a line sets `m` to 0, and so drops what it has of the line.
`grep_chunks_iff` says which inputs are safe from this: every piece has the end of a line, up
to the last line of the input.
-/

namespace Xv6.Grep

/-! ## lines of a string -/

/-- The lines of a string, each without its end, and what comes after the last one. -/
def cut : List UInt8 → List (List UInt8) × List UInt8
  | [] => ([], [])
  | c :: s =>
      if c = 0x0a then ([] :: (cut s).1, (cut s).2)
      else
        match (cut s).1 with
        | [] => ([], c :: (cut s).2)
        | l :: ls => ((c :: l) :: ls, (cut s).2)

/-- **What `grep` is for**: the lines that match. -/
def emit (pattern : List UInt8) (ls : List (List UInt8)) : List UInt8 :=
  (ls.filter (match' pattern)).flatMap (· ++ [0x0a])

/-- What a pass over `s` leaves in the buffer. -/
def carry (s : List UInt8) : List UInt8 := if (cut s).1 = [] then [] else (cut s).2

/-- The output of `grep`, by the strings in the buffer. -/
def run (pattern : List UInt8) : List UInt8 → List (List UInt8) → List UInt8
  | _, [] => []
  | s, piece :: pieces =>
      emit pattern (cut (s ++ piece)).1 ++ run pattern (carry (s ++ piece)) pieces

theorem cut_of_notMem {s : List UInt8} (h : 0x0a ∉ s) : cut s = ([], s) := by
  induction s with
  | nil => rfl
  | cons c s ih =>
      rw [List.mem_cons, not_or] at h
      rw [cut, if_neg (Ne.symm h.1), ih h.2]

theorem cut_line {l : List UInt8} (h : 0x0a ∉ l) (s : List UInt8) :
    cut (l ++ 0x0a :: s) = (l :: (cut s).1, (cut s).2) := by
  induction l with
  | nil => rfl
  | cons c l ih =>
      rw [List.mem_cons, not_or] at h
      rw [List.cons_append, cut, if_neg (Ne.symm h.1), ih h.2]

/-- A string has no end of a line, or starts with a line. -/
theorem line_cases (s : List UInt8) :
    0x0a ∉ s ∨ ∃ l t, 0x0a ∉ l ∧ s = l ++ 0x0a :: t := by
  by_cases h : 0x0a ∈ s
  · obtain ⟨l, t, rfl, hl⟩ := List.eq_append_cons_of_mem h
    exact .inr ⟨l, t, hl, rfl⟩
  · exact .inl h

/-- **Induction over the lines of a string.** -/
theorem line_induction {P : List UInt8 → Prop} (last : ∀ s, 0x0a ∉ s → P s)
    (line : ∀ l s, 0x0a ∉ l → P s → P (l ++ 0x0a :: s)) (s : List UInt8) : P s := by
  induction hn : s.length using Nat.strongRecOn generalizing s with
  | ind n ih =>
      rcases line_cases s with h | ⟨l, t, hl, rfl⟩
      · exact last s h
      · rw [List.length_append, List.length_cons] at hn
        exact line l t hl (ih t.length (by omega) t rfl)

/-- What comes after the last line goes on with the rest of the string. -/
theorem cut_append (s t : List UInt8) :
    cut (s ++ t) = ((cut s).1 ++ (cut ((cut s).2 ++ t)).1, (cut ((cut s).2 ++ t)).2) := by
  induction s using line_induction with
  | last s h => simp [cut_of_notMem h]
  | line l s hl ih =>
      rw [List.append_assoc, List.cons_append, cut_line hl, ih, cut_line hl]
      rfl

theorem cut_eq_nil {s : List UInt8} : (cut s).1 = [] ↔ 0x0a ∉ s := by
  rcases line_cases s with h | ⟨l, t, hl, rfl⟩
  · simp [cut_of_notMem h, h]
  · simp [cut_line hl]

theorem notMem_cut (s : List UInt8) : 0x0a ∉ (cut s).2 := by
  induction s using line_induction with
  | last s h => rwa [cut_of_notMem h]
  | line l s hl ih => rwa [cut_line hl]

/-- The lines and the rest are the string. -/
theorem flatMap_cut (s : List UInt8) : (cut s).1.flatMap (· ++ [0x0a]) ++ (cut s).2 = s := by
  induction s using line_induction with
  | last s h => simp [cut_of_notMem h]
  | line l s hl ih =>
      rw [cut_line hl, List.flatMap_cons, List.append_assoc, ih]
      simp

theorem emit_append (pattern : List UInt8) (ls ls' : List (List UInt8)) :
    emit pattern (ls ++ ls') = emit pattern ls ++ emit pattern ls' := by
  simp [emit]

/-! ## which pieces are safe -/

/-- A piece without the end of a line is after the last line of the input. -/
def Whole : List (List UInt8) → Prop
  | [] => True
  | piece :: pieces => (0x0a ∈ piece ∨ 0x0a ∉ pieces.flatten) ∧ Whole pieces

/-- Without an end of a line there is no output. -/
theorem run_of_notMem (pattern : List UInt8) {s : List UInt8} {pieces : List (List UInt8)}
    (hs : 0x0a ∉ s) (h : 0x0a ∉ pieces.flatten) : run pattern s pieces = [] := by
  induction pieces generalizing s with
  | nil => rfl
  | cons piece pieces ih =>
      rw [List.flatten_cons, List.mem_append, not_or] at h
      have hnone : 0x0a ∉ s ++ piece := by
        rw [List.mem_append, not_or]
        exact ⟨hs, h.1⟩
      rw [run, carry, cut_of_notMem hnone, if_pos rfl, ih (by simp) h.2]
      rfl

/-- **Pieces that are whole** give the lines of the input that match. -/
theorem run_of_whole (pattern : List UInt8) {s : List UInt8} {pieces : List (List UInt8)}
    (hs : 0x0a ∉ s) (h : Whole pieces) :
    run pattern s pieces = emit pattern (cut (s ++ pieces.flatten)).1 := by
  induction pieces generalizing s with
  | nil =>
      rw [List.flatten_nil, List.append_nil, cut_of_notMem hs]
      rfl
  | cons piece pieces ih =>
      obtain ⟨hpiece, hrest⟩ := h
      rw [List.flatten_cons, ← List.append_assoc, cut_append, emit_append, run, carry]
      by_cases hend : (cut (s ++ piece)).1 = []
      · -- the piece is dropped, and no line follows
        have hnone := cut_eq_nil.mp hend
        have hafter : 0x0a ∉ pieces.flatten :=
          hpiece.resolve_left fun hmem => hnone (List.mem_append_right _ hmem)
        have hall : 0x0a ∉ (cut (s ++ piece)).2 ++ pieces.flatten := by
          rw [List.mem_append, not_or]
          exact ⟨notMem_cut _, hafter⟩
        rw [if_pos hend, run_of_notMem pattern (by simp) hafter, cut_of_notMem hall]
        rfl
      · rw [if_neg hend, ih (notMem_cut _) hrest]

/-- The length of the lines of a string. -/
def lined (s : List UInt8) : Nat := s.length - (cut s).2.length

theorem length_emit_nil (s : List UInt8) : (emit [] (cut s).1).length = lined s := by
  have hall : (cut s).1.filter (match' []) = (cut s).1 := by
    rw [List.filter_eq_self]
    intro l _
    cases l <;> rfl
  have h := congrArg List.length (flatMap_cut s)
  rw [List.length_append] at h
  rw [emit, hall, lined]
  omega

theorem lined_append (s t : List UInt8) : lined (s ++ t) = lined s + lined ((cut s).2 ++ t) := by
  rw [← length_emit_nil, cut_append, emit_append, List.length_append, length_emit_nil,
    length_emit_nil]

theorem lined_of_notMem {s : List UInt8} (h : 0x0a ∉ s) : lined s = 0 := by
  rw [lined, cut_of_notMem h, Nat.sub_self]

/-- A line that is not finished counts when it is. -/
theorem lined_add {s t : List UInt8} (hs : 0x0a ∉ s) (ht : 0x0a ∈ t) :
    lined (s ++ t) = s.length + lined t := by
  obtain ⟨l, u, rfl, hl⟩ := List.eq_append_cons_of_mem ht
  have hsl : 0x0a ∉ s ++ l := by
    rw [List.mem_append, not_or]
    exact ⟨hs, hl⟩
  have hle := congrArg List.length (flatMap_cut u)
  rw [List.length_append] at hle
  rw [lined, lined, ← List.append_assoc, cut_line hsl, cut_line hl]
  simp only [List.length_append, List.length_cons]
  omega

/-- The empty pattern writes no more than the lines, and less if a piece is dropped. -/
theorem length_run_nil {s : List UInt8} {pieces : List (List UInt8)} (hs : 0x0a ∉ s)
    (hne : ∀ piece ∈ pieces, piece ≠ []) :
    (run [] s pieces).length ≤ lined (s ++ pieces.flatten) ∧
      (¬ Whole pieces → (run [] s pieces).length < lined (s ++ pieces.flatten)) := by
  induction pieces generalizing s with
  | nil => exact ⟨Nat.zero_le _, fun h => absurd trivial h⟩
  | cons piece pieces ih =>
      obtain ⟨hpiece, hne⟩ := List.forall_mem_cons.mp hne
      rw [List.flatten_cons, ← List.append_assoc, run, carry, List.length_append,
        length_emit_nil]
      by_cases hend : (cut (s ++ piece)).1 = []
      · have hnone := cut_eq_nil.mp hend
        have hdropped : 0x0a ∉ piece := fun hmem => hnone (List.mem_append_right _ hmem)
        obtain ⟨hle, hlt⟩ := ih (s := []) (by simp) hne
        rw [List.nil_append] at hle hlt
        have hpos : 0 < (s ++ piece).length := by
          rw [List.length_append]
          have := List.length_pos_iff.mpr hpiece
          omega
        rw [if_pos hend, lined_of_notMem hnone, Nat.zero_add]
        by_cases hafter : 0x0a ∈ pieces.flatten
        · rw [lined_add hnone hafter]
          exact ⟨by omega, fun _ => by omega⟩
        · rw [run_of_notMem [] (by simp) hafter]
          refine ⟨Nat.zero_le _, fun hnot => ?_⟩
          have hwhole : ¬ Whole pieces := fun hw => hnot ⟨.inr hafter, hw⟩
          have := hlt hwhole
          rw [lined_of_notMem hafter] at this
          omega
      · have hmem : 0x0a ∈ s ++ piece := by
          by_contra hnone
          exact hend (cut_eq_nil.mpr hnone)
        have hin : 0x0a ∈ piece := (List.mem_append.mp hmem).resolve_left hs
        obtain ⟨hle, hlt⟩ := ih (notMem_cut (s ++ piece)) hne
        rw [if_neg hend, lined_append (s ++ piece)]
        refine ⟨by omega, fun hnot => ?_⟩
        have := hlt fun hw => hnot ⟨.inl hin, hw⟩
        omega

/-! ## the buffer -/

section Buffer

variable {buf : Buf} {p n m : Nat} {s l t : List UInt8} {pattern piece : List UInt8}

theorem strchr_of_notMem (h : StrAt buf p s) (hs : 0x0a ∉ s) : strchr buf 0x0a n p = none := by
  induction s generalizing p n with
  | nil =>
      cases n with
      | zero => rfl
      | succ n => exact if_pos h
  | cons c s ih =>
      cases n with
      | zero => rfl
      | succ n =>
          rw [List.mem_cons, not_or] at hs
          obtain ⟨hc, h0, hrest⟩ := h
          rw [strchr, hc, if_neg h0, if_neg (Ne.symm hs.1)]
          exact ih hrest hs.2

theorem strchr_line (h : StrAt buf p (l ++ 0x0a :: t)) (hl : 0x0a ∉ l) (hn : l.length < n) :
    strchr buf 0x0a n p = some (p + l.length) := by
  induction l generalizing p n with
  | nil =>
      obtain ⟨n, rfl⟩ := Nat.exists_eq_add_one_of_ne_zero (Nat.ne_zero_of_lt hn)
      rw [strchr, h.1, if_neg (by decide), if_pos rfl]
      rfl
  | cons c l ih =>
      obtain ⟨n, rfl⟩ := Nat.exists_eq_add_one_of_ne_zero (Nat.ne_zero_of_lt hn)
      rw [List.mem_cons, not_or] at hl
      obtain ⟨hc, h0, hrest⟩ := h
      rw [strchr, hc, if_neg h0, if_neg (Ne.symm hl.1), ih hrest hl.2 (Nat.lt_of_succ_lt_succ hn),
        List.length_cons]
      congr 1
      omega

theorem str_eq (h : StrAt buf p s) (hn : s.length < n) : str buf n p = s := by
  induction s generalizing p n with
  | nil =>
      obtain ⟨n, rfl⟩ := Nat.exists_eq_add_one_of_ne_zero (Nat.ne_zero_of_lt hn)
      exact if_pos h
  | cons c s ih =>
      obtain ⟨n, rfl⟩ := Nat.exists_eq_add_one_of_ne_zero (Nat.ne_zero_of_lt hn)
      obtain ⟨hc, h0, hrest⟩ := h
      rw [str, hc, if_neg h0, ih hrest (Nat.lt_of_succ_lt_succ hn)]

/-- The bytes of a line and its end. -/
theorem bytes_line (h : StrAt buf p (l ++ 0x0a :: t)) :
    bytes (Function.update (Function.update buf (p + l.length) 0) (p + l.length) 0x0a) p
      (p + l.length + 1) = l ++ [0x0a] := by
  refine List.ext_getElem (by simp [bytes]; omega) fun k hk hk' => ?_
  have hlen : k < l.length + 1 := by simpa using hk'
  have hget := h.get (k := k) (by simp; omega)
  simp only [bytes, List.getElem_map, List.getElem_range, Function.update_idem]
  rcases Nat.eq_or_lt_of_le (Nat.le_of_lt_succ hlen) with rfl | hlt
  · simp
  · rw [Function.update_of_ne (by omega), hget, List.getElem_append_left hlt,
      List.getElem_append_left hlt]

/-- **The inner loop** writes the lines that match, and stops at what comes after them. -/
theorem lines_eq (pattern : List UInt8) (h : StrAt buf p s) (hlen : s.length < BUFSIZE) (hn : s.length < n) :
    ∃ buf', lines pattern n buf p =
        (buf', p + (s.length - (cut s).2.length), emit pattern (cut s).1) ∧
      StrAt buf' (p + (s.length - (cut s).2.length)) (cut s).2 := by
  induction s using line_induction generalizing buf p n with
  | last s hs =>
      obtain ⟨n, rfl⟩ := Nat.exists_eq_add_one_of_ne_zero (Nat.ne_zero_of_lt hn)
      refine ⟨buf, ?_, ?_⟩
      · rw [lines, strchr_of_notMem h hs, cut_of_notMem hs]
        simp [emit]
      · rw [cut_of_notMem hs]
        simpa using h
  | line l t hl ih =>
      obtain ⟨n, rfl⟩ := Nat.exists_eq_add_one_of_ne_zero (Nat.ne_zero_of_lt hn)
      simp only [List.length_append, List.length_cons] at hlen hn
      have hrest := congrArg List.length (flatMap_cut t)
      rw [List.length_append] at hrest
      -- the rest of the buffer is as it was
      have htail (b : Buf) (hb : ∀ k, p + l.length < k → b k = buf k) :
          StrAt b (p + l.length + 1) t :=
        StrAt.congr (h.append).2.2 fun k hk _ => hb k (by omega)
      have hend : p + l.length + 1 + (t.length - (cut t).2.length) =
          p + ((l ++ 0x0a :: t).length - (cut t).2.length) := by
        simp only [List.length_append, List.length_cons]
        omega
      have htext : str (Function.update buf (p + l.length) 0) BUFSIZE p = l :=
        str_eq h.cut (by omega)
      rw [lines, strchr_line h hl (by omega)]
      simp only [htext, cut_line hl]
      by_cases hmatch : match' pattern l = true
      · obtain ⟨buf', hlines, hstr⟩ := ih (n := n) (htail (Function.update (Function.update buf
          (p + l.length) 0) (p + l.length) 0x0a) fun k hk => by
            rw [Function.update_of_ne (by omega), Function.update_of_ne (by omega)])
          (by omega) (by omega)
        rw [hend] at hlines hstr
        refine ⟨buf', ?_, hstr⟩
        rw [if_pos hmatch, hlines, bytes_line h]
        simp [emit, hmatch]
      · obtain ⟨buf', hlines, hstr⟩ := ih (n := n) (htail (Function.update buf (p + l.length) 0)
          fun k hk => Function.update_of_ne (by omega) _ _) (by omega) (by omega)
        rw [hend] at hlines hstr
        refine ⟨buf', ?_, hstr⟩
        rw [if_neg hmatch, hlines]
        simp [emit, hmatch]

theorem lined_eq_zero : s.length - (cut s).2.length = 0 ↔ (cut s).1 = [] := by
  have h := congrArg List.length (flatMap_cut s)
  rw [List.length_append] at h
  constructor
  · intro h0
    by_contra hne
    obtain ⟨l, ls, hls⟩ := List.exists_cons_of_ne_nil hne
    rw [hls] at h
    simp at h
    omega
  · intro hnil
    rw [hnil] at h
    simp at h
    omega

/-- The bytes of `s` are at the front of the buffer. -/
def Front (buf : Buf) (s : List UInt8) : Prop := ∀ k (hk : k < s.length), buf k = s[k]

/-- A piece after them, and a 0. -/
theorem Front.fill (h : Front buf s) (h0 : 0 ∉ s ++ piece) :
    StrAt (Function.update (Grep.fill buf s.length piece) (s.length + piece.length) 0) 0
      (s ++ piece) := by
  rw [strAt_iff]
  refine ⟨fun k hk => ?_, h0, ?_⟩
  · rw [List.length_append] at hk
    rw [Nat.zero_add, Function.update_of_ne (by omega), Grep.fill]
    by_cases hks : k < s.length
    · rw [if_neg (by omega), h k hks, List.getElem_append_left hks]
    · rw [if_pos (by omega), List.getElem_append_right (by omega), List.getD_eq_getElem?_getD,
        List.getElem?_eq_getElem (by omega), Option.getD_some]
  · rw [Nat.zero_add, List.length_append, Function.update_self]

/-- **One pass** of `grep`. -/
theorem pass_eq (pattern : List UInt8) (h : Front buf s) (h0 : 0 ∉ s ++ piece)
    (hfit : s.length + piece.length < BUFSIZE) :
    ∃ buf', pass pattern buf s.length piece =
        (buf', (carry (s ++ piece)).length, emit pattern (cut (s ++ piece)).1) ∧
      Front buf' (carry (s ++ piece)) := by
  have hlen : (s ++ piece).length < BUFSIZE := by rwa [List.length_append]
  obtain ⟨buf', hlines, hstr⟩ := lines_eq pattern (h.fill h0) hlen hlen
  rw [Nat.zero_add] at hlines hstr
  have hle := congrArg List.length (flatMap_cut (s ++ piece))
  rw [List.length_append, List.length_append] at hle
  unfold pass
  simp only [hlines]
  by_cases hend : (cut (s ++ piece)).1 = []
  · refine ⟨buf', ?_, ?_⟩
    · rw [lined_eq_zero.mpr hend, if_pos rfl, if_neg (Nat.lt_irrefl 0), carry, if_pos hend]
      rfl
    · rw [carry, if_pos hend]
      exact fun k hk => absurd hk (Nat.not_lt_zero k)
  · have hp : (s ++ piece).length - (cut (s ++ piece)).2.length ≠ 0 :=
      fun hp => hend (lined_eq_zero.mp hp)
    have hpos : 0 < s.length + piece.length := by
      rw [List.length_append] at hp
      omega
    have hrest : s.length + piece.length - ((s ++ piece).length - (cut (s ++ piece)).2.length) =
        (cut (s ++ piece)).2.length := by
      rw [List.length_append]
      omega
    rw [if_neg hp, if_pos hpos, carry, if_neg hend, hrest]
    refine ⟨_, rfl, fun k hk => ?_⟩
    rw [memmove, if_pos hk]
    exact hstr.get hk

/-- The pieces are what `read` can deliver: at least one byte, and as many as are asked for. -/
def Delivered : List UInt8 → List (List UInt8) → Prop
  | _, [] => True
  | s, piece :: pieces =>
      piece ≠ [] ∧ piece.length ≤ BUFSIZE - s.length - 1 ∧ Delivered (carry (s ++ piece)) pieces

theorem carry_subset : carry s ⊆ s := by
  unfold carry
  split
  · exact List.nil_subset _
  · intro c hc
    rw [← flatMap_cut s]
    exact List.mem_append_right _ hc

/-- **`grep`** writes what `run` says. -/
theorem grep_eq {pieces : List (List UInt8)} (h : Front buf s) (h0 : 0 ∉ s ++ pieces.flatten)
    (hread : Delivered s pieces) : grep pattern buf s.length pieces = run pattern s pieces := by
  induction pieces generalizing buf s with
  | nil => rfl
  | cons piece pieces ih =>
      obtain ⟨hne, hlen, hread⟩ := hread
      rw [List.flatten_cons, ← List.append_assoc, List.mem_append, not_or] at h0
      have hpos := List.length_pos_iff.mpr hne
      obtain ⟨buf', hpass, hfront⟩ := pass_eq pattern h h0.1 (by omega)
      have h0' : 0 ∉ carry (s ++ piece) ++ pieces.flatten := by
        rw [List.mem_append, not_or]
        exact ⟨fun hmem => h0.1 (carry_subset hmem), h0.2⟩
      rw [grep, hpass, run]
      simp only [ih hfront h0' hread]

end Buffer

theorem Delivered.ne_nil {s : List UInt8} {pieces : List (List UInt8)} (h : Delivered s pieces) :
    ∀ piece ∈ pieces, piece ≠ [] := by
  induction pieces generalizing s with
  | nil => simp
  | cons piece pieces ih => exact List.forall_mem_cons.mpr ⟨h.1, ih h.2.2⟩

/-- **`grep` writes the lines that match**, whatever the pattern, exactly if every piece of the
input has the end of a line, up to the last line. -/
theorem grep_chunks_iff {pieces : List (List UInt8)} (h0 : 0 ∉ pieces.flatten)
    (hread : Delivered [] pieces) (buf : Buf) :
    (∀ pattern, grep pattern buf 0 pieces = emit pattern (cut pieces.flatten).1) ↔
      Whole pieces := by
  have heq (pattern : List UInt8) : grep pattern buf 0 pieces = run pattern [] pieces :=
    grep_eq (s := []) (fun k hk => absurd hk (Nat.not_lt_zero k)) h0 hread
  constructor
  · intro hall
    by_contra hnot
    have hlt := (length_run_nil (s := []) (by simp) hread.ne_nil).2 hnot
    rw [← heq, hall [], length_emit_nil, List.nil_append] at hlt
    omega
  · intro hwhole pattern
    rw [heq, run_of_whole pattern (by simp) hwhole, List.nil_append]

/-- `"hello\n"` in two pieces: the first half of the line is lost. -/
theorem grep_loses_chunk :
    grep [0x68] (fun _ => 0) 0 [[0x68, 0x65, 0x6c], [0x6c, 0x6f, 0x0a]] = [] ∧
      grep [0x68] (fun _ => 0) 0 [[0x68, 0x65, 0x6c, 0x6c, 0x6f, 0x0a]] =
        [0x68, 0x65, 0x6c, 0x6c, 0x6f, 0x0a] := by
  decide +kernel

/-- A line that is cut after the end of another one is kept. -/
theorem grep_chunks_iff_carried :
    grep [0x63] (fun _ => 0) 0 [[0x61, 0x0a, 0x62], [0x63, 0x0a]] = [0x62, 0x63, 0x0a] := by
  have hread : Delivered [] [[0x61, 0x0a, 0x62], [0x63, 0x0a]] := by
    refine ⟨by decide, by decide, by decide, by decide, trivial⟩
  exact (grep_chunks_iff (by decide) hread _).mpr ⟨.inl (by decide), .inl (by decide), trivial⟩
    [0x63]

end Xv6.Grep
