import Xv6.Zip.Loop

/-!
# Xv6.Zip.Lossless

`Encode` of one file: it returns, and what it has written expands to the file.

The loop is that of `Xv6.Zip.Loop`.  Here the arrays are proper trees at every step
(`trees_advances`): `Ahead xs k n` says where the window, the trees and the indices are after
`k` bytes of the text have been encoded and `n` more have been read.
-/

namespace Xv6.Zip

variable {xs : List UInt8} {k n : Nat} {e e' : Enc}

/-! ## the invariant -/

structure Ahead (xs : List UInt8) (k n : Nat) (e : Enc) : Prop where
  le : k + n ≤ xs.length
  le_F : n ≤ F
  full : n = F ∨ k + n = xs.length
  len : e.len = n
  s : e.s = k % N
  r : e.r = (N - F + k) % N
  file : e.file = xs.drop (k + n)
  window : Window xs (k + n) e.search.textBuf
  trees : ∃ S, Trees e.search S ∧ Within k (N - F + k + 1) S

/-- What `Ahead` says about the search. -/
def Searching (xs : List UInt8) (k n : Nat) (g : Search) : Prop :=
  Window xs (k + n) g.textBuf ∧ ∃ S, Trees g S ∧ Within k (N - F + k + 1) S

theorem Ahead.at (h : Ahead xs k n e) : At xs k n e :=
  ⟨h.le, h.le_F, h.full, h.len, h.s, h.r, h.file⟩

theorem Ahead.searching (h : Ahead xs k n e) : Searching xs k n e.search := ⟨h.window, h.trees⟩

/-! ## moving on -/

/-- `InsertNode(r)` in the right window. -/
theorem insertNode_found {g : Search} {S : Finset Nat} (hw : Window xs (k + n) g.textBuf)
    (hn : n ≤ F) (ht : Trees g S) (hS : Within k (N - F + k) S) :
    wp (insertNode ((N - F + k) % N)) g fun _ g' => g'.textBuf = g.textBuf ∧ Found xs k n g' ∧
      ∃ S', Trees g' S' ∧ Within k (N - F + k + 1) S' := by
  have hrN : (N - F + k) % N < N := Nat.mod_lt _ (by decide)
  refine (insertNode_spec ht hrN (hS.not_mem (by simp only [N, F]; omega))).mono ?_
  rintro _ g' ⟨⟨S', hsub, hS'⟩, htext, hfound⟩
  refine ⟨htext, ⟨hfound.le, fun h0 => ?_⟩, S', hS', hS.insert (by omega) hsub⟩
  obtain ⟨t, hk, htr, hpos⟩ := hS _ (hfound.mem h0)
  refine ⟨t, hk, htr, hpos, fun j hj hjn => ?_⟩
  have hjF : j < F := by omega
  have heq := hfound.eq j hj
  rw [htext, hpos, hw.text_add hjF (by omega) (by omega), hw.text_add hjF (by omega) (by omega)] at heq
  exact heq

/-- Deleting the string at `s` and moving on by one. -/
theorem deleteNode_searching {g : Search} (h : Searching xs k n g) :
    wp (deleteNode (k % N)) g fun _ g' => g'.textBuf = g.textBuf ∧
      ∃ S, Trees g' S ∧ Within (k + 1) (N - F + (k + 1)) S ∧ k % N ∉ S := by
  obtain ⟨-, S, hS, hw⟩ := h
  refine (deleteNode_spec hS (Nat.mod_lt _ (by decide))).mono ?_
  rintro _ g' ⟨hg, htext⟩
  exact ⟨htext, _, hg, hw.erase, Finset.notMem_erase _ _⟩

/-- A text byte may change where no string begins. -/
theorem Trees.setText {g : Search} {S : Finset Nat} {i : Nat} (h : Trees g S) (hi : i ∉ S)
    (c : UInt8) : Trees { g with textBuf := Function.update g.textBuf i c } S := by
  refine ⟨h.forest.congr (fun _ _ => rfl) (fun _ _ => rfl) (fun _ _ => rfl) fun q hq => ?_, h.lt,
    h.out⟩
  rcases hq with hq | hq
  · have hqN := h.lt q hq
    rw [tagOf_of_lt hqN, tagOf_of_lt hqN]
    exact Function.update_of_ne (ne_of_mem_of_not_mem hq hi) _ _
  · have hqN : ¬ q < N := by have := hq.1; omega
    rw [tagOf, tagOf, if_neg hqN, if_neg hqN]

theorem storeByte_spec {g : Search} {S : Finset Nat} (hw : Window xs (k + F) g.textBuf)
    (hlen : k + F < xs.length) (h : Trees g S) (hk : k % N ∉ S) :
    wp (storeByte (k % N) xs[k + F]) g fun _ g' => Window xs (k + F + 1) g'.textBuf ∧ Trees g' S := by
  have hmod : k % N < N := Nat.mod_lt _ (by decide)
  unfold storeByte
  rw [wp_bind, wp_setText (by simp only [F]; omega)]
  split
  next hs =>
    rw [wp_setText (by omega)]
    have hout : k % N + N ∉ S := fun hmem => by have := h.lt _ hmem; omega
    refine ⟨hw.push hlen fun i => ?_, (h.setText hk _).setText hout _⟩
    simp only [Function.update_apply]
    grind
  next hs =>
    refine wp_pure.mpr ⟨hw.push hlen fun i => ?_, h.setText hk _⟩
    simp only [Function.update_apply]
    grind

/-- **The arrays stay trees.** -/
theorem trees_advances (xs : List UInt8) : Advances xs (Searching xs) where
  window h := h.1
  congr h htext hl hr hd := by
    obtain ⟨hw, S, hS, hin⟩ := h
    refine ⟨by rw [htext]; exact hw, S, ⟨?_, hS.lt, by rw [hd]; exact hS.out⟩, hin⟩
    rw [htext, hl, hr, hd]
    exact hS.forest
  take {k g} h hlen := by
    refine (deleteNode_searching h).mono ?_
    rintro _ g₁ ⟨htext₁, S, hS, hw, hnot⟩
    have hwin : Window xs (k + F) g₁.textBuf := htext₁ ▸ h.1
    refine (storeByte_spec hwin hlen hS hnot).mono ?_
    rintro _ g₂ ⟨hwin₂, hS₂⟩
    rw [Nat.add_right_comm] at hwin₂
    refine (insertNode_found hwin₂ le_rfl hS₂ hw).mono ?_
    rintro _ g₃ ⟨htext₃, hfound, htrees⟩
    exact ⟨⟨htext₃ ▸ hwin₂, htrees⟩, hfound⟩
  drop {k n g} h hF hend := by
    refine (deleteNode_searching h).mono ?_
    rintro _ g₁ ⟨htext₁, S, hS, hw, -⟩
    have hwin : Window xs (k + 1 + n) g₁.textBuf := by
      rw [htext₁, show k + 1 + n = k + (n + 1) by omega]
      exact h.1
    refine ⟨?_, fun _ => ?_⟩
    · rintro rfl
      exact ⟨hwin, S, hS, hw.mono (Nat.le_succ _)⟩
    · refine (insertNode_found hwin (by omega) hS hw).mono ?_
      rintro _ g₂ ⟨htext₂, hfound, htrees⟩
      exact ⟨⟨htext₂ ▸ hwin, htrees⟩, hfound⟩

/-! ## Encode -/

/-- The first bytes are read into the end of the ring. -/
theorem fillLoop_spec (q m : Nat) (hq : m + q = F) (hm : m ≤ xs.length) (hr : e.r = N - F)
    (hfile : e.file = xs.drop m) (hw : Window xs m e.search.textBuf) (hS : Trees e.search ∅) :
    wp (fillLoop q m) e fun m' e' => m' = min F xs.length ∧ e'.r = N - F ∧ e'.s = e.s ∧
      e'.out = e.out ∧ e'.file = xs.drop m' ∧ Window xs m' e'.search.textBuf ∧
      Trees e'.search ∅ := by
  induction q generalizing m e with
  | zero => exact wp_pure.mpr ⟨by omega, hr, rfl, rfl, hfile, hw, hS⟩
  | succ q ih =>
      rw [fillLoop, wp_bind, readByte, wp_bind, wp_get]
      rcases Nat.eq_or_lt_of_le hm with hend | hlt
      · have hnil : e.file = [] := by rw [hfile, hend, List.drop_length]
        simp only [hnil, wp_pure]
        exact ⟨by omega, hr, trivial, trivial, hnil ▸ hfile, hw, hS⟩
      · have hcons : e.file = xs[m] :: xs.drop (m + 1) := by
          rw [hfile, List.drop_eq_getElem_cons hlt]
        simp only [hcons, wp_bind, wp_modify, wp_pure, wp_get, wp_onSearch]
        rw [hr, wp_setText (by simp only [N, F] at hq ⊢; omega)]
        exact ih (m + 1) (by omega) hlt rfl rfl (hw.fill (by omega) hlt)
          (hS.setText (Finset.notMem_empty _) _)

/-- The strings that begin before the text. -/
theorem insertBefore_spec (hr : e.r = N - F) (hS : Trees e.search ∅) :
    wp ((List.range F).forM fun i => do
      if (← get).r < i + 1 then throw .outOfBounds
      onSearch (insertNode ((← get).r - (i + 1)))) e fun _ e' =>
        (∃ S, Trees e'.search S ∧ Within 0 (N - F) S) ∧
        e'.search.textBuf = e.search.textBuf ∧ e' = { e with search := e'.search } := by
  refine (wp_forM (fun done todo e' => done ++ todo = List.range F ∧
    (∃ S, Trees e'.search S ∧ ∀ p ∈ S, N - F ≤ p + done.length ∧ p < N - F) ∧
    e'.search.textBuf = e.search.textBuf ∧ e' = { e with search := e'.search }) ?_
    ⟨List.nil_append _, ⟨∅, hS, by simp⟩, rfl, rfl⟩).mono ?_
  · rintro done i todo e' ⟨hdone, ⟨S, hS, hlt⟩, htext, he⟩
    have hi : i = done.length ∧ i < F := by
      have := congrArg (fun l => l[done.length]?) hdone
      simp only [List.getElem?_append_right le_rfl, Nat.sub_self, List.getElem?_cons_zero] at this
      exact ⟨by grind, by grind⟩
    have hr' : e'.r = N - F := by rw [he]; exact hr
    have hNF : i + 1 ≤ N - F := by have := hi.2; simp only [N, F] at this ⊢; omega
    have hnot : N - F - (i + 1) ∉ S := fun hmem => by have := (hlt _ hmem).1; omega
    rw [wp_bind, wp_get, hr', if_neg (by omega), wp_bind, wp_get, hr', wp_onSearch]
    refine (insertNode_spec hS (by omega) hnot).mono ?_
    rintro _ g ⟨⟨S', hsub, hS'⟩, htext', -⟩
    refine ⟨by simp [hdone], ⟨S', hS', fun p hp => ?_⟩, htext'.trans htext, by rw [he]⟩
    rw [List.length_append, List.length_singleton]
    rcases Finset.mem_insert.mp (hsub hp) with rfl | hp
    · omega
    · have := hlt p hp
      omega
  · rintro _ e' ⟨-, ⟨S, hS, hlt⟩, htext, he⟩
    refine ⟨⟨S, hS, fun p hp => ⟨p, Nat.zero_le p, (hlt p hp).2, ?_⟩⟩, htext, he⟩
    exact (Nat.mod_eq_of_lt (hS.lt p hp)).symm

/-- One file that is not empty. -/
theorem encodeFile_spec (hxs : xs ≠ []) (hr : e.r = N - F) (hs : e.s = 0)
    (hw : Window xs 0 e.search.textBuf) (hS : Trees e.search ∅) (hcoded : Coded xs 0 e.out) :
    wp (encodeFile xs) e fun b e' => b = false ∧ Coded xs xs.length e'.out ∧
      e'.r = (N - F + xs.length) % N := by
  have hpos : 0 < xs.length := List.length_pos_iff.mpr hxs
  unfold encodeFile
  rw [wp_bind, wp_modify]
  have hfile : ({ e with file := xs } : Enc).file = xs.drop 0 := rfl
  refine wp_bind_of (fillLoop_spec F 0 (by omega) (Nat.zero_le _) hr hfile hw hS) ?_
  rintro n e₁ ⟨hn, hr₁, hs₁, hout₁, hfile₁, hw₁, hS₁⟩
  rw [wp_bind, wp_modify, wp_bind, wp_get]
  have hsize : UInt32.ofNat n ≠ 0 := fun h0 => by
    have := congrArg UInt32.toNat h0
    simp only [F] at hn
    simp only [UInt32.toNat_ofNat', UInt32.toNat_zero] at this
    omega
  rw [if_neg hsize]
  refine wp_bind_of (insertBefore_spec hr₁ hS₁) ?_
  rintro _ e₂ ⟨⟨S, hS₂, hSw⟩, htext₂, he₂⟩
  have hr₂ : e₂.r = (N - F + 0) % N := by rw [he₂]; exact hr₁
  have hw₂ : Window xs (0 + n) e₂.search.textBuf := by rw [htext₂, Nat.zero_add]; exact hw₁
  have hinsert := insertNode_found hw₂ (by omega) hS₂ hSw
  rw [← hr₂] at hinsert
  rw [wp_bind, wp_get, wp_bind, wp_onSearch]
  refine hinsert.mono ?_
  rintro _ g ⟨htext₃, hfound, htrees⟩
  have hahead : Ahead xs 0 n { e₂ with search := g } :=
    { le := by omega
      le_F := by omega
      full := by omega
      len := by rw [he₂]
      s := by rw [he₂]; exact hs₁.trans hs
      r := hr₂
      file := by rw [he₂, Nat.zero_add]; exact hfile₁
      window := by simp only [htext₃]; exact hw₂
      trees := htrees }
  have hn0 : 0 < n := by rw [hn]; exact Nat.lt_min.mpr ⟨by decide, hpos⟩
  have hcoded₂ : Coded xs 0 e₂.out := by rw [he₂]; simp only [hout₁]; exact hcoded
  refine wp_bind_of (encodeLoop_spec (trees_advances xs) xs.length hahead.at hahead.searching
    hfound hn0 hcoded₂ (by omega)) ?_
  exact fun _ e₃ hdone => wp_pure.mpr ⟨rfl, hdone.1, hdone.2.1.r⟩

/-- `for (i = s; i < r; i++) text_buf[i] = 0;` -/
theorem clearText_spec (hS : Trees e.search ∅) (htext : e.search.textBuf = fun _ => 0) :
    wp ((List.range (N - F)).forM fun i => onSearch (setText i 0)) e fun _ e' =>
      (∀ i, e'.search.textBuf i = 0) ∧ Trees e'.search ∅ ∧ e'.r = e.r ∧ e'.s = e.s ∧
        e'.out = e.out := by
  refine (wp_forM (fun done todo e' => done ++ todo = List.range (N - F) ∧
    (∀ i, e'.search.textBuf i = 0) ∧ Trees e'.search ∅ ∧ e'.r = e.r ∧ e'.s = e.s ∧
      e'.out = e.out) ?_ ⟨List.nil_append _, fun i => by rw [htext], hS, rfl, rfl, rfl⟩).mono
    fun _ e' he => he.2
  rintro done i todo e' ⟨hdone, hzero, hS, hr, hs, hout⟩
  have hi : i < N - F := List.mem_range.mp (hdone ▸ by simp)
  rw [wp_onSearch, wp_setText (Nat.lt_of_lt_of_le hi (by decide))]
  refine ⟨by simp [hdone], fun j => ?_, hS.setText (Finset.notMem_empty _) _, hr, hs, hout⟩
  simp only [Function.update_apply, hzero, ite_self]

/-- The end of `Encode`: the group that waits is sent. -/
theorem flush_spec {us : List Code} {d : Ring} (h : Holding e.out us d) (hlt : us.length < 8) :
    wp (do if (← get).out.codeBufPtr > 1 then onOut writeCode) e fun _ e' =>
      us ≠ [] ∧ e'.out.written = e.out.written ++ e.out.group ∨
      us = [] ∧ e'.out.written = e.out.written := by
  simp only [wp_bind, wp_get]
  split
  next hptr =>
    rw [wp_onOut]
    refine (writeCode_spec (Nat.le_of_lt (Nat.lt_trans (h.ptr_lt hlt) (by decide)))).mono ?_
    refine fun _ o' hwritten => .inl ⟨?_, hwritten⟩
    rintro rfl
    have := h.ptr_eq
    simp only [List.flatMap_nil, List.length_nil] at this
    omega
  next hptr => exact wp_pure.mpr (.inr ⟨h.eq_nil (by omega), rfl⟩)

/-- What `Encode` does before the loop over the files. -/
theorem prepare_spec (codeBuf : Nat → UInt8) {m : E Unit} {Q : Unit → Enc → Prop}
    (h : ∀ e, e.r = N - F → e.s = 0 → (∀ i, e.search.textBuf i = 0) → Trees e.search ∅ →
      (∀ xs, Coded xs 0 e.out) → e.out.written = [] → wp m e Q) :
    wp (do
      onSearch initTree
      onOut clearCode
      modify fun e => { e with s := 0, r := N - F }
      (List.range (N - F)).forM fun i => onSearch (setText i 0)
      m) (start codeBuf) Q := by
  rw [wp_bind, wp_onSearch]
  refine (initTree_spec _).mono ?_
  rintro _ g ⟨hS, htext⟩
  rw [wp_bind, wp_onOut]
  have hclear := (clearCode_spec (o := (start codeBuf).out) (d := Ring.zero) fun rest => rfl)
  refine hclear.mono ?_
  rintro _ o ⟨hold, hmask, hwritten⟩
  rw [wp_bind, wp_modify, wp_bind]
  refine (clearText_spec hS htext).mono ?_
  rintro _ e ⟨hzero, hS', hr, hs, hout⟩
  refine h e hr hs hzero hS' (fun xs => ?_) (by rw [hout]; exact hwritten)
  rw [hout]
  exact ⟨[], Ring.zero, hold, by simp, hmask, .zero xs⟩

/-- `Encode` comes to the end of a first file that is not empty, and goes on with the
others. -/
theorem encode_first (hxs : xs ≠ []) (codeBuf : Nat → UInt8) :
    ∃ e, Coded xs xs.length e.out ∧ e.r = (N - F + xs.length) % N ∧
      ∀ files, encode (xs :: files) (start codeBuf) = (do
        if ← encodeFiles files then return ()
        if (← get).out.codeBufPtr > 1 then onOut writeCode : E Unit) e := by
  obtain ⟨_, e, hprepare, hr, hs, hzero, hS, hcoded⟩ := prepare_spec codeBuf (m := pure ())
    (Q := fun _ e => e.r = N - F ∧ e.s = 0 ∧ (∀ i, e.search.textBuf i = 0) ∧ Trees e.search ∅ ∧
      Coded xs 0 e.out) fun e hr hs hzero hS hcoded _ => wp_pure.mpr ⟨hr, hs, hzero, hS, hcoded xs⟩
  obtain ⟨_, e', hfile, rfl, hdone, hr'⟩ := encodeFile_spec hxs hr hs (.zero hzero) hS hcoded
  refine ⟨e', hdone, hr', fun files => ?_⟩
  have hrest := bind_of_ok hprepare fun _ => encodeFiles (xs :: files) >>= fun b => do
    if b then return ()
    if (← get).out.codeBufPtr > 1 then onOut writeCode
  simp only [bind_assoc, pure_bind] at hrest
  rw [encode, hrest, encodeFiles, bind_assoc, bind_of_ok hfile]
  rfl

/-- `Encode` of one file that is not empty returns. -/
theorem encode_flushed (hxs : xs ≠ []) (codeBuf : Nat → UInt8) :
    wp (encode [xs]) (start codeBuf) fun _ e => Flushed xs e.out.written := by
  obtain ⟨e, ⟨us, d, hold, hlt, -, hexp⟩, -, hrun⟩ := encode_first hxs codeBuf
  rw [wp, hrun []]
  refine (flush_spec hold hlt).mono fun _ e' hend => ⟨e.out, us, d, hold, ?_, hend⟩
  rw [hexp.out, List.take_length]

/-- **`zip` is lossless on one file**: for every text that is not empty
`Encode` returns, with every index in its array, and what it has written
expands to the text. -/
theorem encode_lossless (xs : List UInt8) (hxs : xs ≠ []) (codeBuf : Nat → UInt8) :
    ∃ e, encode [xs] (start codeBuf) = .ok ((), e) ∧ expand e.out.written = xs := by
  obtain ⟨_, e, he, hflushed⟩ := encode_flushed hxs codeBuf
  exact ⟨e, he, hflushed.expand_eq⟩

theorem encode_lossless_abcabcabc :
    ∃ e, encode [[97, 98, 99, 97, 98, 99, 97, 98, 99]] (start fun _ => 255) = .ok ((), e) ∧
      expand e.out.written = [97, 98, 99, 97, 98, 99, 97, 98, 99] :=
  encode_lossless [97, 98, 99, 97, 98, 99, 97, 98, 99] (by decide) fun _ => 255

end Xv6.Zip
