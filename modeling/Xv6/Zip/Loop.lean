import Xv6.Zip.Send
import Xv6.Zip.Window

/-!
# Xv6.Zip.Loop

The loop of `Encode`, for any invariant of the search that its steps keep.

After `k` bytes of the text have been encoded and `n` more have been read (`At xs k n`)
the indices are where `k` and `n` say.  At the top of the loop the match that
`InsertNode` has left is a match in the stream (`Found`), and the units sent so far expand
to the first `k` bytes (`Coded`).  Near the end of the text `text_buf` holds old bytes
behind the `n` that count; a match may run into them, which is why its length is cut to
`len`.

What is asked of the search is `Advances`: the arrays may be left as they are, a byte may be
taken or dropped, and the match found after that is one.
-/

namespace Xv6.Zip

variable {xs : List UInt8} {k n : Nat} {e e' : Enc}

/-! ## where the encoder is -/

structure At (xs : List UInt8) (k n : Nat) (e : Enc) : Prop where
  le : k + n ≤ xs.length
  le_F : n ≤ F
  full : n = F ∨ k + n = xs.length
  len : e.len = n
  s : e.s = k % N
  r : e.r = (N - F + k) % N
  file : e.file = xs.drop (k + n)

/-- What `InsertNode` has found is a match in the stream, as far as the text
goes. -/
structure Found (xs : List UInt8) (k n : Nat) (g : Search) : Prop where
  le : g.matchLength ≤ F
  match_ : 0 < g.matchLength → ∃ t, k ≤ t ∧ t < N - F + k ∧ g.matchPosition = t % N ∧
    ∀ j < g.matchLength, j < n → stream xs (t + j) = stream xs (N - F + k + j)

theorem At.congr (h : At xs k n e) (hlen : e'.len = e.len) (hs : e'.s = e.s)
    (hr : e'.r = e.r) (hfile : e'.file = e.file) : At xs k n e' where
  le := h.le
  le_F := h.le_F
  full := h.full
  len := hlen.trans h.len
  s := hs.trans h.s
  r := hr.trans h.r
  file := hfile.trans h.file

/-- An invariant of the search that the steps of `Encode` keep. -/
structure Advances (xs : List UInt8) (I : Nat → Nat → Search → Prop) : Prop where
  window : ∀ {k n g}, I k n g → Window xs (k + n) g.textBuf
  congr : ∀ {k n g g'}, I k n g → g'.textBuf = g.textBuf → g'.lson = g.lson → g'.rson = g.rson →
    g'.dad = g.dad → I k n g'
  take : ∀ {k g}, I k F g → ∀ hlen : k + F < xs.length,
    wp (deleteNode (k % N)) g fun _ g₁ =>
      wp (storeByte (k % N) xs[k + F]) g₁ fun _ g₂ =>
        wp (insertNode ((N - F + (k + 1)) % N)) g₂ fun _ g₃ =>
          I (k + 1) F g₃ ∧ Found xs (k + 1) F g₃
  drop : ∀ {k n g}, I k (n + 1) g → n + 1 ≤ F → k + (n + 1) = xs.length →
    wp (deleteNode (k % N)) g fun _ g₁ => (n = 0 → I (k + 1) 0 g₁) ∧
      (n ≠ 0 → wp (insertNode ((N - F + (k + 1)) % N)) g₁ fun _ g₂ =>
        I (k + 1) n g₂ ∧ Found xs (k + 1) n g₂)

@[simp] theorem wp_onSearch {α : Type} {m : T α} {Q : α → Enc → Prop} :
    wp (onSearch m) e Q ↔ wp m e.search fun a g => Q a { e with search := g } := wp_focus

@[simp] theorem wp_onOut {α : Type} {m : O α} {Q : α → Enc → Prop} :
    wp (onOut m) e Q ↔ wp m e.out fun a o => Q a { e with out := o } := wp_focus

/-- The units sent and waiting expand to the first `k` bytes, and there is
room for another one. -/
def Coded (xs : List UInt8) (k : Nat) (o : Out) : Prop :=
  ∃ us d, Holding o us d ∧ us.length < 8 ∧ o.mask.toNat = 2 ^ us.length ∧
    Expanded xs k (us.foldl Ring.unit d)

@[simp] theorem wp_setMatchLength {m : Nat} {Q : Unit → Enc → Prop} :
    wp (setMatchLength m) e Q ↔
      Q () { e with search := { e.search with matchLength := m } } := by
  simp only [setMatchLength, wp_onSearch, wp_modify]

section Steps

variable {I : Nat → Nat → Search → Prop} (hI : Advances xs I)
include hI

/-! ## moving on -/

/-- One byte further, with a byte that was read. -/
theorem takeByte_spec (h : At xs k F e) (hinv : I k F e.search) (hlen : k + F < xs.length) :
    wp (takeByte xs[k + F]) { e with file := xs.drop (k + F + 1) } fun _ e' =>
      At xs (k + 1) F e' ∧ I (k + 1) F e'.search ∧ Found xs (k + 1) F e'.search ∧
        e'.out = e.out := by
  unfold takeByte advance
  simp only [wp_bind, wp_get, wp_onSearch, wp_modify]
  rw [h.s, h.r, and_ring, and_ring, Nat.mod_add_mod, Nat.mod_add_mod]
  refine (hI.take hinv hlen).mono fun _ g₁ h₁ => h₁.mono fun _ g₂ h₂ => h₂.mono ?_
  rintro _ g₃ ⟨hinv₃, hfound⟩
  refine ⟨⟨by omega, le_rfl, .inl rfl, h.len, rfl, rfl, ?_⟩, hinv₃, hfound, trivial⟩
  simp only [Nat.add_right_comm]

/-- The loop that reads: as many bytes as the file has, and at most `q`. -/
theorem readLoop_spec (q i : Nat) (h : At xs k n e) (hinv : I k n e.search) :
    wp (readLoop q i) e fun i' e' => ∃ a ≤ q, i' = i + a ∧ At xs (k + a) n e' ∧
      I (k + a) n e'.search ∧ (a < q → k + a + n = xs.length) ∧
      (Found xs k n e.search ∨ 0 < a → Found xs (k + a) n e'.search) ∧ e'.out = e.out := by
  induction q generalizing k i e with
  | zero =>
      exact wp_pure.mpr
        ⟨0, le_rfl, rfl, h, hinv, by omega, fun hf => hf.resolve_right (by omega), rfl⟩
  | succ q ih =>
      rw [readLoop, wp_bind, readByte, wp_bind, wp_get]
      rcases Nat.eq_or_lt_of_le h.le with hend | hlt
      · -- the end of the text
        have hfile : e.file = [] := by rw [h.file, hend, List.drop_length]
        simp only [hfile, wp_pure]
        exact ⟨0, Nat.zero_le _, rfl, h, hinv, fun _ => hend,
          fun hf => hf.resolve_right (by omega), trivial⟩
      · obtain rfl : n = F := h.full.resolve_right (Nat.ne_of_lt hlt)
        have hfile : e.file = xs[k + F] :: xs.drop (k + F + 1) := by
          rw [h.file, List.drop_eq_getElem_cons hlt]
        simp only [hfile, wp_bind, wp_modify, wp_pure]
        refine (takeByte_spec hI h hinv hlt).mono ?_
        rintro _ e₁ ⟨h₁, hinv₁, hfound₁, hout₁⟩
        refine (ih (i + 1) h₁ hinv₁).mono ?_
        rintro i' e₂ ⟨a, ha, rfl, h₂, hinv₂, hend₂, hfound₂, hout₂⟩
        rw [show k + 1 + a = k + (a + 1) by omega] at h₂ hinv₂ hend₂ hfound₂
        exact ⟨a + 1, by omega, by omega, h₂, hinv₂, fun hlt' => hend₂ (by omega),
          fun _ => hfound₂ (.inl hfound₁), hout₂.trans hout₁⟩

/-- One byte further, with nothing left to read. -/
theorem dropByte_spec (h : At xs k (n + 1) e) (hinv : I k (n + 1) e.search)
    (hend : k + (n + 1) = xs.length) :
    wp dropByte e fun _ e' => At xs (k + 1) n e' ∧ I (k + 1) n e'.search ∧
      (0 < n → Found xs (k + 1) n e'.search) ∧ e'.out = e.out := by
  have hF := h.le_F
  have hlen : e.len - 1 = n := by rw [h.len]; omega
  have hfile : e.file = xs.drop (k + 1 + n) := by rw [h.file]; congr 1; omega
  unfold dropByte advance
  simp only [wp_bind, wp_get, wp_onSearch, wp_modify]
  have hdrop := hI.drop hinv hF hend
  rw [← h.s] at hdrop
  refine hdrop.mono ?_
  rintro _ g₁ ⟨hlast, hmore⟩
  rw [h.s, h.r, and_ring, and_ring, Nat.mod_add_mod, Nat.mod_add_mod, hlen]
  split
  next hn =>
    rw [wp_bind, wp_get, wp_onSearch]
    refine (hmore (by omega)).mono ?_
    rintro _ g₂ ⟨hinv₂, hfound⟩
    exact ⟨⟨by omega, by omega, .inr (by omega), rfl, rfl, rfl, hfile⟩, hinv₂,
      fun _ => hfound, rfl⟩
  next hn =>
    obtain rfl : n = 0 := by omega
    exact wp_pure.mpr ⟨⟨by omega, by omega, .inr (by omega), rfl, rfl, rfl, hfile⟩, hlast rfl,
      fun h0 => absurd h0 (by omega), rfl⟩

/-- The loop behind the end of the text. -/
theorem drainLoop_spec (b : Nat) (h : At xs k n e) (hinv : I k n e.search) (hb : b ≤ n)
    (hend : 0 < b → k + n = xs.length) :
    wp (drainLoop b) e fun _ e' => At xs (k + b) (n - b) e' ∧ I (k + b) (n - b) e'.search ∧
      (Found xs k n e.search ∨ 0 < b → 0 < n - b → Found xs (k + b) (n - b) e'.search) ∧
      e'.out = e.out := by
  induction b generalizing k n e with
  | zero => exact wp_pure.mpr ⟨h, hinv, fun hf _ => hf.resolve_right (by omega), rfl⟩
  | succ b ih =>
      obtain ⟨n, rfl⟩ : ∃ m, n = m + 1 := ⟨n - 1, by omega⟩
      have hend' := hend (Nat.succ_pos b)
      rw [drainLoop]
      refine wp_bind_of (dropByte_spec hI h hinv hend') ?_
      rintro _ e₁ ⟨h₁, hinv₁, hfound₁, hout₁⟩
      refine (ih h₁ hinv₁ (by omega) (fun _ => by omega)).mono ?_
      rintro _ e₂ ⟨h₂, hinv₂, hfound₂, hout₂⟩
      rw [show k + 1 + b = k + (b + 1) by omega] at h₂ hinv₂ hfound₂
      rw [Nat.add_sub_add_right]
      exact ⟨h₂, hinv₂, fun _ h0 => hfound₂ (.inl (hfound₁ (by omega))) h0, hout₂.trans hout₁⟩

/-! ## sending -/

/-- The length of the match is cut to the text that is left. -/
theorem cutMatch_spec (h : At xs k n e) (hinv : I k n e.search) (hfound : Found xs k n e.search) :
    wp cutMatch e fun _ e' => At xs k n e' ∧ I k n e'.search ∧ Found xs k n e'.search ∧
      e'.search.matchLength ≤ n ∧ e'.out = e.out := by
  have hF := h.le_F
  unfold cutMatch
  simp only [wp_bind, wp_get, h.len]
  split
  next hlong =>
    rw [wp_bind, wp_get, h.len, wp_setMatchLength, Int.toNat_natCast]
    refine ⟨h.congr rfl rfl rfl rfl, hI.congr hinv rfl rfl rfl rfl, ⟨hF, fun h0 => ?_⟩, le_rfl,
      rfl⟩
    obtain ⟨t, h1, h2, h3, h4⟩ := hfound.match_ (by omega)
    exact ⟨t, h1, h2, h3, fun j hj hjn => h4 j (by simp only at hj; omega) hjn⟩
  next hlong => exact wp_pure.mpr ⟨h, hinv, hfound, by omega, rfl⟩

/-- One unit: as many bytes as `match_length` says at the end. -/
theorem sendUnit_spec (h : At xs k n e) (hinv : I k n e.search) (hfound : Found xs k n e.search)
    (hn : 0 < n) {us : List Code} {d : Ring} (hold : Holding e.out us d) (hlt : us.length < 8)
    (hmask : e.out.mask.toNat = 2 ^ us.length) (hexp : Expanded xs k (us.foldl Ring.unit d)) :
    wp sendUnit e fun _ e' => ∃ u, Holding e'.out (us ++ [u]) d ∧ e'.out.mask = e.out.mask ∧
      0 < e'.search.matchLength ∧ e'.search.matchLength ≤ n ∧ At xs k n e' ∧ I k n e'.search ∧
      Expanded xs (k + e'.search.matchLength) ((us ++ [u]).foldl Ring.unit d) := by
  have hle := h.le
  unfold sendUnit
  refine wp_bind_of (cutMatch_spec hI h hinv hfound) ?_
  rintro _ e₁ ⟨h₁, hinv₁, hfound₁, hcut, hout⟩
  rw [← hout] at hold hmask ⊢
  rw [wp_bind, wp_get]
  split
  next hshort =>
    -- one byte, the next of the text
    have hrN : (N - F + k) % N < N := Nat.mod_lt _ (by decide)
    have hbyte : e₁.search.textBuf e₁.r = stream xs (N - F + k) := by
      rw [h₁.r]
      refine (hI.window hinv₁).text (N - F + k) (by omega) ?_
      have := h₁.le_F
      simp only [N, F] at *
      omega
    simp only [wp_bind, wp_setMatchLength, wp_get, wp_onSearch, wp_onOut]
    rw [wp_text (by rw [h₁.r]; exact Nat.lt_of_lt_of_le hrN (by decide))]
    simp only [hbyte]
    refine (sendByte_spec hold hlt hmask _).mono ?_
    rintro _ o ⟨hold', hmask'⟩
    refine ⟨_, hold', hmask', Nat.one_pos, hn, h₁.congr rfl rfl rfl rfl,
      hI.congr hinv₁ rfl rfl rfl rfl, ?_⟩
    rw [List.foldl_append]
    exact hexp.put (by omega)
  next hlong =>
    -- a match in the stream
    simp only [THRESHOLD, not_le] at hlong
    obtain ⟨t, h1, h2, h3, h4⟩ := hfound₁.match_ (by omega)
    have hfits : Code.Fits (.pair e₁.search.matchPosition e₁.search.matchLength) :=
      ⟨by rw [h3]; exact Nat.mod_lt _ (by decide), hlong, hfound₁.le⟩
    simp only [wp_bind, wp_get, wp_onOut]
    refine (sendPair_spec hold hlt hfits).mono ?_
    rintro _ o ⟨hold', hmask'⟩
    refine ⟨_, hold', hmask', by omega, hcut, h₁.congr rfl rfl rfl rfl, hinv₁, ?_⟩
    rw [List.foldl_append]
    refine hexp.copy (t := t) _ (by omega) h2 (by omega) ?_ fun j hj => ?_
    · rw [h3, Nat.mod_mod]
    · exact h4 j hj (by omega)

/-! ## the loop -/

omit hI in
theorem progress_spec (i : Nat) : wp (progress i) e fun _ e' => e'.len = e.len ∧ e'.s = e.s ∧
    e'.r = e.r ∧ e'.file = e.file ∧ e'.search = e.search ∧ e'.out = e.out := by
  unfold progress
  simp only [wp_bind, wp_modify, wp_get]
  split
  · exact wp_modify.mpr ⟨rfl, rfl, rfl, rfl, rfl, rfl⟩
  · exact wp_pure.mpr ⟨rfl, rfl, rfl, rfl, rfl, rfl⟩

/-- **The loop of `Encode`** ends, and then the whole text is coded. -/
theorem encodeLoop_spec (fuel : Nat) (h : At xs k n e) (hinv : I k n e.search)
    (hfound : Found xs k n e.search) (hn : 0 < n) (hcoded : Coded xs k e.out)
    (hfuel : xs.length ≤ k + fuel) :
    wp (encodeLoop fuel) e fun _ e' => Coded xs xs.length e'.out ∧ At xs xs.length 0 e' ∧
      I xs.length 0 e'.search := by
  induction fuel generalizing k n e with
  | zero => have := h.le; omega
  | succ fuel ih =>
      obtain ⟨us, d, hold, hlt, hmask, hexp⟩ := hcoded
      rw [encodeLoop]
      refine wp_bind_of (sendUnit_spec hI h hinv hfound hn hold hlt hmask hexp) ?_
      rintro _ e₁ ⟨u, hold₁, hmask₁, hpos, hle, h₁, hinv₁, hexp₁⟩
      rw [wp_bind, wp_onOut]
      have hlen : (us ++ [u]).length = us.length + 1 := by simp
      refine (shiftMask_spec hold₁ hlen (hmask₁ ▸ hmask)).mono ?_
      rintro _ o ⟨us', d', hold₂, hlt₂, hmask₂, hfold⟩
      rw [← hfold] at hexp₁
      rw [wp_bind, wp_get]
      simp only
      have h₂ : At xs k n { e₁ with out := o } := h₁.congr rfl rfl rfl rfl
      refine wp_bind_of (readLoop_spec hI _ 0 h₂ hinv₁) ?_
      rintro i e₂ ⟨a, ha, rfl, h₃, hinv₃, hend, hfound₃, hout₃⟩
      refine wp_bind_of (progress_spec (0 + a)) ?_
      rintro _ e₃ ⟨hlen', hs, hr, hfile, hsearch, hout⟩
      have h₃' : At xs (k + a) n e₃ := h₃.congr hlen' hs hr hfile
      rw [← hsearch] at hfound₃ hinv₃
      rw [Nat.zero_add]
      -- the match length is what has been encoded: `a` bytes of it are replaced, the rest is drained
      refine wp_bind_of (drainLoop_spec hI (e₁.search.matchLength - a) h₃' hinv₃ (by omega)
        (fun hb => hend (by omega))) ?_
      rintro _ e₄ ⟨h₄, hinv₄, hfound₄, hout₄⟩
      have hk : k + a + (e₁.search.matchLength - a) = k + e₁.search.matchLength := by omega
      rw [hk] at h₄ hinv₄ hfound₄
      have hcoded : Coded xs (k + e₁.search.matchLength) e₄.out := by
        rw [hout₄, hout, hout₃]
        exact ⟨us', d', hold₂, hlt₂, hmask₂, hexp₁⟩
      rw [wp_bind, wp_get]
      split
      next hmore =>
        rw [h₄.len] at hmore
        refine ih h₄ hinv₄ (hfound₄ ?_ (by omega)) (by omega) hcoded (by omega)
        by_cases ha0 : 0 < a
        · exact .inl (hfound₃ (.inr ha0))
        · exact .inr (by omega)
      next hdone =>
        rw [h₄.len] at hdone
        have hzero : n - (e₁.search.matchLength - a) = 0 := by omega
        rw [hzero] at h₄ hinv₄
        have hend' := h₄.full.resolve_left (by decide)
        rw [Nat.add_zero] at hend'
        rw [hend'] at h₄ hinv₄ hcoded
        exact wp_pure.mpr ⟨hcoded, h₄, hinv₄⟩

end Steps

end Xv6.Zip
