import Mathlib.Data.Nat.Bitwise
import Xv6.Zip.Expand
import Xv6.Zip.Tree

/-!
# Xv6.Zip.Window

The ring buffers of both sides, as windows on one stream: `N - F` zero bytes
followed by the text.  Byte `t` of the stream is at `t % N` in either ring.

* `Expanded xs k d`: the expansion has produced `k` bytes of the text, and its
  ring holds the last `N` bytes of the stream up to there;
* `Window xs m`: `text_buf` holds the last `N` bytes of the stream up to the
  `m` bytes of the text that have been read, and repeats its first `F - 1`
  bytes at the end;
* `Within lo hi S`: the nodes of the trees are positions of the stream from
  `lo` to `hi`.
-/

namespace Xv6.Zip

/-- The stream that both rings are windows on. -/
def stream (xs : List UInt8) (t : Nat) : UInt8 :=
  if t < N - F then 0 else xs.getD (t - (N - F)) 0

variable {xs : List UInt8} {k m : Nat}

theorem stream_text (hk : k < xs.length) : stream xs (N - F + k) = xs[k] := by
  have h : ¬ N - F + k < N - F := by omega
  rw [stream, if_neg h, Nat.add_sub_cancel_left, List.getD_eq_getElem xs 0 hk]

/-- Positions that are less than `N` apart are different in the ring. -/
theorem mod_ne {a b : Nat} (h1 : a < b) (h2 : b < a + N) : a % N ≠ b % N := by
  simp only [N] at h2 ⊢
  omega

theorem and_ring (x : Nat) : x &&& (N - 1) = x % N := Nat.and_two_pow_sub_one_eq_mod x 12

/-! ## the ring of the expansion -/

structure Expanded (xs : List UInt8) (k : Nat) (d : Ring) : Prop where
  le : k ≤ xs.length
  r : d.r = (N - F + k) % N
  out : d.out = xs.take k
  buf : ∀ t < N - F + k, N - F + k ≤ t + N → d.buf (t % N) = stream xs t

theorem Expanded.zero (xs : List UInt8) : Expanded xs 0 Ring.zero where
  le := Nat.zero_le _
  r := rfl
  out := by simp [Ring.zero]
  buf := fun t ht _ => by rw [stream, if_pos (by simpa using ht)]; rfl

/-- The next byte of the text. -/
theorem Expanded.put {d : Ring} (h : Expanded xs k d) (hk : k < xs.length) :
    Expanded xs (k + 1) (d.put (stream xs (N - F + k))) where
  le := hk
  r := by simp only [Ring.put, h.r, Nat.mod_add_mod]; rfl
  out := by
    simp only [Ring.put, h.out, stream_text hk]
    exact List.take_append_getElem hk
  buf := fun t ht htN => by
    simp only [Ring.put, h.r]
    by_cases hlt : t < N - F + k
    · rw [Function.update_of_ne (mod_ne hlt (by omega))]
      exact h.buf t hlt (by omega)
    · rw [show t = N - F + k by omega, Function.update_self]

/-- A match in the stream expands to the text. -/
theorem Expanded.copy {d : Ring} {pos t : Nat} (n : Nat) (h : Expanded xs k d)
    (hk : k + n ≤ xs.length) (ht : t < N - F + k) (htN : N - F + k ≤ t + N)
    (hpos : pos % N = t % N)
    (heq : ∀ j < n, stream xs (t + j) = stream xs (N - F + k + j)) :
    Expanded xs (k + n) (d.copy pos n) := by
  induction n generalizing d k pos t with
  | zero => exact h
  | succ n ih =>
      have h0 : d.buf (pos % N) = stream xs (N - F + k) := by
        rw [hpos, h.buf t ht htN]
        exact heq 0 (Nat.succ_pos n)
      have hstep := ih (h.put (by omega)) (by omega) (show t + 1 < N - F + (k + 1) by omega)
        (by omega) (show (pos + 1) % N = (t + 1) % N by rw [Nat.add_mod, hpos, ← Nat.add_mod])
        fun j hj => by
          have := heq (j + 1) (by omega)
          rwa [show t + 1 + j = t + (j + 1) by omega,
            show N - F + (k + 1) + j = N - F + k + (j + 1) by omega]
      rw [Ring.copy, h0, show k + (n + 1) = k + 1 + n by omega]
      exact hstep

/-! ## the text buffer -/

structure Window (xs : List UInt8) (m : Nat) (X : Nat → UInt8) : Prop where
  text : ∀ t < N - F + m, m ≤ t + F → X (t % N) = stream xs t
  mirror : ∀ j < F - 1, X (N + j) = X j

namespace Window

variable {X : Nat → UInt8}

/-- Up to `F` bytes in a row can be read without going back to the start. -/
theorem at_add (h : Window xs m X) (t : Nat) {j : Nat} (hj : j < F) :
    X (t % N + j) = X ((t + j) % N) := by
  have hmod := Nat.mod_lt t (show 0 < N by decide)
  by_cases hlt : t % N + j < N
  · rw [show (t + j) % N = t % N + j by simp only [N] at hlt ⊢; omega]
  · have hmirror := h.mirror (t % N + j - N) (by omega)
    rw [show N + (t % N + j - N) = t % N + j by omega] at hmirror
    rw [hmirror, show (t + j) % N = t % N + j - N by simp only [N, F] at hlt hmod hj ⊢; omega]

/-- The stream through the buffer. -/
theorem text_add (h : Window xs m X) {t j : Nat} (hj : j < F) (ht : t + j < N - F + m)
    (htm : m ≤ t + j + F) : X (t % N + j) = stream xs (t + j) := by
  rw [h.at_add t hj, h.text (t + j) ht htm]

/-- At the start nothing has been read. -/
theorem zero (h : ∀ i, X i = 0) : Window xs 0 X where
  text := fun t ht _ => by rw [h, stream, if_pos (by simpa using ht)]
  mirror := fun j _ => by rw [h, h]

/-- A byte that is read at the start, into the last `F` bytes. -/
theorem fill (h : Window xs m X) (hm : m < F) (hlen : m < xs.length) :
    Window xs (m + 1) (Function.update X (N - F + m) xs[m]) where
  text := fun t ht _ => by
    have htN : t % N = t := Nat.mod_eq_of_lt (by simp only [N, F] at ht hm ⊢; omega)
    rw [htN]
    by_cases hlt : t < N - F + m
    · rw [Function.update_of_ne (by omega)]
      have := h.text t hlt (by omega)
      rwa [htN] at this
    · rw [show t = N - F + m by omega, Function.update_self, stream_text hlen]
  mirror := fun j hj => by
    simp only [N, F] at hj hm ⊢
    rw [Function.update_of_ne (by omega), Function.update_of_ne (by omega)]
    exact h.mirror j hj

/-- A byte that is read into the place of the oldest one, and repeated at the
end if that is near the start. -/
theorem push {X' : Nat → UInt8} (h : Window xs (k + F) X) (hlen : k + F < xs.length)
    (hX : ∀ i, X' i = if i = k % N ∨ k % N < F - 1 ∧ i = k % N + N then xs[k + F] else X i) :
    Window xs (k + F + 1) X' where
  text := fun t ht htm => by
    have hmod := Nat.mod_lt t (show 0 < N by decide)
    rw [hX]
    by_cases hlt : t < N - F + (k + F)
    · have hne : k % N ≠ t % N := mod_ne (by omega) (by simp only [N, F] at hlt ⊢; omega)
      rw [if_neg (by omega)]
      exact h.text t hlt (by omega)
    · have ht' : t = N - F + (k + F) := by omega
      have hk : t % N = k % N := by rw [ht']; simp only [N, F]; omega
      rw [if_pos (.inl hk), ht', stream_text hlen]
  mirror := fun j hj => by
    have hmod := Nat.mod_lt k (show 0 < N by decide)
    rw [hX, hX]
    by_cases hjk : j = k % N
    · rw [if_pos (.inr ⟨by omega, by omega⟩), if_pos (.inl hjk)]
    · simp only [N, F] at hj hmod hjk ⊢
      rw [if_neg (by omega), if_neg (by omega)]
      exact h.mirror j hj

end Window

/-! ## the nodes -/

/-- The nodes are positions of the stream from `lo` to `hi`. -/
def Within (lo hi : Nat) (S : Finset Nat) : Prop := ∀ p ∈ S, ∃ t, lo ≤ t ∧ t < hi ∧ p = t % N

namespace Within

variable {lo hi : Nat} {S : Finset Nat}

/-- The next position is not there yet. -/
theorem not_mem (h : Within lo hi S) (hlo : hi < lo + N) : hi % N ∉ S := by
  intro hmem
  obtain ⟨t, h1, h2, h3⟩ := h _ hmem
  exact mod_ne h2 (by omega) h3.symm

theorem insert {S' : Finset Nat} (h : Within lo hi S) (hlo : lo ≤ hi)
    (hS : S' ⊆ Insert.insert (hi % N) S) : Within lo (hi + 1) S' := by
  intro p hp
  rcases Finset.mem_insert.mp (hS hp) with rfl | hp
  · exact ⟨hi, hlo, Nat.lt_succ_self hi, rfl⟩
  · obtain ⟨t, h1, h2, h3⟩ := h p hp
    exact ⟨t, h1, Nat.lt_succ_of_lt h2, h3⟩

theorem mono {hi' : Nat} (h : Within lo hi S) (hle : hi ≤ hi') : Within lo hi' S := by
  intro p hp
  obtain ⟨t, h1, h2, h3⟩ := h p hp
  exact ⟨t, h1, h2.trans_le hle, h3⟩

/-- The oldest position goes. -/
theorem erase (h : Within lo hi S) : Within (lo + 1) hi (S.erase (lo % N)) := by
  intro p hp
  obtain ⟨hne, hp⟩ := Finset.mem_erase.mp hp
  obtain ⟨t, h1, h2, rfl⟩ := h p hp
  have : t ≠ lo := fun e => hne (by rw [e])
  exact ⟨t, by omega, h2, rfl⟩

end Within

end Xv6.Zip
