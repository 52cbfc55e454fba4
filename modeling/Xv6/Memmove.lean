import Mathlib.Logic.Function.Basic

/-!
# Xv6.Memmove

The two functions `memmove`: the one of the kernel, `string.c`, and the one of the user library,
`ulib.c`.

The kernel's goes downwards when the destination starts inside the source.  The library's always
goes upwards, so that for such a destination it reads bytes it has already written: what it leaves
is the front of the source, up to the destination, again and again.

Memory is a function of the address, and addresses do not wrap around.
-/

namespace Xv6.Memmove

abbrev Mem := Nat → UInt8

/-- `while(n-- > 0) *d++ = *s++;` -/
def copyUp : Nat → Nat → Nat → Mem → Mem
  | 0, _, _, m => m
  | n + 1, d, s, m => copyUp n (d + 1) (s + 1) (Function.update m d (m s))

/-- `while(n-- > 0) *--d = *--s;` -/
def copyDown : Nat → Nat → Nat → Mem → Mem
  | 0, _, _, m => m
  | n + 1, d, s, m => copyDown n (d - 1) (s - 1) (Function.update m (d - 1) (m (s - 1)))

namespace Kernel

/-- `memmove` of `string.c`: what it returns, and memory after it. -/
def memmove (dst src n : Nat) (m : Mem) : Nat × Mem :=
  let s := src
  let d := dst
  if s < d ∧ s + n > d then
    let s := s + n
    let d := d + n
    (dst, copyDown n d s m)
  else (dst, copyUp n d s m)

end Kernel

namespace User

/-- `memmove` of `ulib.c`: what it returns, and memory after it. -/
def memmove (vdst vsrc n : Nat) (m : Mem) : Nat × Mem :=
  let dst := vdst
  let src := vsrc
  (vdst, copyUp n dst src m)

end User

/-- The bytes of `src` before are in `dst`, and no other byte has changed. -/
structure Moved (dst src n : Nat) (m m' : Mem) : Prop where
  moved : ∀ k < n, m' (dst + k) = m (src + k)
  frame : ∀ a, a < dst ∨ dst + n ≤ a → m' a = m a

variable {n d s : Nat} {m : Mem}

/-! ## upwards -/

/-- The loop with its last pass taken off. -/
theorem copyUp_succ : copyUp (n + 1) d s m =
    Function.update (copyUp n d s m) (d + n) (copyUp n d s m (s + n)) := by
  induction n generalizing d s m with
  | zero => rfl
  | succ n ih =>
      rw [copyUp, ih, Nat.add_right_comm d 1 n, Nat.add_right_comm s 1 n]
      rfl

theorem copyUp_frame {a : Nat} (h : a < d ∨ d + n ≤ a) : copyUp n d s m a = m a := by
  induction n with
  | zero => rfl
  | succ n ih =>
      rw [copyUp_succ, Function.update_of_ne (by omega)]
      exact ih (by omega)

/-- Byte `k` of the destination is byte `k` of the source as it is when the loop is there. -/
theorem copyUp_at {k : Nat} (h : k < n) : copyUp n d s m (d + k) = copyUp k d s m (s + k) := by
  induction n with
  | zero => omega
  | succ n ih =>
      rw [copyUp_succ]
      by_cases hk : k = n
      · rw [hk, Function.update_self]
      · rw [Function.update_of_ne (by omega)]
        exact ih (by omega)

/-- Where the destination does not start inside the source, the loop is ahead of its writes. -/
theorem copyUp_moved (h : d ≤ s ∨ s + n ≤ d) : Moved d s n m (copyUp n d s m) where
  moved k hk := by
    rw [copyUp_at hk]
    exact copyUp_frame (by omega)
  frame _ ha := copyUp_frame ha

/-- The bytes of the source repeat with the distance to `d` as period. -/
def Periodic (d s n : Nat) (m : Mem) : Prop :=
  ∀ k, d ≤ s + k → k < n → m (s + k) = m (s + k - (d - s))

/-- Behind the destination's start, the loop reads what it wrote. -/
theorem copyUp_again {k : Nat} (hsd : s < d) (hd : d ≤ s + k) (hk : k < n) :
    copyUp n d s m (d + k) = copyUp n d s m (d + (k - (d - s))) := by
  rw [copyUp_at hk, copyUp_at (k := k - (d - s)) (by omega),
    ← copyUp_at (n := k) (k := k - (d - s)) (by omega)]
  congr 1
  omega

theorem copyUp_moved_iff (hsd : s < d) : Moved d s n m (copyUp n d s m) ↔ Periodic d s n m := by
  constructor
  · intro h k hd hk
    have hle : s + k - (d - s) = s + (k - (d - s)) := by omega
    rw [← h.moved k hk, copyUp_again hsd hd hk, h.moved _ (by omega), hle]
  · intro h
    refine ⟨fun k => ?_, fun _ => copyUp_frame⟩
    -- by induction on the byte: the one a period before is already there
    induction k using Nat.strongRecOn with
    | _ k ih =>
        intro hk
        by_cases hd : d ≤ s + k
        · have hle : s + k - (d - s) = s + (k - (d - s)) := by omega
          rw [copyUp_again hsd hd hk, ih _ (by omega) (by omega), h k hd hk, hle]
        · rw [copyUp_at hk]
          exact copyUp_frame (by omega)

/-! ## downwards -/

theorem copyDown_moved (h : s < d) : Moved d s n m (copyDown n (d + n) (s + n) m) := by
  induction n generalizing m with
  | zero => exact ⟨fun k hk => absurd hk (Nat.not_lt_zero k), fun _ _ => rfl⟩
  | succ n ih =>
      have hstep : copyDown (n + 1) (d + (n + 1)) (s + (n + 1)) m =
          copyDown n (d + n) (s + n) (Function.update m (d + n) (m (s + n))) := rfl
      rw [hstep]
      refine ⟨fun k hk => ?_, fun a ha => ?_⟩
      · by_cases hkn : k = n
        · rw [hkn, ih.frame _ (by omega), Function.update_self]
        · -- what is still to be read lies below what has been written
          rw [ih.moved k (by omega), Function.update_of_ne (by omega)]
      · rw [ih.frame a (by omega), Function.update_of_ne (by omega)]

/-! ## the two functions -/

theorem kernel_moved (dst src n : Nat) (m : Mem) :
    Moved dst src n m (Kernel.memmove dst src n m).2 := by
  unfold Kernel.memmove
  simp only
  split
  · next h => exact copyDown_moved h.1
  · next h => exact copyUp_moved (by omega)

/-- **When both copy.** The kernel's `memmove` always does, and the library's exactly when the
destination does not start inside the source, or the source repeats with their distance. -/
theorem memmove_agree_iff (dst src n : Nat) (m : Mem) :
    Moved dst src n m (Kernel.memmove dst src n m).2 ∧
        Moved dst src n m (User.memmove dst src n m).2 ↔
      dst ≤ src ∨ src + n ≤ dst ∨ Periodic dst src n m := by
  rw [and_iff_right (kernel_moved dst src n m)]
  constructor
  · intro h
    by_cases hlt : src < dst
    · exact .inr (.inr ((copyUp_moved_iff hlt).mp h))
    · exact .inl (by omega)
  · rintro (h | h | h)
    · exact copyUp_moved (.inl h)
    · exact copyUp_moved (.inr h)
    · by_cases hlt : src < dst
      · exact (copyUp_moved_iff hlt).mpr h
      · exact copyUp_moved (.inl (by omega))

/-- Two bytes moved up by one: the library's second byte is the first again. -/
theorem user_memmove_repeats :
    ∃ m : Mem, ¬ Moved 1 0 2 m (User.memmove 1 0 2 m).2 := by
  refine ⟨fun a => UInt8.ofNat a, fun h => ?_⟩
  exact absurd (h.moved 1 (by decide)) (by decide)

end Xv6.Memmove
