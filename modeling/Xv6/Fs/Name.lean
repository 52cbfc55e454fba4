import Mathlib.Data.List.TakeWhile
import Xv6.Fs.Path

/-!
# Xv6.Fs.Name

Names in directories: `char name[DIRSIZ]` holds up to `DIRSIZ` bytes, followed by zeros if
there is room.
-/

namespace Xv6.Fs

/-- `strncmp` finds no difference up to the end of the first string. -/
theorem strncmp_eq_zero_iff (n : Nat) (p q : Nat → UInt8) :
    strncmp n p q = 0 ↔ ∀ k < n, (∀ j < k, p j ≠ 0) → p k = q k := by
  induction n generalizing p q with
  | zero => simp [strncmp]
  | succ n ih =>
      rw [strncmp]
      split
      · next h =>
        rw [ih]
        constructor
        · intro hall k hk hp
          cases k with
          | zero => exact h.2
          | succ k => exact hall k (by omega) fun j hj => hp (j + 1) (by omega)
        · intro hall k hk hp
          refine hall (k + 1) (by omega) fun j hj => ?_
          cases j with
          | zero => exact h.1
          | succ j => exact hp j (by omega)
      · next h =>
        constructor
        · intro hsub k hk hp
          have h0 : p 0 = q 0 := UInt8.toNat_inj.mp (by omega)
          cases k with
          | zero => exact h0
          | succ k => exact absurd ⟨hp 0 (by omega), h0⟩ h
        · intro hall
          rw [hall 0 (by omega) fun j hj => absurd hj (Nat.not_lt_zero j)]
          omega

/-- The bytes that `strncpy` stores: those of the string, and zeros after its end. -/
theorem getD_strncpy (n : Nat) (t : Nat → UInt8) (k : Nat) :
    (strncpy n t).getD k 0 = if k < n ∧ ∀ j < k, t j ≠ 0 then t k else 0 := by
  induction n generalizing t k with
  | zero => simp [strncpy]
  | succ n ih =>
      rw [strncpy]
      split
      · next h0 =>
        have hzero : (List.replicate (n + 1) (0 : UInt8)).getD k 0 = 0 := by
          simp [List.getD_eq_getElem?_getD, List.getElem?_replicate]
          split <;> rfl
        rw [hzero]
        split
        · next hk =>
          cases k with
          | zero => exact h0.symm
          | succ k => exact absurd h0 (hk.2 0 (by omega))
        · rfl
      · next h0 =>
        cases k with
        | zero => simp
        | succ k =>
            rw [List.getD_cons_succ, ih]
            have hiff : (k < n ∧ ∀ j < k, t (j + 1) ≠ 0) ↔ (k + 1 < n + 1 ∧ ∀ j < k + 1, t j ≠ 0) := by
              constructor
              · rintro ⟨hk, hall⟩
                refine ⟨by omega, fun j hj => ?_⟩
                cases j with
                | zero => exact h0
                | succ j => exact hall j (by omega)
              · rintro ⟨hk, hall⟩
                exact ⟨by omega, fun j hj => hall (j + 1) (by omega)⟩
            simp only [hiff]

/-! ## strings -/

/-- The bytes of a string, as an array. -/
def chars (w : List UInt8) : Name := fun k => w.getD k 0

theorem chars_ne_zero {w : List UInt8} (hw : 0 ∉ w) {k : Nat} : chars w k ≠ 0 ↔ k < w.length := by
  unfold chars
  constructor
  · intro h
    by_contra hk
    exact h (by simp [List.getD_eq_getElem?_getD, List.getElem?_eq_none (by omega : w.length ≤ k)])
  · intro hk h0
    rw [List.getD_eq_getElem _ _ hk] at h0
    exact hw (h0 ▸ List.getElem_mem hk)

theorem chars_of_le {w : List UInt8} {k : Nat} (h : w.length ≤ k) : chars w k = 0 := by
  unfold chars
  rw [List.getD_eq_getElem?_getD, List.getElem?_eq_none h]
  rfl

theorem chars_strncpy {w : List UInt8} (hw : 0 ∉ w) (n : Nat) :
    chars (strncpy n (chars w)) = chars (w.take n) := by
  funext k
  rw [chars, getD_strncpy]
  by_cases hk : k < n ∧ k < w.length
  · rw [if_pos ⟨hk.1, fun j hj => (chars_ne_zero hw).mpr (by omega)⟩]
    simp [chars, hk.1]
  · rw [chars_of_le (w := w.take n) (by rw [List.length_take]; omega)]
    split
    · next hc => exact chars_of_le (by omega)
    · rfl

/-- **Two names are the same** when `namecmp` finds no difference. -/
theorem namecmp_eq_zero_iff {u v : List UInt8} (hu : 0 ∉ u) (hv : 0 ∉ v)
    (hlu : u.length ≤ DIRSIZ) (hlv : v.length ≤ DIRSIZ) :
    namecmp (chars u) (chars v) = 0 ↔ u = v := by
  rw [namecmp, strncmp_eq_zero_iff]
  constructor
  · intro h
    have hbefore (k : Nat) (hk : k ≤ u.length) : ∀ j < k, chars u j ≠ 0 :=
      fun j hj => (chars_ne_zero hu).mpr (by omega)
    -- where the first string ends, the second one does
    have hle : v.length ≤ u.length := by
      by_contra hlt
      have he := h u.length (by omega) (hbefore _ le_rfl)
      rw [chars_of_le le_rfl] at he
      exact (chars_ne_zero hv).mpr (by omega) he.symm
    have hge : u.length ≤ v.length := by
      by_contra hlt
      have he := h v.length (by omega) (hbefore _ (by omega))
      rw [show chars v v.length = 0 from chars_of_le le_rfl] at he
      exact (chars_ne_zero hu).mpr (by omega) he
    apply List.ext_getElem (by omega)
    intro k hk hk'
    have he := h k (by omega) (hbefore k (by omega))
    unfold chars at he
    rwa [List.getD_eq_getElem _ _ hk, List.getD_eq_getElem _ _ hk'] at he
  · rintro rfl k _ _
    rfl

/-- The one element of a path `/name`. -/
theorem skipelem_root {w : List UInt8} (hne : w ≠ []) (hw : slash ∉ w) :
    skipelem (slash :: w) = some ([], chars (w.take DIRSIZ)) := by
  have hskip : (slash :: w).dropWhile (· == slash) = w := by
    rw [List.dropWhile_cons_of_pos (by simp)]
    cases w with
    | nil => rfl
    | cons c w =>
        have hc : c ≠ slash := fun hc => hw (by simp [hc])
        rw [List.dropWhile_cons_of_neg (by simpa using hc)]
  have hall : ∀ c ∈ w, (c != slash) = true := by
    intro c hc
    rw [bne_iff_ne]
    rintro rfl
    exact hw hc
  have htake : w.takeWhile (· != slash) = w := List.takeWhile_eq_self_iff.mpr hall
  have hdrop : w.dropWhile (· != slash) = [] := List.dropWhile_eq_nil_iff.mpr hall
  have hname : (fun k => if k < DIRSIZ then w.getD k 0 else 0) = chars (w.take DIRSIZ) := by
    funext k
    unfold chars
    split
    · next hk => simp [hk]
    · next hk => simp [List.getD_eq_getElem?_getD, hk]
  unfold skipelem
  rw [hskip]
  cases w with
  | nil => exact absurd rfl hne
  | cons c w =>
      simp only
      rw [htake, hdrop, hname]
      rfl

end Xv6.Fs
