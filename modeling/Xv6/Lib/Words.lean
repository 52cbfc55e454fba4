import Mathlib.Data.UInt
import Mathlib.Data.Nat.Bitwise

/-!
# Xv6.Lib.Words

Fixed-size byte arrays and the little-endian integers stored in them, as a C
program sees them through a cast pointer.  An array is a function on `Fin n`;
`get` and `put` address it by a plain index, `le32` / `putLe32` and `le16` /
`putLe16` read and write an integer at a byte offset, `store` is `memmove`
into the array, and `bitAt`, `setBit` and `clearBit` use it as a bitmap.

Each write has two lemmas: what it reads back, and that everything at other
offsets is as before.
-/

namespace Xv6.Words

variable {n : Nat}

/-! ## bytes -/

/-- The byte at index `i`; `0` outside the array. -/
def get (b : Fin n → UInt8) (i : Nat) : UInt8 := if h : i < n then b ⟨i, h⟩ else 0

/-- Store one byte. -/
def put (b : Fin n → UInt8) (i : Nat) (v : UInt8) : Fin n → UInt8 :=
  fun j => if j.val = i then v else b j

theorem get_put_self (b : Fin n → UInt8) {i : Nat} (h : i < n) (v : UInt8) :
    get (put b i v) i = v := by
  simp [get, put, h]

theorem get_put_of_ne (b : Fin n → UInt8) {i j : Nat} (h : j ≠ i) (v : UInt8) :
    get (put b i v) j = get b j := by
  unfold get
  split
  · simp [put, h]
  · rfl

/-! ## 32-bit words -/

/-- The little-endian 32-bit word at byte offset `off`. -/
def le32 (b : Fin n → UInt8) (off : Nat) : Nat :=
  (get b off).toNat + 256 * (get b (off + 1)).toNat + 65536 * (get b (off + 2)).toNat +
    16777216 * (get b (off + 3)).toNat

/-- Store a 32-bit word at byte offset `off`, little-endian. -/
def putLe32 (b : Fin n → UInt8) (off v : Nat) : Fin n → UInt8 :=
  put (put (put (put b off (UInt8.ofNat v)) (off + 1) (UInt8.ofNat (v / 256)))
    (off + 2) (UInt8.ofNat (v / 65536))) (off + 3) (UInt8.ofNat (v / 16777216))

theorem le32_lt (b : Fin n → UInt8) (off : Nat) : le32 b off < 2 ^ 32 := by
  have h0 := (get b off).toNat_lt
  have h1 := (get b (off + 1)).toNat_lt
  have h2 := (get b (off + 2)).toNat_lt
  have h3 := (get b (off + 3)).toNat_lt
  unfold le32
  omega

theorem get_putLe32_of_disjoint (b : Fin n → UInt8) {off v j : Nat}
    (h : j < off ∨ off + 4 ≤ j) : get (putLe32 b off v) j = get b j := by
  unfold putLe32
  rw [get_put_of_ne _ (by omega), get_put_of_ne _ (by omega), get_put_of_ne _ (by omega),
    get_put_of_ne _ (by omega)]

theorem le32_congr {a b : Fin n → UInt8} {off : Nat}
    (h : ∀ j, off ≤ j → j < off + 4 → get a j = get b j) : le32 a off = le32 b off := by
  unfold le32
  rw [h off (by omega) (by omega), h (off + 1) (by omega) (by omega),
    h (off + 2) (by omega) (by omega), h (off + 3) (by omega) (by omega)]

theorem le32_putLe32_of_disjoint (b : Fin n → UInt8) {off off' v : Nat}
    (h : off' + 4 ≤ off ∨ off + 4 ≤ off') : le32 (putLe32 b off v) off' = le32 b off' :=
  le32_congr fun _ _ _ => get_putLe32_of_disjoint b (by omega)

theorem le32_putLe32 (b : Fin n → UInt8) {off : Nat} (h : off + 4 ≤ n) (v : Nat) :
    le32 (putLe32 b off v) off = v % 2 ^ 32 := by
  have h3 : get (putLe32 b off v) (off + 3) = UInt8.ofNat (v / 16777216) :=
    get_put_self _ (by omega) _
  have h2 : get (putLe32 b off v) (off + 2) = UInt8.ofNat (v / 65536) := by
    unfold putLe32
    rw [get_put_of_ne _ (by omega), get_put_self _ (by omega)]
  have h1 : get (putLe32 b off v) (off + 1) = UInt8.ofNat (v / 256) := by
    unfold putLe32
    rw [get_put_of_ne _ (by omega), get_put_of_ne _ (by omega), get_put_self _ (by omega)]
  have h0 : get (putLe32 b off v) off = UInt8.ofNat v := by
    unfold putLe32
    rw [get_put_of_ne _ (by omega), get_put_of_ne _ (by omega), get_put_of_ne _ (by omega),
      get_put_self _ (by omega)]
  unfold le32
  rw [h0, h1, h2, h3]
  simp only [UInt8.toNat_ofNat']
  omega

/-! ## 16-bit words -/

/-- The little-endian 16-bit word at byte offset `off`. -/
def le16 (b : Fin n → UInt8) (off : Nat) : Nat :=
  (get b off).toNat + 256 * (get b (off + 1)).toNat

/-- Store a 16-bit word at byte offset `off`, little-endian. -/
def putLe16 (b : Fin n → UInt8) (off v : Nat) : Fin n → UInt8 :=
  put (put b off (UInt8.ofNat v)) (off + 1) (UInt8.ofNat (v / 256))

theorem get_putLe16_of_disjoint (b : Fin n → UInt8) {off v j : Nat}
    (h : j < off ∨ off + 2 ≤ j) : get (putLe16 b off v) j = get b j := by
  unfold putLe16
  rw [get_put_of_ne _ (by omega), get_put_of_ne _ (by omega)]

theorem le16_congr {a b : Fin n → UInt8} {off : Nat}
    (h : ∀ j, off ≤ j → j < off + 2 → get a j = get b j) : le16 a off = le16 b off := by
  unfold le16
  rw [h off (by omega) (by omega), h (off + 1) (by omega) (by omega)]

theorem le16_putLe16_of_disjoint (b : Fin n → UInt8) {off off' v : Nat}
    (h : off' + 2 ≤ off ∨ off + 2 ≤ off') : le16 (putLe16 b off v) off' = le16 b off' :=
  le16_congr fun _ _ _ => get_putLe16_of_disjoint b (by omega)

theorem le16_putLe32_of_disjoint (b : Fin n → UInt8) {off off' v : Nat}
    (h : off' + 2 ≤ off ∨ off + 4 ≤ off') : le16 (putLe32 b off v) off' = le16 b off' :=
  le16_congr fun _ _ _ => get_putLe32_of_disjoint b (by omega)

theorem le16_putLe16 (b : Fin n → UInt8) {off : Nat} (h : off + 2 ≤ n) (v : Nat) :
    le16 (putLe16 b off v) off = v % 2 ^ 16 := by
  have h1 : get (putLe16 b off v) (off + 1) = UInt8.ofNat (v / 256) := get_put_self _ (by omega) _
  have h0 : get (putLe16 b off v) off = UInt8.ofNat v := by
    unfold putLe16
    rw [get_put_of_ne _ (by omega), get_put_self _ (by omega)]
  unfold le16
  rw [h0, h1]
  simp only [UInt8.toNat_ofNat']
  omega

/-! ## runs of bytes -/

/-- `memmove` of the `m` bytes at `src` to byte offset `off`. -/
def store (b : Fin n → UInt8) (off : Nat) (src : Nat → UInt8) (m : Nat) : Fin n → UInt8 :=
  fun j => if off ≤ j.val ∧ j.val < off + m then src (j.val - off) else b j

theorem get_store (b : Fin n → UInt8) {off m i : Nat} (src : Nat → UInt8) (hi : i < n) :
    get (store b off src m) i = if off ≤ i ∧ i < off + m then src (i - off) else get b i := by
  simp [get, store, hi]

theorem get_store_of_disjoint (b : Fin n → UInt8) {off m i : Nat} (src : Nat → UInt8)
    (h : i < off ∨ off + m ≤ i) : get (store b off src m) i = get b i := by
  unfold get
  split
  · simp only [store]
    rw [if_neg (by omega)]
  · rfl

theorem le32_store_of_disjoint (b : Fin n → UInt8) {off m off' : Nat} (src : Nat → UInt8)
    (h : off' + 4 ≤ off ∨ off + m ≤ off') : le32 (store b off src m) off' = le32 b off' :=
  le32_congr fun _ _ _ => get_store_of_disjoint b src (by omega)

theorem le16_store_of_disjoint (b : Fin n → UInt8) {off m off' : Nat} (src : Nat → UInt8)
    (h : off' + 2 ≤ off ∨ off + m ≤ off') : le16 (store b off src m) off' = le16 b off' :=
  le16_congr fun _ _ _ => get_store_of_disjoint b src (by omega)

/-- An array of 32-bit words as it lies in memory. -/
def image (a : Nat → Nat) : Nat → UInt8 := fun k => UInt8.ofNat (a (k / 4) / 256 ^ (k % 4))

theorem le32_store_image (b : Fin n → UInt8) {off m k : Nat} (a : Nat → Nat) (hk : k < m)
    (h : off + 4 * m ≤ n) : le32 (store b off (image a) (4 * m)) (off + 4 * k) = a k % 2 ^ 32 := by
  have hbyte (i : Nat) (hi : i < 4) :
      get (store b off (image a) (4 * m)) (off + 4 * k + i) = UInt8.ofNat (a k / 256 ^ i) := by
    rw [get_store _ _ (by omega), if_pos (by omega), image,
      show (off + 4 * k + i - off) / 4 = k by omega, show (off + 4 * k + i - off) % 4 = i by omega]
  unfold le32
  rw [← Nat.add_zero (off + 4 * k), hbyte 0 (by omega), Nat.add_zero, hbyte 1 (by omega),
    hbyte 2 (by omega), hbyte 3 (by omega)]
  simp only [UInt8.toNat_ofNat']
  omega

/-! ## bitmaps -/

/-- The mask `1 << k` of a byte. -/
def mask (k : Nat) : UInt8 := 1 <<< UInt8.ofNat k

/-- The bit with number `i`, counted from the low bit of the first byte. -/
def bitAt (b : Fin n → UInt8) (i : Nat) : Bool := get b (i / 8) &&& mask (i % 8) != 0

def setBit (b : Fin n → UInt8) (i : Nat) : Fin n → UInt8 :=
  put b (i / 8) (get b (i / 8) ||| mask (i % 8))

def clearBit (b : Fin n → UInt8) (i : Nat) : Fin n → UInt8 :=
  put b (i / 8) (get b (i / 8) &&& ~~~ mask (i % 8))

theorem toNat_mask {k : Nat} (hk : k < 8) : (mask k).toNat = 2 ^ k := by
  have h : ∀ k < 8, (mask k).toNat = 2 ^ k := by decide
  exact h k hk

theorem and_mask_ne_zero (v : UInt8) {k : Nat} (hk : k < 8) :
    (v &&& mask k != 0) = v.toNat.testBit k := by
  have hand : (v &&& mask k).toNat = (v.toNat.testBit k).toNat * 2 ^ k := by
    rw [UInt8.toNat_and, toNat_mask hk, Nat.and_two_pow]
  have hzero : v &&& mask k = 0 ↔ v.toNat.testBit k = false := by
    rw [← UInt8.toNat_inj, hand]
    cases v.toNat.testBit k <;> simp
  cases hb : v.toNat.testBit k with
  | false => simp [hzero.mpr hb]
  | true => simpa [bne_iff_ne] using fun h => by simpa [hb] using hzero.mp h

theorem bitAt_eq_testBit (b : Fin n → UInt8) (i : Nat) :
    bitAt b i = (get b (i / 8)).toNat.testBit (i % 8) :=
  and_mask_ne_zero _ (by omega)

theorem testBit_or_mask (v : UInt8) {k : Nat} (hk : k < 8) (j : Nat) :
    (v ||| mask k).toNat.testBit j = (v.toNat.testBit j || decide (k = j)) := by
  rw [UInt8.toNat_or, toNat_mask hk, Nat.testBit_or, Nat.testBit_two_pow]

theorem testBit_and_not_mask (v : UInt8) {k j : Nat} (hk : k < 8) (hj : j < 8) :
    (v &&& ~~~ mask k).toNat.testBit j = (v.toNat.testBit j && !decide (k = j)) := by
  have hpow : 2 ^ k < 2 ^ 8 := Nat.pow_lt_pow_right (by omega) hk
  rw [UInt8.toNat_and, Nat.testBit_and, UInt8.toNat_not, toNat_mask hk,
    show UInt8.size - 1 - 2 ^ k = 2 ^ 8 - (2 ^ k + 1) by simp only [UInt8.size]; omega, Nat.testBit_two_pow_sub_succ hpow,
    Nat.testBit_two_pow, decide_eq_true hj, Bool.true_and]

/-- A write to one byte is seen by the bits of that byte only. -/
theorem bitAt_put (b : Fin n → UInt8) {i j : Nat} (hi : i / 8 < n) (v : UInt8) :
    bitAt (put b (i / 8) v) j = if j / 8 = i / 8 then v.toNat.testBit (j % 8) else bitAt b j := by
  rw [bitAt_eq_testBit, bitAt_eq_testBit]
  split
  · next h => rw [h, get_put_self _ hi]
  · next h => rw [get_put_of_ne _ h]

theorem bitAt_setBit (b : Fin n → UInt8) {i : Nat} (hi : i / 8 < n) (j : Nat) :
    bitAt (setBit b i) j = (bitAt b j || decide (j = i)) := by
  rw [setBit, bitAt_put _ hi, testBit_or_mask _ (by omega)]
  split
  · next h =>
    rw [bitAt_eq_testBit, h]
    rw [decide_eq_decide.mpr (show i % 8 = j % 8 ↔ j = i by omega)]
  · next h => simp [show j ≠ i by rintro rfl; exact h rfl]

theorem bitAt_clearBit (b : Fin n → UInt8) {i : Nat} (hi : i / 8 < n) (j : Nat) :
    bitAt (clearBit b i) j = (bitAt b j && !decide (j = i)) := by
  rw [clearBit, bitAt_put _ hi, testBit_and_not_mask _ (by omega) (by omega)]
  split
  · next h =>
    rw [bitAt_eq_testBit, h]
    rw [decide_eq_decide.mpr (show i % 8 = j % 8 ↔ j = i by omega)]
  · next h => simp [show j ≠ i by rintro rfl; exact h rfl]

end Xv6.Words
