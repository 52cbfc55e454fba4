import Xv6.Fs.Disk
import Xv6.Lib.Owner

/-!
# Xv6.Fs.Own

Who holds which block.  An inode has a slot for each of its blocks, direct or
through the indirect block, and one for the indirect block itself; `ref` gives
the block in a slot, over all allocated inodes.

`Consistent` says that the free map and the slots agree (`Owned`) and that a
file has all the blocks below its size.  It speaks about a table of inodes
`ino`: between operations that is the table on the disk, and inside an
operation the table with the inode at hand as it is in memory.
-/

namespace Xv6.Fs

open Words

/-! ## slots -/

/-- A place for a block address in an inode. -/
inductive Slot
  /-- the address of block `bn` of the file -/
  | block (bn : Nat)
  /-- `addrs[NDIRECT]` -/
  | indirect
deriving DecidableEq

/-- The address in a slot, `0` for none. -/
def slotAddr (disk : Nat → Block) (d : Dinode) : Slot → Nat
  | .block bn =>
      if bn < NDIRECT then (d.addr bn).toNat
      else if bn - NDIRECT < NINDIRECT ∧ d.addr NDIRECT ≠ 0 then
        le32 (disk (d.addr NDIRECT).toNat) (4 * (bn - NDIRECT))
      else 0
  | .indirect => (d.addr NDIRECT).toNat

/-- The block in a slot of an allocated inode. -/
def ref (sb : Superblock) (disk : Nat → Block) (ino : Nat → Dinode) (x : Nat × Slot) : Option Nat :=
  if x.1 < sb.ninodes ∧ (ino x.1).type ≠ 0 ∧ slotAddr disk (ino x.1) x.2 ≠ 0 then
    some (slotAddr disk (ino x.1) x.2)
  else none

section Slots

variable {sb : Superblock} {disk disk' : Nat → Block} {ino ino' : Nat → Dinode} {d : Dinode}
  {i b bn : Nat} {t : Slot}

theorem slotAddr_direct (h : bn < NDIRECT) : slotAddr disk d (.block bn) = (d.addr bn).toNat := by
  rw [slotAddr, if_pos h]

theorem slotAddr_entry (h : ¬ bn < NDIRECT) (h' : bn - NDIRECT < NINDIRECT)
    (hd : d.addr NDIRECT ≠ 0) :
    slotAddr disk d (.block bn) = le32 (disk (d.addr NDIRECT).toNat) (4 * (bn - NDIRECT)) := by
  rw [slotAddr, if_neg h, if_pos ⟨h', hd⟩]

/-- No block is beyond `MAXFILE`. -/
theorem lt_MAXFILE_of_slotAddr_ne_zero (h : slotAddr disk d (.block bn) ≠ 0) : bn < MAXFILE := by
  rw [slotAddr] at h
  split at h
  · next hlt =>
    unfold MAXFILE
    omega
  · split at h
    · next hlt =>
      unfold MAXFILE
      omega
    · exact absurd rfl h

theorem ref_eq_some : ref sb disk ino (i, t) = some b ↔
    i < sb.ninodes ∧ (ino i).type ≠ 0 ∧ slotAddr disk (ino i) t = b ∧ b ≠ 0 := by
  unfold ref
  constructor
  · intro h
    split at h
    · next hc =>
      obtain rfl := Option.some.inj h
      exact ⟨hc.1, hc.2.1, rfl, hc.2.2⟩
    · exact absurd h (by simp)
  · rintro ⟨hi, ht, rfl, hb⟩
    rw [if_pos ⟨hi, ht, hb⟩]

theorem ref_eq_none (hi : i < sb.ninodes) (ht : (ino i).type ≠ 0) :
    ref sb disk ino (i, t) = none ↔ slotAddr disk (ino i) t = 0 := by
  unfold ref
  constructor
  · intro h
    by_contra hne
    rw [if_pos ⟨hi, ht, hne⟩] at h
    exact absurd h (by simp)
  · intro h
    rw [if_neg fun hc => hc.2.2 h]

/-- The slots of an inode depend on its addresses and its indirect block. -/
theorem slotAddr_congr {d' : Dinode} (haddr : ∀ k ≤ NDIRECT, d'.addr k = d.addr k)
    (hdisk : d.addr NDIRECT ≠ 0 → disk' (d.addr NDIRECT).toNat = disk (d.addr NDIRECT).toNat) :
    slotAddr disk' d' t = slotAddr disk d t := by
  cases t with
  | indirect => rw [slotAddr, slotAddr, haddr NDIRECT le_rfl]
  | block bn =>
      by_cases hbn : bn < NDIRECT
      · rw [slotAddr_direct hbn, slotAddr_direct hbn, haddr bn (by omega)]
      · rw [slotAddr, slotAddr, if_neg hbn, if_neg hbn, haddr NDIRECT le_rfl]
        split
        · next h => rw [hdisk h.2]
        · rfl

theorem slotAddr_eq_zero (h : ∀ k ≤ NDIRECT, d.addr k = 0) (t : Slot) : slotAddr disk d t = 0 := by
  cases t with
  | indirect =>
      rw [slotAddr, h NDIRECT le_rfl]
      rfl
  | block bn =>
      by_cases hbn : bn < NDIRECT
      · rw [slotAddr_direct hbn, h bn (by omega)]
        rfl
      · rw [slotAddr, if_neg hbn, if_neg fun hc => hc.2 (h NDIRECT le_rfl)]

/-- Which blocks are held depends on the types and the slots of the inodes. -/
theorem ref_congr (htype : i < sb.ninodes → (ino' i).type = (ino i).type)
    (hslot : i < sb.ninodes → (ino i).type ≠ 0 →
      slotAddr disk' (ino' i) t = slotAddr disk (ino i) t) :
    ref sb disk' ino' (i, t) = ref sb disk ino (i, t) := by
  by_cases hi : i < sb.ninodes
  · unfold ref
    simp only
    rw [htype hi]
    by_cases ht : (ino i).type ≠ 0
    · rw [hslot hi ht]
    · rw [if_neg fun hc => ht hc.2.1, if_neg fun hc => ht hc.2.1]
  · unfold ref
    rw [if_neg fun hc => hi hc.1, if_neg fun hc => hi hc.1]

end Slots

/-! ## consistency -/

/-- The file system is well formed, with the inodes of the table `ino`. -/
structure Consistent (sb : Superblock) (disk : Nat → Block) (ino : Nat → Dinode) : Prop where
  layout : sb.Layout
  super : getSuper (disk 1) = sb
  /-- the blocks in use are those before the data blocks and those in a slot -/
  own : Owned (Finset.range sb.size) (busy sb disk) (isMeta sb) (ref sb disk ino)
  /-- a file has the blocks below its size -/
  filled : ∀ i < sb.ninodes, (ino i).type ≠ 0 → ∀ bn, bn * BSIZE < (ino i).size.toNat →
    slotAddr disk (ino i) (.block bn) ≠ 0

namespace Consistent

variable {sb : Superblock} {disk disk' : Nat → Block} {ino ino' : Nat → Dinode} {i j b bn : Nat}
  {t : Slot}

theorem size_lt (h : Consistent sb disk ino) : sb.size < 2 ^ 32 := by
  rw [← h.super]
  exact le32_lt _ _

theorem size_le (h : Consistent sb disk ino) (hi : i < sb.ninodes) (ht : (ino i).type ≠ 0) :
    (ino i).size.toNat ≤ MAXFILE * BSIZE := by
  by_contra hlt
  have := lt_MAXFILE_of_slotAddr_ne_zero (h.filled i hi ht MAXFILE (by omega))
  omega

/-- A block in a slot is a data block. -/
theorem not_isMeta (h : Consistent sb disk ino) (hr : ref sb disk ino (i, t) = some b) :
    ¬ isMeta sb b :=
  h.own.not_reserved hr

theorem lt_size (h : Consistent sb disk ino) (hr : ref sb disk ino (i, t) = some b) :
    b < sb.size :=
  Finset.mem_range.mp (h.own.mem hr)

theorem indirect_ref (hi : i < sb.ninodes) (ht : (ino i).type ≠ 0)
    (hd : (ino i).addr NDIRECT ≠ 0) :
    ref sb disk ino (i, .indirect) = some ((ino i).addr NDIRECT).toNat :=
  ref_eq_some.mpr ⟨hi, ht, rfl, fun h0 => hd (UInt32.toNat_inj.mp h0)⟩

/-- A file system without any file contents. -/
theorem of_no_refs (hlayout : sb.Layout) (hsuper : getSuper (disk 1) = sb)
    (hbusy : ∀ b < sb.size, busy sb disk b = true ↔ isMeta sb b)
    (href : ∀ x, ref sb disk ino x = none)
    (hsize : ∀ i < sb.ninodes, (ino i).type ≠ 0 → (ino i).size = 0) :
    Consistent sb disk ino where
  layout := hlayout
  super := hsuper
  own :=
    { busy_iff := fun b hb => by simp [hbusy b (Finset.mem_range.mp hb), href]
      inj := fun hx => absurd (hx.symm.trans (href _)) (by simp)
      mem := fun hx => absurd (hx.symm.trans (href _)) (by simp)
      not_reserved := fun hx => absurd (hx.symm.trans (href _)) (by simp) }
  filled := by
    intro i hi ht bn hbn
    rw [hsize i hi ht] at hbn
    exact absurd hbn (Nat.not_lt_zero _)

/-- The same table and the same blocks, the free map aside. -/
theorem congr (h : Consistent sb disk ino) (hsuper : disk' 1 = disk 1)
    (hbusy : ∀ c < sb.size, busy sb disk' c = busy sb disk c)
    (hino : ∀ i < sb.ninodes, ino' i = ino i)
    (hslot : ∀ i < sb.ninodes, (ino i).type ≠ 0 → ∀ t,
      slotAddr disk' (ino i) t = slotAddr disk (ino i) t) :
    Consistent sb disk' ino' where
  layout := h.layout
  super := by rw [hsuper, h.super]
  own := h.own.congr (fun c hc => hbusy c (Finset.mem_range.mp hc))
    fun ⟨i, t⟩ => ref_congr (fun hi => by rw [hino i hi]) fun hi ht => by
      rw [hino i hi, hslot i hi ht]
  filled := by
    intro i hi ht bn hbn
    rw [hino i hi] at ht hbn ⊢
    rw [hslot i hi ht]
    exact h.filled i hi ht bn hbn

/-- Writing a block that is in a slot for contents changes no address. -/
theorem slotAddr_write (h : Consistent sb disk ino)
    (hr : ref sb disk ino (i, .block bn) = some b) (data : Block) (hj : j < sb.ninodes)
    (htj : (ino j).type ≠ 0) :
    slotAddr (Function.update disk b data) (ino j) t = slotAddr disk (ino j) t := by
  refine slotAddr_congr (fun _ _ => rfl) fun hd => Function.update_of_ne ?_ _ _
  rintro rfl
  exact absurd (h.own.inj (indirect_ref hj htj hd) hr) (by simp)

theorem busy_write (h : Consistent sb disk ino) (hr : ref sb disk ino (i, t) = some b)
    (data : Block) {c : Nat} (hc : c < sb.size) :
    busy sb (Function.update disk b data) c = busy sb disk c :=
  busy_write_of_ne (ne_of_isMeta (h.layout.isMeta_BBLOCK hc) (h.not_isMeta hr))

theorem dinode_write (h : Consistent sb disk ino) (hr : ref sb disk ino (i, t) = some b)
    (data : Block) (hj : j < sb.ninodes) :
    dinode sb (Function.update disk b data) j = dinode sb disk j :=
  dinode_write_of_ne (ne_of_isMeta (h.layout.isMeta_IBLOCK hj) (h.not_isMeta hr))

theorem super_write (h : Consistent sb disk ino) (hr : ref sb disk ino (i, t) = some b)
    (data : Block) : Function.update disk b data 1 = disk 1 :=
  Function.update_of_ne (ne_of_isMeta (isMeta_one sb) (h.not_isMeta hr)) _ _

/-- **Writing contents** keeps the file system consistent. -/
theorem write (h : Consistent sb disk ino) (hr : ref sb disk ino (i, .block bn) = some b)
    (data : Block) : Consistent sb (Function.update disk b data) ino :=
  h.congr (h.super_write hr data) (fun _ hc => h.busy_write hr data hc) (fun _ _ => rfl)
    fun _ hj htj _ => h.slotAddr_write hr data hj htj

/-- **Writing an inode block** does not matter to a given table of inodes. -/
theorem write_iblock (h : Consistent sb disk ino) (hi : i < sb.ninodes) (data : Block) :
    Consistent sb (Function.update disk (IBLOCK i sb) data) ino := by
  have hone := h.layout.one_lt_IBLOCK i
  refine h.congr (Function.update_of_ne (by omega) _ _)
    (fun c _ => busy_write_of_ne (h.layout.IBLOCK_ne_BBLOCK hi c).symm) (fun _ _ => rfl) ?_
  intro j hj htj t
  exact slotAddr_congr (fun _ _ => rfl) fun hd => Function.update_of_ne
    (ne_of_isMeta (h.layout.isMeta_IBLOCK hi) (h.not_isMeta (indirect_ref hj htj hd))).symm _ _

/-- What it means for the pair `disk'`, `ino'` to have the free block `b` in
the slot `x` that was empty, and to be as before otherwise. -/
structure Placed (sb : Superblock) (disk disk' : Nat → Block) (ino ino' : Nat → Dinode)
    (x : Nat × Slot) (b : Nat) : Prop where
  super : disk' 1 = disk 1
  busy : ∀ c < sb.size, busy sb disk' c = (busy sb disk c || decide (c = b))
  type : ∀ j < sb.ninodes, (ino' j).type = (ino j).type
  size : ∀ j < sb.ninodes, (ino' j).size = (ino j).size
  slot : ∀ j < sb.ninodes, (ino j).type ≠ 0 → ∀ t,
    slotAddr disk' (ino' j) t = if (j, t) = x then b else slotAddr disk (ino j) t

theorem Placed.ref (hp : Placed sb disk disk' ino ino' (i, t) b) (hi : i < sb.ninodes)
    (ht : (ino i).type ≠ 0) (hb : b ≠ 0) (y : Nat × Slot) :
    ref sb disk' ino' y = if y = (i, t) then some b else ref sb disk ino y := by
  obtain ⟨j, u⟩ := y
  by_cases hj : j < sb.ninodes
  · by_cases htj : (ino j).type = 0
    · rw [if_neg]
      · unfold Fs.ref
        rw [if_neg fun hc => hc.2.1 (by rw [hp.type j hj]; exact htj), if_neg fun hc => hc.2.1 htj]
      · rintro ⟨rfl, -⟩
        exact ht htj
    · unfold Fs.ref
      simp only [hp.type j hj, hp.slot j hj htj]
      split
      · next he => rw [if_pos ⟨hj, htj, hb⟩]
      · rfl
  · rw [if_neg]
    · unfold Fs.ref
      rw [if_neg fun hc => hj hc.1, if_neg fun hc => hj hc.1]
    · rintro ⟨rfl, -⟩
      exact hj hi

theorem ne_zero_of_free (h : Consistent sb disk ino) (hb : b < sb.size)
    (hfree : busy sb disk b = false) : b ≠ 0 := by
  rintro rfl
  exact h.own.not_reserved_of_free (Finset.mem_range.mpr hb) hfree (.inl rfl)

/-- **Placing a free block in an empty slot** keeps the file system
consistent. -/
theorem alloc (h : Consistent sb disk ino) (hb : b < sb.size) (hfree : busy sb disk b = false)
    (hi : i < sb.ninodes) (ht : (ino i).type ≠ 0) (hempty : slotAddr disk (ino i) t = 0)
    (hp : Placed sb disk disk' ino ino' (i, t) b) : Consistent sb disk' ino' where
  layout := h.layout
  super := by rw [hp.super, h.super]
  own := h.own.alloc (Finset.mem_range.mpr hb) hfree ((ref_eq_none hi ht).mpr hempty)
    (fun c hc => hp.busy c (Finset.mem_range.mp hc))
    (hp.ref hi ht (h.ne_zero_of_free hb hfree))
  filled := by
    intro j hj htj bn hbn
    rw [hp.type j hj] at htj
    rw [hp.size j hj] at hbn
    rw [hp.slot j hj htj]
    split
    · exact h.ne_zero_of_free hb hfree
    · exact h.filled j hj htj bn hbn

end Consistent

end Xv6.Fs
