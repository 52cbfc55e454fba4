import Xv6.Mkfs.Image

/-!
# Xv6.Mkfs.Blocks

The blocks of the image, and the size of the root directory.

`mkfs` rounds the size of the root directory to `(size / BSIZE + 1) * BSIZE`.  That is the
end of its last block, but when the entries fill this block: then it is the end of a block
that `iappend` never gave to the directory, and the kernel allocates it when it reads there.
`image_wellFormed_iff` says that this is the only flaw.
-/

namespace Xv6.Mkfs

open Words Fs

variable {st : State} {files : List HostFile} {k : Int} {i : Nat}

/-- What the kernel relies on. -/
structure WellFormed (disk : Nat → Block) (freeblock : Nat) : Prop where
  super : getSuper (disk 1) = sb
  /-- an inode has the blocks below its size -/
  filled : ∀ i < NINODES, (dinode sb disk i).type ≠ 0 →
    ∀ bn < blocks (dinode sb disk i).size.toNat, slotAddr disk (dinode sb disk i) (.block bn) ≠ 0
  /-- no block is in two places -/
  distinct : ∀ x y b, ref sb disk (dinode sb disk) x = some b →
    ref sb disk (dinode sb disk) y = some b → x = y
  range : ∀ x b, ref sb disk (dinode sb disk) x = some b → nmeta ≤ b ∧ b < freeblock
  bitmap : ∀ b < BPB, busy sb disk b = true ↔ b < freeblock
  /-- a read inside an inode changes nothing, so it allocates no block -/
  reads : ∀ (s : Fs.State) (c : Ip) (off n : UInt32), s.sb = sb → s.disk = disk →
    (s.inode c).inum < NINODES → (s.inode c).din = dinode sb disk (s.inode c).inum →
    (s.inode c).din.type ≠ 0 → off < (s.inode c).din.size →
    wp (readi c off n) s fun _ s' => s' = s

/-! ## the slots that are filled -/

theorem mul_lt_of_lt_blocks {bn size : Nat} : bn < blocks size ↔ bn * BSIZE < size := by
  simp only [blocks, BSIZE]
  omega

theorem ref_isSome_of_mem {disk : Nat → Block} {ino : Nat → Dinode} (h : Consistent sb disk ino)
    (hi : i < NINODES) (htype : (ino i).type ≠ 0) {x : Nat × Slot}
    (hx : x ∈ slotsBelow i (blocks (ino i).size.toNat)) : (ref sb disk ino x).isSome = true := by
  have hblock (bn : Nat) (hbn : bn < blocks (ino i).size.toNat) :
      slotAddr disk (ino i) (.block bn) ≠ 0 :=
    h.filled i hi htype bn (mul_lt_of_lt_blocks.mp hbn)
  unfold slotsBelow at hx
  rcases Finset.mem_union.mp hx with hx | hx
  · obtain ⟨bn, hbn, rfl⟩ := Finset.mem_image.mp hx
    rw [ref_eq_some.mpr ⟨hi, htype, rfl, hblock bn (Finset.mem_range.mp hbn)⟩]
    rfl
  · split at hx
    · next hlt =>
      obtain rfl := Finset.mem_singleton.mp hx
      -- a block behind the indirect block is there
      have hne := hblock NDIRECT hlt
      rw [slotAddr, if_neg (lt_irrefl _)] at hne
      have hd : (ino i).addr NDIRECT ≠ 0 := fun h0 => hne (if_neg fun hc => hc.2 h0)
      rw [Consistent.indirect_ref hi htype hd]
      rfl
    · simp at hx

theorem mem_slotsOf {n : Nat} {x : Nat × Slot} (hx : x ∈ slotsOf n files) :
    ∃ j, ∃ hj : j < files.length, x ∈ slotsBelow (j + n) (blocks (files.get ⟨j, hj⟩).contents.length) := by
  induction files generalizing n with
  | nil => simp [slotsOf] at hx
  | cons f files ih =>
      rcases Finset.mem_union.mp hx with hx | hx
      · exact ⟨0, by simp, by simpa using hx⟩
      · obtain ⟨j, hj, hx⟩ := ih hx
        refine ⟨j + 1, by simpa using hj, ?_⟩
        rw [show j + 1 + n = j + (n + 1) by omega]
        exact hx

theorem fst_of_mem_slotsBelow {n : Nat} {x : Nat × Slot} (hx : x ∈ slotsBelow i n) : x.1 = i := by
  unfold slotsBelow at hx
  rcases Finset.mem_union.mp hx with hx | hx
  · obtain ⟨bn, -, rfl⟩ := Finset.mem_image.mp hx
    rfl
  · split at hx
    · rw [Finset.mem_singleton.mp hx]
    · simp at hx

theorem Built.of_ref {inodes : Nat} (h : Built inodes st) {x : Nat × Slot} {b : Nat}
    (hx : ref sb st.seen (dinode sb st.seen) x = some b) : nmeta ≤ b ∧ b < st.freeblock := by
  have hle : FSSIZE ≤ BPB := by decide
  have hmeta := h.cons.not_isMeta hx
  have hlt : b < FSSIZE := h.cons.lt_size hx
  have hbusy := h.cons.own.busy_of_ref hx
  rw [isMeta_iff] at hmeta
  rw [busy_seen h.high (by omega), decide_eq_true_eq] at hbusy
  omega

section Progress

variable (h : Progress (needOf files) (FSSIZE - nmeta - (needOf files).card) files st)
  (hfits : Fits files)
include h hfits

theorem full : ∀ x ∈ needOf files,
    (ref sb st.seen (dinode sb st.seen) x).isSome = true := by
  intro x hx
  have hinodes := hfits.inodes
  rcases Finset.mem_union.mp hx with hx | hx
  · refine ref_isSome_of_mem h.built.cons (by decide : ROOTINO < NINODES)
      (by rw [h.rootType]; decide) ?_
    rwa [h.root_size]
  · obtain ⟨j, hj, hx⟩ := mem_slotsOf hx
    refine ref_isSome_of_mem h.built.cons (show j + 2 < NINODES by omega)
      (by rw [h.fileType j hj]; decide) ?_
    rwa [file_size, h.files j hj]

/-- **No block is wasted.** -/
theorem freeblock_eq : st.freeblock = nmeta + (needOf files).card := by
  have hslack := h.slack
  have hhigh := h.built.high
  rw [State.slack, Xv6.slack, lacking_eq_zero (full h hfits), idle_eq hhigh] at hslack
  have hlow := h.built.low
  omega

theorem mem_of_ref {x : Nat × Slot} {b : Nat}
    (hx : ref sb st.seen (dinode sb st.seen) x = some b) : x ∈ needOf files := by
  have hheld {x : Nat × Slot} {b : Nat}
      (hx : ref sb st.seen (dinode sb st.seen) x = some b) : b ∈ Finset.Ico nmeta st.freeblock :=
    Finset.mem_Ico.mpr (h.built.of_ref hx)
  refine mem_of_card_le h.built.cons.own.inj hheld (full h hfits) ?_ hx
  rw [Nat.card_Ico, freeblock_eq h hfits]
  omega

end Progress

/-! ## the image -/

/-- The root directory with the size it gets at the end. -/
def State.fixedRoot (st : State) : Dinode :=
  { dinode sb st.seen ROOTINO with size := rounded (dinode sb st.seen ROOTINO).size }

theorem finish_disk (st : State) :
    st.finish.disk = (st.putInode ROOTINO st.fixedRoot).seen := rfl

theorem root_lt : ROOTINO < NINODES := by decide

theorem finish_dinode (st : State) :
    dinode sb st.finish.disk = Function.update (dinode sb st.seen) ROOTINO st.fixedRoot := by
  rw [finish_disk, dinode_putInode st root_lt]

theorem finish_type (st : State) (i : Nat) :
    (dinode sb st.finish.disk i).type = (dinode sb st.seen i).type := by
  rw [finish_dinode, Function.update_apply]
  split
  · next hi => rw [hi, State.fixedRoot]
  · rfl

/-- The size does not matter to the slots. -/
theorem finish_slotAddr {inodes : Nat} (h : Built inodes st) (hi : i < NINODES)
    (htype : (dinode sb st.seen i).type ≠ 0) (t : Slot) :
    slotAddr st.finish.disk (dinode sb st.finish.disk i) t =
      slotAddr st.seen (dinode sb st.seen i) t := by
  have haddr (k : Nat) : (dinode sb st.finish.disk i).addr k = (dinode sb st.seen i).addr k := by
    rw [finish_dinode, Function.update_apply]
    split
    · next hi =>
      rw [hi]
      rfl
    · rfl
  refine slotAddr_congr (fun k _ => haddr k) fun hd => ?_
  rw [finish_disk]
  exact seen_putInode_of_data st root_lt _
    (h.cons.not_isMeta (Consistent.indirect_ref hi htype hd))

theorem finish_ref {inodes : Nat} (h : Built inodes st) (x : Nat × Slot) :
    ref sb st.finish.disk (dinode sb st.finish.disk) x = ref sb st.seen (dinode sb st.seen) x :=
  ref_congr (fun _ => finish_type st x.1) fun hi ht => finish_slotAddr h hi ht x.2

theorem finish_busy (st : State) (b : Nat) :
    busy sb st.finish.disk b = busy sb st.seen b := by
  rw [finish_disk, busy_putInode st root_lt]

theorem finish_super {inodes : Nat} (h : Built inodes st) : getSuper (st.finish.disk 1) = sb := by
  have hone := layout.one_lt_IBLOCK ROOTINO
  rw [finish_disk, seen_putInode st root_lt, Function.update_of_ne (by omega), h.cons.super]

theorem toNat_rounded {size : UInt32} (h : size.toNat ≤ MAXFILE * BSIZE) :
    (rounded size).toNat = (size.toNat / BSIZE + 1) * BSIZE := by
  have hbig : MAXFILE * BSIZE + 512 < 2 ^ 32 := by decide
  have h512 : (512 : UInt32).toNat = 512 := rfl
  have h1 : (1 : UInt32).toNat = 1 := rfl
  rw [rounded, UInt32.toNat_mul, UInt32.toNat_add, UInt32.toNat_div, h512, h1]
  simp only [BSIZE] at *
  omega

/-- The blocks of the root directory: those of its entries, and one more if they are full. -/
theorem blocks_rounded (n : Nat) :
    blocks ((16 * n / BSIZE + 1) * BSIZE) = blocks (16 * n) + if n % 32 = 0 then 1 else 0 := by
  simp only [blocks, BSIZE]
  split <;> omega

section Finish

variable (h : Progress (needOf files) (FSSIZE - nmeta - (needOf files).card) files st)
  (hfits : Fits files)
include h hfits

theorem fixedRoot_size : blocks st.fixedRoot.size.toNat =
    blocks (16 * (files.length + 2)) + if (files.length + 2) % 32 = 0 then 1 else 0 := by
  have hmax : 16 * (NINODES + 2) ≤ MAXFILE * BSIZE := by decide
  have hinodes := hfits.inodes
  rw [State.fixedRoot, toNat_rounded (by rw [h.root_size]; omega), h.root_size, blocks_rounded]

/-- When the entries do not fill their last block, the size is rounded to its end. -/
theorem finish_consistent (hn : (files.length + 2) % 32 ≠ 0) :
    Consistent sb st.finish.disk (dinode sb st.finish.disk) where
  layout := layout
  super := finish_super h.built
  own := h.built.cons.own.congr (fun b _ => finish_busy st b) (finish_ref h.built)
  filled := by
    intro i hi htype bn hbn
    have hi : i < NINODES := hi
    rw [finish_type] at htype
    rw [finish_slotAddr h.built hi htype]
    refine h.built.cons.filled i hi htype bn ?_
    rw [← mul_lt_of_lt_blocks] at hbn ⊢
    rw [finish_dinode, Function.update_apply] at hbn
    split at hbn
    · next hroot =>
      rw [fixedRoot_size h hfits, if_neg hn, Nat.add_zero] at hbn
      rwa [hroot, h.root_size]
    · exact hbn

/-- When they do, the block after it is missing. -/
theorem finish_hole (hn : (files.length + 2) % 32 = 0) :
    ∃ bn < blocks (dinode sb st.finish.disk ROOTINO).size.toNat,
      slotAddr st.finish.disk (dinode sb st.finish.disk ROOTINO) (.block bn) = 0 := by
  have htype : (dinode sb st.seen ROOTINO).type ≠ 0 := by
    rw [h.rootType]
    decide
  have hsize := fixedRoot_size h hfits
  rw [if_pos hn] at hsize
  refine ⟨blocks (16 * (files.length + 2)), ?_, ?_⟩
  · rw [finish_dinode, Function.update_self]
    omega
  · rw [finish_slotAddr h.built root_lt htype]
    by_contra hne
    -- the slot is none of those that are filled
    have hmem := mem_of_ref h hfits (ref_eq_some.mpr ⟨root_lt, htype, rfl, hne⟩)
    rcases Finset.mem_union.mp hmem with hmem | hmem
    · unfold slotsBelow at hmem
      rcases Finset.mem_union.mp hmem with hmem | hmem
      · obtain ⟨bn, hbn, he⟩ := Finset.mem_image.mp hmem
        cases he
        exact absurd (Finset.mem_range.mp hbn) (lt_irrefl _)
      · split at hmem
        · exact absurd (Finset.mem_singleton.mp hmem) (by simp)
        · simp at hmem
    · obtain ⟨j, hj, hslot⟩ := mem_slotsOf hmem
      have hfst := fst_of_mem_slotsBelow hslot
      simp only [ROOTINO] at hfst
      omega

omit hfits in
/-- There are no devices. -/
theorem type_ne_dev (hi : i < NINODES) (htype : (dinode sb st.seen i).type ≠ 0) :
    (dinode sb st.seen i).type ≠ T_DEV := by
  by_cases hroot : i = ROOTINO
  · rw [hroot, h.rootType]
    decide
  · by_cases hout : i = 0 ∨ files.length + 2 ≤ i
    · exact absurd (h.free i hi hout) htype
    · have hfile := h.fileType (i - 2) (by unfold ROOTINO at hroot; omega)
      rw [show i - 2 + 2 = i by unfold ROOTINO at hroot; omega] at hfile
      rw [hfile]
      decide

theorem finish_wellFormed (hn : (files.length + 2) % 32 ≠ 0) :
    WellFormed st.finish.disk st.finish.freeblock := by
  have hcons := finish_consistent h hfits hn
  constructor
  case super => exact finish_super h.built
  case filled =>
    exact fun i hi htype bn hbn => hcons.filled i hi htype bn (mul_lt_of_lt_blocks.mp hbn)
  case distinct => exact fun _ _ _ hx hy => hcons.own.inj hx hy
  case range =>
    intro x b hx
    rw [finish_ref h.built] at hx
    exact h.built.of_ref hx
  case bitmap =>
    intro b hb
    rw [finish_busy, busy_seen h.built.high hb, decide_eq_true_eq]
    rfl
  case reads =>
    intro s c off n hsb hdisk hi hdin htype _
    have hsync : dinode s.sb s.disk (s.inode c).inum = (s.inode c).din := by
      rw [hsb, hdisk, hdin]
    have hheld : Held s c := by
      refine ⟨?_, by rw [hsb]; exact hi, htype⟩
      rw [ino_eq_dinode hsync, hsb, hdisk]
      exact hcons
    have hdev : (s.inode c).din.type ≠ T_DEV := by
      rw [hdin, finish_type] at htype ⊢
      exact type_ne_dev h hi htype
    exact wpE.returns (E := fun _ => False) ((readi_spec hheld hdev).mono (fun _ _ hr => hr.1)
      fun _ he => he) fun _ he => he

end Finish

/-- **The image is as the kernel needs it** but when the entries of the root directory fill
its last block. -/
theorem image_wellFormed_iff (files : List HostFile) (hfits : Fits files) :
    ∃ st, main files start = .ok ((), st) ∧
      (WellFormed st.disk st.freeblock ↔ (files.length + 2) % 32 ≠ 0) := by
  obtain ⟨st, h, hmain⟩ := main_spec hfits
  refine ⟨st.finish, hmain, fun hw hn => ?_, finish_wellFormed h hfits⟩
  obtain ⟨bn, hbn, hzero⟩ := finish_hole h hfits hn
  refine hw.filled ROOTINO root_lt ?_ bn hbn hzero
  rw [finish_type, h.rootType]
  decide

/-- Thirty empty files. -/
def thirty : List HostFile := List.replicate 30 ⟨[0x61], [], by decide, by simp⟩

theorem thirty_fits : Fits thirty where
  names f hf := by
    rw [List.eq_of_mem_replicate hf]
    decide
  sizes f hf := by
    rw [List.eq_of_mem_replicate hf]
    decide
  inodes := by decide
  space := by decide

/-- With thirty files, the 32 entries fill a block, and the root directory has a second one
in its size but not among its addresses. -/
theorem thirty_hole : ∃ st, main thirty start = .ok ((), st) ∧
    ∃ bn < blocks (dinode sb st.disk ROOTINO).size.toNat,
      slotAddr st.disk (dinode sb st.disk ROOTINO) (.block bn) = 0 := by
  obtain ⟨st, h, hmain⟩ := main_spec thirty_fits
  exact ⟨st.finish, hmain, finish_hole h thirty_fits (by decide)⟩

/-- With one file there is no such flaw. -/
theorem image_wellFormed_iff_one : Fits (thirty.take 1) ∧
    ∃ st, main (thirty.take 1) start = .ok ((), st) ∧ WellFormed st.disk st.freeblock := by
  have hfits : Fits (thirty.take 1) := by
    refine ⟨fun f hf => thirty_fits.names f (List.mem_of_mem_take hf),
      fun f hf => thirty_fits.sizes f (List.mem_of_mem_take hf), by decide, by decide⟩
  obtain ⟨st, hmain, hiff⟩ := image_wellFormed_iff (thirty.take 1) hfits
  exact ⟨hfits, st, hmain, hiff.mpr (by decide)⟩

end Xv6.Mkfs
