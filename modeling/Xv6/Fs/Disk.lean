import Xv6.Fs

/-!
# Xv6.Fs.Disk

What the disk says, and what the block operations do to it.

* `Superblock.Layout` are the regions of the disk in the order of `fs.h`, and
  `isMeta` the blocks in front of the data blocks;
* `busy` is the free map, `dinode` the inode table;
* `balloc_spec` and `bfree_spec` give the state that `balloc` and `bfree`
  leave, `take` and `give`.
-/

namespace Xv6.Fs

open Words

/-! ## regions -/

/-- `[ boot block | super block | log | inode blocks | free bit map | data blocks ]`,
with room for the inodes and for the bits of all blocks. -/
structure Superblock.Layout (sb : Superblock) : Prop where
  log : 2 ≤ sb.logstart
  inodes : sb.logstart + sb.nlog ≤ sb.inodestart
  bitmap : sb.inodestart ≤ sb.bmapstart
  fits : ∀ i < sb.ninodes, IBLOCK i sb < sb.bmapstart
  data : ∀ b < sb.size, BBLOCK b sb < sb.size - sb.nblocks

/-- Boot block, super block, log, inode blocks and bitmap. -/
def isMeta (sb : Superblock) (b : Nat) : Prop :=
  b = 0 ∨ b = 1 ∨ (sb.logstart ≤ b ∧ b < sb.logstart + sb.nlog) ∨
    (sb.inodestart ≤ b ∧ b < sb.bmapstart) ∨ (sb.bmapstart ≤ b ∧ b < sb.size - sb.nblocks)

instance (sb : Superblock) (b : Nat) : Decidable (isMeta sb b) := by
  unfold isMeta
  infer_instance

namespace Superblock.Layout

variable {sb : Superblock}

theorem isMeta_BBLOCK (h : sb.Layout) {b : Nat} (hb : b < sb.size) : isMeta sb (BBLOCK b sb) :=
  .inr (.inr (.inr (.inr ⟨Nat.le_add_left _ _, h.data b hb⟩)))

theorem isMeta_IBLOCK (h : sb.Layout) {i : Nat} (hi : i < sb.ninodes) : isMeta sb (IBLOCK i sb) :=
  .inr (.inr (.inr (.inl ⟨Nat.le_add_left _ _, h.fits i hi⟩)))

theorem IBLOCK_ne_BBLOCK (h : sb.Layout) {i : Nat} (hi : i < sb.ninodes) (b : Nat) :
    IBLOCK i sb ≠ BBLOCK b sb := by
  have hle : sb.bmapstart ≤ BBLOCK b sb := Nat.le_add_left _ _
  have := h.fits i hi
  omega

theorem one_lt_IBLOCK (h : sb.Layout) (i : Nat) : 1 < IBLOCK i sb := by
  have hle : sb.inodestart ≤ IBLOCK i sb := Nat.le_add_left _ _
  have := h.log
  have := h.inodes
  omega

theorem one_lt_BBLOCK (h : sb.Layout) (b : Nat) : 1 < BBLOCK b sb := by
  have hle : sb.bmapstart ≤ BBLOCK b sb := Nat.le_add_left _ _
  have := h.log
  have := h.inodes
  have := h.bitmap
  omega

end Superblock.Layout

/-- A block in front of the data blocks is none of them. -/
theorem ne_of_isMeta {sb : Superblock} {a b : Nat} (ha : isMeta sb a) (hb : ¬ isMeta sb b) :
    a ≠ b := by
  rintro rfl
  exact hb ha

theorem isMeta_one (sb : Superblock) : isMeta sb 1 := .inr (.inl rfl)

/-! ## the free map and the inode table -/

/-- The bit of block `b` in the free map. -/
def busy (sb : Superblock) (disk : Nat → Block) (b : Nat) : Bool :=
  bitAt (disk (BBLOCK b sb)) (b % BPB)

/-- Inode number `i` on the disk. -/
def dinode (sb : Superblock) (disk : Nat → Block) (i : Nat) : Dinode :=
  getDinode (disk (IBLOCK i sb)) (i % IPB)

section Writes

variable {sb : Superblock} {disk : Nat → Block} {a b i : Nat} {data : Block}

theorem busy_write_of_ne (h : BBLOCK b sb ≠ a) :
    busy sb (Function.update disk a data) b = busy sb disk b := by
  rw [busy, Function.update_of_ne h, busy]

theorem dinode_write_of_ne (h : IBLOCK i sb ≠ a) :
    dinode sb (Function.update disk a data) i = dinode sb disk i := by
  rw [dinode, Function.update_of_ne h, dinode]

/-- Two blocks have their bits in one place only if they are the same. -/
theorem eq_of_bit_eq {b c : Nat} (h : BBLOCK c sb = BBLOCK b sb) (hmod : c % BPB = b % BPB) :
    c = b := by
  have hdiv : c / BPB = b / BPB := by
    unfold BBLOCK at h
    omega
  rw [← Nat.div_add_mod c BPB, hdiv, hmod, Nat.div_add_mod]

theorem div_lt_BSIZE (b : Nat) : b % BPB / 8 < BSIZE := by
  have : b % BPB < BPB := Nat.mod_lt _ (by decide)
  simp only [BPB, BSIZE] at this ⊢
  omega

theorem busy_setBit (c : Nat) :
    busy sb (Function.update disk (BBLOCK b sb) (setBit (disk (BBLOCK b sb)) (b % BPB))) c =
      (busy sb disk c || decide (c = b)) := by
  by_cases hc : BBLOCK c sb = BBLOCK b sb
  · rw [busy, hc, Function.update_self, bitAt_setBit _ (div_lt_BSIZE b), busy, hc]
    have hiff : c % BPB = b % BPB ↔ c = b := ⟨eq_of_bit_eq hc, fun h => by rw [h]⟩
    rw [decide_eq_decide.mpr hiff]
  · have hne : c ≠ b := by
      rintro rfl
      exact hc rfl
    rw [busy_write_of_ne hc, decide_eq_false hne, Bool.or_false]

theorem busy_clearBit (c : Nat) :
    busy sb (Function.update disk (BBLOCK b sb) (clearBit (disk (BBLOCK b sb)) (b % BPB))) c =
      (busy sb disk c && !decide (c = b)) := by
  by_cases hc : BBLOCK c sb = BBLOCK b sb
  · rw [busy, hc, Function.update_self, bitAt_clearBit _ (div_lt_BSIZE b), busy, hc]
    have hiff : c % BPB = b % BPB ↔ c = b := ⟨eq_of_bit_eq hc, fun h => by rw [h]⟩
    rw [decide_eq_decide.mpr hiff]
  · have hne : c ≠ b := by
      rintro rfl
      exact hc rfl
    rw [busy_write_of_ne hc, decide_eq_false hne, Bool.not_false, Bool.and_true]

theorem dinode_putDinode (d : Dinode) (j : Nat) :
    dinode sb (Function.update disk (IBLOCK i sb) (putDinode (disk (IBLOCK i sb)) (i % IPB) d)) j =
      if j = i then d else dinode sb disk j := by
  by_cases hj : IBLOCK j sb = IBLOCK i sb
  · rw [dinode, hj, Function.update_self]
    split
    · next h => rw [h, getDinode_putDinode _ (Nat.mod_lt _ (by decide))]
    · next h =>
      have hmod : j % IPB ≠ i % IPB := by
        intro hmod
        unfold IBLOCK at hj
        exact h (by rw [← Nat.div_add_mod j IPB, ← Nat.div_add_mod i IPB, hmod]; grind)
      rw [getDinode_putDinode_of_ne _ hmod, dinode, hj]
  · rw [dinode_write_of_ne hj, if_neg]
    rintro rfl
    exact hj rfl

end Writes

/-! ## the operations -/

/-- The state after a block was written. -/
def State.write (s : State) (b : Nat) (data : Block) : State :=
  { s with disk := Function.update s.disk b data }

/-- The state after an entry of the inode cache was changed. -/
def State.set (s : State) (c : Ip) (ip : Inode) : State :=
  { s with inode := Function.update s.inode c ip }

@[simp] theorem State.write_sb (s : State) (b : Nat) (data : Block) : (s.write b data).sb = s.sb := rfl

@[simp] theorem State.write_disk (s : State) (b : Nat) (data : Block) :
    (s.write b data).disk = Function.update s.disk b data := rfl

@[simp] theorem State.write_inode (s : State) (b : Nat) (data : Block) :
    (s.write b data).inode = s.inode := rfl

@[simp] theorem State.set_sb (s : State) (c : Ip) (ip : Inode) : (s.set c ip).sb = s.sb := rfl

@[simp] theorem State.set_disk (s : State) (c : Ip) (ip : Inode) : (s.set c ip).disk = s.disk := rfl

@[simp] theorem State.set_inode (s : State) (c : Ip) (ip : Inode) :
    (s.set c ip).inode = Function.update s.inode c ip := rfl

theorem State.set_self (s : State) (c : Ip) (ip : Inode) : (s.set c ip).inode c = ip :=
  Function.update_self _ _ _

theorem State.set_of_ne (s : State) {c e : Ip} (ip : Inode) (h : e ≠ c) :
    (s.set c ip).inode e = s.inode e :=
  Function.update_of_ne h _ _

section Rules

variable {s : State} {E : Panic → Prop}

@[simp] theorem wpE_bread {b : Nat} {Q : Block → State → Prop} :
    wpE (bread b) s Q E ↔ Q (s.disk b) s := Iff.rfl

@[simp] theorem wpE_logWrite {b : Nat} {data : Block} {Q : Unit → State → Prop} :
    wpE (logWrite b data) s Q E ↔ Q () (s.write b data) := Iff.rfl

@[simp] theorem wpE_setInode {c : Ip} {f : Inode → Inode} {Q : Unit → State → Prop} :
    wpE (setInode c f) s Q E ↔ Q () (s.set c (f (s.inode c))) := Iff.rfl

@[simp] theorem wpE_setDin {c : Ip} {f : Dinode → Dinode} {Q : Unit → State → Prop} :
    wpE (setDin c f) s Q E ↔
      Q () (s.set c { s.inode c with din := f (s.inode c).din }) := Iff.rfl

end Rules

/-- The state after block `b` was allocated. -/
def State.take (s : State) (b : Nat) : State :=
  (s.write (BBLOCK b s.sb) (setBit (s.disk (BBLOCK b s.sb)) (b % BPB))).write b fun _ => 0

/-- The state after block `b` was freed. -/
def State.give (s : State) (b : Nat) : State :=
  s.write (BBLOCK b s.sb) (clearBit (s.disk (BBLOCK b s.sb)) (b % BPB))

theorem freeBit_eq_some {sb : Superblock} {b : Nat} {data : Block} {n bi r : Nat}
    (h : freeBit sb b data n bi = some r) : r < bi + n ∧ b + r < sb.size ∧ bitAt data r = false := by
  induction n generalizing bi with
  | zero => exact absurd h (by simp [freeBit])
  | succ n ih =>
      rw [freeBit] at h
      split at h
      · exact absurd h (by simp)
      · split at h
        · obtain ⟨hr, hrest⟩ := ih h
          exact ⟨by omega, hrest⟩
        · next hlt hbit =>
          obtain rfl : bi = r := Option.some.inj h
          exact ⟨by omega, by omega, by simpa using hbit⟩

theorem freeBit_eq_none {sb : Superblock} {b : Nat} {data : Block} {n bi r : Nat}
    (h : freeBit sb b data n bi = none) (hle : bi ≤ r) (hr : r < bi + n) (hlt : b + r < sb.size) :
    bitAt data r = true := by
  induction n generalizing bi with
  | zero => omega
  | succ n ih =>
      rw [freeBit] at h
      split at h
      · omega
      · split at h
        · next hbit =>
          by_cases he : bi = r
          · rw [← he]
            exact hbit
          · exact ih h (by omega) (by omega)
        · exact absurd h (by simp)

/-- The bits before the one that is found are set. -/
theorem freeBit_first {sb : Superblock} {b : Nat} {data : Block} {n bi r i : Nat}
    (h : freeBit sb b data n bi = some r) (hle : bi ≤ i) (hlt : i < r) : bitAt data i = true := by
  induction n generalizing bi with
  | zero => exact absurd h (by simp [freeBit])
  | succ n ih =>
      rw [freeBit] at h
      split at h
      · exact absurd h (by simp)
      · split at h
        · next hbit =>
          by_cases he : bi = i
          · rw [← he]
            exact hbit
          · exact ih h (by omega)
        · obtain rfl : bi = r := Option.some.inj h
          omega

theorem ballocIn_spec (s : State) (bs : List Nat) (hbs : ∀ b ∈ bs, b % BPB = 0) :
    wpE (ballocIn bs) s
      (fun b s' => b < s.sb.size ∧ busy s.sb s.disk b = false ∧ s' = s.take b)
      fun e => e = .ballocOutOfBlocks ∧
        ∀ b ∈ bs, ∀ bi < BPB, b + bi < s.sb.size → busy s.sb s.disk (b + bi) = true := by
  induction bs with
  | nil =>
      rw [ballocIn, wpE_throw]
      exact ⟨rfl, by simp⟩
  | cons b bs ih =>
      have hb : b % BPB = 0 := hbs b List.mem_cons_self
      -- the bits `b .. b + BPB - 1` are the bits of one block
      have hblock (bi : Nat) (hbi : bi < BPB) :
          BBLOCK (b + bi) s.sb = BBLOCK b s.sb ∧ (b + bi) % BPB = bi := by
        simp only [BBLOCK, BPB, BSIZE] at *
        omega
      have hbusy (bi : Nat) (hbi : bi < BPB) :
          busy s.sb s.disk (b + bi) = bitAt (s.disk (BBLOCK b s.sb)) bi := by
        rw [busy, (hblock bi hbi).1, (hblock bi hbi).2]
      simp only [ballocIn, wpE_bind, wpE_get, wpE_bread]
      split
      · next bi hfind =>
        obtain ⟨hmem, hlt, hbit⟩ := freeBit_eq_some hfind
        rw [Nat.zero_add] at hmem
        simp only [wpE_bind, wpE_logWrite, bzero, wpE_pure]
        refine ⟨hlt, by rw [hbusy bi hmem]; exact hbit, ?_⟩
        rw [State.take, (hblock bi hmem).1, (hblock bi hmem).2]
      · next hfind =>
        refine (ih fun c hc => hbs c (List.mem_cons_of_mem b hc)).mono (fun _ _ h => h) ?_
        rintro e ⟨he, hrest⟩
        refine ⟨he, fun c hc bi hbi hlt => ?_⟩
        rcases List.mem_cons.mp hc with rfl | hc
        · rw [hbusy bi hbi]
          exact freeBit_eq_none hfind (Nat.zero_le _) (by omega) hlt
        · exact hrest c hc bi hbi hlt

/-- **`balloc`** takes a free block, and stops only when there is none. -/
theorem balloc_spec (s : State) :
    wpE balloc s (fun b s' => b < s.sb.size ∧ busy s.sb s.disk b = false ∧ s' = s.take b)
      fun e => e = .ballocOutOfBlocks ∧ ∀ b < s.sb.size, busy s.sb s.disk b = true := by
  simp only [balloc, wpE_bind, wpE_get]
  refine (ballocIn_spec s _ ?_).mono (fun _ _ h => h) ?_
  · intro b hb
    obtain ⟨g, -, rfl⟩ := List.mem_map.mp hb
    exact Nat.mul_mod_left g BPB
  · rintro e ⟨he, hfull⟩
    refine ⟨he, fun b hb => ?_⟩
    have hg : b / BPB < (s.sb.size + BPB - 1) / BPB := by
      simp only [BPB, BSIZE]
      omega
    have hmod : b % BPB < BPB := Nat.mod_lt _ (by decide)
    have hsum : b / BPB * BPB + b % BPB = b := Nat.div_add_mod' b BPB
    have := hfull (b / BPB * BPB) (List.mem_map.mpr ⟨b / BPB, List.mem_range.mpr hg, rfl⟩)
      (b % BPB) hmod
    rw [hsum] at this
    exact this hb

theorem ballocIn_first (s : State) (k n : Nat)
    (hbelow : ∀ e < k * BPB, e < s.sb.size → busy s.sb s.disk e = true) :
    wpE (ballocIn ((List.range' k n).map (· * BPB))) s
      (fun b _ => ∀ e < b, e < s.sb.size → busy s.sb s.disk e = true) fun _ => True := by
  induction n generalizing k with
  | zero => exact trivial
  | succ n ih =>
      -- the bits of the blocks from `k * BPB` on are in one block of the bitmap
      have hbusy (e : Nat) (hle : k * BPB ≤ e) (hlt : e < k * BPB + BPB) :
          busy s.sb s.disk e = bitAt (s.disk (BBLOCK (k * BPB) s.sb)) (e - k * BPB) := by
        have hdiv : e / BPB = k * BPB / BPB ∧ e % BPB = e - k * BPB := by
          simp only [BPB, BSIZE] at *
          omega
        rw [busy, BBLOCK, hdiv.1, hdiv.2, BBLOCK]
      rw [List.range'_succ, List.map_cons, ballocIn]
      simp only [wpE_bind, wpE_get, wpE_bread]
      split
      · next bi hfind =>
        simp only [wpE_bind, wpE_logWrite, bzero, wpE_pure]
        intro e he hsize
        by_cases hlow : e < k * BPB
        · exact hbelow e hlow hsize
        · have hlt := (freeBit_eq_some hfind).1
          rw [hbusy e (by omega) (by omega)]
          exact freeBit_first hfind (Nat.zero_le _) (by omega)
      · next hfind =>
        refine ih (k + 1) fun e he hsize => ?_
        rw [Nat.succ_mul] at he
        by_cases hlow : e < k * BPB
        · exact hbelow e hlow hsize
        · rw [hbusy e (by omega) he]
          exact freeBit_eq_none hfind (Nat.zero_le _) (by omega) (by omega)

/-- **`balloc`** takes the first free block. -/
theorem balloc_first (s : State) :
    wpE balloc s (fun b _ => ∀ e < b, e < s.sb.size → busy s.sb s.disk e = true)
      fun _ => True := by
  simp only [balloc, wpE_bind, wpE_get, List.range_eq_range']
  exact ballocIn_first s 0 _ fun e he => by omega

/-- **`bfree`** gives a busy block back. -/
theorem bfree_spec {s : State} (hsuper : getSuper (s.disk 1) = s.sb) {b : Nat}
    (hb : busy s.sb s.disk b = true) {E : Panic → Prop} :
    wpE (bfree b) s (fun _ s' => s' = s.give b) E := by
  simp only [bfree, readsb, wpE_bind, wpE_bread, wpE_modify, wpE_get, hsuper]
  rw [if_pos (show bitAt (s.disk (BBLOCK b s.sb)) (b % BPB) = true from hb)]
  simp only [wpE_logWrite, State.give]

theorem iupdate_spec (s : State) (c : Ip) {E : Panic → Prop} :
    wpE (iupdate c) s (fun _ s' => s' = s.write (IBLOCK (s.inode c).inum s.sb)
      (putDinode (s.disk (IBLOCK (s.inode c).inum s.sb)) ((s.inode c).inum % IPB)
        (s.inode c).din)) E := by
  simp only [iupdate, wpE_bind, wpE_get, wpE_bread, wpE_logWrite]

end Xv6.Fs
