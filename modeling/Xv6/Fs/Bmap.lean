import Xv6.Fs.Own

/-!
# Xv6.Fs.Bmap

`bmap` on a consistent file system: the block it returns is in the slot for
block `bn` of the file, and what it may have allocated for that was placed in
empty slots (`bmap_spec`).

Inside an operation on the inode in entry `c` of the cache, the table of inodes
is the one on the disk with the entry's copy put in (`State.ino`).
-/

namespace Xv6.Fs

open Words

/-! ## after `balloc` -/

section Take

variable {s : State} {ino : Nat → Dinode} {b : Nat}

theorem not_isMeta_of_free (h : Consistent s.sb s.disk ino) (hb : b < s.sb.size)
    (hfree : busy s.sb s.disk b = false) : ¬ isMeta s.sb b :=
  h.own.not_reserved_of_free (Finset.mem_range.mpr hb) hfree

theorem take_disk_self : (s.take b).disk b = fun _ => 0 := Function.update_self _ _ _

theorem take_disk_of_ne {a : Nat} (hb : a ≠ b) (hbit : a ≠ BBLOCK b s.sb) :
    (s.take b).disk a = s.disk a := by
  rw [State.take, State.write_disk, Function.update_of_ne hb, State.write_disk,
    Function.update_of_ne hbit]

theorem take_busy (h : Consistent s.sb s.disk ino) (hb : b < s.sb.size)
    (hfree : busy s.sb s.disk b = false) {c : Nat} (hc : c < s.sb.size) :
    busy s.sb (s.take b).disk c = (busy s.sb s.disk c || decide (c = b)) := by
  have hne : BBLOCK c s.sb ≠ b :=
    ne_of_isMeta (h.layout.isMeta_BBLOCK hc) (not_isMeta_of_free h hb hfree)
  rw [State.take, State.write_disk, busy_write_of_ne hne]
  exact busy_setBit c

theorem take_dinode (h : Consistent s.sb s.disk ino) (hb : b < s.sb.size)
    (hfree : busy s.sb s.disk b = false) {j : Nat} (hj : j < s.sb.ninodes) :
    dinode s.sb (s.take b).disk j = dinode s.sb s.disk j := by
  have hne : IBLOCK j s.sb ≠ b :=
    ne_of_isMeta (h.layout.isMeta_IBLOCK hj) (not_isMeta_of_free h hb hfree)
  rw [State.take, State.write_disk, dinode_write_of_ne hne, State.write_disk,
    dinode_write_of_ne (h.layout.IBLOCK_ne_BBLOCK hj b)]

theorem take_super (h : Consistent s.sb s.disk ino) (hb : b < s.sb.size)
    (hfree : busy s.sb s.disk b = false) : (s.take b).disk 1 = s.disk 1 := by
  have hone := h.layout.one_lt_BBLOCK b
  exact take_disk_of_ne (ne_of_isMeta (isMeta_one s.sb) (not_isMeta_of_free h hb hfree)) (by omega)

/-- A block in a slot is not the new one, and not part of the bitmap. -/
theorem take_disk_of_ref (h : Consistent s.sb s.disk ino) (hb : b < s.sb.size)
    (hfree : busy s.sb s.disk b = false) {x : Nat × Slot} {e : Nat}
    (hr : ref s.sb s.disk ino x = some e) : (s.take b).disk e = s.disk e := by
  refine take_disk_of_ne ?_ ?_
  · rintro rfl
    exact h.own.ref_ne_of_free hfree x hr
  · rintro rfl
    exact h.own.not_reserved hr (h.layout.isMeta_BBLOCK hb)

theorem take_slotAddr (h : Consistent s.sb s.disk ino) (hb : b < s.sb.size)
    (hfree : busy s.sb s.disk b = false) {j : Nat} (hj : j < s.sb.ninodes)
    (htj : (ino j).type ≠ 0) (t : Slot) :
    slotAddr (s.take b).disk (ino j) t = slotAddr s.disk (ino j) t :=
  slotAddr_congr (fun _ _ => rfl) fun hd =>
    take_disk_of_ref h hb hfree (Consistent.indirect_ref hj htj hd)

/-- The slot that `addrs[k]` is. -/
def slotOf (k : Nat) : Slot := if k = NDIRECT then .indirect else .block k

theorem slotAddr_slotOf {disk : Nat → Block} {d : Dinode} {k : Nat} (hk : k ≤ NDIRECT) :
    slotAddr disk d (slotOf k) = (d.addr k).toNat := by
  unfold slotOf
  split
  · next h => rw [h, slotAddr]
  · next h => rw [slotAddr_direct (by omega)]

theorem le32_zero (off : Nat) : le32 (fun _ => 0 : Block) off = 0 := by
  simp [le32, Words.get]

/-- What `addrs[k] = b` does to the slots of an inode: it fills the slot of
`addrs[k]`.  A new indirect block has no entries. -/
theorem slotAddr_setAddr {disk : Nat → Block} {d : Dinode} {k : Nat} (hk : k ≤ NDIRECT)
    (hempty : d.addr k = 0) (hlt : b < 2 ^ 32) (hzero : disk b = fun _ => 0) (t : Slot) :
    slotAddr disk (d.setAddr k (UInt32.ofNat b)) t =
      if t = slotOf k then b else slotAddr disk d t := by
  have hb : (UInt32.ofNat b).toNat = b := UInt32.toNat_ofNat_of_lt' hlt
  split
  · next h => rw [h, slotAddr_slotOf hk, Dinode.addr_setAddr_self _ hk, hb]
  · next h =>
    by_cases hkn : k = NDIRECT
    · subst hkn
      cases t with
      | indirect => exact absurd (if_pos rfl).symm h
      | block bn =>
          by_cases hbn : bn < NDIRECT
          · rw [slotAddr_direct hbn, slotAddr_direct hbn, Dinode.addr_setAddr_of_ne _ (by omega)]
          · rw [slotAddr, slotAddr, if_neg hbn, if_neg hbn, Dinode.addr_setAddr_self _ le_rfl, hb,
              hzero, le32_zero, ite_self, if_neg fun hc => hc.2 hempty]
    · cases t with
      | indirect => rw [slotAddr, slotAddr, Dinode.addr_setAddr_of_ne _ (Ne.symm hkn)]
      | block bn =>
          have hne : bn ≠ k := by
            rintro rfl
            exact h (if_neg hkn).symm
          rw [slotAddr, slotAddr, Dinode.addr_setAddr_of_ne _ hne,
            Dinode.addr_setAddr_of_ne _ (Ne.symm hkn)]

/-- What a store to entry `k` of the indirect block does to the slots. -/
theorem slotAddr_putEntry {disk : Nat → Block} {d : Dinode} {k : Nat} (hk : k < NINDIRECT)
    (hd : d.addr NDIRECT ≠ 0) (hlt : b < 2 ^ 32) (t : Slot) :
    slotAddr (Function.update disk (d.addr NDIRECT).toNat
        (putLe32 (disk (d.addr NDIRECT).toNat) (4 * k) b)) d t =
      if t = .block (NDIRECT + k) then b else slotAddr disk d t := by
  cases t with
  | indirect => rw [if_neg (by simp), slotAddr, slotAddr]
  | block bn =>
      by_cases hbn : bn < NDIRECT
      · rw [if_neg (by simp only [Slot.block.injEq]; omega), slotAddr_direct hbn,
          slotAddr_direct hbn]
      · by_cases hin : bn - NDIRECT < NINDIRECT
        · rw [slotAddr_entry hbn hin hd, slotAddr_entry hbn hin hd, Function.update_self]
          split
          · next he =>
            obtain rfl : bn = NDIRECT + k := by simpa using he
            have hin : 4 * k + 4 ≤ BSIZE := by
              simp only [NINDIRECT, BSIZE] at hk ⊢
              omega
            rw [Nat.add_sub_cancel_left, le32_putLe32 _ hin, Nat.mod_eq_of_lt hlt]
          · next he =>
            have hne : bn ≠ NDIRECT + k := by simpa using he
            rw [le32_putLe32_of_disjoint _ (by omega)]
        · rw [if_neg (by simp only [Slot.block.injEq]; omega), slotAddr, slotAddr, if_neg hbn,
            if_neg hbn, if_neg fun hc => hin hc.1, if_neg fun hc => hin hc.1]

end Take

/-! ## inside an operation -/

/-- The table of inodes on the disk, with the copy in entry `c` of the cache
put in. -/
def State.ino (s : State) (c : Ip) : Nat → Dinode :=
  Function.update (dinode s.sb s.disk) (s.inode c).inum (s.inode c).din

/-- The block in a slot, inside an operation on entry `c`. -/
def State.ref (s : State) (c : Ip) : Nat × Slot → Option Nat := Fs.ref s.sb s.disk (s.ino c)

/-- Byte `o` of inode `j`, if the file has the block it is in. -/
def State.cell (s : State) (c : Ip) (j o : Nat) : Option UInt8 :=
  (s.ref c (j, .block (o / BSIZE))).map fun b => Words.get (s.disk b) (o % BSIZE)

/-- The free blocks that are left if the slots in `need` are all filled. -/
def State.slack (s : State) (c : Ip) (need : Finset (Nat × Slot)) : Int :=
  Xv6.slack (Finset.range s.sb.size) (busy s.sb s.disk) need (s.ref c)

/-- The invariant inside an operation on the allocated inode in entry `c`. -/
structure Held (s : State) (c : Ip) : Prop where
  cons : Consistent s.sb s.disk (s.ino c)
  inum_lt : (s.inode c).inum < s.sb.ninodes
  type_ne : (s.inode c).din.type ≠ 0

/-- How the state changes while blocks are given to the inode in entry `c` and
its contents are written. -/
structure Grown (c : Ip) (need : Finset (Nat × Slot)) (s s' : State) : Prop where
  sb : s'.sb = s.sb
  devsw : s'.devsw = s.devsw
  other : ∀ e, e ≠ c → s'.inode e = s.inode e
  self : ∃ a, s'.inode c = { s.inode c with din := { (s.inode c).din with addrs := a } }
  dinode : ∀ j < s.sb.ninodes, dinode s.sb s'.disk j = dinode s.sb s.disk j
  ref : ∀ x b, s.ref c x = some b → s'.ref c x = some b
  slack : s'.slack c need = s.slack c need

/-- The bytes that are there stay as they are. -/
def Kept (c : Ip) (s s' : State) : Prop :=
  ∀ j o v, s.cell c j o = some v → s'.cell c j o = some v

theorem Grown.refl (c : Ip) (need : Finset (Nat × Slot)) (s : State) : Grown c need s s where
  sb := rfl
  devsw := rfl
  other := fun _ _ => rfl
  self := ⟨_, rfl⟩
  dinode := fun _ _ => rfl
  ref := fun _ _ h => h
  slack := rfl

theorem Grown.trans {c : Ip} {need : Finset (Nat × Slot)} {s s₁ s₂ : State}
    (h : Grown c need s s₁) (h' : Grown c need s₁ s₂) : Grown c need s s₂ where
  sb := h'.sb.trans h.sb
  devsw := h'.devsw.trans h.devsw
  other := fun e he => (h'.other e he).trans (h.other e he)
  self := by
    obtain ⟨a, ha⟩ := h.self
    obtain ⟨a', ha'⟩ := h'.self
    exact ⟨a', by rw [ha', ha]⟩
  dinode := fun j hj => by
    have := h'.dinode j (by rw [h.sb]; exact hj)
    rw [h.sb] at this
    rw [this, h.dinode j hj]
  ref := fun x b hx => h'.ref x b (h.ref x b hx)
  slack := h'.slack.trans h.slack

theorem Grown.inum {c : Ip} {need : Finset (Nat × Slot)} {s s' : State} (h : Grown c need s s') :
    (s'.inode c).inum = (s.inode c).inum := by
  obtain ⟨a, ha⟩ := h.self
  rw [ha]

theorem Grown.size {c : Ip} {need : Finset (Nat × Slot)} {s s' : State} (h : Grown c need s s') :
    (s'.inode c).din.size = (s.inode c).din.size := by
  obtain ⟨a, ha⟩ := h.self
  rw [ha]

theorem State.ino_self (s : State) (c : Ip) : s.ino c (s.inode c).inum = (s.inode c).din :=
  Function.update_self _ _ _

theorem State.ino_of_ne (s : State) (c : Ip) {j : Nat} (h : j ≠ (s.inode c).inum) :
    s.ino c j = dinode s.sb s.disk j :=
  Function.update_of_ne h _ _

theorem Held.type_ino {s : State} {c : Ip} (h : Held s c) :
    (s.ino c (s.inode c).inum).type ≠ 0 := by
  rw [s.ino_self]
  exact h.type_ne

/-! ## filling a slot -/

/-- Filling an empty slot of the inode in entry `c`. -/
structure Filled (c : Ip) (t : Slot) (b : Nat) (s s' : State) : Prop where
  lt : b < s.sb.size
  free : busy s.sb s.disk b = false
  empty : slotAddr s.disk (s.inode c).din t = 0
  sb : s'.sb = s.sb
  devsw : s'.devsw = s.devsw
  other : ∀ e, e ≠ c → s'.inode e = s.inode e
  self : ∃ a, s'.inode c = { s.inode c with din := { (s.inode c).din with addrs := a } }
  dinode : ∀ j < s.sb.ninodes, dinode s.sb s'.disk j = dinode s.sb s.disk j
  super : s'.disk 1 = s.disk 1
  busy : ∀ e < s.sb.size, busy s.sb s'.disk e = (busy s.sb s.disk e || decide (e = b))
  slot : ∀ j < s.sb.ninodes, (s.ino c j).type ≠ 0 → ∀ u, slotAddr s'.disk (s'.ino c j) u =
    if (j, u) = ((s.inode c).inum, t) then b else slotAddr s.disk (s.ino c j) u
  disk : ∀ j bn e, s.ref c (j, .block bn) = some e → s'.disk e = s.disk e

namespace Filled

variable {c : Ip} {t : Slot} {b : Nat} {s s' : State} {need : Finset (Nat × Slot)}

theorem inum (hf : Filled c t b s s') : (s'.inode c).inum = (s.inode c).inum := by
  obtain ⟨a, ha⟩ := hf.self
  rw [ha]

theorem ino_type_size (hf : Filled c t b s s') {j : Nat} (hj : j < s.sb.ninodes) :
    (s'.ino c j).type = (s.ino c j).type ∧ (s'.ino c j).size = (s.ino c j).size := by
  obtain ⟨a, ha⟩ := hf.self
  by_cases he : j = (s.inode c).inum
  · have h1 : s'.ino c j = (s'.inode c).din := by
      rw [he, ← hf.inum]
      exact s'.ino_self c
    have h2 : s.ino c j = (s.inode c).din := by
      rw [he]
      exact s.ino_self c
    rw [h1, h2, ha]
    exact ⟨rfl, rfl⟩
  · rw [s'.ino_of_ne c (by rw [hf.inum]; exact he), s.ino_of_ne c he, hf.sb, hf.dinode j hj]
    exact ⟨rfl, rfl⟩

theorem placed (hf : Filled c t b s s') :
    Consistent.Placed s.sb s.disk s'.disk (s.ino c) (s'.ino c) ((s.inode c).inum, t) b where
  super := hf.super
  busy := hf.busy
  type := fun _ hj => (hf.ino_type_size hj).1
  size := fun _ hj => (hf.ino_type_size hj).2
  slot := hf.slot

theorem ref_eq (hf : Filled c t b s s') (h : Held s c) (y : Nat × Slot) :
    s'.ref c y = if y = ((s.inode c).inum, t) then some b else s.ref c y := by
  unfold State.ref
  rw [hf.sb]
  exact hf.placed.ref h.inum_lt h.type_ino (h.cons.ne_zero_of_free hf.lt hf.free) y

theorem ref_none (hf : Filled c t b s s') (h : Held s c) : s.ref c ((s.inode c).inum, t) = none := by
  refine (ref_eq_none h.inum_lt h.type_ino).mpr ?_
  rw [s.ino_self]
  exact hf.empty

theorem ref_of_some (hf : Filled c t b s s') (h : Held s c) (x : Nat × Slot) (e : Nat)
    (hx : s.ref c x = some e) : s'.ref c x = some e := by
  rw [hf.ref_eq h, if_neg]
  · exact hx
  · rintro rfl
    rw [hf.ref_none h] at hx
    exact absurd hx (by simp)

theorem held (hf : Filled c t b s s') (h : Held s c) : Held s' c where
  cons := by
    rw [hf.sb]
    refine h.cons.alloc hf.lt hf.free h.inum_lt h.type_ino ?_ hf.placed
    rw [s.ino_self]
    exact hf.empty
  inum_lt := by
    rw [hf.inum, hf.sb]
    exact h.inum_lt
  type_ne := by
    obtain ⟨a, ha⟩ := hf.self
    rw [ha]
    exact h.type_ne

theorem grown (hf : Filled c t b s s') (h : Held s c) (ht : ((s.inode c).inum, t) ∈ need) :
    Grown c need s s' where
  sb := hf.sb
  devsw := hf.devsw
  other := hf.other
  self := hf.self
  dinode := hf.dinode
  ref := hf.ref_of_some h
  slack := by
    unfold State.slack
    rw [hf.sb]
    exact slack_alloc (Finset.mem_range.mpr hf.lt) hf.free ht (hf.ref_none h)
      (fun e he => hf.busy e (Finset.mem_range.mp he)) fun y _ => hf.ref_eq h y

theorem kept (hf : Filled c t b s s') (h : Held s c) : Kept c s s' := by
  intro j o v hv
  obtain ⟨e, he, hev⟩ := Option.map_eq_some_iff.mp hv
  rw [State.cell, hf.ref_of_some h _ _ he, Option.map_some, hf.disk _ _ _ he, hev]

end Filled

/-- `ip->addrs[k] = balloc(…)`. -/
theorem filled_addr {s : State} {c : Ip} {b k : Nat} (h : Held s c) (hb : b < s.sb.size)
    (hfree : busy s.sb s.disk b = false) (hk : k ≤ NDIRECT) (hempty : (s.inode c).din.addr k = 0) :
    Filled c (slotOf k) b s ((s.take b).set c
      { s.inode c with din := (s.inode c).din.setAddr k (UInt32.ofNat b) }) where
  lt := hb
  free := hfree
  empty := by
    rw [slotAddr_slotOf hk, hempty]
    rfl
  sb := rfl
  devsw := rfl
  other := fun e he => Function.update_of_ne he _ _
  self := ⟨_, Function.update_self _ _ _⟩
  dinode := fun j hj => take_dinode h.cons hb hfree hj
  super := take_super h.cons hb hfree
  busy := fun e he => take_busy h.cons hb hfree he
  slot := by
    intro j hj htj u
    have hino (d : Dinode) : ((s.take b).set c { s.inode c with din := d }).ino c j =
        if j = (s.inode c).inum then d else dinode s.sb (s.take b).disk j := by
      simp only [State.ino, State.set_inode, Function.update_self, Function.update_apply]
      rfl
    rw [hino, State.set_disk]
    by_cases he : j = (s.inode c).inum
    · subst he
      rw [if_pos rfl, slotAddr_setAddr hk hempty (hb.trans h.cons.size_lt) take_disk_self]
      have hslot := take_slotAddr h.cons hb hfree hj htj u
      rw [s.ino_self] at hslot ⊢
      rw [hslot]
      simp
    · have hne : (j, u) ≠ ((s.inode c).inum, slotOf k) := fun hc => he (Prod.mk.inj hc).1
      rw [if_neg he, if_neg hne, take_dinode h.cons hb hfree hj, ← s.ino_of_ne c he,
        take_slotAddr h.cons hb hfree hj htj]
  disk := fun _ _ _ he => take_disk_of_ref h.cons hb hfree he

/-- `a[k] = balloc(…)` in the indirect block. -/
theorem filled_entry {s : State} {c : Ip} {b k : Nat} (h : Held s c) (hb : b < s.sb.size)
    (hfree : busy s.sb s.disk b = false) (hk : k < NINDIRECT)
    (hd : (s.inode c).din.addr NDIRECT ≠ 0)
    (hempty : le32 (s.disk ((s.inode c).din.addr NDIRECT).toNat) (4 * k) = 0) :
    Filled c (.block (NDIRECT + k)) b s ((s.take b).write ((s.inode c).din.addr NDIRECT).toNat
      (putLe32 ((s.take b).disk ((s.inode c).din.addr NDIRECT).toNat) (4 * k) b)) := by
  have hself := s.ino_self c
  have hind : s.ref c ((s.inode c).inum, .indirect) =
      some ((s.inode c).din.addr NDIRECT).toNat := by
    rw [← hself] at hd ⊢
    exact Consistent.indirect_ref h.inum_lt h.type_ino hd
  generalize he : ((s.inode c).din.addr NDIRECT).toNat = e at hind ⊢
  have hmeta : ¬ isMeta s.sb e := h.cons.not_isMeta hind
  have hdinode (j : Nat) (hj : j < s.sb.ninodes) (data : Block) :
      dinode s.sb (Function.update (s.take b).disk e data) j = dinode s.sb s.disk j := by
    rw [dinode_write_of_ne (ne_of_isMeta (h.cons.layout.isMeta_IBLOCK hj) hmeta)]
    exact take_dinode h.cons hb hfree hj
  exact
    { lt := hb
      free := hfree
      empty := by
        rw [slotAddr_entry (by omega) (by omega) hd, he, Nat.add_sub_cancel_left, ← he]
        exact hempty
      sb := rfl
      devsw := rfl
      other := fun _ _ => rfl
      self := ⟨_, rfl⟩
      dinode := fun j hj => hdinode j hj _
      super := by
        rw [State.write_disk, Function.update_of_ne (ne_of_isMeta (isMeta_one s.sb) hmeta)]
        exact take_super h.cons hb hfree
      busy := fun a ha => by
        rw [State.write_disk,
          busy_write_of_ne (ne_of_isMeta (h.cons.layout.isMeta_BBLOCK ha) hmeta)]
        exact take_busy h.cons hb hfree ha
      slot := by
        intro j hj htj u
        by_cases hju : j = (s.inode c).inum
        · subst hju
          have hslot := take_slotAddr h.cons hb hfree hj htj u
          rw [hself] at hslot ⊢
          have hino : ((s.take b).write e (putLe32 ((s.take b).disk e) (4 * k) b)).ino c
              (s.inode c).inum = (s.inode c).din := State.ino_self _ c
          rw [hino, State.write_disk, ← he, slotAddr_putEntry hk hd (hb.trans h.cons.size_lt), hslot]
          simp
        · have hne : (j, u) ≠ ((s.inode c).inum, .block (NDIRECT + k)) :=
            fun hc => hju (Prod.mk.inj hc).1
          rw [State.ino_of_ne _ c (by exact hju), if_neg hne]
          simp only [State.write_sb, State.write_disk]
          rw [show (s.take b).sb = s.sb from rfl, hdinode j hj, ← s.ino_of_ne c hju,
            ← take_slotAddr h.cons hb hfree hj htj]
          refine slotAddr_congr (fun _ _ => rfl) fun hdj => Function.update_of_ne ?_ _ _
          intro hje
          have hj' : s.ref c (j, .indirect) = some _ := Consistent.indirect_ref hj htj hdj
          rw [hje] at hj'
          exact hju (Prod.mk.inj (h.cons.own.inj hj' hind)).1
      disk := fun j bn a ha => by
        have hne : a ≠ e := by
          rintro rfl
          exact absurd (h.cons.own.inj ha hind) (by simp)
        rw [State.write_disk, Function.update_of_ne hne]
        exact take_disk_of_ref h.cons hb hfree ha }

/-! ## the block map -/

/-- What a part of `bmap` leaves that looks for the block in slot `t`. -/
structure Mapped (c : Ip) (need : Finset (Nat × Slot)) (t : Slot) (s : State) (b : Nat)
    (s' : State) : Prop where
  held : Held s' c
  grown : Grown c need s s'
  kept : Kept c s s'
  ref : s'.ref c ((s.inode c).inum, t) = some b
  same : slotAddr s.disk (s.inode c).din t ≠ 0 → s' = s

section Map

variable {s s' : State} {c : Ip} {b : Nat} {t : Slot} {need : Finset (Nat × Slot)}

theorem mapped_of_filled (h : Held s c) (hf : Filled c t b s s')
    (ht : ((s.inode c).inum, t) ∈ need) : Mapped c need t s b s' where
  held := hf.held h
  grown := hf.grown h ht
  kept := hf.kept h
  ref := by rw [hf.ref_eq h, if_pos rfl]
  same := fun hne => absurd hf.empty hne

theorem mapped_of_ne_zero (h : Held s c) (hne : slotAddr s.disk (s.inode c).din t ≠ 0) :
    Mapped c need t s (slotAddr s.disk (s.inode c).din t) s where
  held := h
  grown := Grown.refl c need s
  kept := fun _ _ _ hv => hv
  ref := by
    refine ref_eq_some.mpr ⟨h.inum_lt, h.type_ino, ?_, hne⟩
    rw [s.ino_self]
  same := fun _ => rfl

/-- There is no free block, and slot `t` needs one. -/
theorem slack_neg_of_full (h : Held s c) (hfull : ∀ e < s.sb.size, busy s.sb s.disk e = true)
    (hempty : slotAddr s.disk (s.inode c).din t = 0) (ht : ((s.inode c).inum, t) ∈ need) :
    s.slack c need < 0 := by
  refine slack_neg ht ((ref_eq_none h.inum_lt h.type_ino).mpr ?_)
    fun e he => hfull e (Finset.mem_range.mp he)
  rw [s.ino_self]
  exact hempty

theorem bmapAddr_spec (h : Held s c) {k : Nat} (hk : k ≤ NDIRECT)
    (ht : ((s.inode c).inum, slotOf k) ∈ need) :
    wpE (bmapAddr c k) s (Mapped c need (slotOf k) s)
      fun e => e = .ballocOutOfBlocks ∧ s.slack c need < 0 := by
  have hslot : slotAddr s.disk (s.inode c).din (slotOf k) = ((s.inode c).din.addr k).toNat :=
    slotAddr_slotOf hk
  simp only [bmapAddr, wpE_bind, wpE_get]
  split
  · next h0 =>
    refine wpE_bind_of ((balloc_spec s).mono (fun _ _ hq => hq) ?_) ?_
    · rintro e ⟨he, hfull⟩
      exact ⟨he, slack_neg_of_full h hfull (by rw [hslot, h0]; rfl) ht⟩
    · rintro b _ ⟨hb, hfree, rfl⟩
      simp only [wpE_bind, wpE_setDin, wpE_pure]
      exact mapped_of_filled h (filled_addr h hb hfree hk h0) ht
  · next h0 =>
    rw [wpE_pure, ← hslot]
    refine mapped_of_ne_zero h ?_
    rw [hslot]
    exact fun hz => h0 (UInt32.toNat_inj.mp hz)

theorem bmapEntry_spec (h : Held s c) {k : Nat} (hk : k < NINDIRECT)
    (hd : s.ref c ((s.inode c).inum, .indirect) = some b)
    (ht : ((s.inode c).inum, .block (NDIRECT + k)) ∈ need) :
    wpE (bmapEntry b k) s (Mapped c need (.block (NDIRECT + k)) s)
      fun e => e = .ballocOutOfBlocks ∧ s.slack c need < 0 := by
  obtain ⟨-, -, hb, hb0⟩ := ref_eq_some.mp hd
  rw [s.ino_self, slotAddr] at hb
  subst hb
  have hd0 : (s.inode c).din.addr NDIRECT ≠ 0 := by
    intro h0
    exact hb0 (by rw [h0]; rfl)
  have hslot : slotAddr s.disk (s.inode c).din (.block (NDIRECT + k)) =
      le32 (s.disk ((s.inode c).din.addr NDIRECT).toNat) (4 * k) := by
    rw [slotAddr_entry (by omega) (by omega) hd0, Nat.add_sub_cancel_left]
  simp only [bmapEntry, wpE_bind, wpE_bread]
  split
  · next h0 =>
    refine wpE_bind_of ((balloc_spec s).mono (fun _ _ hq => hq) ?_) ?_
    · rintro e ⟨he, hfull⟩
      exact ⟨he, slack_neg_of_full h hfull (by rw [hslot, h0]) ht⟩
    · rintro b _ ⟨hb, hfree, rfl⟩
      simp only [wpE_bind, wpE_bread, wpE_logWrite, wpE_pure]
      exact mapped_of_filled h (filled_entry h hb hfree hk hd0 h0) ht
  · next h0 =>
    rw [wpE_pure, ← hslot]
    refine mapped_of_ne_zero h ?_
    rw [hslot]
    exact h0

/-- **`bmap`** returns the block in the slot for block `bn` of the file. -/
theorem bmap_spec (h : Held s c) {bn : Nat} (hbn : bn < MAXFILE)
    (hblock : ((s.inode c).inum, .block bn) ∈ need)
    (hind : NDIRECT ≤ bn → ((s.inode c).inum, .indirect) ∈ need) :
    wpE (bmap c bn) s (Mapped c need (.block bn) s)
      fun e => e = .ballocOutOfBlocks ∧ s.slack c need < 0 := by
  unfold bmap
  split
  · next hlt =>
    have hslot : slotOf bn = .block bn := if_neg (by omega)
    rw [← hslot] at hblock ⊢
    exact bmapAddr_spec h (by omega) hblock
  · next hge =>
    have hk : bn - NDIRECT < NINDIRECT := by
      unfold MAXFILE at hbn
      omega
    rw [if_pos hk]
    refine wpE_bind_of (bmapAddr_spec h le_rfl (hind (by omega))) fun b s₁ h₁ => ?_
    have hsum : NDIRECT + (bn - NDIRECT) = bn := by omega
    have href : s₁.ref c ((s₁.inode c).inum, .indirect) = some b := by
      rw [h₁.grown.inum]
      exact h₁.ref
    have hneed : ((s₁.inode c).inum, .block (NDIRECT + (bn - NDIRECT))) ∈ need := by
      rw [h₁.grown.inum, hsum]
      exact hblock
    refine (bmapEntry_spec h₁.held hk href hneed).mono (fun b' s₂ h₂ => ?_) ?_
    · rw [hsum] at h₂
      exact
        { held := h₂.held
          grown := h₁.grown.trans h₂.grown
          kept := fun j o v hv => h₂.kept j o v (h₁.kept j o v hv)
          ref := by
            rw [← h₁.grown.inum]
            exact h₂.ref
          same := by
            intro hne
            have hd : (s.inode c).din.addr NDIRECT ≠ 0 := by
              intro h0
              rw [slotAddr, if_neg hge, if_neg fun hc => hc.2 h0] at hne
              exact hne rfl
            have hs₁ : s₁ = s := h₁.same fun h0 => hd (UInt32.toNat_inj.mp h0)
            subst hs₁
            exact h₂.same hne }
    · rintro e ⟨he, hneg⟩
      exact ⟨he, h₁.grown.slack ▸ hneg⟩

end Map

end Xv6.Fs
