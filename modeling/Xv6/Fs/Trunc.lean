import Xv6.Fs.Cache

/-!
# Xv6.Fs.Trunc

`itrunc` on a consistent file system.  It gives the blocks of the inode back
slot by slot; `Freed c T s s'` is the state of affairs when the blocks in the
slots of `T` are gone.  Because every block is in one slot, `bfree` finds each
of them busy, and never panics (`Freed.bfree`).

`reap_spec` is the whole of what `iput` does to an inode without links: the
inode is free on the disk, and so are its blocks.
-/

namespace Xv6.Fs

open Words

/-! ## after `bfree` -/

section Give

variable {s : State} {b : Nat}

theorem give_busy (e : Nat) :
    busy s.sb (s.give b).disk e = true ↔ busy s.sb s.disk e = true ∧ e ≠ b := by
  rw [State.give, State.write_disk, busy_clearBit]
  simp

theorem give_disk_of_ne {a : Nat} (h : a ≠ BBLOCK b s.sb) : (s.give b).disk a = s.disk a :=
  Function.update_of_ne h _ _

end Give

/-! ## slot by slot -/

variable {s s₁ s' : State} {c : Ip} {T : Slot → Prop}

/-- The blocks in the slots of `T` of the inode in entry `c` have been freed;
only the bitmap and the addresses in the entry are touched. -/
structure Freed (c : Ip) (T : Slot → Prop) (s s' : State) : Prop where
  sb : s'.sb = s.sb
  devsw : s'.devsw = s.devsw
  other : ∀ e, e ≠ c → s'.inode e = s.inode e
  self : ∃ a, s'.inode c = { s.inode c with din := { (s.inode c).din with addrs := a } }
  disk : ∀ a, (∀ b < s.sb.size, a ≠ BBLOCK b s.sb) → s'.disk a = s.disk a
  busy : ∀ b, busy s.sb s'.disk b = true ↔ busy s.sb s.disk b = true ∧
    ∀ t, T t → s.ref c ((s.inode c).inum, t) ≠ some b

namespace Freed

theorem refl (c : Ip) (s : State) : Freed c (fun _ => False) s s where
  sb := rfl
  devsw := rfl
  other := fun _ _ => rfl
  self := ⟨_, rfl⟩
  disk := fun _ _ => rfl
  busy := by simp

/-- Only the blocks that the slots hold matter. -/
theorem congr {T' : Slot → Prop} (hf : Freed c T s s₁)
    (h : ∀ t b, s.ref c ((s.inode c).inum, t) = some b → (T' t ↔ T t)) : Freed c T' s s₁ :=
  { hf with
    busy := fun b => by
      rw [hf.busy b]
      refine and_congr_right fun _ => forall_congr' fun t => ?_
      constructor
      · exact fun hT ht hr => hT ((h t b hr).mp ht) hr
      · exact fun hT ht hr => hT ((h t b hr).mpr ht) hr }

theorem super (hf : Freed c T s s₁) (h : Held s c) : getSuper (s₁.disk 1) = s₁.sb := by
  have hone : s₁.disk 1 = s.disk 1 := hf.disk 1 fun b _ => by
    have := h.cons.layout.one_lt_BBLOCK b
    omega
  rw [hone, hf.sb, h.cons.super]

/-- A block in a slot of a file is as before. -/
theorem disk_of_ref (hf : Freed c T s s₁) (h : Held s c) {x : Nat × Slot} {b : Nat}
    (hr : s.ref c x = some b) : s₁.disk b = s.disk b :=
  hf.disk b fun _ he => (ne_of_isMeta (h.cons.layout.isMeta_BBLOCK he) (h.cons.not_isMeta hr)).symm

theorem dinode (hf : Freed c T s s₁) (h : Held s c) {j : Nat} (hj : j < s.sb.ninodes) :
    dinode s.sb s₁.disk j = dinode s.sb s.disk j := by
  rw [Fs.dinode, hf.disk _ fun b _ => h.cons.layout.IBLOCK_ne_BBLOCK hj b, Fs.dinode]

theorem inum (hf : Freed c T s s₁) : (s₁.inode c).inum = (s.inode c).inum := by
  obtain ⟨a, ha⟩ := hf.self
  rw [ha]

/-- Storing into `addrs[]` of the entry. -/
theorem setAddr (hf : Freed c T s s₁) (k : Nat) (v : UInt32) :
    Freed c T s (s₁.set c { s₁.inode c with din := (s₁.inode c).din.setAddr k v }) where
  sb := hf.sb
  devsw := hf.devsw
  other := fun e he => (Function.update_of_ne he _ _).trans (hf.other e he)
  self := by
    obtain ⟨a, ha⟩ := hf.self
    refine ⟨((s₁.inode c).din.setAddr k v).addrs, ?_⟩
    rw [State.set_self]
    conv_lhs => rw [ha]
    rw [ha]
    rfl
  disk := hf.disk
  busy := hf.busy

/-- **A block in a slot that was not freed yet is busy**, and `bfree` frees
it. -/
theorem bfree (hf : Freed c T s s₁) (h : Held s c) {t : Slot} (ht : ¬ T t) {b : Nat}
    (hr : s.ref c ((s.inode c).inum, t) = some b) {E : Panic → Prop} :
    wpE (bfree b) s₁
      (fun _ s' => Freed c (fun u => T u ∨ u = t) s s' ∧ s'.inode = s₁.inode) E := by
  have hbusy : Fs.busy s₁.sb s₁.disk b = true := by
    rw [hf.sb, hf.busy b]
    refine ⟨h.cons.own.busy_of_ref hr, fun u hu hru => ht ?_⟩
    obtain ⟨-, rfl⟩ := Prod.mk.inj (h.cons.own.inj hr hru)
    exact hu
  have hb : b < s.sb.size := h.cons.lt_size hr
  refine (bfree_spec (hf.super h) hbusy).mono ?_ fun _ he => he
  rintro _ _ rfl
  refine ⟨?_, rfl⟩
  exact
    { sb := hf.sb
      devsw := hf.devsw
      other := hf.other
      self := hf.self
      disk := fun a ha => by
        rw [give_disk_of_ne (by rw [hf.sb]; exact ha b hb)]
        exact hf.disk a ha
      busy := fun e => by
        have hgive := give_busy (s := s₁) (b := b) e
        rw [hf.sb] at hgive
        rw [hgive, hf.busy e]
        constructor
        · rintro ⟨⟨he, hT⟩, hne⟩
          refine ⟨he, fun u hu hru => ?_⟩
          rcases hu with hu | rfl
          · exact hT u hu hru
          · exact hne (Option.some.inj (hru.symm.trans hr))
        · rintro ⟨he, hT⟩
          refine ⟨⟨he, fun u hu => hT u (.inl hu)⟩, ?_⟩
          rintro rfl
          exact hT t (.inr rfl) hr }

/-- An empty slot has nothing to free. -/
theorem skip (hf : Freed c T s s₁) {t : Slot} (hr : s.ref c ((s.inode c).inum, t) = none) :
    Freed c (fun u => T u ∨ u = t) s s₁ :=
  hf.congr fun u b hu => by
    have hne : u ≠ t := by
      rintro rfl
      rw [hr] at hu
      exact absurd hu (by simp)
    simp [hne]

end Freed

/-! ## the loops -/

theorem Held.ref_self (h : Held s c) {t : Slot}
    (hne : slotAddr s.disk (s.inode c).din t ≠ 0) :
    s.ref c ((s.inode c).inum, t) = some (slotAddr s.disk (s.inode c).din t) :=
  ref_eq_some.mpr ⟨h.inum_lt, h.type_ino, by rw [s.ino_self], hne⟩

theorem Held.ref_self_none (h : Held s c) {t : Slot}
    (h0 : slotAddr s.disk (s.inode c).din t = 0) : s.ref c ((s.inode c).inum, t) = none :=
  (ref_eq_none h.inum_lt h.type_ino).mpr (by rw [s.ino_self]; exact h0)

/-- **The first loop** frees the direct blocks. -/
theorem truncDirect_loop (h : Held s c) {E : Panic → Prop} :
    wpE ((List.range NDIRECT).forM (truncDirect c)) s (fun _ s' =>
      Freed c (fun t => ∃ i ∈ List.range NDIRECT, t = .block i) s s' ∧
      ∀ k ≤ NDIRECT, (s'.inode c).din.addr k =
        if k ∈ List.range NDIRECT then 0 else (s.inode c).din.addr k) E := by
  -- the invariant: the slots that are done are freed and cleared
  refine (wpE_forM (fun done todo s₁ => done ++ todo = List.range NDIRECT ∧
    Freed c (fun t => ∃ i ∈ done, t = .block i) s s₁ ∧
    ∀ k ≤ NDIRECT, (s₁.inode c).din.addr k = if k ∈ done then 0 else (s.inode c).din.addr k)
    ?_ ?_).mono (fun _ _ hI => hI.2) fun _ he => he
  · rintro done i todo s₁ ⟨hrange, hf, haddr⟩
    have hrange' : done ++ [i] ++ todo = List.range NDIRECT := by simpa using hrange
    have hi : i < NDIRECT := List.mem_range.mp (by rw [← hrange]; simp)
    have hnodup : (done ++ i :: todo).Nodup := by
      rw [hrange]
      exact List.nodup_range
    have hnot : i ∉ done := fun hmem =>
      (List.nodup_append.mp hnodup).2.2 i hmem i List.mem_cons_self rfl
    have hmem (t : Slot) : (∃ j ∈ done ++ [i], t = .block j) ↔
        (∃ j ∈ done, t = .block j) ∨ t = .block i := by
      simp [or_and_right, exists_or]
    have hcur : (s₁.inode c).din.addr i = (s.inode c).din.addr i := by
      rw [haddr i hi.le, if_neg hnot]
    have hslot : slotAddr s.disk (s.inode c).din (.block i) = ((s.inode c).din.addr i).toNat :=
      slotAddr_direct hi
    simp only [truncDirect, wpE_bind, wpE_get, hcur]
    split
    · next h0 =>
      refine wpE_pure.mpr ⟨hrange', ?_, fun k hk => ?_⟩
      · simp only [hmem]
        exact hf.skip (h.ref_self_none (by rw [hslot, h0]; rfl))
      · rw [haddr k hk]
        grind
    · next h0 =>
      have hne : slotAddr s.disk (s.inode c).din (.block i) ≠ 0 := by
        rw [hslot]
        exact fun hz => h0 (UInt32.toNat_inj.mp hz)
      have hr := h.ref_self hne
      rw [hslot] at hr
      have hT : ¬ ∃ j ∈ done, Slot.block i = .block j := by
        rintro ⟨j, hj, he⟩
        obtain rfl : i = j := by simpa using he
        exact hnot hj
      refine wpE_bind_of (hf.bfree h hT hr) ?_
      rintro _ s₂ ⟨hf₂, hinode⟩
      rw [wpE_setDin]
      refine ⟨hrange', ?_, fun k hk => ?_⟩
      · simp only [hmem]
        exact hf₂.setAddr i 0
      · rw [State.set_self, hinode]
        by_cases hki : k = i
        · subst hki
          rw [Dinode.addr_setAddr_self _ hk]
          simp
        · rw [Dinode.addr_setAddr_of_ne _ hki, haddr k hk]
          simp [hki]
  · exact ⟨List.nil_append _, (Freed.refl c s).congr fun _ _ _ => by simp, fun _ _ => by simp⟩

/-- **The second loop** frees the blocks in the entries of the indirect block. -/
theorem truncEntry_loop (h : Held s c) (hf : Freed c T s s₁)
    (hT : ∀ j, ¬ T (.block (NDIRECT + j))) (hd : (s.inode c).din.addr NDIRECT ≠ 0)
    {E : Panic → Prop} :
    wpE ((List.range NINDIRECT).forM
        (truncEntry (s.disk ((s.inode c).din.addr NDIRECT).toNat))) s₁ (fun _ s' =>
      Freed c (fun t => T t ∨ ∃ j ∈ List.range NINDIRECT, t = .block (NDIRECT + j)) s s' ∧
      s'.inode = s₁.inode) E := by
  refine (wpE_forM (fun done todo s₂ => done ++ todo = List.range NINDIRECT ∧
    Freed c (fun t => T t ∨ ∃ j ∈ done, t = .block (NDIRECT + j)) s s₂ ∧ s₂.inode = s₁.inode)
    ?_ ?_).mono (fun _ _ hI => hI.2) fun _ he => he
  · rintro done j todo s₂ ⟨hrange, hf₂, hinode⟩
    have hrange' : done ++ [j] ++ todo = List.range NINDIRECT := by simpa using hrange
    have hj : j < NINDIRECT := List.mem_range.mp (by rw [← hrange]; simp)
    have hnodup : (done ++ j :: todo).Nodup := by
      rw [hrange]
      exact List.nodup_range
    have hnot : j ∉ done := fun hmem =>
      (List.nodup_append.mp hnodup).2.2 j hmem j List.mem_cons_self rfl
    have hmem (t : Slot) : (T t ∨ ∃ k ∈ done ++ [j], t = .block (NDIRECT + k)) ↔
        (T t ∨ ∃ k ∈ done, t = .block (NDIRECT + k)) ∨ t = .block (NDIRECT + j) := by
      simp [or_and_right, exists_or, or_assoc]
    have hslot : slotAddr s.disk (s.inode c).din (.block (NDIRECT + j)) =
        le32 (s.disk ((s.inode c).din.addr NDIRECT).toNat) (4 * j) := by
      rw [slotAddr_entry (by omega) (by omega) hd, Nat.add_sub_cancel_left]
    unfold truncEntry
    split
    · next h0 =>
      refine wpE_pure.mpr ⟨hrange', ?_, hinode⟩
      simp only [hmem]
      exact hf₂.skip (h.ref_self_none (by rw [hslot, h0]))
    · next h0 =>
      have hr := h.ref_self (t := .block (NDIRECT + j)) (by rw [hslot]; exact h0)
      rw [hslot] at hr
      refine (hf₂.bfree h ?_ hr).mono ?_ fun _ he => he
      · rintro (ht | ⟨k, hk, he⟩)
        · exact hT j ht
        · obtain rfl : j = k := by simpa using he
          exact hnot hk
      · rintro _ s₃ ⟨hf₃, hinode₃⟩
        refine ⟨hrange', ?_, hinode₃.trans hinode⟩
        simp only [hmem]
        exact hf₃
  · exact ⟨List.nil_append _, hf.congr fun _ _ _ => by simp, rfl⟩

/-- All blocks of the inode are freed, and its addresses are `0`. -/
theorem truncBlocks (h : Held s c) {E : Panic → Prop} :
    wpE (do (List.range NDIRECT).forM (truncDirect c); truncIndirect c) s (fun _ s' =>
      Freed c (fun _ => True) s s' ∧ ∀ k ≤ NDIRECT, (s'.inode c).din.addr k = 0) E := by
  refine wpE_bind_of (truncDirect_loop h) ?_
  rintro _ s₁ ⟨hf, haddr⟩
  have hcur : (s₁.inode c).din.addr NDIRECT = (s.inode c).din.addr NDIRECT := by
    rw [haddr NDIRECT le_rfl, if_neg (by simp)]
  simp only [truncIndirect, wpE_bind, wpE_get, hcur]
  split
  · next h0 =>
    refine wpE_pure.mpr ⟨hf.congr fun t b hr => ?_, fun k hk => ?_⟩
    · -- without an indirect block the direct slots are all there is
      rw [true_iff]
      obtain ⟨-, -, hslot, hb⟩ := ref_eq_some.mp hr
      rw [s.ino_self] at hslot
      cases t with
      | indirect => exact absurd (by rw [← hslot, slotAddr, h0]; rfl) hb
      | block bn =>
          by_cases hbn : bn < NDIRECT
          · exact ⟨bn, List.mem_range.mpr hbn, rfl⟩
          · rw [slotAddr, if_neg hbn, if_neg fun hc => hc.2 h0] at hslot
            exact absurd hslot.symm hb
    · rw [haddr k hk]
      split
      · rfl
      · next hk' =>
        obtain rfl : k = NDIRECT := by
          rw [List.mem_range] at hk'
          omega
        exact h0
  · next h0 =>
    have hr := h.ref_self (t := .indirect) fun hz => h0 (UInt32.toNat_inj.mp hz)
    rw [slotAddr] at hr
    rw [wpE_bind, wpE_bread, hf.disk_of_ref h hr]
    have hT (j : Nat) : ¬ ∃ i ∈ List.range NDIRECT, Slot.block (NDIRECT + j) = .block i := by
      rintro ⟨i, hi, he⟩
      obtain rfl : NDIRECT + j = i := by simpa using he
      rw [List.mem_range] at hi
      omega
    refine wpE_bind_of (truncEntry_loop h hf hT h0) ?_
    rintro _ s₂ ⟨hf₂, hinode₂⟩
    refine wpE_bind_of (hf₂.bfree h (by simp) hr) ?_
    rintro _ s₃ ⟨hf₃, hinode₃⟩
    rw [wpE_setDin]
    refine ⟨(hf₃.setAddr NDIRECT 0).congr fun t b hr => ?_, fun k hk => ?_⟩
    · rw [true_iff]
      cases t with
      | indirect => exact .inr rfl
      | block bn =>
          refine .inl ?_
          by_cases hbn : bn < NDIRECT
          · exact .inl ⟨bn, List.mem_range.mpr hbn, rfl⟩
          · obtain ⟨-, -, hslot, hb⟩ := ref_eq_some.mp hr
            have hlt := lt_MAXFILE_of_slotAddr_ne_zero (hslot ▸ hb)
            refine .inr ⟨bn - NDIRECT, List.mem_range.mpr ?_, ?_⟩
            · unfold MAXFILE at hlt
              omega
            · rw [Nat.add_sub_cancel' (by omega)]
    · rw [State.set_self, hinode₃, hinode₂]
      by_cases hkn : k = NDIRECT
      · rw [hkn, Dinode.addr_setAddr_self _ le_rfl]
      · rw [Dinode.addr_setAddr_of_ne _ hkn, haddr k hk, if_pos (List.mem_range.mpr (by omega))]

/-! ## the inode -/

/-- A table in which the inode has lost its blocks is consistent. -/
theorem Freed.consistent (hf : Freed c (fun _ => True) s s₁) (h : Held s c) {ino : Nat → Dinode}
    (hother : ∀ j < s.sb.ninodes, j ≠ (s.inode c).inum → ino j = s.ino c j)
    (haddr : ∀ k ≤ NDIRECT, (ino (s.inode c).inum).addr k = 0)
    (hsize : (ino (s.inode c).inum).size = 0) : Consistent s.sb s₁.disk ino := by
  have hslot (j : Nat) (hj : j < s.sb.ninodes) (hne : j ≠ (s.inode c).inum)
      (htj : (s.ino c j).type ≠ 0) (t : Slot) :
      slotAddr s₁.disk (ino j) t = slotAddr s.disk (s.ino c j) t := by
    rw [hother j hj hne]
    exact slotAddr_congr (fun _ _ => rfl) fun hd =>
      hf.disk_of_ref h (Consistent.indirect_ref hj htj hd)
  constructor
  case layout => exact h.cons.layout
  case super =>
    have := hf.super h
    rwa [hf.sb] at this
  case own =>
    refine h.cons.own.release (P := fun x => x.1 = (s.inode c).inum) ?_ ?_ ?_
    · intro b hb
      rw [hf.busy b]
      refine and_congr_right fun _ => ⟨?_, ?_⟩
      · rintro hno ⟨j, t⟩ rfl
        exact hno t trivial
      · exact fun hno t _ => hno _ rfl
    · rintro ⟨j, t⟩ rfl
      by_contra hne
      obtain ⟨b, hb⟩ := Option.ne_none_iff_exists'.mp hne
      obtain ⟨-, -, hs, hb0⟩ := ref_eq_some.mp hb
      exact hb0 (hs.symm.trans (slotAddr_eq_zero haddr t))
    · rintro ⟨j, t⟩ hne
      exact ref_congr (fun hj => by rw [hother j hj hne]) fun hj htj => hslot j hj hne htj t
  case filled =>
    intro j hj htj bn hbn
    by_cases he : j = (s.inode c).inum
    · rw [he, hsize] at hbn
      exact absurd hbn (Nat.not_lt_zero _)
    · have hino := hother j hj he
      rw [hslot j hj he (by rw [← hino]; exact htj)]
      exact h.cons.filled j hj (by rw [← hino]; exact htj) bn (by rw [← hino]; exact hbn)

/-- What freeing an inode leaves: the inode is free on the disk, its blocks
are free, and everything else is as before. -/
structure Reaped (c : Ip) (s s' : State) : Prop where
  sb : s'.sb = s.sb
  devsw : s'.devsw = s.devsw
  other : ∀ e, e ≠ c → s'.inode e = s.inode e
  ref : (s'.inode c).ref = (s.inode c).ref
  valid : (s'.inode c).valid = false
  busy : (s'.inode c).busy = false
  inum : (s'.inode c).inum = (s.inode c).inum
  cons : Consistent s.sb s'.disk (dinode s.sb s'.disk)
  type : (dinode s.sb s'.disk (s.inode c).inum).type = 0
  dinode : ∀ j < s.sb.ninodes, j ≠ (s.inode c).inum → dinode s.sb s'.disk j = dinode s.sb s.disk j

/-- What freeing an inode does to the disk: the inode loses its type and its
blocks, and only the free map and the block of the inode change. -/
structure Emptied (c : Ip) (s s' : State) : Prop where
  din : dinode s.sb s'.disk (s.inode c).inum =
    { (s.inode c).din with type := 0, size := 0, addrs := fun _ => 0 }
  disk : ∀ a, (∀ b < s.sb.size, a ≠ BBLOCK b s.sb) → a ≠ IBLOCK (s.inode c).inum s.sb →
    s'.disk a = s.disk a

/-- The table of inodes after the entry's copy was changed. -/
theorem set_din_ino (s : State) (c : Ip) (ip : Inode) (hinum : ip.inum = (s.inode c).inum) (j : Nat) :
    (s.set c ip).ino c j = if j = (s.inode c).inum then ip.din else s.ino c j := by
  unfold State.ino
  rw [State.set_self, hinum, Function.update_apply]
  split
  · rfl
  · next h => rw [Function.update_of_ne h]; rfl

theorem Held.set_busy (h : Held s c) (busy : Bool) :
    Held (s.set c { s.inode c with busy := busy }) c := by
  generalize hip : { s.inode c with busy := busy } = ip
  have hinum : ip.inum = (s.inode c).inum := by rw [← hip]
  have hdin : ip.din = (s.inode c).din := by rw [← hip]
  have hself : (s.set c ip).inode c = ip := Function.update_self _ _ _
  constructor
  case cons =>
    refine h.cons.congr rfl (fun _ _ => rfl) (fun j _ => ?_) fun _ _ _ _ => rfl
    rw [set_din_ino s c ip hinum]
    split
    · next hj => rw [hj, s.ino_self, hdin]
    · rfl
  case inum_lt =>
    rw [hself, hinum]
    exact h.inum_lt
  case type_ne =>
    rw [hself, hdin]
    exact h.type_ne

/-- The end of the freeing: the truncated inode is written to the disk, and
then once more with type `0`. -/
theorem Freed.reaped (hf : Freed c (fun _ => True) s s₁) (h : Held s c)
    (haddr : ∀ k ≤ NDIRECT, (s₁.inode c).din.addr k = 0) {s₂ s₃ : State}
    (h₂ : s₂ = (s₁.resize c 0).flush c)
    (h₃ : s₃ = s₂.set c { s₂.inode c with din := { (s₂.inode c).din with type := 0 } }) :
    ∀ s', s' = (s₃.flush c).set c { s₃.inode c with busy := false, valid := false } →
      Reaped c s s' ∧ Emptied c s s' := by
  rintro _ rfl
  have hi₂ : s₂.inode c = { s₁.inode c with din := { (s₁.inode c).din with size := 0 } } := by
    rw [h₂, flush_inode, resize_inode_self]
  have hi₃ : s₃.inode c = { s₂.inode c with din := { (s₂.inode c).din with type := 0 } } := by
    rw [h₃, State.set_self]
  have hsb₂ : s₂.sb = s.sb := by rw [h₂]; exact hf.sb
  have hsb₃ : s₃.sb = s.sb := by rw [h₃]; exact hsb₂
  have hd₃ : s₃.disk = s₂.disk := by rw [h₃]; rfl
  have hinum₂ : (s₂.inode c).inum = (s.inode c).inum := by
    rw [hi₂]
    exact hf.inum
  have hinum₃ : (s₃.inode c).inum = (s.inode c).inum := by
    rw [hi₃]
    exact hinum₂
  -- the table that the second `iupdate` leaves on the disk
  have hself : s₃.ino c (s.inode c).inum = (s₃.inode c).din := by
    rw [← hinum₃]
    exact s₃.ino_self c
  have hother (j : Nat) (hj : j < s.sb.ninodes) (hne : j ≠ (s.inode c).inum) :
      s₃.ino c j = Fs.dinode s.sb s.disk j := by
    have hne₁ : j ≠ (s₁.inode c).inum := by
      rw [hf.inum]
      exact hne
    rw [s₃.ino_of_ne c (by rw [hinum₃]; exact hne), hsb₃, hd₃, h₂,
      ← show (s₁.resize c 0).sb = s.sb from hf.sb, flush_dinode, resize_ino, if_neg hne₁,
      s₁.ino_of_ne c hne₁, hf.sb, hf.dinode h hj]
    exact congrArg (Fs.dinode · s.disk j) hf.sb.symm
  have hflush : Fs.dinode s.sb (s₃.flush c).disk = s₃.ino c := by
    rw [← hsb₃]
    exact flush_dinode s₃ c
  have hcons₁ : Consistent s.sb s₁.disk (s₃.ino c) := by
    refine hf.consistent h (fun j hj hne => ?_) ?_ ?_
    · rw [hother j hj hne, s.ino_of_ne c hne]
    · rw [hself, hi₃, hi₂]
      exact haddr
    · rw [hself, hi₃, hi₂]
  have hcons : Consistent s.sb (s₃.flush c).disk (s₃.ino c) := by
    have hwrite₂ : Consistent s.sb s₂.disk (s₃.ino c) := by
      have hinum : ((s₁.resize c 0).inode c).inum = (s.inode c).inum := by
        rw [resize_inode_self]
        exact hf.inum
      rw [h₂, State.flush, State.write_disk, show (s₁.resize c 0).sb = s.sb from hf.sb, hinum]
      exact hcons₁.write_iblock h.inum_lt _
    rw [State.flush, State.write_disk, hsb₃, hinum₃, hd₃]
    exact hwrite₂.write_iblock h.inum_lt _
  refine ⟨
    { sb := hsb₃
      devsw := by
        rw [h₃, h₂]
        exact hf.devsw
      other := fun e he => by
        have h₃e : s₃.inode e = s.inode e := by
          rw [h₃, State.set_inode, Function.update_of_ne he, h₂]
          exact (Function.update_of_ne he _ _).trans (hf.other e he)
        exact (Function.update_of_ne he _ _).trans h₃e
      ref := by
        obtain ⟨a, ha⟩ := hf.self
        rw [State.set_self, hi₃, hi₂, ha]
      valid := by rw [State.set_self]
      busy := by rw [State.set_self]
      inum := by
        rw [State.set_self]
        exact hinum₃
      cons := by
        rw [State.set_disk, hflush]
        exact hcons
      type := by rw [State.set_disk, hflush, hself, hi₃]
      dinode := fun j hj hne => by rw [State.set_disk, hflush, hother j hj hne] }, ?_⟩
  constructor
  case din =>
    obtain ⟨a, ha⟩ := hf.self
    have hzero : a = fun _ => 0 := by
      funext k
      have hk := haddr k.val (Nat.lt_succ_iff.mp k.isLt)
      rwa [Dinode.addr, dif_pos k.isLt, ha] at hk
    rw [State.set_disk, ← hsb₃, flush_dinode, ← hinum₃, s₃.ino_self, hi₃, hi₂, ha, hzero]
  case disk =>
    intro b hbit hblock
    have hblock₃ : b ≠ IBLOCK (s₃.inode c).inum s₃.sb := by
      rw [hinum₃, hsb₃]
      exact hblock
    have hblock₂ : b ≠ IBLOCK ((s₁.resize c 0).inode c).inum (s₁.resize c 0).sb := by
      rw [resize_inode_self, show (s₁.resize c 0).sb = s.sb from hf.sb]
      dsimp only
      rw [hf.inum]
      exact hblock
    calc (s₃.flush c).disk b = s₃.disk b := Function.update_of_ne hblock₃ _ _
      _ = ((s₁.resize c 0).flush c).disk b := by rw [h₃, h₂]; rfl
      _ = s₁.disk b := Function.update_of_ne hblock₂ _ _
      _ = s.disk b := hf.disk b hbit

/-- Being marked busy before does not matter. -/
theorem Reaped.of_set_busy {b : Bool} (h : Reaped c (s.set c { s.inode c with busy := b }) s') :
    Reaped c s s' := by
  have hinum : ((s.set c { s.inode c with busy := b }).inode c).inum = (s.inode c).inum := by
    rw [State.set_self]
  exact
    { sb := h.sb
      devsw := h.devsw
      other := fun e he => (h.other e he).trans (Function.update_of_ne he _ _)
      ref := by
        rw [h.ref, State.set_self]
      valid := h.valid
      busy := h.busy
      inum := by rw [h.inum, hinum]
      cons := h.cons
      type := by
        rw [← hinum]
        exact h.type
      dinode := fun j hj hne => h.dinode j hj (by rw [hinum]; exact hne) }

theorem Emptied.of_set_busy {b : Bool} (h : Emptied c (s.set c { s.inode c with busy := b }) s') :
    Emptied c s s' := by
  have hself : (s.set c { s.inode c with busy := b }).inode c = { s.inode c with busy := b } :=
    Function.update_self _ _ _
  have hdin := h.din
  have hdisk := h.disk
  rw [hself] at hdin hdisk
  exact ⟨hdin, hdisk⟩

/-- **Freeing an inode** that has no links and no other references: the blocks
are freed one by one without a panic. -/
theorem reap_cases (h : 0 < (s.inode c).ref → (s.inode c).valid = true → Held s c) :
    wpE (reap c) s (fun _ s' =>
      if (s.inode c).ref = 1 ∧ (s.inode c).valid = true ∧ (s.inode c).din.nlink = 0 then
        Reaped c s s' ∧ Emptied c s s'
      else s' = s) (· = .iputBusy) := by
  simp only [reap, wpE_bind, wpE_get]
  split
  · next hc =>
    split
    · exact rfl
    · have hheld : Held s c := h (by omega) hc.2.1
      simp only [wpE_bind, wpE_setInode, itrunc]
      refine (wpE_bind.mp (truncBlocks (hheld.set_busy true))).mono ?_ fun _ he => he
      intro _ t ht
      refine ht.mono ?_ fun _ he => he
      rintro _ s₁ ⟨hf, haddr⟩
      simp only [wpE_setDin]
      refine (iupdate_spec _ c).mono ?_ fun _ he => he
      rintro _ s₂ h₂
      refine (iupdate_spec _ c).mono ?_ fun _ he => he
      rintro _ s₃ rfl
      obtain ⟨hreaped, hemptied⟩ := hf.reaped (hheld.set_busy true) haddr h₂ rfl _ rfl
      exact ⟨hreaped.of_set_busy, hemptied.of_set_busy⟩
  · exact wpE_pure.mpr rfl

theorem reap_spec (h : 0 < (s.inode c).ref → (s.inode c).valid = true → Held s c) :
    wpE (reap c) s (fun _ s' => s' = s ∨
      ((s.inode c).ref = 1 ∧ (s.inode c).valid = true ∧ Reaped c s s')) (· = .iputBusy) := by
  refine (reap_cases h).mono (fun _ s' hq => ?_) fun _ he => he
  split at hq
  · next hc => exact .inr ⟨hc.1, hc.2.1, hq.1⟩
  · exact .inl hq

end Xv6.Fs
