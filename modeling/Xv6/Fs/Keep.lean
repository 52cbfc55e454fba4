import Xv6.Fs.Handle
import Xv6.Fs.Trunc
import Xv6.Fs.Refine

/-!
# Xv6.Fs.Keep

Every operation of `fs.c` keeps the invariant `Sound`, one lemma per
operation.  Each lemma also says how the operation can stop; none of them stops
with "freeing free block".
-/

namespace Xv6.Fs

open Words

variable {s s' : State} {c : Ip}

/-! ## changes of the cache alone -/

/-- One entry changes, and the disk does not change below the others. -/
theorem Coherent.of_entry (h : Coherent s) (hsb : s'.sb = s.sb)
    (hother : ∀ e, e ≠ c → s'.inode e = s.inode e)
    (huniq : 0 < (s'.inode c).ref → ∀ e, e ≠ c → 0 < (s.inode e).ref →
      (s.inode e).inum ≠ (s'.inode c).inum)
    (hdinode : ∀ e, e ≠ c → 0 < (s.inode e).ref → (s.inode e).valid = true →
      dinode s.sb s'.disk (s.inode e).inum = dinode s.sb s.disk (s.inode e).inum)
    (hcopy : 0 < (s'.inode c).ref → (s'.inode c).valid = true →
      (s'.inode c).inum < s.sb.ninodes ∧ (s'.inode c).din.type ≠ 0 ∧
        dinode s.sb s'.disk (s'.inode c).inum = (s'.inode c).din) : Coherent s' := by
  constructor
  case uniq =>
    intro d e hd he hi
    by_cases hdc : d = c
    · by_cases hec : e = c
      · rw [hdc, hec]
      · rw [hdc] at hd hi
        rw [hother e hec] at he hi
        exact absurd hi.symm (huniq hd e hec he)
    · rw [hother d hdc] at hd hi
      by_cases hec : e = c
      · rw [hec] at he hi
        exact absurd hi (huniq he d hdc hd)
      · rw [hother e hec] at he hi
        exact h.uniq d e hd he hi
  case lt =>
    intro e he hv
    rw [hsb]
    by_cases hec : e = c
    · rw [hec] at he hv ⊢
      exact (hcopy he hv).1
    · rw [hother e hec] at he hv ⊢
      exact h.lt e he hv
  case type =>
    intro e he hv
    by_cases hec : e = c
    · rw [hec] at he hv ⊢
      exact (hcopy he hv).2.1
    · rw [hother e hec] at he hv ⊢
      exact h.type e he hv
  case copy =>
    intro e he hv
    rw [hsb]
    by_cases hec : e = c
    · rw [hec] at he hv ⊢
      exact (hcopy he hv).2.2
    · rw [hother e hec] at he hv ⊢
      rw [hdinode e hec he hv]
      exact h.copy e he hv

/-- One entry changes, and the disk does not. -/
theorem Sound.set (h : Sound s) {ip : Inode}
    (huniq : 0 < ip.ref → ∀ e, e ≠ c → 0 < (s.inode e).ref → (s.inode e).inum ≠ ip.inum)
    (hcopy : 0 < ip.ref → ip.valid = true →
      ip.inum < s.sb.ninodes ∧ ip.din.type ≠ 0 ∧ dinode s.sb s.disk ip.inum = ip.din) :
    Sound (s.set c ip) := by
  have hself : (s.set c ip).inode c = ip := Function.update_self _ _ _
  refine ⟨h.cons, h.cache.of_entry rfl (fun e he => Function.update_of_ne he _ _) ?_
    (fun _ _ _ _ => rfl) ?_⟩
  · rw [hself]
    exact huniq
  · rw [hself]
    exact hcopy

/-- A change that leaves the inode of an entry in use. -/
theorem Sound.set_same (h : Sound s) (href : 0 < (s.inode c).ref) {ip : Inode}
    (hinum : ip.inum = (s.inode c).inum) (hdin : ip.din = (s.inode c).din)
    (hvalid : ip.valid = true → (s.inode c).valid = true) : Sound (s.set c ip) := by
  refine h.set (fun _ e hec he => ?_) fun _ hv => ?_
  · rw [hinum]
    exact fun hi => hec (h.cache.uniq e c he href hi)
  · rw [hinum, hdin]
    exact ⟨h.cache.lt c href (hvalid hv), h.cache.type c href (hvalid hv),
      h.cache.copy c href (hvalid hv)⟩

/-- **`iget`** returns an entry in use for the inode. -/
theorem iget_sound (h : Sound s) (inum : Nat) :
    wpE (iget inum) s (fun c s' => Sound s' ∧ 0 < (s'.inode c).ref ∧ (s'.inode c).inum = inum)
      (· = .igetNoInodes) := by
  refine (iget_cases s inum).mono ?_ fun _ he => he.1
  rintro c s' (⟨href, hinum, rfl⟩ | ⟨hmiss, -, rfl⟩)
  · rw [State.set_self]
    exact ⟨h.set_same href rfl rfl fun hv => hv, Nat.succ_pos _, hinum⟩
  · rw [State.set_self]
    exact ⟨h.set (fun _ e _ he => hmiss e he) fun _ hv => absurd hv (by simp), Nat.one_pos, rfl⟩

theorem idup_sound (h : Sound s) (href : 0 < (s.inode c).ref) {E : Panic → Prop} :
    wpE (idup c) s (fun _ s' => Sound s') E :=
  h.set_same href rfl rfl fun hv => hv

/-- **`ilock`** reads the inode from the disk, or finds the copy valid. -/
theorem ilock_sound (h : Sound s) (hlt : (s.inode c).inum < s.sb.ninodes) :
    wpE (ilock c) s (fun _ s' => Sound s' ∧ Locked s' c)
      fun e => e = .ilock ∨ e = .sleep ∨ e = .ilockNoType := by
  refine (ilock_cases s c).mono ?_ fun _ he => he.imp And.left (Or.imp And.left And.left)
  rintro _ s' ⟨href, -, htype, rfl⟩
  refine ⟨h.set ?_ fun _ _ => ⟨hlt, ?_⟩, ?_⟩
  · exact fun _ e hec he hi => hec (h.cache.uniq e c he href hi)
  · by_cases hv : (s.inode c).valid = true
    · rw [State.fetched, if_pos hv]
      exact ⟨h.cache.type c href hv, h.cache.copy c href hv⟩
    · have htype := htype (Bool.eq_false_iff.mpr hv)
      rw [State.fetched, if_neg hv] at htype ⊢
      exact ⟨htype, rfl⟩
  · constructor
    · rw [State.set_self]
      exact href
    · rw [State.set_self]
    · rw [State.set_self]

theorem iunlock_sound (h : Sound s) :
    wpE (iunlock c) s (fun _ s' => Sound s') (· = .iunlock) := by
  refine (iunlock_cases s c).mono ?_ fun _ he => he.1
  rintro _ s' ⟨href, -, rfl⟩
  exact h.set_same href rfl rfl fun hv => hv

/-! ## changes of the disk -/

/-- An inode other than the one in entry `c` is as before, on the disk and in
the cache. -/
theorem Sound.of_entry (h : Sound s) (href : 0 < (s.inode c).ref) (hsb : s'.sb = s.sb)
    (hcons : Consistent s.sb s'.disk (dinode s.sb s'.disk))
    (hother : ∀ e, e ≠ c → s'.inode e = s.inode e)
    (hinum : (s'.inode c).inum = (s.inode c).inum)
    (hdinode : ∀ j < s.sb.ninodes, j ≠ (s.inode c).inum →
      dinode s.sb s'.disk j = dinode s.sb s.disk j)
    (hcopy : 0 < (s'.inode c).ref → (s'.inode c).valid = true →
      (s.inode c).inum < s.sb.ninodes ∧ (s'.inode c).din.type ≠ 0 ∧
        dinode s.sb s'.disk (s.inode c).inum = (s'.inode c).din) : Sound s' := by
  have hne (e : Ip) (hec : e ≠ c) (he : 0 < (s.inode e).ref) :
      (s.inode e).inum ≠ (s.inode c).inum := fun hi => hec (h.cache.uniq e c he href hi)
  refine ⟨?_, h.cache.of_entry hsb hother (fun _ => ?_)
    (fun e hec he hv => hdinode _ (h.cache.lt e he hv) (hne e hec he)) ?_⟩
  · rw [hsb]
    exact hcons
  · rw [hinum]
    exact hne
  · rw [hinum]
    exact hcopy

/-- A write keeps the invariant. -/
theorem Written.sound {need : Finset (Nat × Slot)} {src : Nat → UInt8} {off n : Nat}
    (hw : Written c need src off n s s') (h : Sound s) (href : 0 < (s.inode c).ref)
    (hvalid : (s.inode c).valid = true) : Sound s' := by
  have hsync : Fs.dinode s'.sb s'.disk (s'.inode c).inum = (s'.inode c).din := by
    rw [hw.sb, hw.inum]
    exact hw.synced
  refine h.of_entry href hw.sb ?_ hw.other hw.inum hw.dinode fun _ _ => ?_
  · rw [← hw.sb, ← ino_eq_dinode hsync]
    exact hw.held.cons
  · exact ⟨(h.held href hvalid).inum_lt, hw.held.type_ne, hw.synced⟩

/-- **`writei`** on a locked inode. -/
theorem writei_sound (h : Sound s) (href : 0 < (s.inode c).ref)
    (hvalid : (s.inode c).valid = true) (src : Nat → UInt8) (off n : UInt32) :
    wpE (writei c src off n) s (fun _ s' => Sound s') (· = .ballocOutOfBlocks) := by
  by_cases hdev : (s.inode c).din.type = T_DEV
  · simp only [writei, wpE_bind, wpE_get]
    rw [if_pos hdev]
    split
    · exact wpE_pure.mpr h
    · exact wpE_pure.mpr h
  · have hheld := h.held href hvalid
    refine (writei_spec hheld (h.cache.copy c href hvalid) hdev
      fun _ => needs_slotsBelow le_rfl).mono ?_ fun _ he => he.1
    rintro _ s' (⟨-, -, rfl⟩ | ⟨-, -, hw⟩)
    · exact h
    · exact hw.sound h href hvalid

/-- **`iput`** drops a reference, and frees the inode if it was the last one
and there is no link. -/
theorem iput_sound (h : Sound s) (href : 0 < (s.inode c).ref) :
    wpE (iput c) s (fun _ s' => Sound s') (· = .iputBusy) := by
  refine wpE_bind_of (reap_spec fun hr hv => h.held hr hv) ?_
  rintro _ s₁ (rfl | ⟨hone, hv, hr⟩)
  · rw [wpE_setInode]
    refine h.set ?_ ?_
    · exact fun _ e hec he hi => hec (h.cache.uniq e c he href hi)
    · exact fun _ hv => ⟨h.cache.lt c href hv, h.cache.type c href hv, h.cache.copy c href hv⟩
  · have hs₁ : Sound s₁ := h.of_entry href hr.sb hr.cons hr.other hr.inum hr.dinode
      fun _ hv' => absurd hv' (by rw [hr.valid]; decide)
    rw [wpE_setInode]
    refine hs₁.set_same ?_ rfl rfl fun hv => hv
    rw [hr.ref]
    exact href

/-! ## changes of the description of an inode -/

/-- The blocks in front of the data blocks do not matter to the contents. -/
theorem Consistent.content_eq {sb : Superblock} {disk disk' : Nat → Block} {ino : Nat → Dinode}
    {j : Nat} (h : Consistent sb disk ino) (hj : j < sb.ninodes)
    (htj : (ino j).type ≠ 0) (hdisk : ∀ b < sb.size, ¬ isMeta sb b → disk' b = disk b) :
    content disk' (ino j) = content disk (ino j) := by
  have hblock {t : Slot} {b : Nat} (hr : ref sb disk ino (j, t) = some b) : disk' b = disk b :=
    hdisk b (h.lt_size hr) (h.not_isMeta hr)
  unfold content
  refine List.map_congr_left fun o ho => ?_
  have ho : o / BSIZE * BSIZE < (ino j).size.toNat :=
    (Nat.div_mul_le_self o BSIZE).trans_lt (List.mem_range.mp ho)
  have hslot : slotAddr disk' (ino j) (.block (o / BSIZE)) =
      slotAddr disk (ino j) (.block (o / BSIZE)) :=
    slotAddr_congr (fun _ _ => rfl) fun hd => hblock (indirect_ref hj htj hd)
  rw [fileByte, hslot, hblock (ref_eq_some.mpr ⟨hj, htj, rfl, h.filled j hj htj _ ho⟩), fileByte]

/-- The description of an inode changes, and the blocks in its slots do not. -/
theorem Consistent.update {sb : Superblock} {disk : Nat → Block} {ino : Nat → Dinode} {i : Nat}
    {d : Dinode} (h : Consistent sb disk ino)
    (href : ∀ t, ref sb disk (Function.update ino i d) (i, t) = ref sb disk ino (i, t))
    (hfilled : i < sb.ninodes → d.type ≠ 0 → ∀ bn, bn * BSIZE < d.size.toNat →
      slotAddr disk d (.block bn) ≠ 0) : Consistent sb disk (Function.update ino i d) := by
  refine ⟨h.layout, h.super, h.own.congr (fun _ _ => rfl) fun ⟨j, t⟩ => ?_, ?_⟩
  · by_cases hj : j = i
    · rw [hj]
      exact href t
    · exact ref_congr (fun _ => by rw [Function.update_of_ne hj])
        fun _ _ => by rw [Function.update_of_ne hj]
  · intro j hj ht bn hbn
    by_cases hji : j = i
    · rw [hji, Function.update_self] at ht hbn ⊢
      exact hfilled (hji ▸ hj) ht bn hbn
    · rw [Function.update_of_ne hji] at ht hbn ⊢
      exact h.filled j hj ht bn hbn

/-- The description of an inode changes, and its type, size and addresses do
not. -/
theorem Consistent.table_same {sb : Superblock} {disk : Nat → Block} {ino : Nat → Dinode}
    {i : Nat} {d : Dinode} (h : Consistent sb disk ino) (htype : d.type = (ino i).type)
    (hsize : d.size = (ino i).size) (haddr : ∀ k ≤ NDIRECT, d.addr k = (ino i).addr k) :
    Consistent sb disk (Function.update ino i d) := by
  have hslot (t : Slot) : slotAddr disk d t = slotAddr disk (ino i) t :=
    slotAddr_congr haddr fun _ => rfl
  refine h.update (fun t => ?_) fun hi ht bn hbn => ?_
  · exact ref_congr (fun _ => by rw [Function.update_self, htype])
      fun _ _ => by rw [Function.update_self, hslot]
  · rw [hslot]
    exact h.filled i hi (htype ▸ ht) bn (hsize ▸ hbn)

/-- **An update of the description** followed by `iupdate`. -/
theorem setDin_iupdate_sound (h : Sound s) (href : 0 < (s.inode c).ref)
    (hvalid : (s.inode c).valid = true) (f : Dinode → Dinode) (htype : ∀ d, (f d).type = d.type)
    (hsize : ∀ d, (f d).size = d.size) (haddr : ∀ d, (f d).addrs = d.addrs)
    {E : Panic → Prop} :
    wpE (do setDin c f; iupdate c) s (fun _ s' => Sound s') E := by
  have hcopy := h.cache.copy c href hvalid
  have hlt := h.cache.lt c href hvalid
  simp only [wpE_bind, wpE_setDin]
  generalize hs₁ : s.set c { s.inode c with din := f (s.inode c).din } = s₁
  have hself : s₁.inode c = { s.inode c with din := f (s.inode c).din } := by
    rw [← hs₁]
    exact Function.update_self _ _ _
  have hother (e : Ip) (he : e ≠ c) : s₁.inode e = s.inode e := by
    rw [← hs₁]
    exact Function.update_of_ne he _ _
  have hsb : s₁.sb = s.sb := by rw [← hs₁]; rfl
  have hino : s₁.ino c = Function.update (dinode s.sb s.disk) (s.inode c).inum
      (f (s.inode c).din) := by
    rw [State.ino, hself, ← hs₁]
    rfl
  have hcons : Consistent s₁.sb s₁.disk (s₁.ino c) := by
    rw [hino, ← hs₁]
    refine h.cons.table_same ?_ ?_ fun k _ => ?_
    · rw [hcopy, htype]
    · rw [hcopy, hsize]
    · rw [hcopy, Dinode.addr, Dinode.addr, haddr]
  have hflush : wpE (iupdate c) s₁ (fun _ s' => s' = s₁.flush c) E := iupdate_spec s₁ c
  refine hflush.mono ?_ fun _ he => he
  rintro _ _ rfl
  refine h.of_entry href hsb ?_ hother (by rw [flush_inode, hself]) ?_ ?_
  · rw [← hsb, flush_dinode]
    exact flush_consistent hcons (by rw [hself, hsb]; exact hlt)
  · intro j _ hj
    rw [← hsb, flush_dinode, hino, Function.update_of_ne hj, hsb]
  · intro _ _
    rw [flush_inode, ← hsb, flush_dinode, hino, Function.update_self, hself, hsb]
    exact ⟨hlt, by rw [htype]; exact h.cache.type c href hvalid, rfl⟩

/-! ## new inodes -/

/-- A free inode of the table gets a description without blocks. -/
theorem Consistent.table_fresh {sb : Superblock} {disk : Nat → Block} {ino : Nat → Dinode}
    {i : Nat} {d : Dinode} (h : Consistent sb disk ino) (hfree : (ino i).type = 0)
    (haddr : ∀ k ≤ NDIRECT, d.addr k = 0) (hsize : d.size = 0) :
    Consistent sb disk (Function.update ino i d) := by
  refine h.update (fun t => ?_) fun _ _ bn hbn => ?_
  · -- no slot before, as the inode was free, and none now
    unfold ref
    rw [if_neg, if_neg fun hc => hc.2.1 hfree]
    rintro ⟨-, -, hne⟩
    rw [Function.update_self, slotAddr_eq_zero haddr] at hne
    exact hne rfl
  · rw [hsize] at hbn
    exact absurd hbn (Nat.not_lt_zero _)

/-- An inode without blocks becomes free. -/
theorem Consistent.table_free {sb : Superblock} {disk : Nat → Block} {ino : Nat → Dinode}
    {i : Nat} {d : Dinode} (h : Consistent sb disk ino)
    (haddr : ∀ k ≤ NDIRECT, (ino i).addr k = 0) (htype : d.type = 0) :
    Consistent sb disk (Function.update ino i d) := by
  refine h.update (fun t => ?_) fun _ ht => absurd htype ht
  -- no slot before, as there are no blocks, and none now
  unfold ref
  rw [if_neg fun hc => hc.2.1 (by rw [Function.update_self, htype]), if_neg]
  rintro ⟨-, -, hne⟩
  rw [slotAddr_eq_zero haddr] at hne
  exact hne rfl

/-- **A new inode on the disk**, in the place of a free one. -/
theorem Sound.write_fresh (h : Sound s) {i : Nat} (hi : i < s.sb.ninodes)
    (hfree : (dinode s.sb s.disk i).type = 0) (type : Int16) :
    Sound (s.write (IBLOCK i s.sb)
      (putDinode (s.disk (IBLOCK i s.sb)) (i % IPB) (Dinode.fresh type))) := by
  have htable : dinode s.sb (Function.update s.disk (IBLOCK i s.sb)
      (putDinode (s.disk (IBLOCK i s.sb)) (i % IPB) (Dinode.fresh type))) =
      Function.update (dinode s.sb s.disk) i (Dinode.fresh type) := by
    funext j
    rw [dinode_putDinode, Function.update_apply]
  constructor
  · simp only [State.write_sb, State.write_disk]
    rw [htable]
    exact (h.cons.write_iblock hi _).table_fresh hfree
      (fun k _ => by unfold Dinode.addr Dinode.fresh; split <;> rfl) rfl
  · refine ⟨h.cache.uniq, h.cache.lt, h.cache.type, fun e he hv => ?_⟩
    -- no valid entry has the inode, as it was free
    have hne : (s.inode e).inum ≠ i := by
      intro hei
      have hcopy := h.cache.copy e he hv
      rw [hei] at hcopy
      exact h.cache.type e he hv (hcopy ▸ hfree)
    simp only [State.write_sb, State.write_disk, State.write_inode]
    rw [htable, Function.update_of_ne hne]
    exact h.cache.copy e he hv

theorem iallocIn_sound (h : Sound s) (type : Int16) {inums : List Nat}
    (hlt : ∀ i ∈ inums, i < s.sb.ninodes) :
    wpE (iallocIn type inums) s (fun c s' => Sound s' ∧ 0 < (s'.inode c).ref)
      fun e => e = .iallocNoInodes ∨ e = .igetNoInodes := by
  induction inums with
  | nil => exact .inl rfl
  | cons i inums ih =>
      simp only [iallocIn, wpE_bind, wpE_get, wpE_bread]
      split
      · next hfree =>
        simp only [wpE_bind, wpE_logWrite]
        refine (iget_sound (h.write_fresh (hlt i List.mem_cons_self) hfree type) i).mono ?_
          fun _ he => Or.inr he
        exact fun _ _ hq => ⟨hq.1, hq.2.1⟩
      · exact ih fun j hj => hlt j (List.mem_cons_of_mem i hj)

/-- **`ialloc`** allocates an inode and returns an entry for it. -/
theorem ialloc_sound (h : Sound s) (type : Int16) :
    wpE (ialloc type) s (fun c s' => Sound s' ∧ 0 < (s'.inode c).ref)
      fun e => e = .iallocNoInodes ∨ e = .igetNoInodes := by
  simp only [ialloc, wpE_bind, wpE_get]
  refine iallocIn_sound h type fun i hi => ?_
  rw [List.mem_range'_1] at hi
  omega

/-! ## directories -/

theorem readDirent_spec (h : Held s c) (hdir : (s.inode c).din.type = T_DIR) (off : Nat) :
    wpE (readDirent c off) s (fun _ s' => s' = s) (· = .dirlinkRead) := by
  refine wpE_bind_of (readi_spec h (by rw [hdir]; decide)) ?_
  rintro ⟨r, bytes⟩ _ ⟨rfl, -⟩
  dsimp only
  split
  · exact wpE_pure.mpr rfl
  · exact wpE_throw.mpr rfl

theorem lookupIn_sound (h : Sound s) (hheld : Held s c) (hdir : (s.inode c).din.type = T_DIR)
    (name : Nat → UInt8) (offs : List Nat) :
    wpE (lookupIn c name offs) s
      (fun r s' => (r = none ∧ s' = s) ∨
        ∃ off e, r = some (off, e) ∧ Sound s' ∧ 0 < (s'.inode e).ref)
      fun e => e = .dirlinkRead ∨ e = .igetNoInodes := by
  induction offs with
  | nil => exact wpE_pure.mpr (.inl ⟨rfl, rfl⟩)
  | cons off offs ih =>
      refine wpE_bind_of ((readDirent_spec hheld hdir off).mono (fun _ _ hq => hq)
        fun _ he => Or.inl he) ?_
      rintro de _ rfl
      split
      · exact ih
      · split
        · refine wpE_bind_of ((iget_sound h de.inum).mono (fun _ _ hq => hq)
            fun _ he => Or.inr he) ?_
          intro e s₁ hq
          exact wpE_pure.mpr (.inr ⟨off, e, rfl, hq.1, hq.2.1⟩)
        · exact ih

theorem emptyIn_spec (h : Held s c) (hdir : (s.inode c).din.type = T_DIR) (stop : Nat)
    (offs : List Nat) :
    wpE (emptyIn c stop offs) s (fun _ s' => s' = s) (· = .dirlinkRead) := by
  induction offs with
  | nil => exact wpE_pure.mpr rfl
  | cons off offs ih =>
      refine wpE_bind_of (readDirent_spec h hdir off) ?_
      rintro de _ rfl
      split
      · exact wpE_pure.mpr rfl
      · exact ih

/-- **`dirlink`** on a locked directory: a lookup, and either `iput` of what it
found or `writei` of the entry. -/
theorem dirlink_sound (h : Sound s) (href : 0 < (s.inode c).ref)
    (hvalid : (s.inode c).valid = true) (name : Nat → UInt8) (inum : Nat) :
    wpE (dirlink c name inum) s (fun _ s' => Sound s') (· ≠ .freeingFreeBlock) := by
  have hheld := h.held href hvalid
  by_cases hdir : (s.inode c).din.type = T_DIR
  · have hlookup : wpE (dirlookup c name) s
        (fun r s' => (r = none ∧ s' = s) ∨
          ∃ off e, r = some (off, e) ∧ Sound s' ∧ 0 < (s'.inode e).ref)
        (· ≠ .freeingFreeBlock) := by
      simp only [dirlookup, wpE_bind, wpE_get]
      rw [if_pos hdir]
      refine (lookupIn_sound h hheld hdir name _).mono (fun _ _ hq => hq) ?_
      rintro _ (rfl | rfl) <;> decide
    refine wpE_bind_of hlookup ?_
    rintro _ s₁ (⟨rfl, rfl⟩ | ⟨off, e, rfl, hs₁, he⟩)
    · simp only [wpE_bind, wpE_get]
      refine ((emptyIn_spec hheld hdir _ _).mono ?_ ?_)
      · rintro off _ rfl
        refine (writei_sound h href hvalid _ _ _).mono ?_ ?_
        · intro r s₂ hs₂
          split
          · exact wpE_pure.mpr hs₂
          · exact wpE_throw.mpr (by decide)
        · rintro _ rfl
          decide
      · rintro _ rfl
        decide
    · simp only [wpE_bind]
      refine (iput_sound hs₁ he).mono (fun _ _ hs₂ => wpE_pure.mpr hs₂) ?_
      rintro _ rfl
      decide
  · simp only [dirlink, dirlookup, wpE_bind, wpE_get]
    rw [if_neg hdir]
    exact wpE_throw.mpr (by decide)

end Xv6.Fs
