import Xv6.Fs.Bmap

/-!
# Xv6.Fs.Content

`writei` and `readi` on a consistent file system, byte by byte.

`Written` says what a write of `n` bytes at `off` leaves: the bytes
`off .. off + n - 1` of the file are those of the source, every other byte of
this and of all other files is as before, the size is the larger of the old
size and `off + n`, and the inode on the disk is the one in memory.  The loop of
`writei` stops at block boundaries; one pass is `Held.store`.
-/

namespace Xv6.Fs

open Words

variable {s s' : State} {c : Ip} {b bn : Nat} {need : Finset (Nat × Slot)}

/-! ## storing into a block of the file -/

/-- The table of inodes does not change when a block of a file is written. -/
theorem Held.ino_write (h : Held s c) {x : Nat × Slot} (hr : s.ref c x = some b) (data : Block)
    {j : Nat} (hj : j < s.sb.ninodes) : (s.write b data).ino c j = s.ino c j := by
  by_cases he : j = (s.inode c).inum
  · subst he
    rw [State.ino_self, show (s.inode c).inum = ((s.write b data).inode c).inum from rfl,
      State.ino_self]
    rfl
  · rw [State.ino_of_ne _ c (by exact he), State.ino_of_ne _ c he]
    exact h.cons.dinode_write hr data hj

theorem Held.ref_write (h : Held s c) {j : Nat} (hr : s.ref c (j, .block bn) = some b)
    (data : Block) (x : Nat × Slot) : (s.write b data).ref c x = s.ref c x :=
  ref_congr (fun hi => by rw [h.ino_write hr data hi]) fun hi hti => by
    rw [h.ino_write hr data hi]
    exact h.cons.slotAddr_write hr data hi hti

theorem Held.write (h : Held s c) {j : Nat} (hr : s.ref c (j, .block bn) = some b)
    (data : Block) : Held (s.write b data) c where
  cons := (h.cons.write hr data).congr rfl (fun _ _ => rfl) (fun _ hi => h.ino_write hr data hi)
    fun _ _ _ _ => rfl
  inum_lt := h.inum_lt
  type_ne := h.type_ne

theorem Held.grown_write (h : Held s c) {j : Nat} (hr : s.ref c (j, .block bn) = some b)
    (data : Block) : Grown c need s (s.write b data) where
  sb := rfl
  devsw := rfl
  other := fun _ _ => rfl
  self := ⟨_, rfl⟩
  dinode := fun _ hi => h.cons.dinode_write hr data hi
  ref := fun x e hx => by rw [h.ref_write hr]; exact hx
  slack := slack_congr (fun e he => h.cons.busy_write hr data (Finset.mem_range.mp he))
    fun x _ => h.ref_write hr data x

theorem div_eq_of_in_block {off o m : Nat} (hm : off % BSIZE + m ≤ BSIZE) (hle : off ≤ o)
    (hlt : o < off + m) : o / BSIZE = off / BSIZE := by
  simp only [BSIZE] at *
  omega

theorem in_block_iff {off o m : Nat} (hdiv : o / BSIZE = off / BSIZE) :
    off % BSIZE ≤ o % BSIZE ∧ o % BSIZE < off % BSIZE + m ↔ off ≤ o ∧ o < off + m := by
  simp only [BSIZE] at *
  omega

/-- **One pass of the loop** of `writei`: `m` bytes go to offset `off` of the
file, inside one block. -/
theorem Held.cell_store (h : Held s c) {i off m : Nat} (src : Nat → UInt8)
    (hr : s.ref c (i, .block (off / BSIZE)) = some b) (hm : off % BSIZE + m ≤ BSIZE) (j o : Nat) :
    (s.write b (store (s.disk b) (off % BSIZE) src m)).cell c j o =
      if j = i ∧ off ≤ o ∧ o < off + m then some (src (o - off)) else s.cell c j o := by
  have hlt : o % BSIZE < BSIZE := Nat.mod_lt _ (by decide)
  unfold State.cell
  rw [h.ref_write hr]
  cases he : s.ref c (j, .block (o / BSIZE)) with
  | none =>
      rw [if_neg]
      · rfl
      · rintro ⟨rfl, hle, hlt'⟩
        rw [div_eq_of_in_block hm hle hlt', hr] at he
        exact absurd he (by simp)
  | some e =>
      simp only [Option.map_some, State.write_disk]
      by_cases heb : e = b
      · -- the block belongs to one slot: `j` is the file and `o` is in the block
        subst heb
        obtain ⟨rfl, hbn⟩ : j = i ∧ o / BSIZE = off / BSIZE := by
          simpa using h.cons.own.inj he hr
        rw [Function.update_self, get_store _ _ hlt]
        split
        · next hc =>
          have hsub : o % BSIZE - off % BSIZE = o - off := by
            simp only [BSIZE] at *
            omega
          rw [if_pos ⟨rfl, (in_block_iff hbn).mp hc⟩, hsub]
        · next hc => rw [if_neg fun hc' => hc ((in_block_iff hbn).mpr hc'.2)]
      · rw [Function.update_of_ne heb, if_neg]
        rintro ⟨rfl, hle, hlt'⟩
        rw [div_eq_of_in_block hm hle hlt', hr] at he
        exact heb (Option.some.inj he).symm

/-! ## the loop of `writei` -/

/-- The bytes `off .. off + n - 1` of inode `i` are those of `src`, and every
other byte that was there is as before. -/
structure Stored (c : Ip) (i : Nat) (src : Nat → UInt8) (off n : Nat) (s s' : State) : Prop where
  new : ∀ o, off ≤ o → o < off + n → s'.cell c i o = some (src (o - off))
  old : ∀ j o v, ¬ (j = i ∧ off ≤ o ∧ o < off + n) → s.cell c j o = some v →
    s'.cell c j o = some v

/-- The slots for the bytes `off .. off + n - 1` of the inode in entry `c` are
among those in `need`. -/
def Needs (s : State) (c : Ip) (need : Finset (Nat × Slot)) (off n : Nat) : Prop :=
  ∀ bn, off / BSIZE ≤ bn → bn * BSIZE < off + n → ((s.inode c).inum, .block bn) ∈ need ∧
    (NDIRECT ≤ bn → ((s.inode c).inum, .indirect) ∈ need)

/-- What the loop of `writei` leaves. -/
structure Looped (c : Ip) (need : Finset (Nat × Slot)) (src : Nat → UInt8) (off n : Nat)
    (s s' : State) : Prop where
  held : Held s' c
  grown : Grown c need s s'
  stored : Stored c (s.inode c).inum src off n s s'
  /-- a write below the size allocates nothing -/
  same : off + n ≤ (s.inode c).din.size.toNat → s'.inode c = s.inode c

theorem Held.slotAddr_ne_zero (h : Held s c) (hbn : bn * BSIZE < (s.inode c).din.size.toNat) :
    slotAddr s.disk (s.inode c).din (.block bn) ≠ 0 := by
  have := h.cons.filled (s.inode c).inum h.inum_lt h.type_ino bn
  rw [s.ino_self] at this
  exact this hbn

theorem looped_zero (h : Held s c) (src : Nat → UInt8) (off : Nat) :
    Looped c need src off 0 s s where
  held := h
  grown := Grown.refl c need s
  stored := ⟨fun o _ _ => by omega, fun _ _ _ _ hv => hv⟩
  same := fun _ => rfl

/-- A pass followed by the rest of the loop. -/
theorem Stored.cons {i off m n : Nat} {src : Nat → UInt8} {s₁ s₂ s₃ : State} (hmn : m ≤ n)
    (hkept : Kept c s s₁)
    (hcell : ∀ j o, s₂.cell c j o =
      if j = i ∧ off ≤ o ∧ o < off + m then some (src (o - off)) else s₁.cell c j o)
    (hrest : Stored c i (fun k => src (m + k)) (off + m) (n - m) s₂ s₃) :
    Stored c i src off n s s₃ where
  new := by
    intro o hle hlt
    by_cases ho : o < off + m
    · refine hrest.old i o _ (by omega) ?_
      rw [hcell, if_pos ⟨rfl, hle, ho⟩]
    · rw [hrest.new o (by omega) (by omega), show m + (o - (off + m)) = o - off by omega]
  old := by
    intro j o v hn hv
    refine hrest.old j o v (fun hc => hn ⟨hc.1, by omega, by omega⟩) ?_
    rw [hcell, if_neg fun hc => hn ⟨hc.1, hc.2.1, by omega⟩]
    exact hkept j o v hv

/-- The bytes of one stretch of the loop and of the next. -/
theorem Looped.trans {src : Nat → UInt8} {off m n : Nat} {s₁ s₂ : State}
    (h : Looped c need src off m s s₁)
    (h' : Looped c need (fun k => src (m + k)) (off + m) n s₁ s₂) :
    Looped c need src off (m + n) s s₂ where
  held := h'.held
  grown := h.grown.trans h'.grown
  stored :=
    { new := by
        intro o hle hlt
        have hnew := h'.stored
        rw [h.grown.inum] at hnew
        by_cases ho : o < off + m
        · exact hnew.old _ o _ (by omega) (h.stored.new o hle ho)
        · rw [hnew.new o (by omega) (by omega), show m + (o - (off + m)) = o - off by omega]
      old := by
        intro j o v hn hv
        have hold := h'.stored
        rw [h.grown.inum] at hold
        exact hold.old j o v (fun hc => hn ⟨hc.1, by omega, by omega⟩)
          (h.stored.old j o v (fun hc => hn ⟨hc.1, by omega, by omega⟩) hv) }
  same := fun hle => by
    have hsame := h.same (by omega)
    rw [h'.same (by rw [hsame]; omega), hsame]

theorem writeLoop_spec {fuel : Nat} {src : Nat → UInt8} {off n : Nat} (h : Held s c)
    (hfuel : n ≤ fuel) (hmax : off + n ≤ MAXFILE * BSIZE) (hneed : Needs s c need off n) :
    wpE (writeLoop c fuel src off n) s (fun _ s' => Looped c need src off n s s')
      fun e => e = .ballocOutOfBlocks ∧ s.slack c need < 0 := by
  induction fuel generalizing s src off n with
  | zero =>
      obtain rfl : n = 0 := by omega
      exact looped_zero h src off
  | succ fuel ih =>
      rw [writeLoop]
      split
      · next hn =>
        subst hn
        exact looped_zero h src off
      · next hn =>
        generalize hm : min n (BSIZE - off % BSIZE) = m
        have hmod : off % BSIZE < BSIZE := Nat.mod_lt _ (by decide)
        have hmle : off % BSIZE + m ≤ BSIZE := by omega
        have hbnoff : off / BSIZE * BSIZE ≤ off := Nat.div_mul_le_self off BSIZE
        have hbn : off / BSIZE < MAXFILE := Nat.div_lt_of_lt_mul (by rw [Nat.mul_comm]; omega)
        obtain ⟨hblock, hind⟩ := hneed (off / BSIZE) le_rfl (by omega)
        refine wpE_bind_of (bmap_spec h hbn hblock hind) fun b s₁ h₁ => ?_
        simp only [wpE_bind, wpE_bread, wpE_logWrite]
        generalize hs₂ : s₁.write b (store (s₁.disk b) (off % BSIZE) src m) = s₂
        have hg : Grown c need s s₂ := hs₂ ▸ h₁.grown.trans (h₁.held.grown_write h₁.ref _)
        have hcell (j o : Nat) : s₂.cell c j o =
            if j = (s.inode c).inum ∧ off ≤ o ∧ o < off + m then some (src (o - off))
            else s₁.cell c j o := hs₂ ▸ h₁.held.cell_store src h₁.ref hmle j o
        have hneed₂ : Needs s₂ c need (off + m) (n - m) := by
          intro bn hle hlt
          rw [hg.inum]
          have hdiv : off / BSIZE ≤ (off + m) / BSIZE := Nat.div_le_div_right (by omega)
          exact hneed bn (hdiv.trans hle) (by omega)
        refine (ih (hs₂ ▸ h₁.held.write h₁.ref _) (by omega) (by omega) hneed₂).mono ?_ ?_
        · intro _ s₃ h₃
          refine ⟨h₃.held, hg.trans h₃.grown, ?_, fun hle => ?_⟩
          · have hrest := h₃.stored
            rw [hg.inum] at hrest
            exact hrest.cons (by omega) h₁.kept hcell
          · -- the block is there already, so `bmap` changes nothing
            have hs₁ : s₁ = s := h₁.same (h.slotAddr_ne_zero (by omega))
            rw [h₃.same (by rw [hg.size]; omega), ← hs₂, hs₁]
            rfl
        · rintro e ⟨he, hneg⟩
          exact ⟨he, hg.slack ▸ hneg⟩

/-! ## `iupdate` -/

/-- The state that `iupdate` leaves. -/
def State.flush (s : State) (c : Ip) : State :=
  s.write (IBLOCK (s.inode c).inum s.sb)
    (putDinode (s.disk (IBLOCK (s.inode c).inum s.sb)) ((s.inode c).inum % IPB) (s.inode c).din)

/-- The table on the disk becomes the table with the entry's copy. -/
theorem flush_dinode (s : State) (c : Ip) : dinode s.sb (s.flush c).disk = s.ino c := by
  funext j
  rw [State.flush, State.write_disk, dinode_putDinode, State.ino, Function.update_apply]

theorem flush_ino (s : State) (c : Ip) : (s.flush c).ino c = s.ino c := by
  funext j
  have : (s.flush c).ino c = Function.update (dinode s.sb (s.flush c).disk) (s.inode c).inum
    (s.inode c).din := rfl
  rw [this, flush_dinode, State.ino, Function.update_idem]

section Flush

variable (hcons : Consistent s.sb s.disk (s.ino c)) (hlt : (s.inode c).inum < s.sb.ninodes)
include hcons hlt

theorem flush_disk {x : Nat × Slot} (hr : s.ref c x = some b) : (s.flush c).disk b = s.disk b :=
  Function.update_of_ne
    (ne_of_isMeta (hcons.layout.isMeta_IBLOCK hlt) (hcons.not_isMeta hr)).symm _ _

theorem flush_busy (e : Nat) : busy s.sb (s.flush c).disk e = busy s.sb s.disk e :=
  busy_write_of_ne (hcons.layout.IBLOCK_ne_BBLOCK hlt e).symm

theorem flush_slotAddr {j : Nat} (hj : j < s.sb.ninodes) (htj : (s.ino c j).type ≠ 0) (t : Slot) :
    slotAddr (s.flush c).disk (s.ino c j) t = slotAddr s.disk (s.ino c j) t :=
  slotAddr_congr (fun _ _ => rfl) fun hd =>
    flush_disk hcons hlt (Consistent.indirect_ref hj htj hd)

theorem flush_ref (x : Nat × Slot) : (s.flush c).ref c x = s.ref c x :=
  ref_congr (fun _ => by rw [flush_ino]) fun hj htj => by
    rw [flush_ino]
    exact flush_slotAddr hcons hlt hj htj _

theorem flush_cell (j o : Nat) : (s.flush c).cell c j o = s.cell c j o := by
  unfold State.cell
  rw [flush_ref hcons hlt]
  cases he : s.ref c (j, .block (o / BSIZE)) with
  | none => rfl
  | some e => rw [Option.map_some, Option.map_some, flush_disk hcons hlt he]

theorem flush_consistent : Consistent s.sb (s.flush c).disk (s.ino c) :=
  hcons.write_iblock hlt _

end Flush

@[simp] theorem flush_sb (s : State) (c : Ip) : (s.flush c).sb = s.sb := rfl

@[simp] theorem flush_inode (s : State) (c : Ip) : (s.flush c).inode = s.inode := rfl

theorem flush_slack (hcons : Consistent s.sb s.disk (s.ino c))
    (hlt : (s.inode c).inum < s.sb.ninodes) : (s.flush c).slack c need = s.slack c need :=
  slack_congr (fun e _ => flush_busy hcons hlt e) fun x _ => flush_ref hcons hlt x

theorem Held.flush (h : Held s c) : Held (s.flush c) c where
  cons := by
    rw [flush_ino, flush_sb]
    exact flush_consistent h.cons h.inum_lt
  inum_lt := h.inum_lt
  type_ne := h.type_ne

/-! ## a larger size -/

/-- The state after the size in memory was changed. -/
def State.resize (s : State) (c : Ip) (size : UInt32) : State :=
  s.set c { s.inode c with din := { (s.inode c).din with size := size } }

theorem resize_inode_self (s : State) (c : Ip) (size : UInt32) :
    (s.resize c size).inode c =
      { s.inode c with din := { (s.inode c).din with size := size } } :=
  Function.update_self _ _ _

theorem resize_ino (s : State) (c : Ip) (size : UInt32) (j : Nat) :
    (s.resize c size).ino c j =
      if j = (s.inode c).inum then { (s.inode c).din with size := size } else s.ino c j := by
  unfold State.ino
  rw [resize_inode_self, Function.update_apply]
  split
  · rfl
  · next h => rw [Function.update_of_ne h]; rfl

/-- The slots do not depend on the size. -/
theorem resize_slotAddr (s : State) (c : Ip) (size : UInt32) (j : Nat) (t : Slot) :
    slotAddr s.disk ((s.resize c size).ino c j) t = slotAddr s.disk (s.ino c j) t := by
  rw [resize_ino]
  split
  · next h =>
    rw [h, s.ino_self]
    exact slotAddr_congr (fun _ _ => rfl) fun _ => rfl
  · rfl

theorem resize_type (s : State) (c : Ip) (size : UInt32) (j : Nat) :
    ((s.resize c size).ino c j).type = (s.ino c j).type := by
  rw [resize_ino]
  split
  · next h => rw [h, s.ino_self]
  · rfl

theorem resize_ref (s : State) (c : Ip) (size : UInt32) (x : Nat × Slot) :
    (s.resize c size).ref c x = s.ref c x :=
  ref_congr (fun _ => resize_type s c size x.1) fun _ _ => resize_slotAddr s c size x.1 x.2

theorem resize_cell (s : State) (c : Ip) (size : UInt32) (j o : Nat) :
    (s.resize c size).cell c j o = s.cell c j o := by
  unfold State.cell
  rw [resize_ref]
  rfl

theorem resize_slack (s : State) (c : Ip) (size : UInt32) :
    (s.resize c size).slack c need = s.slack c need :=
  slack_congr (fun _ _ => rfl) fun x _ => resize_ref s c size x

theorem Held.resize (h : Held s c) {size : UInt32}
    (hcov : ∀ o < size.toNat, (s.cell c (s.inode c).inum o).isSome) : Held (s.resize c size) c where
  cons :=
    { layout := h.cons.layout
      super := h.cons.super
      own := h.cons.own.congr (fun _ _ => rfl) (resize_ref s c size)
      filled := by
        intro j hj htj bn hbn
        rw [resize_type] at htj
        have hgoal : slotAddr s.disk (s.ino c j) (.block bn) ≠ 0 := by
          rw [resize_ino] at hbn
          split at hbn
          · next he =>
            -- the first byte of the block is there
            obtain ⟨v, hv⟩ := Option.isSome_iff_exists.mp (hcov _ hbn)
            obtain ⟨e, hr, -⟩ := Option.map_eq_some_iff.mp hv
            rw [Nat.mul_div_cancel bn (by decide)] at hr
            obtain ⟨-, -, hslot, hne⟩ := ref_eq_some.mp hr
            rw [he, hslot]
            exact hne
          · exact h.cons.filled j hj htj bn hbn
        rw [← resize_slotAddr s c size] at hgoal
        exact hgoal }
  inum_lt := by
    rw [resize_inode_self]
    exact h.inum_lt
  type_ne := by
    rw [resize_inode_self]
    exact h.type_ne

theorem Held.cell_isSome (h : Held s c) {o : Nat} (ho : o < (s.inode c).din.size.toNat) :
    (s.cell c (s.inode c).inum o).isSome := by
  have hne := h.slotAddr_ne_zero ((Nat.div_mul_le_self o BSIZE).trans_lt ho)
  have hr : s.ref c ((s.inode c).inum, .block (o / BSIZE)) =
      some (slotAddr s.disk (s.inode c).din (.block (o / BSIZE))) :=
    ref_eq_some.mpr ⟨h.inum_lt, h.type_ino, by rw [s.ino_self], hne⟩
  rw [State.cell, hr]
  rfl

/-! ## `writei` -/

/-- What a write of `n` bytes at `off` leaves. -/
structure Written (c : Ip) (need : Finset (Nat × Slot)) (src : Nat → UInt8) (off n : Nat)
    (s s' : State) : Prop where
  held : Held s' c
  /-- the inode on the disk is the one in memory -/
  synced : dinode s.sb s'.disk (s.inode c).inum = (s'.inode c).din
  sb : s'.sb = s.sb
  devsw : s'.devsw = s.devsw
  other : ∀ e, e ≠ c → s'.inode e = s.inode e
  self : ∃ a, s'.inode c = { s.inode c with din := { (s.inode c).din with
    addrs := a, size := UInt32.ofNat (max (s.inode c).din.size.toNat (off + n)) } }
  dinode : ∀ j < s.sb.ninodes, j ≠ (s.inode c).inum → dinode s.sb s'.disk j = dinode s.sb s.disk j
  slack : s'.slack c need = s.slack c need
  stored : Stored c (s.inode c).inum src off n s s'

/-- The end of `writei` when the file does not get larger. -/
theorem Looped.written_same {src : Nat → UInt8} {off n : Nat} (h : Looped c need src off n s s')
    (hsync : Fs.dinode s.sb s.disk (s.inode c).inum = (s.inode c).din)
    (hlt : (s.inode c).inum < s.sb.ninodes)
    (hle : off + n ≤ (s.inode c).din.size.toNat) : Written c need src off n s s' where
  held := h.held
  synced := by rw [h.grown.dinode _ hlt, hsync, h.same hle]
  sb := h.grown.sb
  devsw := h.grown.devsw
  other := h.grown.other
  self := ⟨(s.inode c).din.addrs, by rw [h.same hle, max_eq_left hle, UInt32.ofNat_toNat]⟩
  dinode := fun j hj _ => h.grown.dinode j hj
  slack := h.grown.slack
  stored := h.stored

/-- The end of `writei` when the file gets larger. -/
theorem Looped.written_grow {src : Nat → UInt8} {off n : Nat} (h : Looped c need src off n s s')
    (h0 : Held s c) (hoff : off ≤ (s.inode c).din.size.toNat)
    (hlt : (s.inode c).din.size.toNat < off + n) (h32 : off + n < 2 ^ 32) :
    Written c need src off n s ((s'.resize c (UInt32.ofNat (off + n))).flush c) := by
  have hsize : (UInt32.ofNat (off + n)).toNat = off + n := UInt32.toNat_ofNat_of_lt' h32
  generalize hz : UInt32.ofNat (off + n) = size at hsize ⊢
  have hcov : ∀ o < size.toNat, (s'.cell c (s'.inode c).inum o).isSome := by
    intro o ho
    rw [h.grown.inum]
    by_cases hin : off ≤ o
    · rw [h.stored.new o hin (by omega)]
      rfl
    · obtain ⟨v, hv⟩ := Option.isSome_iff_exists.mp (h0.cell_isSome (show o < _ by omega))
      rw [h.stored.old _ _ v (by omega) hv]
      rfl
  have hres : Held (s'.resize c size) c := h.held.resize hcov
  have hsb : (s'.resize c size).sb = s.sb := h.grown.sb
  have hinum : ((s'.resize c size).inode c).inum = (s.inode c).inum := by
    rw [resize_inode_self]
    exact h.grown.inum
  have hdin : dinode s.sb ((s'.resize c size).flush c).disk = (s'.resize c size).ino c := by
    rw [← hsb]
    exact flush_dinode _ c
  have hcell (j o : Nat) :
      ((s'.resize c size).flush c).cell c j o = s'.cell c j o := by
    rw [flush_cell hres.cons hres.inum_lt, resize_cell]
  exact
    { held := hres.flush
      synced := by
        rw [hdin, ← hinum]
        exact State.ino_self _ c
      sb := hsb
      devsw := h.grown.devsw
      other := fun e he => (Function.update_of_ne he _ _).trans (h.grown.other e he)
      self := by
        obtain ⟨a, ha⟩ := h.grown.self
        refine ⟨a, ?_⟩
        rw [max_eq_right hlt.le, hz, flush_inode, resize_inode_self, ha]
      dinode := fun j hj hne => by
        rw [hdin, resize_ino, if_neg (by rw [h.grown.inum]; exact hne),
          s'.ino_of_ne c (by rw [h.grown.inum]; exact hne), h.grown.sb, h.grown.dinode j hj]
      slack := by
        rw [flush_slack hres.cons hres.inum_lt, resize_slack, h.grown.slack]
      stored :=
        { new := fun o hle hlt => by rw [hcell]; exact h.stored.new o hle hlt
          old := fun j o v hn hv => by rw [hcell]; exact h.stored.old j o v hn hv } }

theorem add_lt_left_iff (off n : UInt32) : off + n < off ↔ 2 ^ 32 ≤ off.toNat + n.toNat := by
  have h1 := off.toNat_lt
  have h2 := n.toNat_lt
  rw [UInt32.lt_iff_toNat_lt, UInt32.toNat_add]
  omega

theorem toNat_add_of_lt {off n : UInt32} (h : off.toNat + n.toNat < 2 ^ 32) :
    (off + n).toNat = off.toNat + n.toNat := by
  rw [UInt32.toNat_add, Nat.mod_eq_of_lt h]

/-- A count below `2 ^ 31` is returned as it is. -/
theorem toInt_toInt32_of_lt {n : UInt32} (h : n.toNat < 2 ^ 31) : n.toInt32.toInt = n.toNat := by
  have hbv : n.toInt32.toInt = n.toBitVec.toInt := rfl
  rw [hbv, BitVec.toInt_eq_toNat_of_lt (by rw [UInt32.toNat_toBitVec]; omega), UInt32.toNat_toBitVec]

/-- The count to which `readi` cuts a request down. -/
theorem toNat_clamp {size off n : UInt32} (hle : off.toNat ≤ size.toNat)
    (hlt : off.toNat + n.toNat < 2 ^ 32) :
    (if size < off + n then size - off else n).toNat = min n.toNat (size.toNat - off.toNat) := by
  split
  · next h =>
    rw [UInt32.lt_iff_toNat_lt, toNat_add_of_lt hlt] at h
    rw [UInt32.toNat_sub_of_le _ _ (UInt32.le_iff_toNat_le.mpr hle)]
    omega
  · next h =>
    rw [UInt32.lt_iff_toNat_lt, toNat_add_of_lt hlt] at h
    omega

/-- The requests that `writei` refuses on a file of `size` bytes: the offset is
beyond the end, `off + n` wraps, or the file would be too large. -/
def WriteRefused (size : Nat) (off n : UInt32) : Prop :=
  size < off.toNat ∨ 2 ^ 32 ≤ off.toNat + n.toNat ∨ MAXFILE * BSIZE < off.toNat + n.toNat

instance (size : Nat) (off n : UInt32) : Decidable (WriteRefused size off n) := by
  unfold WriteRefused
  infer_instance

theorem growTo_spec {src : Nat → UInt8} {off n : UInt32}
    (h : Looped c need src off.toNat n.toNat s s') (h0 : Held s c)
    (hsync : dinode s.sb s.disk (s.inode c).inum = (s.inode c).din)
    (hoff : off.toNat ≤ (s.inode c).din.size.toNat) (h32 : off.toNat + n.toNat < 2 ^ 32)
    {E : Panic → Prop} :
    wpE (growTo c n (off + n)) s' (fun _ t => Written c need src off.toNat n.toNat s t) E := by
  have hadd := toNat_add_of_lt h32
  simp only [growTo, wpE_bind, wpE_get, UInt32.lt_iff_toNat_lt, h.grown.size, hadd]
  split
  · next hc =>
    simp only [wpE_bind, wpE_setDin]
    have hw := h.written_grow h0 hoff hc.2 h32
    rw [← hadd, UInt32.ofNat_toNat] at hw
    exact (iupdate_spec _ c).mono (fun _ _ ht => ht ▸ hw) fun _ he => he
  · next hc =>
    refine wpE_pure.mpr (h.written_same hsync h0.inum_lt ?_)
    have hzero : (0 : UInt32).toNat = 0 := rfl
    omega

/-- **`writei`** refuses a request without a change, or performs it. -/
theorem writei_spec (h : Held s c) (hsync : dinode s.sb s.disk (s.inode c).inum = (s.inode c).din)
    (hdev : (s.inode c).din.type ≠ T_DEV) {src : Nat → UInt8} {off n : UInt32}
    (hneed : ¬ WriteRefused (s.inode c).din.size.toNat off n → Needs s c need off.toNat n.toNat) :
    wpE (writei c src off n) s
      (fun r s' => (WriteRefused (s.inode c).din.size.toNat off n ∧ r = -1 ∧ s' = s) ∨
        (¬ WriteRefused (s.inode c).din.size.toNat off n ∧ r = n.toInt32 ∧
          Written c need src off.toNat n.toNat s s'))
      fun e => e = .ballocOutOfBlocks ∧ ¬ WriteRefused (s.inode c).din.size.toNat off n ∧
        s.slack c need < 0 := by
  simp only [writei, wpE_bind, wpE_get]
  rw [if_neg hdev]
  simp only [add_lt_left_iff]
  simp only [UInt32.lt_iff_toNat_lt]
  split
  · next hbad => exact wpE_pure.mpr (.inl ⟨hbad.elim .inl fun hw => .inr (.inl hw), rfl, rfl⟩)
  · next hok =>
    rw [not_or, Nat.not_lt, Nat.not_le] at hok
    rw [toNat_add_of_lt hok.2]
    split
    · next hmax => exact wpE_pure.mpr (.inl ⟨.inr (.inr hmax), rfl, rfl⟩)
    · next hmax =>
      have hok' : ¬ WriteRefused (s.inode c).din.size.toNat off n := by
        unfold WriteRefused
        omega
      refine wpE_bind.mpr ((writeLoop_spec h le_rfl (by omega) (hneed hok')).mono ?_ ?_)
      · intro _ s₁ h₁
        refine wpE_bind_of (growTo_spec h₁ h hsync hok.1 hok.2) fun _ s₂ h₂ => ?_
        exact wpE_pure.mpr (.inr ⟨hok', rfl, h₂⟩)
      · rintro e ⟨he, hneg⟩
        exact ⟨he, hok', hneg⟩

/-! ## `readi` -/

/-- Byte `o` of a file. -/
def fileByte (disk : Nat → Block) (d : Dinode) (o : Nat) : UInt8 :=
  Words.get (disk (slotAddr disk d (.block (o / BSIZE)))) (o % BSIZE)

/-- The contents of a file. -/
def content (disk : Nat → Block) (d : Dinode) : List UInt8 :=
  (List.range d.size.toNat).map (fileByte disk d)

/-- `bmap` finds a block that is there and changes nothing. -/
theorem bmap_of_ne_zero (hne : slotAddr s.disk (s.inode c).din (.block bn) ≠ 0)
    {E : Panic → Prop} :
    wpE (bmap c bn) s
      (fun b s' => b = slotAddr s.disk (s.inode c).din (.block bn) ∧ s' = s) E := by
  unfold bmap
  split
  · next hlt =>
    rw [slotAddr_direct hlt] at hne ⊢
    simp only [bmapAddr, wpE_bind, wpE_get]
    rw [if_neg fun h0 => hne (by rw [h0]; rfl)]
    exact ⟨rfl, rfl⟩
  · next hge =>
    rw [slotAddr, if_neg hge] at hne ⊢
    split at hne
    · next hc =>
      rw [if_pos hc.1, if_pos hc]
      simp only [bmapAddr, bmapEntry, wpE_bind, wpE_get]
      rw [if_neg hc.2]
      simp only [wpE_pure, wpE_bread]
      rw [if_neg hne]
      exact ⟨rfl, rfl⟩
    · exact absurd rfl hne

/-- The loop of `readi` where all the blocks it needs are there. -/
theorem readLoop_filled {fuel off n : Nat} (hfuel : n ≤ fuel)
    (hfull : ∀ bn, off / BSIZE ≤ bn → bn * BSIZE < off + n →
      slotAddr s.disk (s.inode c).din (.block bn) ≠ 0) {E : Panic → Prop} :
    wpE (readLoop c fuel off n) s
      (fun r s' => r = (List.range n).map (fun k => fileByte s.disk (s.inode c).din (off + k)) ∧
        s' = s) E := by
  induction fuel generalizing off n with
  | zero =>
      obtain rfl : n = 0 := by omega
      exact ⟨rfl, rfl⟩
  | succ fuel ih =>
      rw [readLoop]
      split
      · next hn =>
        subst hn
        exact ⟨rfl, rfl⟩
      · next hn =>
        generalize hm : min n (BSIZE - off % BSIZE) = m
        have hmod : off % BSIZE < BSIZE := Nat.mod_lt _ (by decide)
        have hbnoff : off / BSIZE * BSIZE ≤ off := Nat.div_mul_le_self off BSIZE
        have hrest (bn : Nat) (hle : (off + m) / BSIZE ≤ bn) (hlt : bn * BSIZE < off + m + (n - m)) :
            slotAddr s.disk (s.inode c).din (.block bn) ≠ 0 :=
          hfull bn ((Nat.div_le_div_right (by omega)).trans hle) (by omega)
        refine wpE_bind_of (bmap_of_ne_zero (hfull _ le_rfl (by omega))) ?_
        rintro b _ ⟨rfl, rfl⟩
        simp only [wpE_bind, wpE_bread, wpE_pure]
        refine (ih (by omega) hrest).mono ?_ fun _ he => he
        rintro rest _ ⟨rfl, rfl⟩
        refine ⟨?_, rfl⟩
        rw [show n = m + (n - m) by omega, List.range_add, List.map_append, List.map_map,
          Nat.add_sub_cancel_left]
        congr 1
        · refine List.map_congr_left fun k hk => ?_
          have hk := List.mem_range.mp hk
          have hin : off % BSIZE + m ≤ BSIZE := by omega
          have hdiv := div_eq_of_in_block hin (Nat.le_add_right off k) (by omega)
          have hmodk : (off + k) % BSIZE = off % BSIZE + k := by
            simp only [BSIZE] at *
            omega
          rw [fileByte, hdiv, hmodk]
        · refine List.map_congr_left fun k _ => ?_
          rw [Function.comp_apply, Nat.add_assoc]

theorem take_drop_content (disk : Nat → Block) (d : Dinode) {off n : Nat}
    (h : off + n ≤ d.size.toNat) :
    ((content disk d).drop off).take n =
      (List.range n).map fun k => fileByte disk d (off + k) := by
  apply List.ext_getElem
  · simp [content]
    omega
  · intro k h1 h2
    simp [content]

/-- **`readi`** delivers bytes of the contents and changes nothing. -/
theorem readi_spec (h : Held s c) (hdev : (s.inode c).din.type ≠ T_DEV) {off n : UInt32}
    {E : Panic → Prop} :
    wpE (readi c off n) s
      (fun r s' => s' = s ∧
        if (s.inode c).din.size.toNat < off.toNat ∨ 2 ^ 32 ≤ off.toNat + n.toNat then r = (-1, [])
        else r.1.toInt = min n.toNat ((s.inode c).din.size.toNat - off.toNat) ∧
          r.2 = ((content s.disk (s.inode c).din).drop off.toNat).take n.toNat) E := by
  have hmax : (s.inode c).din.size.toNat ≤ MAXFILE * BSIZE := by
    have := h.cons.size_le h.inum_lt h.type_ino
    rwa [s.ino_self] at this
  simp only [readi, wpE_bind, wpE_get]
  rw [if_neg hdev]
  split
  · next hbad =>
    rw [add_lt_left_iff, UInt32.lt_iff_toNat_lt] at hbad
    exact wpE_pure.mpr ⟨rfl, by rw [if_pos hbad]⟩
  · next hok =>
    rw [add_lt_left_iff, UInt32.lt_iff_toNat_lt] at hok
    simp only [if_neg hok]
    rw [not_or, Nat.not_lt, Nat.not_le] at hok
    have hlen := toNat_clamp hok.1 hok.2
    generalize (if (s.inode c).din.size < off + n then (s.inode c).din.size - off else n) = n'
      at hlen ⊢
    refine wpE_bind_of (readLoop_filled le_rfl fun bn _ hbn => h.slotAddr_ne_zero (by omega)) ?_
    rintro bytes _ ⟨rfl, rfl⟩
    refine wpE_pure.mpr ⟨rfl, ?_, ?_⟩
    · have hsmall : MAXFILE * BSIZE < 2 ^ 31 := by decide
      rw [toInt_toInt32_of_lt (by omega), hlen]
    · rw [← take_drop_content _ _ (by omega), List.take_eq_take_min (i := n.toNat), hlen]
      simp [content]

end Xv6.Fs
