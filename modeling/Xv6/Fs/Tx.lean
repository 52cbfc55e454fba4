import Mathlib.Order.Interval.Finset.Nat
import Xv6.Fs.Keep
import Xv6.Lib.Ghost

/-!
# Xv6.Fs.Tx

What `writei` logs.

* `Tx` is the file system with the blocks that `log_write` was called on, and the code of
  `writei` is repeated here with `log_write` noted (`forgets_writei`: it is the same code).
* `Traced` says what a stretch of `writei` logs: the blocks of the file that it writes, the
  bitmap blocks of the blocks that it takes, and the indirect block if an entry of it is
  set.
* `tx_writei_spec` is the whole of `writei`.
-/

namespace Xv6.Fs

open Words

/-! ## what is logged -/

/-- The file system, and the blocks that `log_write` was called on. -/
structure Tx where
  fs : State
  blocks : List Nat

abbrev TxM := Prog Panic Tx

/-- Code that logs nothing. -/
def inTx {α : Type} (m : M α) : TxM α := focus Tx.fs (fun s x => { x with fs := s }) m

namespace Tx

def logWrite (b : Nat) (data : Block) : TxM Unit := do
  inTx (Fs.logWrite b data)
  modify fun x => { x with blocks := x.blocks ++ [b] }

def bzero (b : Nat) : TxM Unit := Tx.logWrite b fun _ => 0

def ballocIn : List Nat → TxM Nat
  | [] => throw .ballocOutOfBlocks
  | b :: bs => do
      let sb := (← inTx get).sb
      let data ← inTx (bread (BBLOCK b sb))
      match freeBit sb b data BPB 0 with
      | some bi =>
          Tx.logWrite (BBLOCK b sb) (setBit data bi)
          Tx.bzero (b + bi)
          return b + bi
      | none => ballocIn bs

def balloc : TxM Nat := do
  let sb := (← inTx get).sb
  Tx.ballocIn ((List.range ((sb.size + BPB - 1) / BPB)).map (· * BPB))

def iupdate (c : Ip) : TxM Unit := do
  let s ← inTx get
  let ip := s.inode c
  let data ← inTx (bread (IBLOCK ip.inum s.sb))
  Tx.logWrite (IBLOCK ip.inum s.sb) (putDinode data (ip.inum % IPB) ip.din)

def bmapAddr (c : Ip) (k : Nat) : TxM Nat := do
  let addr := ((← inTx get).inode c).din.addr k
  if addr = 0 then do
    let b ← Tx.balloc
    inTx (setDin c (Dinode.setAddr · k (UInt32.ofNat b)))
    return b
  else return addr.toNat

def bmapEntry (addr k : Nat) : TxM Nat := do
  let a ← inTx (bread addr)
  if le32 a (4 * k) = 0 then do
    let b ← Tx.balloc
    let a ← inTx (bread addr)
    Tx.logWrite addr (putLe32 a (4 * k) b)
    return b
  else return le32 a (4 * k)

def bmap (c : Ip) (bn : Nat) : TxM Nat := do
  if bn < NDIRECT then Tx.bmapAddr c bn
  else if bn - NDIRECT < NINDIRECT then do
    let addr ← Tx.bmapAddr c NDIRECT
    Tx.bmapEntry addr (bn - NDIRECT)
  else throw .bmapOutOfRange

def writeLoop (c : Ip) : Nat → (Nat → UInt8) → Nat → Nat → TxM Unit
  | 0, _, _, _ => pure ()
  | fuel + 1, src, off, left => do
      if left = 0 then pure ()
      else do
        let b ← Tx.bmap c (off / BSIZE)
        let data ← inTx (bread b)
        let m := min left (BSIZE - off % BSIZE)
        Tx.logWrite b (store data (off % BSIZE) src m)
        writeLoop c fuel (fun k => src (m + k)) (off + m) (left - m)

def growTo (c : Ip) (n off : UInt32) : TxM Unit := do
  if 0 < n ∧ ((← inTx get).inode c).din.size < off then do
    inTx (setDin c fun d => { d with size := off })
    Tx.iupdate c
  else pure ()

def writei (c : Ip) (src : Nat → UInt8) (off n : UInt32) : TxM Int32 := do
  let s ← inTx get
  let d := (s.inode c).din
  if d.type = T_DEV then
    match (deviceNo d).bind s.devsw.write with
    | none => return -1
    | some write => return write src n
  else if d.size < off ∨ off + n < off then return -1
  else if MAXFILE * BSIZE < (off + n).toNat then return -1
  else do
    Tx.writeLoop c n.toNat src off.toNat n.toNat
    Tx.growTo c n (off + n)
    return n.toInt32

end Tx

/-! ### it is the code -/

section Forgets

variable {α : Type} {c : Ip}

theorem forgets_inTx (m : M α) : Forgets Tx.fs (inTx m) m := forgets_focus (fun _ _ => rfl) m

theorem forgets_logWrite (b : Nat) (data : Block) :
    Forgets Tx.fs (Tx.logWrite b data) (logWrite b data) := by
  have h := (forgets_inTx (logWrite b data)).bind fun _ : Unit =>
    forgets_note (ε := Panic) (f := fun x : Tx => { x with blocks := x.blocks ++ [b] }) fun _ => rfl
  rwa [bind_pure] at h

theorem forgets_ballocIn (bs : List Nat) : Forgets Tx.fs (Tx.ballocIn bs) (ballocIn bs) := by
  induction bs with
  | nil => exact forgets_throw _
  | cons b bs ih =>
      refine (forgets_inTx get).bind fun s => (forgets_inTx _).bind fun data => ?_
      cases freeBit s.sb b data BPB 0 with
      | some bi =>
          exact (forgets_logWrite _ _).bind fun _ => (forgets_logWrite _ _).bind fun _ =>
            forgets_pure _
      | none => exact ih

theorem forgets_balloc : Forgets Tx.fs Tx.balloc balloc :=
  (forgets_inTx get).bind fun _ => forgets_ballocIn _

theorem forgets_bmapAddr (k : Nat) : Forgets Tx.fs (Tx.bmapAddr c k) (bmapAddr c k) := by
  refine (forgets_inTx get).bind fun s => ?_
  dsimp only
  split
  · exact forgets_balloc.bind fun _ => (forgets_inTx _).bind fun _ => forgets_pure _
  · exact forgets_pure _

theorem forgets_bmapEntry (addr k : Nat) :
    Forgets Tx.fs (Tx.bmapEntry addr k) (bmapEntry addr k) := by
  refine (forgets_inTx _).bind fun a => ?_
  split
  · exact forgets_balloc.bind fun _ => (forgets_inTx _).bind fun _ =>
      (forgets_logWrite _ _).bind fun _ => forgets_pure _
  · exact forgets_pure _

theorem forgets_bmap (bn : Nat) : Forgets Tx.fs (Tx.bmap c bn) (bmap c bn) := by
  unfold Tx.bmap bmap
  split
  · exact forgets_bmapAddr bn
  · split
    · exact (forgets_bmapAddr _).bind fun _ => forgets_bmapEntry _ _
    · exact forgets_throw _

theorem forgets_writeLoop (fuel : Nat) (src : Nat → UInt8) (off left : Nat) :
    Forgets Tx.fs (Tx.writeLoop c fuel src off left) (writeLoop c fuel src off left) := by
  induction fuel generalizing src off left with
  | zero => exact forgets_pure _
  | succ fuel ih =>
      unfold Tx.writeLoop writeLoop
      split
      · exact forgets_pure _
      · exact (forgets_bmap _).bind fun _ => (forgets_inTx _).bind fun _ =>
          (forgets_logWrite _ _).bind fun _ => ih _ _ _

theorem forgets_growTo (n off : UInt32) : Forgets Tx.fs (Tx.growTo c n off) (growTo c n off) := by
  refine (forgets_inTx get).bind fun s => ?_
  split
  · exact (forgets_inTx _).bind fun _ => (forgets_inTx get).bind fun _ =>
      (forgets_inTx _).bind fun _ => forgets_logWrite _ _
  · exact forgets_pure _

/-- **The code with notes is the code.** -/
theorem forgets_writei (src : Nat → UInt8) (off n : UInt32) :
    Forgets Tx.fs (Tx.writei c src off n) (writei c src off n) := by
  refine (forgets_inTx get).bind fun s => ?_
  dsimp only
  split
  · cases (deviceNo (s.inode c).din).bind s.devsw.write with
    | none => exact forgets_pure _
    | some write => exact forgets_pure _
  · split
    · exact forgets_pure _
    · split
      · exact forgets_pure _
      · exact (forgets_writeLoop _ _ _ _).bind fun _ => (forgets_growTo _ _).bind fun _ =>
          forgets_pure _

end Forgets

/-! ## taking a block -/

section Rules

variable {x : Tx} {E : Panic → Prop}

@[simp] theorem wpE_inTx {α : Type} {m : M α} {Q : α → Tx → Prop} :
    wpE (inTx m) x Q E ↔ wpE m x.fs (fun a s => Q a { x with fs := s }) E := by
  unfold wpE inTx focus
  cases m x.fs with
  | error e => rfl
  | ok r => rfl

@[simp] theorem wpE_txLogWrite {b : Nat} {data : Block} {Q : Unit → Tx → Prop} :
    wpE (Tx.logWrite b data) x Q E ↔ Q () ⟨x.fs.write b data, x.blocks ++ [b]⟩ := Iff.rfl

end Rules

theorem ballocIn_blocks (x : Tx) (bs : List Nat) (hbs : ∀ b ∈ bs, b % BPB = 0) :
    wpE (Tx.ballocIn bs) x (fun b x' => x'.blocks = x.blocks ++ [BBLOCK b x.fs.sb, b])
      fun _ => True := by
  induction bs with
  | nil => trivial
  | cons b bs ih =>
      have hb : b % BPB = 0 := hbs b List.mem_cons_self
      simp only [Tx.ballocIn, wpE_bind, wpE_inTx, wpE_get, wpE_bread]
      split
      · next bi hfind =>
        have hbi := (freeBit_eq_some hfind).1
        have hblock : BBLOCK (b + bi) x.fs.sb = BBLOCK b x.fs.sb := by
          simp only [BBLOCK, BPB, BSIZE] at *
          omega
        simp only [Tx.bzero, wpE_bind, wpE_txLogWrite, wpE_pure, hblock, List.append_assoc,
          List.singleton_append]
      · exact ih fun a ha => hbs a (List.mem_cons_of_mem b ha)

/-- **`balloc`** takes the first free block and logs its bit and the block. -/
theorem tx_balloc_spec (x : Tx) :
    wpE Tx.balloc x
      (fun b x' => b < x.fs.sb.size ∧ busy x.fs.sb x.fs.disk b = false ∧
        (∀ e < b, busy x.fs.sb x.fs.disk e = true) ∧ x'.fs = x.fs.take b ∧
        x'.blocks = x.blocks ++ [BBLOCK b x.fs.sb, b])
      fun _ => True := by
  have hblocks : wpE Tx.balloc x
      (fun b x' => x'.blocks = x.blocks ++ [BBLOCK b x.fs.sb, b]) fun _ => True := by
    simp only [Tx.balloc, wpE_bind, wpE_inTx, wpE_get]
    refine ballocIn_blocks x _ fun b hb => ?_
    obtain ⟨g, -, rfl⟩ := List.mem_map.mp hb
    exact Nat.mul_mod_left g BPB
  have hfs := forgets_balloc.wpE ((balloc_spec x.fs).and (balloc_first x.fs))
  refine (hfs.and hblocks).mono ?_ fun _ _ => trivial
  rintro b x' ⟨⟨⟨hlt, hfree, htake⟩, hfirst⟩, hlog⟩
  exact ⟨hlt, hfree, fun e he => hfirst e he (he.trans hlt), htake, hlog⟩

/-! ## asking for a slot -/

/-- The address in a slot of the inode in entry `c`. -/
def State.slot (s : State) (c : Ip) (t : Slot) : Nat := slotAddr s.disk (s.inode c).din t

/-- What asking for the block in slot `t` does: it is there, or it is taken and the blocks
`more` are logged behind it. -/
def Asked (c : Ip) (t : Slot) (more : List Nat) (x : Tx) (b : Nat) (x' : Tx) : Prop :=
  (x.fs.slot c t = b ∧ b ≠ 0 ∧ x' = x) ∨
    (Filled c t b x.fs x'.fs ∧ (∀ e < b, busy x.fs.sb x.fs.disk e = true) ∧
      x'.blocks = x.blocks ++ ([BBLOCK b x.fs.sb, b] ++ more))

section Slots

variable {x : Tx} {c : Ip} {b bn k : Nat}

theorem tx_bmapAddr_spec (h : Held x.fs c) (hk : k ≤ NDIRECT) :
    wpE (Tx.bmapAddr c k) x (Asked c (slotOf k) [] x) fun _ => True := by
  have hslot : x.fs.slot c (slotOf k) = ((x.fs.inode c).din.addr k).toNat := slotAddr_slotOf hk
  simp only [Tx.bmapAddr, wpE_bind, wpE_inTx, wpE_get]
  split
  · next h0 =>
    refine wpE_bind_of (tx_balloc_spec x) ?_
    rintro b ⟨fs, blocks⟩ ⟨hb, hfree, hfirst, rfl, rfl⟩
    simp only [wpE_bind, wpE_inTx, wpE_setDin, wpE_pure]
    exact .inr ⟨filled_addr h hb hfree hk h0, hfirst, by simp⟩
  · next h0 =>
    refine wpE_pure.mpr (.inl ⟨hslot, fun hz => h0 (UInt32.toNat_inj.mp hz), rfl⟩)

theorem tx_bmapEntry_spec (h : Held x.fs c) (hk : k < NINDIRECT)
    (hd : x.fs.slot c .indirect = b) (hb : b ≠ 0) :
    wpE (Tx.bmapEntry b k) x (Asked c (.block (NDIRECT + k)) [b] x) fun _ => True := by
  have haddr : ((x.fs.inode c).din.addr NDIRECT).toNat = b := hd
  subst haddr
  have hd0 : (x.fs.inode c).din.addr NDIRECT ≠ 0 := fun h0 => hb (by rw [h0]; rfl)
  have hslot : x.fs.slot c (.block (NDIRECT + k)) =
      le32 (x.fs.disk ((x.fs.inode c).din.addr NDIRECT).toNat) (4 * k) := by
    unfold State.slot
    rw [slotAddr_entry (by omega) (by omega) hd0, Nat.add_sub_cancel_left]
  simp only [Tx.bmapEntry, wpE_bind, wpE_inTx, wpE_bread]
  split
  · next h0 =>
    refine wpE_bind_of (tx_balloc_spec x) ?_
    rintro a ⟨fs, blocks⟩ ⟨ha, hfree, hfirst, rfl, rfl⟩
    simp only [wpE_bind, wpE_inTx, wpE_bread, wpE_txLogWrite, wpE_pure]
    exact .inr ⟨filled_entry h ha hfree hk hd0 h0, hfirst, by simp⟩
  · next h0 => exact wpE_pure.mpr (.inl ⟨hslot, h0, rfl⟩)

end Slots

/-! ## what a stretch of `writei` logs -/

/-- The block `e` is logged from `s` to `s'`, while the blocks `sp` of the file are written:
it is one of them, or a bitmap block of a block that was taken, or the indirect block with
a new entry. -/
def Logs (c : Ip) (sp : Finset Nat) (s s' : State) (e : Nat) : Prop :=
  (∃ bn ∈ sp, s'.slot c (.block bn) = e) ∨
  (∃ b < s.sb.size, busy s.sb s.disk b = false ∧ busy s.sb s'.disk b = true ∧
    BBLOCK b s.sb = e) ∨
  ∃ bn ∈ sp, NDIRECT ≤ bn ∧ s.slot c (.block bn) = 0 ∧ s'.slot c .indirect = e

/-- A stretch of `writei` that writes the blocks `sp` of the file. -/
structure Traced (c : Ip) (sp : Finset Nat) (x x' : Tx) : Prop where
  held : Held x'.fs c
  sb : x'.fs.sb = x.fs.sb
  inum : (x'.fs.inode c).inum = (x.fs.inode c).inum
  size : (x'.fs.inode c).din.size = (x.fs.inode c).din.size
  busy : ∀ e < x.fs.sb.size, busy x.fs.sb x.fs.disk e = true → busy x.fs.sb x'.fs.disk e = true
  /-- the blocks that are taken are the first free ones -/
  first : ∀ b < x.fs.sb.size, Fs.busy x.fs.sb x.fs.disk b = false →
    Fs.busy x.fs.sb x'.fs.disk b = true → ∀ e < b, Fs.busy x.fs.sb x'.fs.disk e = true
  keep : ∀ t, x.fs.slot c t ≠ 0 → x'.fs.slot c t = x.fs.slot c t
  other : ∀ bn, bn ∉ sp → x'.fs.slot c (.block bn) = x.fs.slot c (.block bn)
  filled : ∀ bn ∈ sp, x'.fs.slot c (.block bn) ≠ 0
  logged : ∀ e, e ∈ x'.blocks ↔ e ∈ x.blocks ∨ Logs c sp x.fs x'.fs e

section Traced

variable {x x' x'' : Tx} {c : Ip} {t : Slot} {b bn : Nat} {sp sp' : Finset Nat}

theorem traced_nil (h : Held x.fs c) : Traced c ∅ x x where
  held := h
  sb := rfl
  inum := rfl
  size := rfl
  busy := fun _ _ hb => hb
  first := fun b _ hb hb' => absurd (hb.symm.trans hb') (by simp)
  keep := fun _ _ => rfl
  other := fun _ _ => rfl
  filled := fun _ hbn => absurd hbn (Finset.notMem_empty _)
  logged := fun e => by
    refine ⟨.inl, ?_⟩
    rintro (he | ⟨bn, hbn, -⟩ | ⟨b, -, hb, hb', -⟩ | ⟨bn, hbn, -⟩)
    · exact he
    · exact absurd hbn (Finset.notMem_empty _)
    · exact absurd (hb.symm.trans hb') (by simp)
    · exact absurd hbn (Finset.notMem_empty _)

/-- An indirect entry needs the indirect block. -/
theorem slot_indirect_ne_zero {s : State} (hbn : NDIRECT ≤ bn) (h : s.slot c (.block bn) ≠ 0) :
    s.slot c .indirect ≠ 0 := by
  unfold State.slot at h ⊢
  rw [slotAddr, if_neg (by omega)] at h
  split at h
  · next hc => exact fun h0 => hc.2 (UInt32.toNat_inj.mp h0)
  · exact absurd rfl h

theorem Traced.trans (h : Traced c sp x x') (h' : Traced c sp' x' x'') (hdisj : Disjoint sp sp') :
    Traced c (sp ∪ sp') x x'' where
  held := h'.held
  sb := h'.sb.trans h.sb
  inum := h'.inum.trans h.inum
  size := h'.size.trans h.size
  busy := fun e he hb => by
    have := h'.busy e (h.sb ▸ he)
    rw [h.sb] at this
    exact this (h.busy e he hb)
  first := fun b hb hfree hbusy e he => by
    have hmono := h'.busy e (h.sb ▸ he.trans hb)
    have hlater := h'.first b (h.sb ▸ hb)
    rw [h.sb] at hmono hlater
    cases hb' : Fs.busy x.fs.sb x'.fs.disk b with
    | true => exact hmono (h.first b hb hfree hb' e he)
    | false => exact hlater hb' hbusy e he
  keep := fun t ht => by
    have := h.keep t ht
    rw [h'.keep t (this ▸ ht), this]
  other := fun bn hbn => by
    rw [Finset.mem_union, not_or] at hbn
    rw [h'.other bn hbn.2, h.other bn hbn.1]
  filled := fun bn hbn => by
    rcases Finset.mem_union.mp hbn with hbn | hbn
    · rw [h'.keep _ (h.filled bn hbn)]
      exact h.filled bn hbn
    · exact h'.filled bn hbn
  logged := fun e => by
    have hbusy (b : Nat) (hb : b < x.fs.sb.size) := h.busy b hb
    have hbusy' (b : Nat) (hb : b < x.fs.sb.size) := h'.busy b (h.sb ▸ hb)
    have hslot (bn : Nat) (hbn : bn ∈ sp) := h'.keep _ (h.filled bn hbn)
    have hslot' (bn : Nat) (hbn : bn ∈ sp') := h.other bn (Finset.disjoint_right.mp hdisj hbn)
    have hind (bn : Nat) (hbn : bn ∈ sp) (hle : NDIRECT ≤ bn) :=
      h'.keep _ (slot_indirect_ne_zero hle (h.filled bn hbn))
    rw [h'.logged, h.logged]
    unfold Logs
    rw [h.sb] at hbusy' ⊢
    simp only [Finset.mem_union]
    grind

/-! ### one block -/

theorem Filled.slot_eq {s s' : State} (hf : Filled c t b s s') (h : Held s c) (u : Slot) :
    s'.slot c u = if u = t then b else s.slot c u := by
  have hslot := hf.slot (s.inode c).inum h.inum_lt h.type_ino u
  have hself : s'.ino c (s.inode c).inum = (s'.inode c).din := by
    rw [← hf.inum]
    exact s'.ino_self c
  rw [hself, s.ino_self] at hslot
  simpa [State.slot] using hslot

theorem Filled.size {s s' : State} (hf : Filled c t b s s') :
    (s'.inode c).din.size = (s.inode c).din.size := by
  obtain ⟨a, ha⟩ := hf.self
  rw [ha]

theorem traced_found (h : Held x.fs c) (hb : x.fs.slot c (.block bn) = b) (hb0 : b ≠ 0) :
    Traced c {bn} x ⟨x.fs, x.blocks ++ [b]⟩ where
  held := h
  sb := rfl
  inum := rfl
  size := rfl
  busy := fun _ _ hb => hb
  first := fun b _ hb hb' => absurd (hb.symm.trans hb') (by simp)
  keep := fun _ _ => rfl
  other := fun _ _ => rfl
  filled := fun bn' hbn' => by
    rw [Finset.mem_singleton.mp hbn']
    exact hb ▸ hb0
  logged := fun e => by
    unfold Logs
    simp only [List.mem_append, List.mem_singleton, Finset.mem_singleton]
    grind

theorem traced_taken {more : List Nat} (h : Held x.fs c) (hf : Filled c (.block bn) b x.fs x'.fs)
    (hfirst : ∀ e < b, busy x.fs.sb x.fs.disk e = true)
    (hblocks : x'.blocks = x.blocks ++ ([BBLOCK b x.fs.sb, b] ++ more))
    (hmore : ∀ e, e ∈ more ↔ NDIRECT ≤ bn ∧ x.fs.slot c .indirect = e) :
    Traced c {bn} x ⟨x'.fs, x'.blocks ++ [b]⟩ where
  held := hf.held h
  sb := hf.sb
  inum := hf.inum
  size := hf.size
  busy := fun e he hb => by rw [hf.busy e he, hb, Bool.true_or]
  first := fun d hd hfree hbusy e he => by
    rw [hf.busy d hd, hfree, Bool.false_or, decide_eq_true_eq] at hbusy
    subst hbusy
    rw [hf.busy e (he.trans hd), hfirst e he, Bool.true_or]
  keep := fun t ht => by
    rw [hf.slot_eq h]
    split
    · next htb =>
      subst htb
      exact absurd hf.empty ht
    · rfl
  other := fun bn' hbn' => by
    rw [hf.slot_eq h, if_neg (by simpa using hbn')]
  filled := fun bn' hbn' => by
    rw [Finset.mem_singleton.mp hbn', hf.slot_eq h, if_pos rfl]
    exact h.cons.ne_zero_of_free hf.lt hf.free
  logged := fun e => by
    have hslot := hf.slot_eq h
    have hbusy := hf.busy
    have hempty : x.fs.slot c (.block bn) = 0 := hf.empty
    have hlt := hf.lt
    have hfree := hf.free
    unfold Logs
    rw [hblocks]
    simp only [List.mem_append, List.mem_cons, List.not_mem_nil, or_false, Finset.mem_singleton,
      hmore, exists_eq_left, hslot, hempty]
    grind

/-- The indirect block is taken before its first entry is. -/
theorem traced_indirect {a : Nat} (h : Held x.fs c) (hf : Filled c .indirect a x.fs x'.fs)
    (hfirst : ∀ e < a, busy x.fs.sb x.fs.disk e = true)
    (hblocks : x'.blocks = x.blocks ++ [BBLOCK a x.fs.sb, a]) (hbn : NDIRECT ≤ bn)
    (h' : Traced c {bn} x' x'') : Traced c {bn} x x'' := by
  have hslot := hf.slot_eq h
  have hempty : x.fs.slot c .indirect = 0 := hf.empty
  have hentry : x.fs.slot c (.block bn) = 0 := by
    by_contra hne
    exact slot_indirect_ne_zero hbn hne hempty
  have ha0 : a ≠ 0 := h.cons.ne_zero_of_free hf.lt hf.free
  have hbusy (e : Nat) (he : e < x.fs.sb.size) := hf.busy e he
  have hmono (e : Nat) (he : e < x.fs.sb.size) := h'.busy e (hf.sb ▸ he)
  have hnext (b : Nat) (hb : b < x.fs.sb.size) := h'.first b (hf.sb ▸ hb)
  have hkeep := h'.keep
  rw [hf.sb] at hmono hnext
  have ha : x''.fs.slot c .indirect = a := by
    rw [hkeep _ (by rw [hslot, if_pos rfl]; exact ha0), hslot, if_pos rfl]
  exact
    { held := h'.held
      sb := h'.sb.trans hf.sb
      inum := h'.inum.trans hf.inum
      size := h'.size.trans hf.size
      busy := fun e he hb => hmono e he (by rw [hbusy e he, hb, Bool.true_or])
      first := fun b hb hfree hb' e he => by
        by_cases hba : b = a
        · subst hba
          exact hmono e (he.trans hb) (by rw [hbusy e (he.trans hb), hfirst e he, Bool.true_or])
        · refine hnext b hb ?_ hb' e he
          rw [hbusy b hb, hfree, Bool.false_or, decide_eq_false_iff_not]
          exact hba
      keep := fun t ht => by
        have hne : t ≠ .indirect := by
          rintro rfl
          exact ht hempty
        rw [hkeep t (by rw [hslot, if_neg hne]; exact ht), hslot, if_neg hne]
      other := fun bn' hbn' => by rw [h'.other bn' hbn', hslot, if_neg (by simp)]
      filled := h'.filled
      logged := fun e => by
        have hlt := hf.lt
        have hfree := hf.free
        have hsame : x'.fs.slot c (.block bn) = 0 := by rw [hslot, if_neg (by simp), hentry]
        rw [h'.logged, hblocks]
        unfold Logs
        simp only [hf.sb, List.mem_append, List.mem_cons, List.not_mem_nil, or_false,
          Finset.mem_singleton, exists_eq_left, hsame, hentry, ha]
        grind }

/-- **`bmap`**, with a store to the block that it returns. -/
theorem tx_bmap_spec (h : Held x.fs c) (hbn : bn < MAXFILE) :
    wpE (Tx.bmap c bn) x
      (fun b x' => x'.fs.slot c (.block bn) = b ∧ Traced c {bn} x ⟨x'.fs, x'.blocks ++ [b]⟩)
      fun _ => True := by
  unfold Tx.bmap
  split
  · next hlt =>
    have hslot : slotOf bn = .block bn := if_neg (by omega)
    refine (tx_bmapAddr_spec h (by omega)).mono ?_ fun _ _ => trivial
    rw [hslot]
    rintro b x' (⟨hb, hb0, rfl⟩ | ⟨hf, hfirst, hblocks⟩)
    · exact ⟨hb, traced_found h hb hb0⟩
    · refine ⟨by rw [hf.slot_eq h, if_pos rfl], traced_taken h hf hfirst hblocks fun e => ?_⟩
      simp only [List.not_mem_nil, false_iff, not_and]
      omega
  · next hge =>
    have hk : bn - NDIRECT < NINDIRECT := by
      unfold MAXFILE at hbn
      omega
    have hsum : NDIRECT + (bn - NDIRECT) = bn := by omega
    have hmore (y : Tx) (a e : Nat) (ha : y.fs.slot c .indirect = a) :
        e ∈ [a] ↔ NDIRECT ≤ bn ∧ y.fs.slot c .indirect = e := by
      rw [ha, List.mem_singleton]
      exact ⟨fun he => ⟨by omega, he.symm⟩, fun he => he.2.symm⟩
    rw [if_pos hk]
    refine wpE_bind_of (tx_bmapAddr_spec h le_rfl) ?_
    rintro a x₁ (⟨ha, ha0, rfl⟩ | ⟨hf, hfirst, hblocks⟩)
    · refine (tx_bmapEntry_spec h hk ha ha0).mono ?_ fun _ _ => trivial
      rw [hsum]
      rintro b x' (⟨hb, hb0, rfl⟩ | ⟨hf, hfirst, hblocks⟩)
      · exact ⟨hb, traced_found h hb hb0⟩
      · exact ⟨by rw [hf.slot_eq h, if_pos rfl],
          traced_taken h hf hfirst hblocks fun e => hmore _ a e ha⟩
    · have h₁ := hf.held h
      have ha : x₁.fs.slot c .indirect = a := by
        rw [hf.slot_eq h]
        rfl
      refine (tx_bmapEntry_spec h₁ hk ha (h.cons.ne_zero_of_free hf.lt hf.free)).mono ?_
        fun _ _ => trivial
      rw [hsum]
      rintro b x' (⟨hb, hb0, rfl⟩ | ⟨hf', hfirst', hblocks'⟩)
      · exact ⟨hb, traced_indirect h hf hfirst hblocks (by omega) (traced_found h₁ hb hb0)⟩
      · exact ⟨by rw [hf'.slot_eq h₁, if_pos rfl],
          traced_indirect h hf hfirst hblocks (by omega)
            (traced_taken h₁ hf' hfirst' hblocks' fun e => hmore _ a e ha)⟩

/-- Storing into a block of the file. -/
theorem Traced.write (h : Traced c sp x x') (hb : x'.fs.slot c (.block bn) = b) (hb0 : b ≠ 0)
    (data : Block) : Traced c sp x ⟨x'.fs.write b data, x'.blocks⟩ := by
  have href : x'.fs.ref c ((x'.fs.inode c).inum, .block bn) = some b := by
    refine ref_eq_some.mpr ⟨h.held.inum_lt, h.held.type_ino, ?_, hb0⟩
    rw [State.ino_self]
    exact hb
  have hslot (t : Slot) : (x'.fs.write b data).slot c t = x'.fs.slot c t := by
    have := h.held.cons.slotAddr_write (t := t) href data h.held.inum_lt h.held.type_ino
    rwa [State.ino_self] at this
  have hbusy (e : Nat) (he : e < x.fs.sb.size) :
      Fs.busy x.fs.sb (x'.fs.write b data).disk e = Fs.busy x.fs.sb x'.fs.disk e := by
    have := h.held.cons.busy_write href data (h.sb ▸ he)
    rwa [h.sb] at this
  exact
    { held := h.held.write href data
      sb := h.sb
      inum := h.inum
      size := h.size
      busy := fun e he hb => by
        rw [hbusy e he]
        exact h.busy e he hb
      first := fun d hd hfree hd' e he => by
        rw [hbusy d hd] at hd'
        rw [hbusy e (he.trans hd)]
        exact h.first d hd hfree hd' e he
      keep := fun t ht => by
        rw [hslot]
        exact h.keep t ht
      other := fun d hd => by
        rw [hslot]
        exact h.other d hd
      filled := fun d hd => by
        rw [hslot]
        exact h.filled d hd
      logged := fun e => by
        rw [h.logged]
        unfold Logs
        simp only [hslot]
        grind }

end Traced

/-! ## the whole write -/

/-- The blocks of a file with the bytes `off .. off + n - 1`. -/
def spanned (off n : Nat) : Finset Nat :=
  if n = 0 then ∅ else Finset.Icc (off / BSIZE) ((off + n - 1) / BSIZE)

/-- The slots that have to be filled for blocks of inode `i`. -/
def needed (i : Nat) (sp : Finset Nat) : Finset (Nat × Slot) :=
  sp.image (fun bn => (i, .block bn)) ∪ if ∃ bn ∈ sp, NDIRECT ≤ bn then {(i, .indirect)} else ∅

section Write

variable {x x' : Tx} {c : Ip} {off n : Nat} {src : Nat → UInt8}

/-- A pass of the loop of `writei`, and the rest. -/
theorem spanned_pass (hn : n ≠ 0) {m : Nat} (hm : min n (BSIZE - off % BSIZE) = m) :
    spanned off n = {off / BSIZE} ∪ spanned (off + m) (n - m) ∧
      Disjoint {off / BSIZE} (spanned (off + m) (n - m)) := by
  unfold spanned
  simp only [BSIZE] at *
  constructor
  · ext bn
    rw [if_neg hn]
    split
    · simp only [Finset.mem_Icc, Finset.union_empty, Finset.mem_singleton]
      omega
    · simp only [Finset.mem_Icc, Finset.mem_union, Finset.mem_singleton]
      omega
  · rw [Finset.disjoint_singleton_left]
    split
    · exact Finset.notMem_empty _
    · rw [Finset.mem_Icc]
      omega

theorem tx_writeLoop_spec {fuel : Nat} (h : Held x.fs c) (hfuel : n ≤ fuel)
    (hmax : off + n ≤ MAXFILE * BSIZE) :
    wpE (Tx.writeLoop c fuel src off n) x (fun _ x' => Traced c (spanned off n) x x')
      fun _ => True := by
  induction fuel generalizing x src off n with
  | zero =>
      obtain rfl : n = 0 := by omega
      exact traced_nil h
  | succ fuel ih =>
      rw [Tx.writeLoop]
      split
      · next hn =>
        subst hn
        exact traced_nil h
      · next hn =>
        generalize hm : min n (BSIZE - off % BSIZE) = m
        obtain ⟨hspan, hdisj⟩ := spanned_pass hn hm
        have hmod : off % BSIZE < BSIZE := Nat.mod_lt _ (by decide)
        have hbn : off / BSIZE < MAXFILE := Nat.div_lt_of_lt_mul (by rw [Nat.mul_comm]; omega)
        refine wpE_bind_of (tx_bmap_spec h hbn) ?_
        rintro b x₁ ⟨hb, h₁⟩
        have hb0 : b ≠ 0 := hb ▸ h₁.filled _ (Finset.mem_singleton_self _)
        simp only [wpE_bind, wpE_inTx, wpE_bread, wpE_txLogWrite]
        have h₂ := h₁.write hb hb0 (store (x₁.fs.disk b) (off % BSIZE) src m)
        refine (ih h₂.held (by omega) (by omega)).mono (fun _ x₃ h₃ => ?_) fun _ _ => trivial
        rw [hspan]
        exact h₂.trans h₃ hdisj

theorem needs_needed {s : State} (hn : n ≠ 0) :
    Needs s c (needed (s.inode c).inum (spanned off n)) off n := by
  intro bn hle hlt
  have hbn : bn ∈ spanned off n := by
    rw [spanned, if_neg hn, Finset.mem_Icc]
    refine ⟨hle, ?_⟩
    simp only [BSIZE] at *
    omega
  refine ⟨Finset.mem_union_left _ (Finset.mem_image_of_mem _ hbn), fun hge => ?_⟩
  refine Finset.mem_union_right _ ?_
  rw [if_pos ⟨bn, hbn, hge⟩]
  exact Finset.mem_singleton_self _

theorem tx_writei_refused {off n : UInt32}
    (h : (x.fs.inode c).din.type = T_DEV ∨ WriteRefused (x.fs.inode c).din.size.toNat off n)
    {E : Panic → Prop} : wpE (Tx.writei c src off n) x (fun _ x' => x' = x) E := by
  simp only [Tx.writei, wpE_bind, wpE_inTx, wpE_get]
  split
  · split <;> exact wpE_pure.mpr rfl
  · next hdev =>
    have hbad := h.resolve_left hdev
    simp only [add_lt_left_iff]
    simp only [UInt32.lt_iff_toNat_lt]
    split
    · exact wpE_pure.mpr rfl
    · next hok =>
      rw [not_or, Nat.not_lt, Nat.not_le] at hok
      rw [toNat_add_of_lt hok.2, if_pos ?_]
      · exact wpE_pure.mpr rfl
      · unfold WriteRefused at hbad
        omega

/-- **`writei`** logs what its loop logs, and the inode if the file grows. -/
theorem tx_writei_spec {off n : UInt32} (h : Held x.fs c)
    (hdev : (x.fs.inode c).din.type ≠ T_DEV)
    (hok : ¬ WriteRefused (x.fs.inode c).din.size.toNat off n) (hn : n.toNat ≠ 0) :
    wpE (Tx.writei c src off n) x
      (fun _ x' => ∃ x₁, Traced c (spanned off.toNat n.toNat) x x₁ ∧
        Grown c (needed (x.fs.inode c).inum (spanned off.toNat n.toNat)) x.fs x₁.fs ∧
        (∃ d, x'.fs.inode c = { x.fs.inode c with din := d }) ∧
        x'.blocks = x₁.blocks ++
          if (x.fs.inode c).din.size.toNat < off.toNat + n.toNat then
            [IBLOCK (x.fs.inode c).inum x.fs.sb] else [])
      fun _ => x.fs.slack c (needed (x.fs.inode c).inum (spanned off.toNat n.toNat)) < 0 := by
  unfold WriteRefused at hok
  have hadd : (off + n).toNat = off.toNat + n.toNat := toNat_add_of_lt (by omega)
  have hzero : (0 : UInt32).toNat = 0 := rfl
  have hpos : 0 < n.toNat := by omega
  simp only [Tx.writei, wpE_bind, wpE_inTx, wpE_get]
  rw [if_neg hdev]
  simp only [UInt32.lt_iff_toNat_lt, hadd]
  rw [if_neg (by omega), if_neg (by omega)]
  refine wpE_bind.mpr (((tx_writeLoop_spec h le_rfl (by omega)).and
    ((forgets_writeLoop n.toNat src off.toNat n.toNat).wpE (t := x)
      (writeLoop_spec h le_rfl (by omega) (needs_needed hn)))).mono ?_ fun e he => he.2.2)
  rintro _ x₁ ⟨h₁, h₁'⟩
  obtain ⟨a, ha⟩ := h₁'.grown.self
  simp only [Tx.growTo, wpE_bind, wpE_inTx, wpE_get, UInt32.lt_iff_toNat_lt, h₁.size, hadd,
    hzero, hpos, true_and]
  split
  · simp only [Tx.iupdate, wpE_bind, wpE_inTx, wpE_get, wpE_setDin, wpE_bread, wpE_txLogWrite,
      wpE_pure]
    refine ⟨x₁, h₁, h₁'.grown, ?_, ?_⟩
    · rw [State.write_inode, State.set_self, ha]
      exact ⟨_, rfl⟩
    · rw [State.set_self, State.set_sb, h₁.inum, h₁.sb]
  · simp only [wpE_pure]
    exact ⟨x₁, h₁, h₁'.grown, ⟨_, ha⟩, (List.append_nil _).symm⟩

end Write

end Xv6.Fs
