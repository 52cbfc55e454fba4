import Xv6.Mkfs
import Xv6.Fs.Refine

/-!
# Xv6.Mkfs.Append

`iappend` writes what the kernel's `writei` writes at the end of a file.

While `mkfs` runs, the free map is the number `freeblock`.  `State.seen` is the disk with
that map put in, as the kernel will find it.  From there `balloc` of the kernel takes the
block that `freeblock++` takes, so each part of `iappend` mirrors the part of `writei`
next to which it stands below.
-/

namespace Xv6.Mkfs

open Words Fs

variable {st st' : State} {s s' : Fs.State} {c : Ip} {din : Dinode} {b k inodes : Nat}

/-! ## the free map -/

theorem bitmap_succ (used : Nat) : bitmap (used + 1) = setBit (bitmap used) used := by
  simp [bitmap, List.range_succ]

theorem bitAt_bitmap {used : Nat} (h : used ≤ BPB) (i : Nat) :
    bitAt (bitmap used) i = decide (i < used) := by
  induction used with
  | zero => simp [bitmap, zeroes, bitAt, Words.get]
  | succ used ih =>
      have hin : used / 8 < BSIZE := by
        simp only [BPB, BSIZE] at h ⊢
        omega
      rw [bitmap_succ, bitAt_setBit _ hin, ih (by omega)]
      by_cases hi : i < used
      · simp [hi, Nat.lt_succ_of_lt hi]
      · have heq : i = used ↔ i < used + 1 := by omega
        simp [hi, heq]

theorem isMeta_iff : isMeta sb b ↔ b < nmeta := by
  simp only [isMeta, sb, nmeta, nblocks, nlog, ninodeblocks, nbitmap, NINODES, LOGSIZE,
    MAXOPBLOCKS, FSSIZE, BSIZE, IPB]
  omega

theorem bmapstart_lt : sb.bmapstart < nmeta := by decide

theorem layout : sb.Layout where
  log := by decide
  inodes := by decide
  bitmap := by decide
  fits i hi := by
    simp only [IBLOCK, sb, NINODES, ninodeblocks, IPB, BSIZE] at hi ⊢
    omega
  data b hb := by
    simp only [BBLOCK, sb, FSSIZE, nblocks, nmeta, nlog, ninodeblocks, nbitmap, NINODES, IPB,
      BPB, BSIZE, LOGSIZE, MAXOPBLOCKS] at hb ⊢
    omega

/-- The disk with the free map. -/
def State.seen (st : State) : Nat → Block :=
  Function.update st.disk sb.bmapstart (bitmap st.freeblock)

theorem ne_bmapstart (h : nmeta ≤ b) : b ≠ sb.bmapstart := by
  have := bmapstart_lt
  omega

theorem seen_of_ge (h : nmeta ≤ b) : st.seen b = st.disk b :=
  Function.update_of_ne (ne_bmapstart h) _ _

theorem BBLOCK_eq (hb : b < BPB) : BBLOCK b sb = sb.bmapstart := by
  rw [BBLOCK, Nat.div_eq_of_lt hb, Nat.zero_add]

theorem busy_seen (h : st.freeblock ≤ FSSIZE) (hb : b < BPB) :
    busy sb st.seen b = decide (b < st.freeblock) := by
  have hle : FSSIZE ≤ BPB := by decide
  rw [busy, BBLOCK_eq hb, State.seen, Function.update_self, Nat.mod_eq_of_lt hb,
    bitAt_bitmap (by omega)]

/-! ## one state next to the other -/

/-- `mkfs`, with `din` for the inode at hand, next to the kernel with the inode in
entry `c` of its cache. -/
structure Shows (inodes : Nat) (st : State) (c : Ip) (din : Dinode) (s : Fs.State) : Prop where
  sb : s.sb = sb
  disk : s.disk = st.seen
  din : (s.inode c).din = din
  sectors : st.sectors = FSSIZE
  freeinode : st.freeinode = inodes
  low : nmeta ≤ st.freeblock
  high : st.freeblock ≤ FSSIZE
  /-- blocks that were not handed out were not written -/
  zero : ∀ b, st.freeblock ≤ b → st.disk b = zeroes

namespace Shows

theorem rsect (h : Shows inodes st c din s) (hb : b < FSSIZE) {Q : Block → State → Prop} :
    wp (rsect b) st Q ↔ Q (st.disk b) st := by
  simp only [Mkfs.rsect, wp_bind, wp_get]
  rw [if_pos (by rw [h.sectors]; exact hb), wp_pure]

/-- A block other than the bitmap is written on both sides. -/
theorem write (h : Shows inodes st c din s) (hne : b ≠ Mkfs.sb.bmapstart) (hb : b < st.freeblock)
    (data : Block) :
    Shows inodes { st with
      disk := Function.update st.disk b data
      sectors := max st.sectors (b + 1) } c din (s.write b data) where
  sb := h.sb
  disk := by
    rw [State.write_disk, h.disk, State.seen, State.seen, Function.update_comm hne.symm]
  din := h.din
  sectors := by
    have := h.high
    change max st.sectors (b + 1) = FSSIZE
    rw [h.sectors]
    omega
  freeinode := h.freeinode
  low := h.low
  high := h.high
  zero e he := by
    have he : st.freeblock ≤ e := he
    rw [← h.zero e he]
    exact Function.update_of_ne (by omega) _ _

/-- A block is taken on both sides. -/
theorem take (h : Shows inodes st c din s) (hlt : st.freeblock < FSSIZE) :
    Shows inodes { st with freeblock := st.freeblock + 1 } c din (s.take st.freeblock) where
  sb := h.sb
  disk := by
    have hle : FSSIZE ≤ BPB := by decide
    have hne := ne_bmapstart h.low
    have hbit : BBLOCK st.freeblock s.sb = Mkfs.sb.bmapstart := by
      rw [h.sb, BBLOCK_eq (by omega)]
    have hzero : (fun _ => 0 : Block) = st.disk st.freeblock := (h.zero _ le_rfl).symm
    rw [State.take, State.write_disk, State.write_disk, hbit, h.disk, State.seen,
      Function.update_self, Nat.mod_eq_of_lt (by omega), ← bitmap_succ, hzero, State.seen,
      Function.update_idem, Function.update_comm hne.symm, Function.update_eq_self]
  din := h.din
  sectors := h.sectors
  freeinode := h.freeinode
  low := Nat.le_succ_of_le h.low
  high := hlt
  zero e he := h.zero e (Nat.le_of_succ_le he)

/-- The inode at hand changes on both sides. -/
theorem set (h : Shows inodes st c din s) {ip : Inode} (hdin : ip.din = din') :
    Shows inodes st c din' (s.set c ip) where
  sb := h.sb
  disk := h.disk
  din := by rw [State.set_self, hdin]
  sectors := h.sectors
  freeinode := h.freeinode
  low := h.low
  high := h.high
  zero := h.zero

/-- A block in a slot was handed out. -/
theorem of_ref (h : Shows inodes st c din s) (hh : Held s c) {x : Nat × Slot}
    (hr : s.ref c x = some b) : nmeta ≤ b ∧ b < st.freeblock := by
  have hle : FSSIZE ≤ BPB := by decide
  have hmeta := hh.cons.not_isMeta hr
  have hlt := hh.cons.lt_size hr
  have hbusy := hh.cons.own.busy_of_ref hr
  rw [h.sb, isMeta_iff] at hmeta
  rw [h.sb] at hlt hbusy
  have hlt : b < FSSIZE := hlt
  rw [h.disk, busy_seen h.high (by omega), decide_eq_true_eq] at hbusy
  omega

end Shows

/-! ## blocks -/

/-- `bread` and `rsect`. -/
theorem bread_mirrors (h : Shows inodes st c din s) (hlow : nmeta ≤ b) (hb : b < st.freeblock) :
    Mirrors (bread b) s (rsect b) st fun data s' data' st' =>
      data' = data ∧ data = s.disk b ∧ s' = s ∧ st' = st := by
  have hdisk : s.disk b = st.disk b := by rw [h.disk, seen_of_ge hlow]
  exact (h.rsect (hb.trans_le h.high)).mpr ⟨hdisk.symm, rfl, rfl, rfl⟩

/-- `log_write` and `wsect`. -/
theorem logWrite_mirrors (h : Shows inodes st c din s) (hlow : nmeta ≤ b) (hb : b < st.freeblock)
    (data : Block) :
    Mirrors (logWrite b data) s (wsect b data) st fun _ s' _ st' =>
      s' = s.write b data ∧ Shows inodes st' c din s' :=
  wp_modify.mpr ⟨rfl, h.write (ne_bmapstart hlow) hb data⟩

/-- `balloc` and `freeblock++`. -/
theorem balloc_mirrors (h : Shows inodes st c din s) :
    Mirrors Fs.balloc s nextBlock st fun b s' b' st' =>
      b' = b ∧ b = st.freeblock ∧ b < FSSIZE ∧ s' = s.take b ∧
        st' = { st with freeblock := st.freeblock + 1 } ∧ Shows inodes st' c din s' := by
  have hle : FSSIZE ≤ BPB := by decide
  refine wpE.mono ((balloc_spec s).and (balloc_first s)) ?_ fun _ _ => trivial
  rintro b s' ⟨⟨hlt, hfree, rfl⟩, hfirst⟩
  rw [h.sb] at hlt hfree hfirst
  have hlt : b < FSSIZE := hlt
  rw [h.disk, busy_seen h.high (by omega), decide_eq_false_iff_not] at hfree
  obtain rfl : b = st.freeblock := by
    by_contra hne
    have hbusy := hfirst st.freeblock (by omega) (show st.freeblock < FSSIZE by omega)
    rw [h.disk, busy_seen h.high (by omega), decide_eq_true_eq] at hbusy
    omega
  unfold nextBlock
  rw [wp_bind, wp_get, wp_bind, wp_modify, wp_pure]
  exact ⟨rfl, rfl, hlt, rfl, rfl, h.take hlt⟩

theorem bmapAddr_mirrors (h : Shows inodes st c din s) (hk : k ≤ NDIRECT) :
    Mirrors (bmapAddr c k) s (appendAddr din k) st fun b s' din' st' =>
      b = (din'.addr k).toNat ∧ Shows inodes st' c din' s' := by
  unfold Mirrors bmapAddr
  rw [wpE_bind, wpE_get, h.din]
  unfold appendAddr
  by_cases hzero : din.addr k = 0
  · simp only [if_pos hzero]
    refine Mirrors.bind (balloc_mirrors h) ?_
    rintro b s' b' st' ⟨rfl, -, hlt, -, -, h'⟩
    refine wp_pure.mpr ⟨?_, h'.set (by simp only [h'.din])⟩
    rw [Dinode.addr_setAddr_self _ hk, UInt32.toNat_ofNat_of_lt' (hlt.trans (by decide))]
  · simp only [if_neg hzero]
    exact wp_pure.mpr ⟨rfl, h⟩

theorem bmapEntry_mirrors (h : Shows inodes st c din s) {x : Nat} (hlow : nmeta ≤ x)
    (hx : x < st.freeblock) (hk : k < NINDIRECT) :
    Mirrors (bmapEntry x k) s (appendEntry x k) st fun b s' b' st' =>
      b' = b ∧ Shows inodes st' c din s' := by
  have hin : 4 * k + 4 ≤ BSIZE := by
    simp only [NINDIRECT, BSIZE] at hk ⊢
    omega
  have hread : s.disk x = st.disk x := by rw [h.disk, seen_of_ge hlow]
  unfold Mirrors bmapEntry
  rw [wpE_bind, wpE_bread, hread]
  unfold appendEntry
  simp only [wp_bind, h.rsect (hx.trans_le h.high)]
  by_cases hzero : le32 (st.disk x) (4 * k) = 0
  · simp only [if_pos hzero]
    refine Mirrors.bind (balloc_mirrors h) ?_
    rintro _ _ _ _ ⟨rfl, rfl, hlt, rfl, rfl, h'⟩
    -- the indirect block is the same after `balloc`
    have hsame : (s.take st.freeblock).disk x = st.disk x := by
      rw [h'.disk, seen_of_ge hlow]
    rw [Mirrors, wpE_bind, wpE_bread, wpE_bind, wpE_logWrite, wpE_pure, hsame, wp_bind, wsect,
      wp_modify, wp_pure]
    refine ⟨?_, h'.write (ne_bmapstart hlow) (Nat.lt_succ_of_lt hx) _⟩
    rw [le32_putLe32 _ hin, Nat.mod_eq_of_lt (hlt.trans (by decide))]
  · simp only [if_neg hzero]
    exact wp_pure.mpr ⟨rfl, h⟩

/-- **`bmap`** and the block map of `iappend`. -/
theorem bmap_mirrors (h : Shows inodes st c din s) (hh : Held s c) {bn : Nat} (hbn : bn < MAXFILE) :
    Mirrors (bmap c bn) s (appendBlock din bn) st fun b s' r st' =>
      r.1 = b ∧ Shows inodes st' c r.2 s' := by
  unfold bmap appendBlock
  by_cases hdirect : bn < NDIRECT
  · simp only [if_pos hdirect]
    refine (bmapAddr_mirrors h hdirect.le).bind_right ?_
    rintro _ s' din' st' ⟨rfl, h'⟩
    exact wp_pure.mpr ⟨rfl, h'⟩
  · have hin : bn - NDIRECT < NINDIRECT := by
      unfold MAXFILE at hbn
      omega
    simp only [if_neg hdirect, if_pos hin]
    have hspec : wpE (bmapAddr c NDIRECT) s
        (Mapped c {((s.inode c).inum, slotOf NDIRECT)} (slotOf NDIRECT) s) _ :=
      bmapAddr_spec hh le_rfl (Finset.mem_singleton_self _)
    refine Mirrors.bind ((bmapAddr_mirrors h le_rfl).and hspec) ?_
    rintro _ s₁ din₁ st₁ ⟨hmap, rfl, h₁⟩
    obtain ⟨hlow, hx⟩ := h₁.of_ref hmap.held hmap.ref
    refine (bmapEntry_mirrors h₁ hlow hx hin).bind_right ?_
    rintro b s₂ _ st₂ ⟨rfl, h₂⟩
    exact wp_pure.mpr ⟨rfl, h₂⟩

/-! ## the loop -/

theorem in_block (off n : Nat) :
    min n ((off / BSIZE + 1) * BSIZE - off) = min n (BSIZE - off % BSIZE) ∧
      off - off / BSIZE * BSIZE = off % BSIZE := by
  simp only [BSIZE]
  omega

/-- **The loops** of `writei` and of `iappend`. -/
theorem writeLoop_mirrors {fuel : Nat} {src : Nat → UInt8} {off n : Nat}
    (h : Shows inodes st c din s) (hh : Held s c) (hfuel : n ≤ fuel)
    (hmax : off + n ≤ MAXFILE * BSIZE) :
    Mirrors (writeLoop c fuel src off n) s (appendLoop fuel din src off n) st fun _ s' r st' =>
      r.2 = off + n ∧ Shows inodes st' c r.1 s' := by
  induction fuel generalizing s st din src off n with
  | zero =>
      obtain rfl : n = 0 := by omega
      exact wp_pure.mpr ⟨rfl, h⟩
  | succ fuel ih =>
      rw [writeLoop, appendLoop]
      by_cases hn : n = 0
      · subst hn
        exact wp_pure.mpr ⟨rfl, h⟩
      · have hbn : off / BSIZE < MAXFILE := by
          simp only [BSIZE] at hmax ⊢
          omega
        rw [if_neg hn, if_neg hn, if_neg (by omega)]
        generalize hneed : ({((s.inode c).inum, .block (off / BSIZE)),
          ((s.inode c).inum, .indirect)} : Finset (Nat × Slot)) = need
        have hblock : ((s.inode c).inum, Slot.block (off / BSIZE)) ∈ need := by simp [← hneed]
        have hind : ((s.inode c).inum, Slot.indirect) ∈ need := by simp [← hneed]
        have hspec := bmap_spec hh hbn hblock fun _ => hind
        refine Mirrors.bind ((bmap_mirrors h hh hbn).and hspec) ?_
        rintro b s₁ ⟨_, din₁⟩ st₁ ⟨hmap, rfl, h₁⟩
        obtain ⟨hlow, hx⟩ := h₁.of_ref hmap.held hmap.ref
        obtain ⟨hlen, hmod⟩ := in_block off n
        simp only [hlen, hmod]
        have hpos : off % BSIZE < BSIZE := Nat.mod_lt _ (by decide)
        generalize hm : min n (BSIZE - off % BSIZE) = m
        refine Mirrors.bind (bread_mirrors h₁ hlow hx) ?_
        rintro _ _ _ _ ⟨rfl, rfl, rfl, rfl⟩
        refine Mirrors.bind (logWrite_mirrors h₁ hlow hx _) ?_
        rintro _ _ _ st₂ ⟨rfl, h₂⟩
        refine (ih h₂ (hmap.held.write hmap.ref _) (by omega) (by omega)).mono ?_
        rintro _ s₃ r st₃ ⟨hoff, h₃⟩
        exact ⟨by omega, h₃⟩

/-! ## the whole of `iappend` -/

/-- What holds of the image between the calls of `iappend`. -/
structure Built (inodes : Nat) (st : State) : Prop where
  cons : Consistent sb st.seen (dinode sb st.seen)
  sectors : st.sectors = FSSIZE
  freeinode : st.freeinode = inodes
  low : nmeta ≤ st.freeblock
  high : st.freeblock ≤ FSSIZE
  zero : ∀ b, st.freeblock ≤ b → st.disk b = zeroes

/-- The state of the kernel in an operation on inode `i`. -/
def State.kernel (st : State) (i : Nat) : Fs.State where
  sb := sb
  disk := st.seen
  inode _ := ⟨i, 1, true, true, dinode sb st.seen i⟩
  devsw := ⟨fun _ => none, fun _ => none⟩

variable {i : Nat}

theorem kernel_ino (st : State) (i : Nat) (c : Ip) :
    (st.kernel i).ino c = dinode sb st.seen := ino_eq_dinode rfl

theorem Built.shows (h : Built inodes st) (i : Nat) (c : Ip) :
    Shows inodes st c (dinode sb st.seen i) (st.kernel i) :=
  ⟨rfl, rfl, rfl, h.sectors, h.freeinode, h.low, h.high, h.zero⟩

theorem Built.held (h : Built inodes st) (hi : i < NINODES)
    (htype : (dinode sb st.seen i).type ≠ 0) (c : Ip) : Held (st.kernel i) c where
  cons := by
    rw [kernel_ino]
    exact h.cons
  inum_lt := hi
  type_ne := htype

theorem IBLOCK_lt (hi : i < NINODES) : IBLOCK i sb < sb.bmapstart := layout.fits i hi

theorem seen_IBLOCK (st : State) (hi : i < NINODES) :
    st.seen (IBLOCK i sb) = st.disk (IBLOCK i sb) :=
  Function.update_of_ne (IBLOCK_lt hi).ne _ _

theorem IBLOCK_lt_FSSIZE (hi : i < NINODES) : IBLOCK i sb < FSSIZE :=
  (IBLOCK_lt hi).trans (by decide)

theorem Shows.rinode (h : Shows inodes st c din s) (hi : i < NINODES)
    {Q : Dinode → State → Prop} : wp (rinode i) st Q ↔ Q (dinode Mkfs.sb st.seen i) st := by
  rw [Mkfs.rinode, wp_bind, h.rsect (IBLOCK_lt_FSSIZE hi), wp_pure, dinode, seen_IBLOCK st hi]

/-- `iupdate` and `winode`. -/
theorem iupdate_mirrors (h : Shows inodes st c din s) (hi : i < NINODES)
    (hinum : (s.inode c).inum = i) :
    Mirrors (iupdate c) s (winode i din) st fun _ s' _ st' =>
      s' = s.flush c ∧ Shows inodes st' c din s' := by
  have hlt : IBLOCK i sb < st.freeblock := by
    have := IBLOCK_lt hi
    have := bmapstart_lt
    have := h.low
    omega
  have hflush : s.flush c = s.write (IBLOCK i sb)
      (putDinode (st.disk (IBLOCK i sb)) (i % IPB) din) := by
    rw [State.flush, hinum, h.sb, h.din, h.disk, seen_IBLOCK st hi]
  refine wpE.mono (iupdate_spec s c (E := fun _ => False)) ?_ fun _ _ => trivial
  rintro _ _ rfl
  rw [winode, wp_bind, h.rsect (IBLOCK_lt_FSSIZE hi), wsect, wp_modify]
  refine ⟨rfl, ?_⟩
  change Shows inodes _ c din (s.flush c)
  rw [hflush]
  exact h.write (IBLOCK_lt hi).ne hlt _

/-- **`writei`** at the end of a file, and `iappend`. -/
theorem writei_mirrors (h : Built inodes st) (hi : i < NINODES)
    (htype : (dinode sb st.seen i).type ≠ 0) (hdev : (dinode sb st.seen i).type ≠ T_DEV)
    {p : List UInt8} (hp : 0 < p.length)
    (hmax : (dinode sb st.seen i).size.toNat + p.length ≤ MAXFILE * BSIZE) (c : Ip) :
    Mirrors
      (writei c (fun k => p.getD k 0) (dinode sb st.seen i).size (UInt32.ofNat p.length))
      (st.kernel i) (iappend i p) st fun _ s' _ st' => Shows inodes st' c (s'.inode c).din s' := by
  have hshow := h.shows i c
  have hheld := h.held hi htype c
  generalize hd : dinode sb st.seen i = d at *
  have hlen : (UInt32.ofNat p.length).toNat = p.length := by
    have : MAXFILE * BSIZE < 2 ^ 32 := by decide
    exact UInt32.toNat_ofNat_of_lt' (by unfold UInt32.size; omega)
  have hsum : (d.size + UInt32.ofNat p.length).toNat = d.size.toNat + p.length := by
    have : MAXFILE * BSIZE < 2 ^ 32 := by decide
    rw [toNat_add_of_lt (by omega), hlen]
  have hdin : ((st.kernel i).inode c).din = d := hshow.din
  have hoff : ¬ (d.size < d.size ∨ d.size + UInt32.ofNat p.length < d.size) := by
    rw [add_lt_left_iff, UInt32.lt_iff_toNat_lt]
    have : MAXFILE * BSIZE < 2 ^ 32 := by decide
    omega
  unfold Mirrors writei
  rw [wpE_bind, wpE_get]
  simp only [hdin]
  rw [if_neg hdev, if_neg hoff, if_neg (by omega), hlen]
  have hread : wp (rinode i) st fun din t => din = d ∧ t = st := (hshow.rinode hi).mpr ⟨hd, rfl⟩
  refine Mirrors.skip_right (R := fun _ s' _ st' => Shows inodes st' c (s'.inode c).din s')
    hread ?_
  rintro d st ⟨rfl, rfl⟩
  have hspec : wpE (writeLoop c p.length (fun k => p.getD k 0) d.size.toNat p.length)
      (st.kernel i) _ _ := writeLoop_spec hheld le_rfl hmax (needs_slotsBelow le_rfl)
  refine Mirrors.bind ((writeLoop_mirrors hshow hheld le_rfl hmax).and hspec) ?_
  rintro _ s₁ ⟨din₁, off₁⟩ st₁ ⟨hloop, hoff₁, h₁⟩
  obtain rfl : off₁ = _ := hoff₁
  have hsize : (s₁.inode c).din.size = _ := hloop.grown.size
  have hinum : (s₁.inode c).inum = i := hloop.grown.inum
  rw [hdin] at hsize
  -- the size grows
  have hgrow : 0 < UInt32.ofNat p.length ∧
      (s₁.inode c).din.size < d.size + UInt32.ofNat p.length := by
    rw [hsize, UInt32.lt_iff_toNat_lt, UInt32.lt_iff_toNat_lt, hsum, hlen]
    exact ⟨hp, by omega⟩
  have hnew : d.size + UInt32.ofNat p.length = UInt32.ofNat (d.size.toNat + p.length) := by
    rw [← hsum, UInt32.ofNat_toNat]
  unfold Mirrors growTo
  rw [wpE_bind, wpE_bind, wpE_get, if_pos hgrow, wpE_bind, wpE_setDin, h₁.din, hnew]
  have h₂ : Shows inodes st₁ c { din₁ with size := UInt32.ofNat (d.size.toNat + p.length) }
      (s₁.set c { s₁.inode c with
        din := { din₁ with size := UInt32.ofNat (d.size.toNat + p.length) } }) := h₁.set rfl
  refine wpE.mono (iupdate_mirrors h₂ hi ?_) ?_ fun _ he => he
  · rw [State.set_self]
    exact hinum
  · rintro _ s₃ hw
    refine wpE_pure.mpr (hw.mono ?_)
    rintro _ st₃ ⟨rfl, h₃⟩
    rw [h₃.din]
    exact h₃

/-- The bytes of inode `i`. -/
def State.file (st : State) (i : Nat) : List UInt8 := content st.seen (dinode sb st.seen i)

/-- The free blocks that are left if the slots in `need` are all filled. -/
def State.slack (st : State) (need : Finset (Nat × Slot)) : Int :=
  Xv6.slack (Finset.range FSSIZE) (busy sb st.seen) need (ref sb st.seen (dinode sb st.seen))

/-- Bytes were appended to inode `i`. -/
structure Appended (need : Finset (Nat × Slot)) (i : Nat) (p : List UInt8) (st st' : State) :
    Prop where
  self : ∃ a, dinode sb st'.seen i = { dinode sb st.seen i with
    addrs := a, size := UInt32.ofNat ((dinode sb st.seen i).size.toNat + p.length) }
  file : st'.file i = st.file i ++ p
  dinode : ∀ j < NINODES, j ≠ i → dinode sb st'.seen j = dinode sb st.seen j
  other : ∀ j < NINODES, j ≠ i → (Fs.dinode sb st.seen j).type ≠ 0 → st'.file j = st.file j
  slack : st'.slack need = st.slack need

theorem bytes_getD (p : List UInt8) : File.bytes (fun k => p.getD k 0) p.length = p := by
  apply List.ext_getElem
  · simp [File.bytes]
  · intro k h1 h2
    simp [File.bytes, h2]

theorem overwrite_length (f bs : List UInt8) : File.overwrite f f.length bs = f ++ bs := by
  simp [File.overwrite]

/-- **`iappend`** appends. -/
theorem iappend_spec (h : Built inodes st) (hi : i < NINODES)
    (htype : (dinode sb st.seen i).type ≠ 0) (hdev : (dinode sb st.seen i).type ≠ T_DEV)
    {p : List UInt8} (hp : 0 < p.length)
    (hmax : (dinode sb st.seen i).size.toNat + p.length ≤ MAXFILE * BSIZE)
    {need : Finset (Nat × Slot)}
    (hneed : slotsBelow i (((dinode sb st.seen i).size.toNat + p.length + BSIZE - 1) / BSIZE) ⊆ need)
    (hslack : 0 ≤ st.slack need) :
    wp (iappend i p) st fun _ st' => Built inodes st' ∧ Appended need i p st st' := by
  have hheld := h.held hi htype first
  have hbig : MAXFILE * BSIZE < 2 ^ 32 := by decide
  have hlen : (UInt32.ofNat p.length).toNat = p.length :=
    UInt32.toNat_ofNat_of_lt' (by unfold UInt32.size; omega)
  have hdin : ((st.kernel i).inode first).din = dinode sb st.seen i := rfl
  have hslots : Needs (st.kernel i) first need (dinode sb st.seen i).size.toNat p.length := by
    intro bn hle hlt
    obtain ⟨hblock, hind⟩ := needs_slotsBelow (s := st.kernel i) (c := first) le_rfl bn hle hlt
    exact ⟨hneed hblock, fun hge => hneed (hind hge)⟩
  have hspec : wpE (writei first (fun k => p.getD k 0) (dinode sb st.seen i).size
      (UInt32.ofNat p.length)) (st.kernel i) _ _ :=
    writei_spec hheld rfl hdev fun _ => by rw [hlen]; exact hslots
  have hnot : ¬ WriteRefused ((st.kernel i).inode first).din.size.toNat
      (dinode sb st.seen i).size (UInt32.ofNat p.length) := by
    unfold WriteRefused
    rw [hlen, hdin]
    omega
  have hkernel : (st.kernel i).slack first need = st.slack need := by
    unfold Fs.State.slack State.slack Fs.State.ref
    rw [kernel_ino]
    rfl
  have hwrite := hspec.returns fun e he => absurd he.2.2 (by omega)
  refine ((writei_mirrors h hi htype hdev hp hmax first).returns hwrite).mono ?_
  rintro _ st' ⟨r, s', hr, hshow⟩
  obtain ⟨-, -, hw⟩ := hr.resolve_left fun hc => hnot hc.1
  rw [hlen] at hw
  -- back from the kernel's state to the image
  have hsync : dinode sb st'.seen i = (s'.inode first).din := by
    rw [← hshow.disk]
    exact hw.synced
  have hino : s'.ino first = dinode sb st'.seen := by
    rw [← hshow.disk, ← hshow.sb]
    refine ino_eq_dinode ?_
    rw [hw.inum, hshow.sb]
    exact hw.synced
  refine ⟨⟨?_, hshow.sectors, hshow.freeinode, hshow.low, hshow.high, hshow.zero⟩, ?_⟩
  · have hcons := hw.held.cons
    rw [hino, hshow.sb, hshow.disk] at hcons
    exact hcons
  constructor
  case self =>
    obtain ⟨a, ha⟩ := hw.self
    refine ⟨a, ?_⟩
    rw [hsync, ha, max_eq_right (by rw [hdin]; omega)]
    rfl
  case file =>
    have hcontent := hw.content hheld le_rfl (by omega)
    rw [hshow.disk, ← hsync] at hcontent
    unfold State.file
    rw [hcontent, bytes_getD]
    have happend := overwrite_length (st.file i) p
    rw [State.file, length_content] at happend
    exact happend
  case dinode =>
    intro j hj hne
    rw [← hshow.disk]
    exact hw.dinode j hj hne
  case other =>
    intro j hj hne hj'
    have hcontent := hw.content_other hheld hj hne hj'
    have hsame := hw.dinode j hj hne
    rw [hshow.disk] at hcontent hsame
    unfold State.file
    rw [show Fs.dinode sb st'.seen j = Fs.dinode sb st.seen j from hsame]
    exact hcontent
  case slack =>
    have hs := hw.slack
    rw [hkernel] at hs
    rw [← hs]
    unfold Fs.State.slack State.slack Fs.State.ref
    rw [hino, hshow.sb, hshow.disk]
    rfl

end Xv6.Mkfs
