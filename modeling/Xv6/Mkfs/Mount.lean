import Xv6.Fs.Name
import Xv6.Mkfs.Blocks

/-!
# Xv6.Mkfs.Mount

The kernel on the image that `mkfs` leaves.

`namei` of `/name` finds the file in the root directory and `readi` delivers its bytes,
however the host cut them into pieces (`mkfs_read_back`).  This does not depend on the
size of the root directory: an entry is read before the end of the entries is reached.

A leading `_` is not part of the name.  A file `_` gets an entry with an empty name, which
no path has: `/` is the root directory (`namei_underscore`).
-/

namespace Xv6.Mkfs

open Words Fs

variable {st : State} {files : List HostFile} {s : Fs.State} {c : Ip}

/-- A kernel that runs on the disk: the copies in the cache are those on the disk, no inode
but those of `L` is locked, and `n` entries of the cache are unused. -/
structure Serving (disk : Nat → Block) (L : Finset Ip) (n : Nat) (s : Fs.State) : Prop where
  sb : s.sb = getSuper (disk 1)
  disk : s.disk = disk
  copy : ∀ c, 0 < (s.inode c).ref → (s.inode c).valid = true →
    (s.inode c).din = dinode s.sb s.disk (s.inode c).inum
  idle : ∀ c, 0 < (s.inode c).ref → c ∉ L → (s.inode c).busy = false
  locked : ∀ c ∈ L, 0 < (s.inode c).ref ∧ (s.inode c).busy = true ∧ (s.inode c).valid = true
  unused : n ≤ (Finset.univ.filter fun c => (s.inode c).ref = 0).card

/-- The entry is a reference to the inode. -/
def Names (s : Fs.State) (c : Ip) (inum : Nat) : Prop :=
  0 < (s.inode c).ref ∧ (s.inode c).inum = inum

/-- `namei`, and `readi` over the whole size: the type of the inode, the value returned and
the bytes. -/
def readAll (cwd : Ip) (path : List UInt8) : Fs.M (Option (Int16 × Int32 × List UInt8)) := do
  match ← namei cwd path with
  | none => return none
  | some ip => do
      ilock ip
      let d := ((← get).inode ip).din
      let (r, bytes) ← readi ip 0 d.size
      return some (d.type, r, bytes)

/-! ## the cache of a serving kernel -/

section Serving

variable {disk : Nat → Block} {L : Finset Ip} {n inum : Nat}

/-- One entry changes. -/
theorem Serving.set (h : Serving disk L n s) {ip : Inode} {L' : Finset Ip} {n' : Nat}
    (hcopy : 0 < ip.ref → ip.valid = true → ip.din = dinode s.sb s.disk ip.inum)
    (hidle : 0 < ip.ref → c ∉ L' → ip.busy = false)
    (hlocked : c ∈ L' → 0 < ip.ref ∧ ip.busy = true ∧ ip.valid = true)
    (hL : ∀ e ≠ c, e ∈ L' ↔ e ∈ L)
    (hn : n' ≤ (Finset.univ.filter fun e => ((s.set c ip).inode e).ref = 0).card) :
    Serving disk L' n' (s.set c ip) where
  sb := h.sb
  disk := h.disk
  copy e he := by
    by_cases hec : e = c
    · subst hec
      rw [State.set_self] at he ⊢
      exact hcopy he
    · rw [State.set_of_ne s ip hec] at he ⊢
      exact h.copy e he
  idle e he := by
    by_cases hec : e = c
    · subst hec
      rw [State.set_self] at he ⊢
      exact hidle he
    · rw [State.set_of_ne s ip hec] at he ⊢
      rw [hL e hec]
      exact h.idle e he
  locked e he := by
    by_cases hec : e = c
    · subst hec
      rw [State.set_self]
      exact hlocked he
    · rw [State.set_of_ne s ip hec]
      exact h.locked e ((hL e hec).mp he)
  unused := hn

/-- Entries that are unused stay so if only one changes that is in use. -/
theorem unused_set (h : Serving disk L n s) {ip : Inode} (hc : 0 < (s.inode c).ref) :
    n ≤ (Finset.univ.filter fun e => ((s.set c ip).inode e).ref = 0).card := by
  refine h.unused.trans (Finset.card_le_card fun e he => ?_)
  simp only [Finset.mem_filter, Finset.mem_univ, true_and] at he ⊢
  rwa [State.set_of_ne s ip (by rintro rfl; omega)]

theorem serving_iget (h : Serving disk L (n + 1) s) (inum : Nat) :
    wp (iget inum) s fun c s' => Serving disk L n s' ∧ Names s' c inum ∧
      ∀ e i, Names s e i → Names s' e i := by
  refine wpE.returns (wpE.mono (iget_cases s inum) ?_ ?_) fun _ he => he
  · rintro c _ (⟨hc, hi, rfl⟩ | ⟨hmiss, hc, rfl⟩)
    · refine ⟨?_, ⟨by simp, by simpa using hi⟩, ?_⟩
      · exact h.set (fun _ => h.copy c hc) (fun _ => h.idle c hc)
          (fun hL => ⟨Nat.succ_pos _, (h.locked c hL).2⟩) (fun _ _ => Iff.rfl)
          (Nat.le_of_succ_le (unused_set h hc))
      · intro e i he
        by_cases hec : e = c
        · subst hec
          exact ⟨by simp, by simpa using he.2⟩
        · rwa [Names, State.set_of_ne s _ hec]
    · refine ⟨?_, ⟨by simp, by simp⟩, ?_⟩
      · refine h.set (fun _ hv => absurd hv (by simp)) (fun _ _ => rfl)
          (fun hL => absurd (h.locked c hL).1 (by omega)) (fun _ _ => Iff.rfl) ?_
        have herase : (Finset.univ.filter fun e => (s.inode e).ref = 0).erase c ⊆
            Finset.univ.filter fun e => ((s.set c { s.inode c with
              inum := inum, ref := 1, busy := false, valid := false }).inode e).ref = 0 := by
          intro e he
          simp only [Finset.mem_erase, Finset.mem_filter, Finset.mem_univ, true_and] at he ⊢
          rw [State.set_of_ne s _ he.1]
          exact he.2
        have hcard := Finset.card_le_card herase
        rw [Finset.card_erase_of_mem (by simp [hc])] at hcard
        have := h.unused
        omega
      · intro e i he
        rwa [Names, State.set_of_ne s _ (by rintro rfl; exact absurd he.1 (by omega))]
  · rintro e ⟨-, -, hfull⟩
    have hempty : (Finset.univ.filter fun c => (s.inode c).ref = 0) = ∅ := by
      apply Finset.filter_eq_empty_iff.mpr
      intro c _
      have := hfull c
      omega
    have := h.unused
    rw [hempty] at this
    simp at this

theorem serving_ilock (h : Serving disk ∅ n s) (hc : Names s c inum)
    (htype : (dinode s.sb s.disk inum).type ≠ 0) :
    wp (ilock c) s fun _ s' => Serving disk {c} n s' ∧ (∀ e i, Names s e i → Names s' e i) ∧
      (s'.inode c).din = dinode s'.sb s'.disk inum := by
  have hbusy := h.idle c hc.1 (Finset.notMem_empty c)
  have hfetch : s.fetched c = dinode s.sb s.disk inum := by
    rw [State.fetched, ← hc.2]
    split
    · next hv => exact h.copy c hc.1 hv
    · rfl
  refine wpE.returns (wpE.mono (ilock_cases s c) ?_ ?_) fun _ he => he
  · rintro _ _ ⟨-, -, -, rfl⟩
    refine ⟨?_, ?_, by rw [State.set_self, hfetch]; rfl⟩
    · exact h.set (fun _ _ => by rw [hfetch, hc.2]) (fun _ hL => absurd (by simp) hL)
        (fun _ => ⟨hc.1, rfl, rfl⟩) (fun e he => by simp [he]) (unused_set h hc.1)
    · intro e i he
      by_cases hec : e = c
      · subst hec
        rwa [Names, State.set_self]
      · rwa [Names, State.set_of_ne s _ hec]
  · rintro e (⟨-, href⟩ | ⟨-, hb⟩ | ⟨-, -, ht⟩)
    · exact absurd hc.1 (by omega)
    · rw [hbusy] at hb
      cases hb
    · exact htype (hfetch ▸ ht)

/-- `iunlockput` of an inode that has a link. -/
theorem serving_iunlockput (h : Serving disk {c} n s) (hc : Names s c inum)
    (hlink : (dinode s.sb s.disk inum).nlink ≠ 0) :
    wp (iunlockput c) s fun _ s' => Serving disk ∅ n s' ∧
      ∀ e i, e ≠ c → Names s e i → Names s' e i := by
  obtain ⟨href, hbusy, hvalid⟩ := h.locked c (Finset.mem_singleton_self c)
  have hdin := h.copy c href hvalid
  rw [hc.2] at hdin
  have hun : wp (iunlock c) s fun _ s' => s' = s.set c { s.inode c with busy := false } := by
    refine wpE.returns (wpE.mono (iunlock_cases s c) (fun _ s' hs => hs.2.2) ?_) fun _ he => he
    rintro e ⟨-, h0 | hb⟩
    · omega
    · rw [hbusy] at hb
      cases hb
  refine wp_bind_of hun ?_
  rintro _ _ rfl
  have hput := iput_keeps (s := s.set c { s.inode c with busy := false }) (c := c)
    (by rw [State.set_self]; rintro ⟨-, -, hl⟩; exact hlink (hdin ▸ hl))
  refine hput.mono ?_
  rintro _ _ rfl
  rw [State.set_self, State.set_set]
  refine ⟨?_, ?_⟩
  · exact h.set (fun _ _ => by rw [hc.2]; exact hdin) (fun _ _ => rfl)
      (fun hL => absurd hL (by simp)) (fun e he => by simp [he]) (unused_set h href)
  · intro e i hec he
    rwa [Names, State.set_of_ne s _ hec]

end Serving

/-! ## reading the image -/

section Image

variable (h : Progress (needOf files) (FSSIZE - nmeta - (needOf files).card) files st)
include h

/-- Contents are not in the inode blocks. -/
theorem finish_fileByte {i : Nat} (hi : i < NINODES) (htype : (dinode sb st.seen i).type ≠ 0)
    {o : Nat} (ho : o < (dinode sb st.seen i).size.toNat) :
    slotAddr st.finish.disk (dinode sb st.finish.disk i) (.block (o / BSIZE)) ≠ 0 ∧
      some (fileByte st.finish.disk (dinode sb st.finish.disk i) o) = (st.file i)[o]? := by
  have hne := h.built.cons.filled i hi htype (o / BSIZE)
    ((Nat.div_mul_le_self o BSIZE).trans_lt ho)
  have hslot := finish_slotAddr h.built hi htype (.block (o / BSIZE))
  have hdata := h.built.cons.not_isMeta (ref_eq_some.mpr ⟨hi, htype, rfl, hne⟩)
  refine ⟨by rw [hslot]; exact hne, ?_⟩
  rw [State.file, getElem?_content _ _ ho, fileByte, hslot, finish_disk,
    seen_putInode_of_data st root_lt _ hdata, fileByte]

/-- `readi` inside the bytes that were written. -/
theorem readi_finish (hdisk : s.disk = st.finish.disk) {i : Nat} (hi : i < NINODES)
    (hdin : (s.inode c).din = dinode sb st.finish.disk i)
    (htype : (dinode sb st.seen i).type ≠ 0) {off n : UInt32}
    (hend : off.toNat + n.toNat ≤ (dinode sb st.seen i).size.toNat)
    (hsize : (dinode sb st.seen i).size.toNat ≤ (s.inode c).din.size.toNat) :
    wp (readi c off n) s fun r s' => s' = s ∧ r = (n.toInt32,
      ((st.file i).drop off.toNat).take n.toNat) := by
  have hlt := (s.inode c).din.size.toNat_lt
  have hdev : (s.inode c).din.type ≠ T_DEV := by
    rw [hdin, finish_type]
    exact type_ne_dev h hi htype
  have hin : ¬ ((s.inode c).din.size < off ∨ off + n < off) := by
    rw [add_lt_left_iff, UInt32.lt_iff_toNat_lt]
    omega
  have hall : ¬ (s.inode c).din.size < off + n := by
    rw [UInt32.lt_iff_toNat_lt, toNat_add_of_lt (by omega)]
    omega
  have hloop : wp (readLoop c n.toNat off.toNat n.toNat) s fun r s' =>
      r = (List.range n.toNat).map (fun k => fileByte s.disk (s.inode c).din (off.toNat + k)) ∧
        s' = s := by
    refine wpE.returns (E := fun _ => False) (readLoop_filled le_rfl fun bn hle hbn => ?_)
      fun _ he => he
    rw [hdisk, hdin]
    have hslot := (finish_fileByte h hi htype (show bn * BSIZE < _ by omega)).1
    rwa [Nat.mul_div_cancel _ (by decide)] at hslot
  simp only [readi, wp_bind, wp_get]
  rw [if_neg hdev, if_neg hin, if_neg hall, wp_bind]
  refine hloop.mono ?_
  rintro bytes _ ⟨rfl, rfl⟩
  refine wp_pure.mpr ⟨rfl, Prod.ext rfl ?_⟩
  -- byte by byte
  apply List.ext_getElem?
  intro k
  rw [List.getElem?_map, List.getElem?_take, List.getElem?_drop, hdisk, hdin]
  by_cases hk : k < n.toNat
  · rw [List.getElem?_range hk, if_pos hk, Option.map_some]
    exact (finish_fileByte h hi htype (by omega)).2
  · rw [if_neg hk, List.getElem?_eq_none (by rw [List.length_range]; omega)]
    rfl

/-! ## directory entries -/

omit h in
theorem drop_take_dirents (es : List (Nat × List UInt8)) {j : Nat} (hj : j < es.length) :
    ((dirents es).drop (16 * j)).take 16 = dirent (es.get ⟨j, hj⟩).1 (es.get ⟨j, hj⟩).2 := by
  induction es generalizing j with
  | nil => exact absurd hj (Nat.not_lt_zero j)
  | cons e es ih =>
      have hcons : dirents (e :: es) = dirent e.1 e.2 ++ dirents es := by simp [dirents]
      rw [hcons]
      cases j with
      | zero => exact List.take_left' (length_dirent e.1 e.2)
      | succ j =>
          rw [show 16 * (j + 1) = 16 + 16 * j by omega, ← List.drop_drop,
            List.drop_left' (length_dirent e.1 e.2)]
          exact ih (Nat.lt_of_succ_lt_succ hj)

omit h in
/-- What the kernel finds in an entry. -/
theorem dirent_fields {inum : Nat} (hinum : inum < 65536) {name : List UInt8} (hname : 0 ∉ name) :
    Dirent.inum (fun i => (dirent inum name).getD i.val 0) = inum ∧
      Dirent.name (fun i => (dirent inum name).getD i.val 0) = chars (name.take DIRSIZ) := by
  constructor
  · have h0 : (UInt8.ofNat inum).toNat = inum % 256 := UInt8.toNat_ofNat'
    have h1 : (UInt8.ofNat (inum / 256)).toNat = inum / 256 % 256 := UInt8.toNat_ofNat'
    change (UInt8.ofNat inum).toNat + 256 * (UInt8.ofNat (inum / 256)).toNat = inum
    omega
  · rw [← chars_strncpy hname]
    funext k
    unfold Dirent.name Words.get
    split
    · change (dirent inum name).getD (2 + k) 0 = _
      rw [Nat.add_comm 2 k]
      rfl
    · rw [chars_of_le (by rw [length_strncpy, DIRSIZ]; omega)]

omit h in
theorem target_zero (f : HostFile) : 0 ∉ f.target := by
  unfold HostFile.target
  split
  · exact fun h0 => f.string (List.mem_of_mem_tail h0)
  · exact f.string

omit h in
theorem mem_entries {e : Nat × List UInt8} (he : e ∈ entries files) :
    0 < e.1 ∧ e.1 < files.length + 2 ∧ 0 ∉ e.2 := by
  simp only [entries, List.mem_cons, List.mem_map, Prod.exists] at he
  rcases he with rfl | rfl | ⟨f, i, hmem, rfl⟩
  · exact ⟨by decide, by unfold ROOTINO; omega, by decide⟩
  · exact ⟨by decide, by unfold ROOTINO; omega, by decide⟩
  · obtain ⟨hle, hlt, -⟩ := List.mem_zipIdx hmem
    exact ⟨by omega, by omega, target_zero f⟩

theorem fixedRoot_ge (hfits : Fits files) :
    16 * (files.length + 2) ≤ (dinode sb st.finish.disk ROOTINO).size.toNat := by
  have hmax : 16 * (NINODES + 2) ≤ MAXFILE * BSIZE := by decide
  have hinodes := hfits.inodes
  have hsize := h.root_size
  rw [finish_dinode, Function.update_self, State.fixedRoot, toNat_rounded (by omega), hsize]
  simp only [BSIZE]
  omega

theorem readDirent_finish (hfits : Fits files) (hdisk : s.disk = st.finish.disk)
    (hdin : (s.inode c).din = dinode sb st.finish.disk ROOTINO) {j : Nat}
    (hj : j < (entries files).length) :
    wp (readDirent c (16 * j)) s fun de s' => s' = s ∧
      de.inum = ((entries files).get ⟨j, hj⟩).1 ∧
      de.name = chars (((entries files).get ⟨j, hj⟩).2.take DIRSIZ) := by
  have hinodes := hfits.inodes
  have hn : NINODES = 200 := rfl
  have hlen := length_entries files
  have hoff : (UInt32.ofNat (16 * j)).toNat = 16 * j :=
    UInt32.toNat_ofNat_of_lt' (by unfold UInt32.size; omega)
  have h16 : (16 : UInt32).toNat = 16 := rfl
  have hread : wp (readi c (UInt32.ofNat (16 * j)) 16) s _ :=
    readi_finish h hdisk root_lt hdin (by rw [h.rootType]; decide)
      (by rw [hoff, h16, h.root_size]; omega)
      (by rw [hdin, h.root_size]; exact fixedRoot_ge h hfits)
  refine wp_bind_of hread ?_
  rintro _ _ ⟨rfl, rfl⟩
  obtain ⟨-, hlt, hzero⟩ := mem_entries (List.get_mem (entries files) ⟨j, hj⟩)
  simp only [hoff, h16, h.root, drop_take_dirents _ hj]
  rw [if_pos (by decide), wp_pure]
  exact ⟨rfl, dirent_fields (by omega) hzero⟩

/-! ## path lookup -/

/-- The loop of `dirlookup` reaches the entry. -/
theorem lookupIn_finish (hfits : Fits files) (hdisk : s.disk = st.finish.disk)
    (hdin : (s.inode c).din = dinode sb st.finish.disk ROOTINO) {w : List UInt8} {j : Nat}
    (hj : j < (entries files).length)
    (hw : ((entries files).get ⟨j, hj⟩).2.take DIRSIZ = w)
    (hother : ∀ k (hk : k < j), ((entries files).get ⟨k, hk.trans hj⟩).2.take DIRSIZ ≠ w)
    {Q : Option (Nat × Ip) → Fs.State → Prop}
    (hget : wp (iget ((entries files).get ⟨j, hj⟩).1) s fun ip => Q (some (16 * j, ip)))
    {m n : Nat} (hm : m ≤ j) (hn : j < m + n) :
    wp (lookupIn c (chars w) ((List.range' m n).map (16 * ·))) s Q := by
  induction n generalizing m with
  | zero => omega
  | succ n ih =>
      have hmlt : m < (entries files).length := hm.trans_lt hj
      obtain ⟨hpos, -, hzero⟩ := mem_entries (List.get_mem (entries files) ⟨m, hmlt⟩)
      have hzj := (mem_entries (List.get_mem (entries files) ⟨j, hj⟩)).2.2
      rw [List.range'_succ, List.map_cons, lookupIn]
      refine wp_bind_of (readDirent_finish h hfits hdisk hdin hmlt) ?_
      rintro de _ ⟨rfl, hinum, hname⟩
      have hcmp : namecmp (chars w) de.name = 0 ↔
          w = ((entries files).get ⟨m, hmlt⟩).2.take DIRSIZ := by
        rw [hname, ← hw]
        exact namecmp_eq_zero_iff (fun h0 => hzj (List.mem_of_mem_take h0))
          (fun h0 => hzero (List.mem_of_mem_take h0)) (List.length_take_le ..)
          (List.length_take_le ..)
      rw [if_neg (by omega)]
      by_cases hmj : m = j
      · subst hmj
        rw [if_pos (hcmp.mpr hw.symm), hinum]
        simpa only [wp_bind, wp_pure] using hget
      · rw [if_neg fun h0 => hother m (by omega) (hcmp.mp h0).symm]
        exact ih (by omega) (by omega)

theorem finish_nlink : (dinode sb st.finish.disk ROOTINO).nlink = 1 := by
  rw [finish_dinode, Function.update_self, State.fixedRoot]
  exact h.rootLink

theorem serving_sb {L : Finset Ip} {n : Nat} (hs : Serving st.finish.disk L n s) :
    s.sb = sb := by
  rw [hs.sb, finish_super h.built]

/-- `ilock` of an inode in use. -/
theorem ilock_finish {n inum : Nat} (hs : Serving st.finish.disk ∅ n s) (hc : Names s c inum)
    (htype : (dinode sb st.seen inum).type ≠ 0) :
    wp (ilock c) s fun _ s' => Serving st.finish.disk {c} n s' ∧
      (∀ e i, Names s e i → Names s' e i) ∧
      (s'.inode c).din = dinode sb st.finish.disk inum := by
  have hlock := serving_ilock hs hc
    (by rw [serving_sb h hs, hs.disk, finish_type]; exact htype)
  refine hlock.mono ?_
  rintro _ s' ⟨hs', hkeep, hdin⟩
  rw [serving_sb h hs', hs'.disk] at hdin
  exact ⟨hs', hkeep, hdin⟩

/-- **`dirlookup` in the root directory.** -/
theorem dirlookup_finish (hfits : Fits files) {n : Nat}
    (hs : Serving st.finish.disk {c} (n + 1) s)
    (hdin : (s.inode c).din = dinode sb st.finish.disk ROOTINO) {w : List UInt8} {j : Nat}
    (hj : j < (entries files).length)
    (hw : ((entries files).get ⟨j, hj⟩).2.take DIRSIZ = w)
    (hother : ∀ k (hk : k < j), ((entries files).get ⟨k, hk.trans hj⟩).2.take DIRSIZ ≠ w) :
    wp (dirlookup c (chars w)) s fun r s' => ∃ e, r = some (16 * j, e) ∧
      Serving st.finish.disk {c} n s' ∧ Names s' e ((entries files).get ⟨j, hj⟩).1 ∧
      ∀ d i, Names s d i → Names s' d i := by
  have hlen := length_entries files
  have hsize := fixedRoot_ge h hfits
  simp only [dirlookup, wp_bind, wp_get]
  rw [if_pos (by rw [hdin, finish_type, h.rootType]), entryOffs, List.range_eq_range', hdin]
  refine lookupIn_finish h hfits hs.disk hdin hj hw hother ?_ (Nat.zero_le j) (by omega)
  exact (serving_iget hs _).mono fun e s' he => ⟨e, rfl, he⟩

/-- **`namei` of a name in the root directory.** -/
theorem namei_finish (hfits : Fits files) {n : Nat} (hs : Serving st.finish.disk ∅ (n + 2) s)
    (cwd : Ip) {w : List UInt8} (hne : w ≠ []) (hslash : slash ∉ w) {j : Nat}
    (hj : j < (entries files).length)
    (hw : ((entries files).get ⟨j, hj⟩).2.take DIRSIZ = w.take DIRSIZ)
    (hother : ∀ k (hk : k < j), ((entries files).get ⟨k, hk.trans hj⟩).2.take DIRSIZ ≠
      w.take DIRSIZ)
    (hroot : ((entries files).get ⟨j, hj⟩).1 ≠ ROOTINO) :
    wp (namei cwd (slash :: w)) s fun r s' => ∃ e, r = some e ∧
      Serving st.finish.disk ∅ n s' ∧ Names s' e ((entries files).get ⟨j, hj⟩).1 := by
  have hloop : wp (namex cwd (slash :: w) false) s fun r s' => ∃ e, r = some (e, fun _ => 0) ∧
      Serving st.finish.disk ∅ n s' ∧ Names s' e ((entries files).get ⟨j, hj⟩).1 := by
    rw [namex, if_pos (List.head?_cons ..)]
    refine wp_bind_of (serving_iget hs ROOTINO) ?_
    rintro c s₁ ⟨hs₁, hc₁, -⟩
    rw [List.length_cons, namexLoop, skipelem_root hne hslash]
    refine wp_bind_of (ilock_finish h hs₁ hc₁ (by rw [h.rootType]; decide)) ?_
    rintro _ s₂ ⟨hs₂, hkeep₂, hdin⟩
    simp only [wp_bind, wp_get]
    rw [if_neg (by rw [hdin, finish_type, h.rootType]; simp), if_neg (by simp), wp_bind]
    refine (dirlookup_finish h hfits hs₂ hdin hj hw hother).mono ?_
    rintro _ s₃ ⟨e, rfl, hs₃, he, hkeep₃⟩
    have hc₃ := hkeep₃ c ROOTINO (hkeep₂ c ROOTINO hc₁)
    -- the entry found is not the one of the root directory
    have hec : e ≠ c := by
      rintro rfl
      exact hroot (he.2.symm.trans hc₃.2)
    have hput := serving_iunlockput hs₃ hc₃
      (by rw [serving_sb h hs₃, hs₃.disk, finish_nlink h]; decide)
    refine wp_bind_of hput ?_
    rintro _ s₄ ⟨hs₄, hkeep₄⟩
    have hend : namexLoop false w.length e [] = namexEnd false e := by
      cases w with
      | nil => rfl
      | cons b w => rfl
    rw [hend, namexEnd, if_neg (by decide), wp_pure]
    exact ⟨e, rfl, hs₄, hkeep₄ e _ hec he⟩
  refine wp_bind_of hloop ?_
  rintro _ s' ⟨e, rfl, hs', he⟩
  exact wp_pure.mpr ⟨e, rfl, hs', he⟩

end Image

/-! ## files -/

/-- The names that the files get in the file system. -/
structure Named (files : List HostFile) : Prop where
  nonempty : ∀ f ∈ files, f.target ≠ []
  dot : ∀ f ∈ files, f.target ≠ [0x2e]
  dotdot : ∀ f ∈ files, f.target ≠ [0x2e, 0x2e]
  distinct : (files.map fun f => f.target.take DIRSIZ).Nodup

theorem entries_file {j : Nat} (hj : j < files.length) (h : j + 2 < (entries files).length) :
    (entries files).get ⟨j + 2, h⟩ = (j + 2, (files.get ⟨j, hj⟩).target) := by
  simp [entries, Nat.add_comm]

/-- The first entry with the name of a file is the entry of the file. -/
theorem Named.first (h : Named files) {j : Nat} (hj : j < files.length) {k : Nat}
    (hk : k < j + 2) (hlt : k < (entries files).length) :
    ((entries files).get ⟨k, hlt⟩).2.take DIRSIZ ≠ (files.get ⟨j, hj⟩).target.take DIRSIZ := by
  have hmem := List.get_mem files ⟨j, hj⟩
  have hshort {u v : List UInt8} (hu : u.take DIRSIZ = v.take DIRSIZ) (hv : u.length < DIRSIZ) :
      v = u := by
    have hlen := congrArg List.length hu
    rw [List.length_take, List.length_take] at hlen
    rw [← List.take_of_length_le (show v.length ≤ DIRSIZ by omega), ← hu,
      List.take_of_length_le (by omega)]
  match k with
  | 0 => exact fun he => h.dot _ hmem (hshort he (by decide))
  | 1 => exact fun he => h.dotdot _ hmem (hshort he (by decide))
  | k + 2 =>
      have hkf : k < files.length := by omega
      rw [entries_file hkf]
      intro he
      have hlen : (files.map fun f => f.target.take DIRSIZ).length = files.length :=
        List.length_map _
      have heq : (⟨k, by omega⟩ : Fin (files.map fun f => f.target.take DIRSIZ).length) =
          ⟨j, by omega⟩ :=
        List.nodup_iff_injective_get.mp h.distinct (by simpa using he)
      rw [Fin.mk.injEq] at heq
      omega

/-- **A file of the host is read back** from the image, by the name in the file system or by
any name with the same first `DIRSIZ` bytes. -/
theorem mkfs_read_back (files : List HostFile) (hfits : Fits files) (hnamed : Named files) :
    ∃ st, main files start = .ok ((), st) ∧
      ∀ s, Serving st.disk ∅ 2 s → ∀ f ∈ files, ∀ cwd (w : List UInt8), slash ∉ w →
        w.take DIRSIZ = f.target.take DIRSIZ →
        wp (readAll cwd (slash :: w)) s fun r _ =>
          r = some (T_FILE, Int32.ofNat f.contents.length, f.contents) := by
  obtain ⟨st, h, hmain⟩ := main_spec hfits
  refine ⟨st.finish, hmain, fun s hs f hf cwd w hslash hw => ?_⟩
  obtain ⟨⟨j, hj⟩, rfl⟩ := List.get_of_mem hf
  have hlen := length_entries files
  have hentry := entries_file hj (by omega)
  have hne : w ≠ [] := by
    rintro rfl
    rw [List.take_nil, eq_comm, List.take_eq_nil_iff] at hw
    exact hnamed.nonempty _ hf (hw.resolve_left (by decide))
  have hname := namei_finish h hfits hs cwd hne hslash (j := j + 2) (by omega)
    (by rw [hentry, hw]) (fun k hk => by rw [hw]; exact hnamed.first hj hk _)
    (by rw [hentry]; unfold ROOTINO; omega)
  rw [hentry] at hname
  refine wp_bind_of hname ?_
  rintro _ s₁ ⟨c, rfl, hs₁, hc⟩
  have htype : (dinode sb st.seen (j + 2)).type ≠ 0 := by
    rw [h.fileType j hj]
    decide
  refine wp_bind_of (ilock_finish h hs₁ hc htype) ?_
  rintro _ s₂ ⟨hs₂, -, hdin⟩
  have hseen : (s₂.inode c).din = dinode sb st.seen (j + 2) := by
    rw [hdin, finish_dinode, Function.update_of_ne (by unfold ROOTINO; omega)]
  have hsize : (s₂.inode c).din.size.toNat = (files.get ⟨j, hj⟩).contents.length := by
    rw [hseen, file_size, h.files j hj]
  have hread : wp (readi c 0 (s₂.inode c).din.size) s₂ _ :=
    readi_finish h hs₂.disk (by have := hfits.inodes; omega) hdin htype
      (by rw [hseen, UInt32.toNat_zero, Nat.zero_add]) (by rw [hseen])
  simp only [wp_bind, wp_get]
  refine hread.mono ?_
  rintro _ _ ⟨rfl, rfl⟩
  rw [wp_pure, UInt32.toNat_zero, List.drop_zero, h.files j hj, hsize, List.take_length, ← hsize,
    ← UInt32.toInt32_ofNat', UInt32.ofNat_toNat, hseen, h.fileType j hj]

/-- A kernel before any entry of its cache is in use. -/
def booted (disk : Nat → Block) : Fs.State :=
  { sb := getSuper (disk 1), disk, inode := fun _ => ⟨0, 0, false, false, dinode sb disk 0⟩,
    devsw := ⟨fun _ => none, fun _ => none⟩ }

theorem booted_serving (disk : Nat → Block) {n : Nat} (hn : n ≤ NINODE) :
    Serving disk ∅ n (booted disk) where
  sb := rfl
  disk := rfl
  copy c hc := absurd hc (Nat.lt_irrefl 0)
  idle c hc := absurd hc (Nat.lt_irrefl 0)
  locked c hc := absurd hc (Finset.notMem_empty c)
  unused := by simpa [booted] using hn

/-- `_a`, of six bytes that the host delivers in three pieces. -/
def pieces : HostFile := ⟨[0x5f, 0x61], [[1, 2, 3], [4], [5, 6]], by decide, by decide⟩

theorem pieces_fits : Fits [pieces] := ⟨by decide, by decide, by decide, by decide⟩

/-- `/a` has the six bytes. -/
theorem mkfs_read_back_pieces : Fits [pieces] ∧ Named [pieces] ∧
    ∃ st, main [pieces] start = .ok ((), st) ∧ Serving st.disk ∅ 2 (booted st.disk) ∧
      wp (readAll first [slash, 0x61]) (booted st.disk) fun r _ =>
        r = some (T_FILE, 6, [1, 2, 3, 4, 5, 6]) := by
  have hnamed : Named [pieces] := ⟨by decide, by decide, by decide, by decide⟩
  obtain ⟨st, hmain, hread⟩ := mkfs_read_back [pieces] pieces_fits hnamed
  have hserving := booted_serving st.disk (show 2 ≤ NINODE by decide)
  exact ⟨pieces_fits, hnamed, st, hmain, hserving,
    hread _ hserving pieces (List.mem_singleton_self _) first [0x61] (by decide) (by decide)⟩

/-- The path `/` is the root directory. -/
theorem namei_root {disk : Nat → Block} {n : Nat} (hs : Serving disk ∅ (n + 1) s) (cwd : Ip) :
    wp (namei cwd [slash]) s fun r s' => ∃ c, r = some c ∧ Serving disk ∅ n s' ∧
      Names s' c ROOTINO := by
  have hloop : wp (namex cwd [slash] false) s fun r s' => ∃ c, r = some (c, fun _ => 0) ∧
      Serving disk ∅ n s' ∧ Names s' c ROOTINO := by
    rw [namex, if_pos (List.head?_cons ..)]
    refine wp_bind_of (serving_iget hs ROOTINO) ?_
    rintro c s₁ ⟨hs₁, hc, -⟩
    exact wp_pure.mpr ⟨c, rfl, hs₁, hc⟩
  refine wp_bind_of hloop ?_
  rintro _ s₁ ⟨c, rfl, hs₁, hc⟩
  exact wp_pure.mpr ⟨c, rfl, hs₁, hc⟩

/-- `_`, of one byte. -/
def underscore : HostFile := ⟨[0x5f], [[1]], by decide, by decide⟩

/-- The file `_` has no name in the file system, and the path made from it is not a file. -/
theorem namei_underscore : Fits [underscore] ∧ underscore.name ≠ [] ∧
    underscore.name ≠ [0x2e] ∧ underscore.name ≠ [0x2e, 0x2e] ∧
    ∃ st, main [underscore] start = .ok ((), st) ∧ Serving st.disk ∅ 2 (booted st.disk) ∧
      ¬ wp (readAll first (slash :: underscore.target)) (booted st.disk) fun r _ =>
        ∃ n, r = some (T_FILE, n, underscore.contents) := by
  have hfits : Fits [underscore] := ⟨by decide, by decide, by decide, by decide⟩
  obtain ⟨st, h, hmain⟩ := main_spec hfits
  have hserving := booted_serving st.finish.disk (show 2 ≤ NINODE by decide)
  refine ⟨hfits, by decide, by decide, by decide, st.finish, hmain, hserving, fun hread => ?_⟩
  obtain ⟨_, s₁, hrest, c, rfl, hs₁, hc⟩ := (wp_bind.mp hread).det (namei_root hserving first)
  have hlock := ilock_finish h hs₁ hc (by rw [h.rootType]; decide)
  obtain ⟨-, s₂, hrest, -, -, hdin⟩ := (wp_bind.mp hrest).det hlock
  simp only [wp_bind, wp_get] at hrest
  obtain ⟨r, s₃, -, hrest⟩ := hrest
  obtain ⟨n, hr⟩ := wp_pure.mp hrest
  rw [hdin, finish_type, h.rootType] at hr
  have htypes : T_DIR = T_FILE := congrArg Prod.fst (Option.some.inj hr)
  exact absurd htypes (by decide)

end Xv6.Mkfs
