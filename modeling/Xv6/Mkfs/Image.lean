import Mathlib.Order.Interval.Finset.Nat
import Xv6.Mkfs.Append
import Xv6.Fs.Keep

/-!
# Xv6.Mkfs.Image

What `mkfs` has written after each of its files.

`Progress` is the invariant of the loop over the files: the root directory has an entry
for each file that is done, in order, and the file behind entry `k` has the bytes that
the `read` calls returned.  No more than the blocks for these sizes are handed out
(`freeblock_eq`).
-/

namespace Xv6.Mkfs

open Words Fs

variable {st st' st₁ st₂ : State} {inodes i : Nat} {need : Finset (Nat × Slot)}

/-! ## inodes -/

/-- The state after inode `i` was written. -/
def State.putInode (st : State) (i : Nat) (d : Dinode) : State :=
  { st with
    disk := Function.update st.disk (IBLOCK i sb) (putDinode (st.disk (IBLOCK i sb)) (i % IPB) d) }

theorem wp_winode (hsect : st.sectors = FSSIZE) (hi : i < NINODES) (d : Dinode)
    {Q : Unit → State → Prop} : wp (winode i d) st Q ↔ Q () (st.putInode i d) := by
  have hlt := IBLOCK_lt_FSSIZE hi
  have hmax : max st.sectors (IBLOCK i sb + 1) = st.sectors := by omega
  rw [winode, wp_bind, rsect, wp_bind, wp_get, if_pos (by omega), wp_pure, wsect, wp_modify, hmax,
    State.putInode]

theorem wp_rinode (hsect : st.sectors = FSSIZE) (hi : i < NINODES)
    {Q : Dinode → State → Prop} : wp (rinode i) st Q ↔ Q (dinode sb st.seen i) st := by
  have hlt := IBLOCK_lt_FSSIZE hi
  rw [rinode, wp_bind, rsect, wp_bind, wp_get, if_pos (by omega), wp_pure, wp_pure, dinode,
    seen_IBLOCK st hi]

theorem seen_putInode (st : State) (hi : i < NINODES) (d : Dinode) :
    (st.putInode i d).seen = Function.update st.seen (IBLOCK i sb)
      (putDinode (st.seen (IBLOCK i sb)) (i % IPB) d) := by
  rw [seen_IBLOCK st hi, State.seen, State.seen, Function.update_comm (IBLOCK_lt hi).ne.symm]
  rfl

theorem dinode_putInode (st : State) (hi : i < NINODES) (d : Dinode) :
    dinode sb (st.putInode i d).seen = Function.update (dinode sb st.seen) i d := by
  funext j
  rw [seen_putInode st hi, dinode_putDinode, Function.update_apply]

/-- Inode blocks are no data blocks. -/
theorem seen_putInode_of_data (st : State) (hi : i < NINODES) (d : Dinode) {b : Nat}
    (hb : ¬ isMeta sb b) : (st.putInode i d).seen b = st.seen b := by
  rw [seen_putInode st hi]
  exact Function.update_of_ne (ne_of_isMeta (layout.isMeta_IBLOCK hi) hb).symm _ _

theorem busy_putInode (st : State) (hi : i < NINODES) (d : Dinode) (b : Nat) :
    busy sb (st.putInode i d).seen b = busy sb st.seen b := by
  rw [seen_putInode st hi]
  exact busy_write_of_ne (layout.IBLOCK_ne_BBLOCK hi b).symm

/-- Inode `i` was made. -/
structure Made (type : Int16) (i : Nat) (st st' : State) : Prop where
  self : dinode sb st'.seen i = { Dinode.fresh type with nlink := 1 }
  dinode : ∀ j, j ≠ i → dinode sb st'.seen j = dinode sb st.seen j
  other : ∀ j < NINODES, j ≠ i → (Fs.dinode sb st.seen j).type ≠ 0 → st'.file j = st.file j
  slack : ∀ need, st'.slack need = st.slack need

theorem ialloc_spec (h : Built inodes st) (hlt : inodes < NINODES)
    (hfree : (dinode sb st.seen inodes).type = 0) (type : Int16) :
    wp (ialloc type) st fun r st' => r = inodes ∧ Built (inodes + 1) st' ∧
      Made type inodes st st' := by
  generalize hd : ({ Dinode.fresh type with nlink := 1 } : Dinode) = d
  have haddr : ∀ k ≤ NDIRECT, d.addr k = 0 := by
    intro k _
    rw [← hd]
    unfold Dinode.addr Dinode.fresh
    split <;> rfl
  have hsize : d.size = 0 := by rw [← hd]; rfl
  unfold ialloc
  rw [wp_bind, wp_get, wp_bind, wp_modify, wp_bind, h.freeinode, hd]
  rw [wp_winode (show ({ st with freeinode := inodes + 1 } : State).sectors = FSSIZE from
    h.sectors) hlt, wp_pure]
  refine ⟨rfl, ?_⟩
  generalize hst : State.putInode _ inodes d = st'
  have hseen : st'.seen = (st.putInode inodes d).seen := by
    rw [← hst]
    rfl
  have htable : dinode sb st'.seen = Function.update (dinode sb st.seen) inodes d := by
    rw [hseen, dinode_putInode st hlt]
  have hcons : Consistent sb st'.seen (dinode sb st'.seen) := by
    rw [htable, hseen, seen_putInode st hlt]
    exact (h.cons.write_iblock hlt _).table_fresh hfree haddr hsize
  have hother (j : Nat) (hj : j ≠ inodes) : dinode sb st'.seen j = dinode sb st.seen j := by
    rw [htable, Function.update_of_ne hj]
  refine ⟨⟨hcons, ?_, ?_, ?_, ?_, ?_⟩, ⟨?_, hother, ?_, ?_⟩⟩
  · rw [← hst]
    exact h.sectors
  · rw [← hst]
    rfl
  · rw [← hst]
    exact h.low
  · rw [← hst]
    exact h.high
  · intro b hb
    rw [← hst] at hb ⊢
    have hb : st.freeblock ≤ b := hb
    rw [← h.zero b hb]
    have := IBLOCK_lt hlt
    have := bmapstart_lt
    have := h.low
    exact Function.update_of_ne (by omega) _ _
  · rw [htable, Function.update_self, hd]
  · intro j hj hne htj
    unfold State.file
    rw [hother j hne, hseen]
    exact h.cons.content_eq hj htj fun b _ hb => seen_putInode_of_data st hlt d hb
  · intro need
    refine slack_congr (fun b _ => ?_) fun ⟨j, t⟩ _ => ?_
    · rw [hseen, busy_putInode st hlt]
    · by_cases hj : j = inodes
      · subst hj
        -- no slot before and none now
        unfold ref
        rw [if_neg, if_neg fun hc => hc.2.1 hfree]
        rintro ⟨-, -, hne⟩
        rw [htable, Function.update_self, slotAddr_eq_zero haddr] at hne
        exact hne rfl
      · refine ref_congr (fun _ => by rw [hother j hj]) fun hjn htj => ?_
        rw [hother j hj]
        refine slotAddr_congr (fun _ _ => rfl) fun hd => ?_
        rw [hseen]
        exact seen_putInode_of_data st hlt d
          (h.cons.not_isMeta (Consistent.indirect_ref hjn htj hd))

/-! ## several calls of `iappend` -/

/-- The blocks for `size` bytes. -/
def blocks (size : Nat) : Nat := (size + BSIZE - 1) / BSIZE

theorem blocks_le {m n : Nat} (h : m ≤ n) : blocks m ≤ blocks n :=
  Nat.div_le_div_right (by omega)

theorem slotsBelow_subset {m n : Nat} (h : m ≤ n) : slotsBelow i m ⊆ slotsBelow i n := by
  unfold slotsBelow
  intro x hx
  simp only [Finset.mem_union, Finset.mem_image, Finset.mem_range] at hx ⊢
  rcases hx with ⟨bn, hbn, rfl⟩ | hx
  · exact .inl ⟨bn, by omega, rfl⟩
  · split at hx
    · rw [if_pos (by omega)]
      exact .inr hx
    · simp at hx

theorem Appended.refl (need : Finset (Nat × Slot)) (i : Nat) (st : State) :
    Appended need i [] st st where
  self := ⟨_, by rw [List.length_nil, Nat.add_zero, UInt32.ofNat_toNat]⟩
  file := by rw [List.append_nil]
  dinode _ _ _ := rfl
  other _ _ _ _ := rfl
  slack := rfl

theorem Appended.size {p : List UInt8} (h : Appended need i p st st')
    (hmax : (Fs.dinode sb st.seen i).size.toNat + p.length ≤ MAXFILE * BSIZE) :
    (Fs.dinode sb st'.seen i).size.toNat = (Fs.dinode sb st.seen i).size.toNat + p.length := by
  obtain ⟨a, ha⟩ := h.self
  have hbig : MAXFILE * BSIZE < UInt32.size := by decide
  rw [ha]
  exact UInt32.toNat_ofNat_of_lt' (by omega)

theorem Appended.type {p : List UInt8} (h : Appended need i p st st') :
    (Fs.dinode sb st'.seen i).type = (Fs.dinode sb st.seen i).type := by
  obtain ⟨a, ha⟩ := h.self
  rw [ha]

theorem Appended.nlink {p : List UInt8} (h : Appended need i p st st') :
    (Fs.dinode sb st'.seen i).nlink = (Fs.dinode sb st.seen i).nlink := by
  obtain ⟨a, ha⟩ := h.self
  rw [ha]

theorem Appended.trans {p q : List UInt8} (h : Appended need i p st st₁)
    (h' : Appended need i q st₁ st₂)
    (hmax : (Fs.dinode sb st.seen i).size.toNat + p.length ≤ MAXFILE * BSIZE) :
    Appended need i (p ++ q) st st₂ where
  self := by
    have hsize := h.size hmax
    obtain ⟨a, ha⟩ := h.self
    obtain ⟨a', ha'⟩ := h'.self
    refine ⟨a', ?_⟩
    rw [ha', hsize, ha, List.length_append, Nat.add_assoc]
  file := by rw [h'.file, h.file, List.append_assoc]
  dinode j hj hne := (h'.dinode j hj hne).trans (h.dinode j hj hne)
  other j hj hne htj := by
    rw [h'.other j hj hne (by rw [h.dinode j hj hne]; exact htj), h.other j hj hne htj]
  slack := h'.slack.trans h.slack

/-- The loop over the `read` calls of a file. -/
theorem iappends_spec (h : Built inodes st) (hi : i < NINODES)
    (htype : (dinode sb st.seen i).type ≠ 0) (hdev : (dinode sb st.seen i).type ≠ T_DEV)
    {ps : List (List UInt8)} (hp : ∀ p ∈ ps, 0 < p.length)
    (hmax : (dinode sb st.seen i).size.toNat + ps.flatten.length ≤ MAXFILE * BSIZE)
    (hneed : slotsBelow i (blocks ((dinode sb st.seen i).size.toNat + ps.flatten.length)) ⊆ need)
    (hslack : 0 ≤ st.slack need) :
    wp (ps.forM (iappend i)) st fun _ st' =>
      Built inodes st' ∧ Appended need i ps.flatten st st' := by
  induction ps generalizing st with
  | nil => exact wp_pure.mpr ⟨h, .refl need i st⟩
  | cons p ps ih =>
      rw [List.flatten_cons, List.length_append] at hmax hneed
      rw [List.forM]
      refine wp_bind_of (iappend_spec h hi htype hdev (hp p List.mem_cons_self) (by omega)
        ((slotsBelow_subset (blocks_le (by omega))).trans hneed) hslack) ?_
      rintro _ st₁ ⟨h₁, ha₁⟩
      have hsize := ha₁.size (by omega)
      rw [← Nat.add_assoc, ← hsize] at hmax hneed
      refine (ih h₁ (by rw [ha₁.type]; exact htype) (by rw [ha₁.type]; exact hdev)
        (fun q hq => hp q (List.mem_cons_of_mem p hq)) hmax hneed
        (by rw [ha₁.slack]; exact hslack)).mono ?_
      rintro _ st₂ ⟨h₂, ha₂⟩
      exact ⟨h₂, ha₁.trans ha₂ (by omega)⟩

/-! ## the loop over the files -/

/-- The entries of the root directory. -/
def entries (files : List HostFile) : List (Nat × List UInt8) :=
  (ROOTINO, [0x2e]) :: (ROOTINO, [0x2e, 0x2e]) :: (files.zipIdx 2).map fun x => (x.2, x.1.target)

def dirents (es : List (Nat × List UInt8)) : List UInt8 :=
  (es.map fun e => dirent e.1 e.2).flatten

theorem length_strncpy (n : Nat) (t : Nat → UInt8) : (strncpy n t).length = n := by
  induction n generalizing t with
  | zero => rfl
  | succ n ih =>
      rw [strncpy]
      split
      · simp
      · rw [List.length_cons, ih]

@[simp] theorem length_dirent (inum : Nat) (name : List UInt8) : (dirent inum name).length = 16 := by
  simp [dirent, length_strncpy]

@[simp] theorem length_dirents (es : List (Nat × List UInt8)) :
    (dirents es).length = 16 * es.length := by
  induction es with
  | nil => rfl
  | cons e es ih =>
      rw [dirents, List.map_cons, List.flatten_cons, List.length_append, length_dirent]
      rw [dirents] at ih
      rw [ih, List.length_cons]
      omega

theorem dirents_append (es es' : List (Nat × List UInt8)) :
    dirents (es ++ es') = dirents es ++ dirents es' := by
  simp [dirents]

@[simp] theorem length_entries (files : List HostFile) :
    (entries files).length = files.length + 2 := by
  simp [entries]

theorem entries_append (files : List HostFile) (f : HostFile) :
    entries (files ++ [f]) = entries files ++ [(files.length + 2, f.target)] := by
  simp [entries, List.zipIdx_append, Nat.add_comm]

/-- **The invariant** of the loop over the files, with the files in `done` written. -/
structure Progress (need : Finset (Nat × Slot)) (k : Int) (done : List HostFile) (st : State) :
    Prop where
  built : Built (done.length + 2) st
  slack : st.slack need = k
  rootType : (dinode sb st.seen ROOTINO).type = T_DIR
  rootLink : (dinode sb st.seen ROOTINO).nlink = 1
  root : st.file ROOTINO = dirents (entries done)
  fileType : ∀ j < done.length, (dinode sb st.seen (j + 2)).type = T_FILE
  files : ∀ j (hj : j < done.length), st.file (j + 2) = (done.get ⟨j, hj⟩).contents
  free : ∀ j < NINODES, j = 0 ∨ done.length + 2 ≤ j → (dinode sb st.seen j).type = 0

theorem file_size (st : State) (i : Nat) :
    (dinode sb st.seen i).size.toNat = (st.file i).length := by
  rw [State.file, length_content]

theorem Progress.root_size {k : Int} {done : List HostFile} (h : Progress need k done st) :
    (dinode sb st.seen ROOTINO).size.toNat = 16 * (done.length + 2) := by
  rw [file_size, h.root, length_dirents, length_entries]

theorem addFile_spec {k : Int} {done : List HostFile} (h : Progress need k done st) (hk : 0 ≤ k)
    (f : HostFile) (hname : slash ∉ f.name) (hsize : f.contents.length ≤ MAXFILE * BSIZE)
    (hinodes : done.length + 2 < NINODES)
    (hroot : slotsBelow ROOTINO (blocks (16 * (done.length + 3))) ⊆ need)
    (hfile : slotsBelow (done.length + 2) (blocks f.contents.length) ⊆ need) :
    wp (addFile ROOTINO f) st fun _ st' => Progress need k (done ++ [f]) st' := by
  have hmax : 16 * (NINODES + 2) ≤ MAXFILE * BSIZE := by decide
  have hone : ROOTINO < NINODES := by decide
  rw [addFile, if_neg hname]
  refine wp_bind_of (ialloc_spec h.built hinodes (h.free _ hinodes (.inr le_rfl)) T_FILE) ?_
  rintro _ st₁ ⟨rfl, h₁, hm⟩
  -- the root directory gets an entry
  have hne : ROOTINO ≠ done.length + 2 := by
    unfold ROOTINO
    omega
  have hroot₁ : dinode sb st₁.seen ROOTINO = dinode sb st.seen ROOTINO := hm.dinode _ hne
  have hrootFile : st₁.file ROOTINO = st.file ROOTINO :=
    hm.other _ hone hne (by rw [h.rootType]; decide)
  have hentry : wp (iappend ROOTINO (dirent (done.length + 2) f.target)) st₁ fun _ st' =>
      Built (done.length + 3) st' ∧
        Appended need ROOTINO (dirent (done.length + 2) f.target) st₁ st' := by
    refine iappend_spec h₁ hone (by rw [hroot₁, h.rootType]; decide)
      (by rw [hroot₁, h.rootType]; decide) (by simp) ?_ ?_ ?_
    · rw [hroot₁, h.root_size, length_dirent]
      omega
    · rw [hroot₁, h.root_size, length_dirent]
      exact hroot
    · rw [hm.slack, h.slack]
      exact hk
  refine wp_bind_of hentry ?_
  rintro _ st₂ ⟨h₂, ha⟩
  -- the bytes of the file
  have hnew : dinode sb st₂.seen (done.length + 2) = { Dinode.fresh T_FILE with nlink := 1 } := by
    rw [ha.dinode _ hinodes hne.symm, hm.self]
  have hempty : st₂.file (done.length + 2) = [] := by
    rw [State.file, hnew]
    rfl
  have hbytes : wp (f.reads.forM (iappend (done.length + 2))) st₂ fun _ st' =>
      Built (done.length + 3) st' ∧ Appended need (done.length + 2) f.contents st₂ st' := by
    refine iappends_spec h₂ hinodes (by rw [hnew]; decide) (by rw [hnew]; decide)
      (fun p hp => (f.sizes p hp).1) ?_ ?_ ?_
    · rw [file_size, hempty, List.length_nil, Nat.zero_add]
      exact hsize
    · rw [file_size, hempty, List.length_nil, Nat.zero_add]
      exact hfile
    · rw [ha.slack, hm.slack, h.slack]
      exact hk
  refine hbytes.mono ?_
  rintro _ st₃ ⟨h₃, hb⟩
  have hroot₂ : dinode sb st₃.seen ROOTINO = dinode sb st₂.seen ROOTINO :=
    hb.dinode _ hone hne
  have hrootType : (dinode sb st₂.seen ROOTINO).type = T_DIR := by
    rw [ha.type, hroot₁, h.rootType]
  -- the other inodes are as before
  have hsame (j : Nat) (hj : j < NINODES) (hj1 : j ≠ ROOTINO) (hj2 : j ≠ done.length + 2) :
      dinode sb st₃.seen j = dinode sb st.seen j := by
    rw [hb.dinode j hj hj2, ha.dinode j hj hj1, hm.dinode j hj2]
  have hkept (j : Nat) (hj : j < done.length) :
      dinode sb st₃.seen (j + 2) = dinode sb st.seen (j + 2) :=
    hsame (j + 2) (by omega) (by unfold ROOTINO; omega) (by omega)
  constructor
  case built => rwa [List.length_append, List.length_singleton]
  case slack => rw [hb.slack, ha.slack, hm.slack, h.slack]
  case rootType => rw [hroot₂, hrootType]
  case rootLink => rw [hroot₂, ha.nlink, hroot₁, h.rootLink]
  case root =>
    rw [hb.other _ hone hne (by rw [hrootType]; decide), ha.file, hrootFile, h.root,
      entries_append, dirents_append]
    simp [dirents]
  case fileType =>
    intro j hj
    rw [List.length_append, List.length_singleton] at hj
    by_cases he : j = done.length
    · rw [he, hb.type, hnew]
      rfl
    · rw [hkept j (by omega)]
      exact h.fileType j (by omega)
  case files =>
    intro j hj
    rw [List.length_append, List.length_singleton] at hj
    by_cases he : j = done.length
    · subst he
      rw [hb.file, hempty]
      simp
    · have hj : j < done.length := by omega
      have htype := h.fileType j hj
      have hj1 : j + 2 ≠ ROOTINO := by
        unfold ROOTINO
        omega
      have hfile₁ : st₁.file (j + 2) = st.file (j + 2) :=
        hm.other _ (by omega) (by omega) (by rw [htype]; decide)
      have hdin₁ : dinode sb st₁.seen (j + 2) = dinode sb st.seen (j + 2) :=
        hm.dinode _ (by omega)
      have hfile₂ : st₂.file (j + 2) = st₁.file (j + 2) :=
        ha.other _ (by omega) hj1 (by rw [hdin₁, htype]; decide)
      have hdin₂ := ha.dinode (j + 2) (by omega) hj1
      rw [hb.other _ (by omega) (by omega) (by rw [hdin₂, hdin₁, htype]; decide), hfile₂, hfile₁,
        h.files j hj]
      simp [List.getElem_append_left hj]
  case free =>
    intro j hj hout
    rw [List.length_append, List.length_singleton] at hout
    rw [hsame j hj (by unfold ROOTINO; omega) (by omega)]
    exact h.free j hj (by omega)

/-- The slots for the contents of the files, with the inodes from `i` on. -/
def slotsOf : Nat → List HostFile → Finset (Nat × Slot)
  | _, [] => ∅
  | i, f :: files => slotsBelow i (blocks f.contents.length) ∪ slotsOf (i + 1) files

/-- The slots that are filled. -/
def needOf (files : List HostFile) : Finset (Nat × Slot) :=
  slotsBelow ROOTINO (blocks (16 * (files.length + 2))) ∪ slotsOf 2 files

theorem needOf_root {files : List HostFile} {n : Nat} (h : n ≤ files.length + 2) :
    slotsBelow ROOTINO (blocks (16 * n)) ⊆ needOf files :=
  (slotsBelow_subset (blocks_le (by omega))).trans Finset.subset_union_left

theorem slotsBelow_subset_slotsOf (i : Nat) {files : List HostFile} {j : Nat}
    (hj : j < files.length) :
    slotsBelow (j + i) (blocks (files.get ⟨j, hj⟩).contents.length) ⊆ slotsOf i files := by
  induction files generalizing i j with
  | nil => exact absurd hj (Nat.not_lt_zero j)
  | cons f files ih =>
      cases j with
      | zero =>
          rw [Nat.zero_add]
          exact Finset.subset_union_left
      | succ j =>
          rw [show j + 1 + i = j + (i + 1) by omega]
          exact (ih (i + 1) (Nat.lt_of_succ_lt_succ hj)).trans Finset.subset_union_right

/-- The blocks of a file of `size` bytes, with the indirect block. -/
def blockCount (size : Nat) : Nat := blocks size + if NDIRECT < blocks size then 1 else 0

theorem card_slotsBelow_le (i n : Nat) :
    (slotsBelow i n).card ≤ n + if NDIRECT < n then 1 else 0 := by
  unfold slotsBelow
  refine (Finset.card_union_le _ _).trans (Nat.add_le_add ?_ ?_)
  · exact Finset.card_image_le.trans (Finset.card_range n).le
  · split
    · exact (Finset.card_singleton _).le
    · exact Finset.card_empty.le

theorem card_slotsOf_le (i : Nat) (files : List HostFile) :
    (slotsOf i files).card ≤ (files.map fun f => blockCount f.contents.length).sum := by
  induction files generalizing i with
  | nil => exact Finset.card_empty.le
  | cons f files ih =>
      rw [List.map_cons, List.sum_cons]
      exact (Finset.card_union_le _ _).trans
        (Nat.add_le_add (card_slotsBelow_le _ _) (ih (i + 1)))

/-- What is assumed of the files: what `mkfs` asserts, and that inodes and blocks suffice. -/
structure Fits (files : List HostFile) : Prop where
  names : ∀ f ∈ files, slash ∉ f.name
  sizes : ∀ f ∈ files, f.contents.length ≤ MAXFILE * BSIZE
  inodes : files.length + 1 < NINODES
  space : nmeta + blockCount (16 * (files.length + 2)) +
    (files.map fun f => blockCount f.contents.length).sum ≤ FSSIZE

theorem Fits.card_needOf {files : List HostFile} (h : Fits files) :
    nmeta + (needOf files).card ≤ FSSIZE := by
  have hcard := Finset.card_union_le (slotsBelow ROOTINO (blocks (16 * (files.length + 2))))
    (slotsOf 2 files)
  have hroot : (slotsBelow ROOTINO (blocks (16 * (files.length + 2)))).card ≤ blockCount _ :=
    card_slotsBelow_le _ _
  have hfiles := card_slotsOf_le 2 files
  have hspace := h.space
  unfold needOf
  omega

theorem addFiles_spec {files : List HostFile} (hfits : Fits files) {k : Int} (hk : 0 ≤ k)
    (h : Progress (needOf files) k [] st) :
    wp (files.forM (addFile ROOTINO)) st fun _ st' => Progress (needOf files) k files st' := by
  refine (wp_forM (fun done todo st => done ++ todo = files ∧
    Progress (needOf files) k done st) ?_ ⟨rfl, h⟩).mono fun _ _ hp => hp.2
  rintro done f todo st ⟨hall, hp⟩
  have hlen : done.length < files.length := by
    rw [← hall]
    simp
  have hf : files.get ⟨done.length, hlen⟩ = f := by
    simp [← hall]
  have hmem : f ∈ files := by
    rw [← hall]
    simp
  have hinodes := hfits.inodes
  refine (addFile_spec hp hk f (hfits.names f hmem) (hfits.sizes f hmem) (by omega)
    (needOf_root (by omega)) ?_).mono fun _ st' hp' => ⟨by simp [hall], hp'⟩
  rw [← hf]
  exact (slotsBelow_subset_slotsOf 2 hlen).trans Finset.subset_union_right

/-! ## the start -/

/-- The empty image. -/
def blank : State where
  disk := Function.update (fun _ => zeroes) 1 superBlock
  sectors := FSSIZE
  freeinode := 1
  freeblock := nmeta

theorem wipe_spec :
    wp ((List.range FSSIZE).forM fun i => wsect i zeroes) start fun _ st =>
      st = { start with sectors := FSSIZE } := by
  refine (wp_forM (fun done todo st => done ++ todo = List.range FSSIZE ∧
    st = { start with sectors := done.length }) ?_ ⟨List.nil_append _, rfl⟩).mono ?_
  · rintro done i todo st ⟨hall, rfl⟩
    have hi : i = done.length := by
      have hget : (done ++ i :: todo)[done.length]? = some i := by simp
      rw [hall] at hget
      obtain ⟨hlt, hi⟩ := List.getElem?_eq_some_iff.mp hget
      rw [List.getElem_range] at hi
      exact hi.symm
    rw [wsect, wp_modify]
    refine ⟨by simp [hall], ?_⟩
    have hzero : Function.update start.disk i zeroes = start.disk :=
      Function.update_eq_self i start.disk
    rw [hzero, hi]
    simp
  · rintro _ st ⟨-, rfl⟩
    rw [List.length_range]

theorem blank_disk {b : Nat} (h : b ≠ 1) : blank.disk b = zeroes := by
  change Function.update (fun _ => zeroes) 1 superBlock b = zeroes
  rw [Function.update_of_ne h]

theorem blank_seen {b : Nat} (h1 : b ≠ 1) (hb : b ≠ sb.bmapstart) : blank.seen b = zeroes := by
  rw [State.seen, Function.update_of_ne hb, blank_disk h1]

theorem blank_type {i : Nat} (hi : i < NINODES) : (dinode sb blank.seen i).type = 0 := by
  have hone := layout.one_lt_IBLOCK i
  rw [dinode, blank_seen (by omega) (IBLOCK_lt hi).ne]
  simp [getDinode, getShort, le16, zeroes, Words.get]

theorem blank_ref (x : Nat × Slot) : ref sb blank.seen (dinode sb blank.seen) x = none := by
  unfold ref
  rw [if_neg]
  rintro ⟨hi, htype, -⟩
  exact htype (blank_type hi)

theorem blank_built : Built ROOTINO blank where
  cons := by
    refine Consistent.of_no_refs layout (by decide +kernel) (fun b hb => ?_) blank_ref
      fun i hi ht => absurd (blank_type hi) ht
    have hle : FSSIZE ≤ BPB := by decide
    have hb : b < FSSIZE := hb
    rw [busy_seen (by decide) (by omega), isMeta_iff, decide_eq_true_eq]
    rfl
  sectors := rfl
  freeinode := rfl
  low := le_rfl
  high := by decide
  zero b hb := by
    have hb : nmeta ≤ b := hb
    have hone : 1 < nmeta := by decide
    exact blank_disk (by omega)

theorem idle_eq (h : st.freeblock ≤ FSSIZE) :
    idle (Finset.range FSSIZE) (busy sb st.seen) = FSSIZE - st.freeblock := by
  have hle : FSSIZE ≤ BPB := by decide
  have hset : {b ∈ Finset.range FSSIZE | busy sb st.seen b = false} =
      Finset.Ico st.freeblock FSSIZE := by
    ext b
    rw [Finset.mem_filter, Finset.mem_range, Finset.mem_Ico]
    constructor
    · rintro ⟨hb, hfree⟩
      rw [busy_seen h (by omega), decide_eq_false_iff_not] at hfree
      omega
    · rintro ⟨hle, hb⟩
      rw [busy_seen h (by omega), decide_eq_false_iff_not]
      omega
  rw [idle, hset, Nat.card_Ico]

theorem blank_slack (need : Finset (Nat × Slot)) :
    blank.slack need = FSSIZE - nmeta - need.card := by
  have hlack : lacking need (ref sb blank.seen (dinode sb blank.seen)) = need.card := by
    unfold lacking
    rw [Finset.filter_true_of_mem]
    intro x _
    rw [blank_ref]
    rfl
  have hlow : nmeta ≤ FSSIZE := by decide
  rw [State.slack, Xv6.slack, hlack, idle_eq (by exact hlow)]
  have : blank.freeblock = nmeta := rfl
  omega

/-- The root directory without files. -/
theorem rootEntries_spec {k : Int} (hk : 0 ≤ k) (hslack : blank.slack need = k)
    (hneed : slotsBelow ROOTINO (blocks (16 * 2)) ⊆ need) (h : Built 2 st)
    (hm : Made T_DIR ROOTINO blank st) :
    wp (do
      iappend ROOTINO (dirent ROOTINO [0x2e])
      iappend ROOTINO (dirent ROOTINO [0x2e, 0x2e])) st fun _ st' => Progress need k [] st' := by
  have hone : ROOTINO < NINODES := by decide
  have hempty : st.file ROOTINO = [] := by
    rw [State.file, hm.self]
    rfl
  have htype : (dinode sb st.seen ROOTINO).type = T_DIR := by
    rw [hm.self]
    rfl
  have happend : wp ([dirent ROOTINO [0x2e], dirent ROOTINO [0x2e, 0x2e]].forM (iappend ROOTINO))
      st fun _ st' => Built 2 st' ∧ Appended need ROOTINO
        [dirent ROOTINO [0x2e], dirent ROOTINO [0x2e, 0x2e]].flatten st st' := by
    refine iappends_spec h hone (by rw [htype]; decide) (by rw [htype]; decide) (by simp) ?_ ?_ ?_
    · rw [file_size, hempty]
      decide
    · rw [file_size, hempty]
      simpa using hneed
    · rw [hm.slack, hslack]
      exact hk
  simp only [List.forM, bind_pure_unit] at happend
  refine happend.mono ?_
  rintro _ st' ⟨h', ha⟩
  constructor
  case built => exact h'
  case slack => rw [ha.slack, hm.slack, hslack]
  case rootType => rw [ha.type, htype]
  case rootLink => rw [ha.nlink, hm.self]
  case root =>
    rw [ha.file, hempty]
    rfl
  case fileType => exact fun j hj => absurd hj (Nat.not_lt_zero j)
  case files => exact fun j hj => absurd hj (Nat.not_lt_zero j)
  case free =>
    intro j hj hout
    have hout : j = 0 ∨ 2 ≤ j := hout
    have hj1 : j ≠ ROOTINO := by
      unfold ROOTINO
      omega
    rw [ha.dinode j hj hj1, hm.dinode j hj1, blank_type hj]

/-! ## the end -/

/-- The size that `mkfs` gives the root directory. -/
def rounded (size : UInt32) : UInt32 := (size / 512 + 1) * 512

/-- The image that `mkfs` leaves, from the state after the loop over the files. -/
def State.finish (st : State) : State :=
  let st' := st.putInode ROOTINO { dinode sb st.seen ROOTINO with
    size := rounded (dinode sb st.seen ROOTINO).size }
  { st' with disk := st'.seen }

/-- **`mkfs`** writes all files. -/
theorem main_spec {files : List HostFile} (hfits : Fits files) :
    ∃ st, Progress (needOf files) (FSSIZE - nmeta - (needOf files).card) files st ∧
      main files start = .ok ((), st.finish) := by
  have hcard := hfits.card_needOf
  have hone : ROOTINO < NINODES := by decide
  have hk : (0 : Int) ≤ FSSIZE - nmeta - (needOf files).card := by omega
  have hmain : wp (main files) start fun _ st' => ∃ st,
      Progress (needOf files) (FSSIZE - nmeta - (needOf files).card) files st ∧
        st' = st.finish := by
    unfold main
    refine wp_bind_of wipe_spec ?_
    rintro _ _ rfl
    rw [wp_bind, wsect, wp_modify]
    refine wp_bind_of (ialloc_spec blank_built hone (blank_type hone) T_DIR) ?_
    rintro _ st₁ ⟨rfl, h₁, hm⟩
    rw [if_pos rfl]
    have hroot := rootEntries_spec hk (blank_slack _) (needOf_root (by omega)) h₁ hm
    rw [wp_bind] at hroot ⊢
    refine hroot.mono fun _ st₂ hroot => wp_bind.mpr (hroot.mono fun _ st₃ hp => ?_)
    refine wp_bind_of (addFiles_spec hfits hk hp) fun _ st hp => ?_
    refine wp_bind.mpr ?_
    rw [fixSize, wp_bind, wp_rinode hp.built.sectors hone, wp_winode hp.built.sectors hone,
      wp_bind, wp_get, balloc, if_pos, wsect, wp_modify]
    · refine ⟨st, hp, ?_⟩
      have hmax : max st.sectors (sb.bmapstart + 1) = st.sectors := by
        rw [hp.built.sectors]
        decide
      have hsect : max (st.putInode ROOTINO { dinode sb st.seen ROOTINO with
          size := (((dinode sb st.seen ROOTINO).size / 512) + 1) * 512 }).sectors
          (sb.bmapstart + 1) = st.sectors := hmax
      rw [hsect]
      rfl
    · have hhigh := hp.built.high
      exact hhigh.trans_lt (by decide)
  obtain ⟨_, st', hm, st, hp, rfl⟩ := hmain
  exact ⟨st, hp, hm⟩

end Xv6.Mkfs
