import Xv6.Fs.Cache

/-!
# Xv6.Fs.Refine

The contents of a file are an array of bytes.

`File.step` is the meaning of a read or a write on a list of bytes; block
boundaries, the indirect block and the allocator are not in it.
`content_refines` says that any sequence of `writei` and `readi` calls on a
locked inode is answered as `File.step` answers it on the contents, provided
the free blocks suffice for it (`Enough`).
-/

namespace Xv6.Fs

open Words

/-! ## files as lists of bytes -/

/-- A request to the inode. -/
inductive Call
  /-- `writei(ip, src, off, n)` -/
  | write (src : Nat → UInt8) (off n : UInt32)
  /-- `readi(ip, dst, off, n)` -/
  | read (off n : UInt32)

namespace File

/-- `f` with the bytes from `off` on replaced by `bs`. -/
def overwrite (f : List UInt8) (off : Nat) (bs : List UInt8) : List UInt8 :=
  f.take off ++ bs ++ f.drop (off + bs.length)

theorem length_overwrite {f : List UInt8} {off : Nat} (bs : List UInt8) (h : off ≤ f.length) :
    (overwrite f off bs).length = max f.length (off + bs.length) := by
  simp only [overwrite, List.length_append, List.length_take, List.length_drop]
  omega

theorem getElem?_overwrite {f : List UInt8} {off : Nat} (bs : List UInt8) (h : off ≤ f.length)
    (o : Nat) : (overwrite f off bs)[o]? =
      if off ≤ o ∧ o < off + bs.length then bs[o - off]? else f[o]? := by
  simp only [overwrite, List.getElem?_append, List.length_append, List.length_take,
    List.getElem?_take, List.getElem?_drop, Nat.min_eq_left h]
  split
  · split
    · rw [if_neg (by omega)]
    · rw [if_pos (by omega)]
  · rw [if_neg (by omega)]
    congr 1
    omega

/-- The first `n` bytes at `src`. -/
def bytes (src : Nat → UInt8) (n : Nat) : List UInt8 := (List.range n).map src

/-- What a request does to a file: the value returned, the bytes delivered, and
the file afterwards. -/
def step (f : List UInt8) : Call → (Int × List UInt8) × List UInt8
  | .write src off n =>
      if WriteRefused f.length off n then ((-1, []), f)
      else ((n.toNat, []), overwrite f off.toNat (bytes src n.toNat))
  | .read off n =>
      if f.length < off.toNat ∨ 2 ^ 32 ≤ off.toNat + n.toNat then ((-1, []), f)
      else (((min n.toNat (f.length - off.toNat) : Nat), (f.drop off.toNat).take n.toNat), f)

end File

/-! ## bytes of the contents -/

variable {s s' : State} {c : Ip} {need : Finset (Nat × Slot)}

@[simp] theorem length_content (disk : Nat → Block) (d : Dinode) :
    (content disk d).length = d.size.toNat := by
  simp [content]

theorem getElem?_content (disk : Nat → Block) (d : Dinode) {o : Nat} (h : o < d.size.toNat) :
    (content disk d)[o]? = some (fileByte disk d o) := by
  simp [content, h]

/-- Inside the file, a cell is a byte of the contents. -/
theorem Held.cell_eq (h : Held s c) {j o : Nat} (hj : j < s.sb.ninodes)
    (htj : (s.ino c j).type ≠ 0) (ho : o < (s.ino c j).size.toNat) :
    s.cell c j o = some (fileByte s.disk (s.ino c j) o) := by
  have hne := h.cons.filled j hj htj (o / BSIZE) ((Nat.div_mul_le_self o BSIZE).trans_lt ho)
  have hr : s.ref c (j, .block (o / BSIZE)) = some _ := ref_eq_some.mpr ⟨hj, htj, rfl, hne⟩
  rw [State.cell, hr]
  rfl

namespace Written

variable {src : Nat → UInt8} {off n : Nat}

theorem inum (hw : Written c need src off n s s') : (s'.inode c).inum = (s.inode c).inum := by
  obtain ⟨a, ha⟩ := hw.self
  rw [ha]

theorem type (hw : Written c need src off n s s') :
    (s'.inode c).din.type = (s.inode c).din.type := by
  obtain ⟨a, ha⟩ := hw.self
  rw [ha]

theorem size (hw : Written c need src off n s s') (h32 : off + n < 2 ^ 32) :
    (s'.inode c).din.size.toNat = max (s.inode c).din.size.toNat (off + n) := by
  obtain ⟨a, ha⟩ := hw.self
  have := (s.inode c).din.size.toNat_lt
  rw [ha]
  exact UInt32.toNat_ofNat_of_lt' (max_lt this h32)

/-- **The file after a write** is the file before with the bytes replaced. -/
theorem content (hw : Written c need src off n s s') (h : Held s c)
    (hoff : off ≤ (s.inode c).din.size.toNat) (h32 : off + n < 2 ^ 32) :
    content s'.disk (s'.inode c).din =
      File.overwrite (Fs.content s.disk (s.inode c).din) off (File.bytes src n) := by
  have hlen : (File.bytes src n).length = n := by simp [File.bytes]
  have hsize := hw.size h32
  apply List.ext_getElem?
  intro o
  rw [File.getElem?_overwrite _ (by rw [length_content]; exact hoff), hlen]
  by_cases ho : o < (s'.inode c).din.size.toNat
  · have hcell := hw.held.cell_eq hw.held.inum_lt hw.held.type_ino (by rw [s'.ino_self]; exact ho)
    rw [s'.ino_self, hw.inum] at hcell
    rw [getElem?_content _ _ ho, ← hcell]
    split
    · next hin =>
      rw [hw.stored.new o hin.1 hin.2, File.bytes, List.getElem?_map,
        List.getElem?_range (by omega), Option.map_some]
    · next hout =>
      have ho' : o < (s.inode c).din.size.toNat := by omega
      have hold := h.cell_eq h.inum_lt h.type_ino (by rw [s.ino_self]; exact ho')
      rw [hw.stored.old _ _ _ (by omega) hold, getElem?_content _ _ ho', s.ino_self]
  · rw [List.getElem?_eq_none (by rw [length_content]; omega), if_neg (by omega),
      List.getElem?_eq_none (by rw [length_content]; omega)]

/-- **No other file** changes. -/
theorem content_other (hw : Written c need src off n s s') (h : Held s c) {j : Nat}
    (hj : j < s.sb.ninodes) (hne : j ≠ (s.inode c).inum)
    (htj : (Fs.dinode s.sb s.disk j).type ≠ 0) :
    Fs.content s'.disk (Fs.dinode s.sb s.disk j) = Fs.content s.disk (Fs.dinode s.sb s.disk j) := by
  have hd : s.ino c j = Fs.dinode s.sb s.disk j := s.ino_of_ne c hne
  have hd' : s'.ino c j = Fs.dinode s.sb s.disk j := by
    rw [s'.ino_of_ne c (by rw [hw.inum]; exact hne), hw.sb, hw.dinode j hj hne]
  apply List.ext_getElem?
  intro o
  by_cases ho : o < (Fs.dinode s.sb s.disk j).size.toNat
  · have hnew := hw.held.cell_eq (o := o) (by rw [hw.sb]; exact hj) (by rw [hd']; exact htj)
      (by rw [hd']; exact ho)
    have hold := h.cell_eq (o := o) hj (by rw [hd]; exact htj) (by rw [hd]; exact ho)
    rw [hw.stored.old _ _ _ (fun hc => hne hc.1) hold, hd, hd'] at hnew
    rw [getElem?_content _ _ ho, getElem?_content _ _ ho, hnew]
  · rw [List.getElem?_eq_none (by rw [length_content]; omega),
      List.getElem?_eq_none (by rw [length_content]; omega)]

end Written

/-! ## sequences of requests -/

/-- The code of a request. -/
def Call.run (c : Ip) : Call → M (Int32 × List UInt8)
  | .write src off n => do
      let r ← writei c src off n
      return (r, [])
  | .read off n => readi c off n

/-- The answer to a request on the inode in entry `c`, and what became of the
file system. -/
structure Meets (c : Ip) (call : Call) (s : State) (r : Int32 × List UInt8) (s' : State) : Prop where
  /-- the value returned, the bytes delivered and the contents -/
  file : ((r.1.toInt, r.2), content s'.disk (s'.inode c).din) =
    File.step (content s.disk (s.inode c).din) call
  /-- the size after a write -/
  size : ∀ src off n, call = .write src off n → r.1 ≠ -1 → 0 < n →
    (s'.inode c).din.size.toNat = max (s.inode c).din.size.toNat (off.toNat + n.toNat)
  /-- a request that is refused changes nothing -/
  refused : r.1 = -1 → s' = s
  /-- neither does a read -/
  read : ∀ off n, call = .read off n → s' = s
  /-- the other inodes and their contents -/
  other : ∀ j < s.sb.ninodes, j ≠ (s.inode c).inum → (dinode s.sb s.disk j).type ≠ 0 →
    dinode s'.sb s'.disk j = dinode s.sb s.disk j ∧
      content s'.disk (dinode s.sb s.disk j) = content s.disk (dinode s.sb s.disk j)

/-- Every request of a sequence returns, with the answer it should have. -/
def Obeys (c : Ip) : List Call → State → Prop
  | [], _ => True
  | call :: calls, s => wp (call.run c) s fun r s' => Meets c call s r s' ∧ Obeys c calls s'

/-- How many blocks a file of `size` bytes needs for a sequence of requests. -/
def reach (size : Nat) : List Call → Nat
  | [] => 0
  | .read _ _ :: calls => reach size calls
  | .write _ off n :: calls =>
      if WriteRefused size off n then reach size calls
      else max ((off.toNat + n.toNat + BSIZE - 1) / BSIZE)
        (reach (max size (off.toNat + n.toNat)) calls)

/-- The slots of inode `i` for its first `hi` blocks. -/
def slotsBelow (i hi : Nat) : Finset (Nat × Slot) :=
  (Finset.range hi).image (fun bn => (i, Slot.block bn)) ∪
    if NDIRECT < hi then {(i, Slot.indirect)} else ∅

/-- There are as many free blocks as the requests need new ones. -/
def Enough (s : State) (c : Ip) (calls : List Call) : Prop :=
  lacking (slotsBelow (s.inode c).inum (reach (s.inode c).din.size.toNat calls))
      (ref s.sb s.disk (dinode s.sb s.disk)) ≤
    idle (Finset.range s.sb.size) (busy s.sb s.disk)

theorem needs_slotsBelow {off n hi : Nat} (h : (off + n + BSIZE - 1) / BSIZE ≤ hi) :
    Needs s c (slotsBelow (s.inode c).inum hi) off n := by
  intro bn _ hlt
  have hbn : bn < hi := by
    simp only [BSIZE] at *
    omega
  refine ⟨Finset.mem_union_left _ (Finset.mem_image_of_mem _ (Finset.mem_range.mpr hbn)), ?_⟩
  intro hge
  refine Finset.mem_union_right _ ?_
  rw [if_pos (by omega)]
  exact Finset.mem_singleton_self _

/-- **One request.** -/
theorem call_spec (h : Held s c) (hsync : dinode s.sb s.disk (s.inode c).inum = (s.inode c).din)
    (hdev : (s.inode c).din.type ≠ T_DEV) {call : Call} {calls : List Call} {hi : Nat}
    (hreach : reach (s.inode c).din.size.toNat (call :: calls) ≤ hi)
    (hslack : 0 ≤ s.slack c (slotsBelow (s.inode c).inum hi)) :
    wp (call.run c) s fun r s' => Meets c call s r s' ∧ Held s' c ∧
      dinode s'.sb s'.disk (s'.inode c).inum = (s'.inode c).din ∧
      (s'.inode c).din.type = (s.inode c).din.type ∧ (s'.inode c).inum = (s.inode c).inum ∧
      reach (s'.inode c).din.size.toNat calls ≤ hi ∧
      0 ≤ s'.slack c (slotsBelow (s.inode c).inum hi) := by
  cases call with
  | read off n =>
      refine wpE.returns (E := fun _ => False) ((readi_spec h hdev).mono ?_ fun _ he => he)
        fun _ he => he
      rintro r _ ⟨rfl, hr⟩
      refine ⟨⟨?_, by simp, fun _ => rfl, fun _ _ _ => rfl, fun _ _ _ _ => ⟨rfl, rfl⟩⟩, h, hsync,
        rfl, rfl, hreach, hslack⟩
      rw [File.step, length_content]
      split
      · next hbad =>
        rw [if_pos hbad] at hr
        rw [hr]
        rfl
      · next hok =>
        rw [if_neg hok] at hr
        rw [hr.1, hr.2]
  | write src off n =>
      have hneed : ¬ WriteRefused (s.inode c).din.size.toNat off n →
          (off.toNat + n.toNat + BSIZE - 1) / BSIZE ≤ hi ∧
          reach (max (s.inode c).din.size.toNat (off.toNat + n.toNat)) calls ≤ hi := by
        intro hok
        rw [reach, if_neg hok] at hreach
        exact ⟨(le_max_left _ _).trans hreach, (le_max_right _ _).trans hreach⟩
      have hspec : wpE (writei c src off n) s _ _ :=
        writei_spec h hsync hdev fun hok => needs_slotsBelow (hneed hok).1
      refine wp_bind_of (hspec.returns fun e he => absurd he.2.2 (by omega)) ?_
      rintro r s' (⟨hbad, rfl, rfl⟩ | ⟨hok, rfl, hw⟩)
      · rw [reach, if_pos hbad] at hreach
        refine wp_pure.mpr ⟨⟨?_, ?_, fun _ => rfl, by simp, fun _ _ _ _ => ⟨rfl, rfl⟩⟩, h, hsync,
          rfl, rfl, hreach, hslack⟩
        · rw [File.step, length_content, if_pos hbad]
          rfl
        · exact fun _ _ _ _ hr _ => absurd rfl hr
      · have hret : n.toInt32.toInt = n.toNat := toInt_toInt32_of_lt (by
          have hsmall : MAXFILE * BSIZE < 2 ^ 31 := by decide
          unfold WriteRefused at hok
          omega)
        have hoff : off.toNat ≤ (s.inode c).din.size.toNat ∧ off.toNat + n.toNat < 2 ^ 32 := by
          unfold WriteRefused at hok
          omega
        refine wp_pure.mpr ⟨⟨?_, ?_, ?_, by simp, ?_⟩, hw.held, ?_, hw.type, hw.inum, ?_, ?_⟩
        · rw [File.step, length_content, if_neg hok, hret, hw.content h hoff.1 hoff.2]
        · rintro _ _ _ ⟨⟩ _ _
          exact hw.size hoff.2
        · intro hr
          have : n.toInt32.toInt = -1 := congrArg Int32.toInt hr
          omega
        · intro j hj hne htj
          rw [hw.sb]
          exact ⟨hw.dinode j hj hne, hw.content_other h hj hne htj⟩
        · rw [hw.sb, hw.inum, hw.synced]
        · rw [hw.size hoff.2]
          exact (hneed hok).2
        · rw [hw.slack]
          exact hslack

/-- **The contents of a locked inode are an array of bytes**: every sequence of
reads and writes is answered accordingly, and leaves the other files alone. -/
theorem content_refines (h : Sound s) (hlock : Locked s c) (hdev : (s.inode c).din.type ≠ T_DEV)
    (calls : List Call) (henough : Enough s c calls) : Obeys c calls s := by
  have hsync := h.cache.copy c hlock.ref hlock.valid
  have main : ∀ (calls : List Call) (s : State) (hi : Nat), Held s c →
      dinode s.sb s.disk (s.inode c).inum = (s.inode c).din → (s.inode c).din.type ≠ T_DEV →
      reach (s.inode c).din.size.toNat calls ≤ hi →
      0 ≤ s.slack c (slotsBelow (s.inode c).inum hi) → Obeys c calls s := by
    intro calls
    induction calls with
    | nil => exact fun _ _ _ _ _ _ _ => trivial
    | cons call calls ih =>
        intro s hi hheld hsync hdev hreach hslack
        refine (call_spec hheld hsync hdev hreach hslack).mono ?_
        rintro r s' ⟨hmeets, hheld', hsync', htype, hinum, hreach', hslack'⟩
        rw [← hinum] at hslack'
        exact ⟨hmeets, ih s' hi hheld' hsync' (htype ▸ hdev) hreach' hslack'⟩
  refine main calls s _ (h.held hlock.ref hlock.valid) hsync hdev le_rfl ?_
  unfold Enough at henough
  unfold State.slack slack State.ref
  rw [ino_eq_dinode hsync]
  omega

/-! ### on a small disk -/

/-- An allocated inode without blocks. -/
def emptyFile : Dinode :=
  { Dinode.fresh 2 with nlink := 1 }

/-- A file system with one file, which is empty and may be in an entry of the cache. -/
theorem Sound.of_empty_file {s : State} (hlayout : s.sb.Layout)
    (hsuper : getSuper (s.disk 1) = s.sb)
    (hbusy : ∀ b < s.sb.size, busy s.sb s.disk b = true ↔ isMeta s.sb b)
    (hother : ∀ i < s.sb.ninodes, i ≠ 1 → (dinode s.sb s.disk i).type = 0)
    (hfile : dinode s.sb s.disk 1 = emptyFile) (hlt : 1 < s.sb.ninodes)
    (huniq : ∀ c e, 0 < (s.inode c).ref → 0 < (s.inode e).ref → c = e)
    (hcache : ∀ c, (s.inode c).inum = 1 ∧ (s.inode c).din = emptyFile) : Sound s := by
  have hempty (i : Nat) (hi : i < s.sb.ninodes) (ht : (dinode s.sb s.disk i).type ≠ 0) :
      dinode s.sb s.disk i = emptyFile := by
    obtain rfl : i = 1 := by
      by_contra h1
      exact ht (hother i hi h1)
    exact hfile
  refine ⟨.of_no_refs hlayout hsuper hbusy ?_ fun i hi ht => by rw [hempty i hi ht]; rfl,
    fun c e hc he _ => huniq c e hc he, fun c _ _ => by rw [(hcache c).1]; exact hlt,
    fun c _ _ => by rw [(hcache c).2]; decide, fun c _ _ => by rw [(hcache c).1, (hcache c).2, hfile]⟩
  rintro ⟨i, t⟩
  by_contra hne
  obtain ⟨b, hb⟩ := Option.ne_none_iff_exists'.mp hne
  obtain ⟨hi, ht, hslot, hb0⟩ := ref_eq_some.mp hb
  rw [hempty i hi ht, slotAddr_eq_zero fun k _ => by simp [emptyFile, Dinode.fresh, Dinode.addr]]
    at hslot
  exact hb0 hslot.symm

/-- A disk of eight blocks: boot block, super block, one log block, one inode
block with an empty file, one bitmap block and three free data blocks. -/
def smallDisk : Nat → Block
  | 1 => store (fun _ => 0) 0 (image fun k => [8, 3, 4, 1, 2, 3, 4].getD k 0) 28
  | 3 => putDinode (fun _ => 0) 1 emptyFile
  | 4 => fun k => if k.val = 0 then 0x1f else 0
  | _ => fun _ => 0

def small : State where
  sb := ⟨8, 3, 4, 1, 2, 3, 4⟩
  disk := smallDisk
  inode := fun c => ⟨1, if c.val = 0 then 1 else 0, true, true, emptyFile⟩
  devsw := ⟨fun _ => none, fun _ => none⟩

theorem small_sound : Sound small :=
  .of_empty_file ⟨by decide, by decide, by decide, by decide, by decide⟩ (by decide +kernel)
    (by decide +kernel) (by decide +kernel) (getDinode_putDinode _ (by decide) _) (by decide)
    (by decide) fun _ => ⟨rfl, rfl⟩

/-- The first entry of the cache. -/
def first : Ip := ⟨0, by decide⟩

/-- Two blocks are written and bytes around their boundary are read. -/
def someCalls : List Call := [.write (fun k => UInt8.ofNat k) 0 600, .read 500 100]

theorem content_refines_small : Sound small ∧ Locked small first ∧
    (small.inode first).din.type ≠ T_DEV ∧ Enough small first someCalls ∧
    Obeys first someCalls small := by
  have hlock : Locked small first := ⟨by decide, rfl, rfl⟩
  have hdev : (small.inode first).din.type ≠ T_DEV := by decide
  have henough : Enough small first someCalls := by
    unfold Enough
    decide +kernel
  exact ⟨small_sound, hlock, hdev, henough, content_refines small_sound hlock hdev _ henough⟩

end Xv6.Fs
