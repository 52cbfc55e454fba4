import Xv6.Lib.Run
import Xv6.Fs.Keep

/-!
# Xv6.Fs.Blocks

Ownership of the blocks over whole runs of the file system.

* `BlockConsistent` is said in terms of the disk alone: the bitmap, the slots of
  the allocated inodes, and their sizes.
* `DataSlots` adds that the slots hold data blocks; without it, releasing a file
  can release a block of the log (`iput_frees_log`).
* `blocks_kept`: a run of operations on locked inodes keeps both, the cached
  inodes are those on the disk, and `bfree` never finds a block free.
-/

namespace Xv6.Fs

open Words Run

variable {s s' : State} {c : Ip}

/-! ## consistency of the disk -/

/-- The bitmap is that of the metadata and of the blocks in exactly one slot, no
block is in two slots, and the files have all their blocks. -/
structure BlockConsistent (s : State) : Prop where
  bitmap : ∀ b < s.sb.size, busy s.sb s.disk b = true ↔
    isMeta s.sb b ∨ ∃! x, ref s.sb s.disk (dinode s.sb s.disk) x = some b
  once : ∀ x y b, ref s.sb s.disk (dinode s.sb s.disk) x = some b →
    ref s.sb s.disk (dinode s.sb s.disk) y = some b → x = y
  covered : ∀ i < s.sb.ninodes, (dinode s.sb s.disk i).type ≠ 0 →
    ∀ bn < ((dinode s.sb s.disk i).size.toNat + BSIZE - 1) / BSIZE,
      slotAddr s.disk (dinode s.sb s.disk i) (.block bn) ≠ 0

/-- The blocks in the slots are data blocks of the disk. -/
def DataSlots (s : State) : Prop :=
  ∀ x b, ref s.sb s.disk (dinode s.sb s.disk) x = some b → b < s.sb.size ∧ ¬ isMeta s.sb b

/-- The super block in memory is that on the disk, and it lays the disk out in
disjoint regions. -/
structure Mounted (s : State) : Prop where
  layout : s.sb.Layout
  super : getSuper (s.disk 1) = s.sb

theorem Sound.mounted (h : Sound s) : Mounted s := ⟨h.cons.layout, h.cons.super⟩

theorem Sound.dataSlots (h : Sound s) : DataSlots s :=
  fun _ _ hr => ⟨h.cons.lt_size hr, h.cons.not_isMeta hr⟩

theorem Sound.blockConsistent (h : Sound s) : BlockConsistent s where
  bitmap := by
    intro b hb
    rw [h.cons.own.busy_iff b (Finset.mem_range.mpr hb)]
    refine or_congr_right ⟨?_, fun ⟨x, hx, _⟩ => ⟨x, hx⟩⟩
    rintro ⟨x, hx⟩
    exact ⟨x, hx, fun y hy => h.cons.own.inj hy hx⟩
  once := fun _ _ _ hx hy => h.cons.own.inj hx hy
  covered := by
    intro i hi ht bn hbn
    refine h.cons.filled i hi ht bn ?_
    simp only [BSIZE] at *
    omega

/-- **The invariant of the operations** is consistency of the disk, together
with data blocks in the slots and a cache that agrees with the disk. -/
theorem sound_iff :
    Sound s ↔ BlockConsistent s ∧ DataSlots s ∧ Mounted s ∧ Coherent s := by
  constructor
  · exact fun h => ⟨h.blockConsistent, h.dataSlots, h.mounted, h.cache⟩
  · rintro ⟨hblocks, hdata, hmounted, hcache⟩
    refine ⟨⟨hmounted.layout, hmounted.super, ⟨?_, ?_, ?_, ?_⟩, ?_⟩, hcache⟩
    · intro b hb
      rw [hblocks.bitmap b (Finset.mem_range.mp hb)]
      refine or_congr_right ⟨fun ⟨x, hx, _⟩ => ⟨x, hx⟩, ?_⟩
      rintro ⟨x, hx⟩
      exact ⟨x, hx, fun y hy => hblocks.once y x b hy hx⟩
    · exact fun hx hy => hblocks.once _ _ _ hx hy
    · exact fun hx => Finset.mem_range.mpr (hdata _ _ hx).1
    · exact fun hx => (hdata _ _ hx).2
    · intro i hi ht bn hbn
      refine hblocks.covered i hi ht bn ?_
      simp only [BSIZE] at *
      omega

/-! ## runs -/

/-- The operations of `fs.c` that the system calls are made of.  `stat` stands
for the assignments to the description of a locked inode in `sysfile.c`, which
`iupdate` follows; `unlink` clears a directory entry by a `writei` of zeros. -/
inductive Op
  | iget (inum : Nat)
  | idup (c : Ip)
  | ilock (c : Ip)
  | iunlock (c : Ip)
  | ialloc (type : Int16)
  | writei (c : Ip) (src : Nat → UInt8) (off n : UInt32)
  | dirlink (c : Ip) (name : Nat → UInt8) (inum : Nat)
  | stat (c : Ip) (major minor nlink : Int16) (uid gid mode : UInt32)
  | iput (c : Ip)

/-- The clearing of the directory entry at `off` in `sys_unlink`. -/
def Op.clear (dp : Ip) (off : UInt32) : Op := .writei dp (fun _ => 0) off 16

def Op.code : Op → M Unit
  | .iget inum => do let _ ← Fs.iget inum
  | .idup c => Fs.idup c
  | .ilock c => Fs.ilock c
  | .iunlock c => Fs.iunlock c
  | .ialloc type => do let _ ← Fs.ialloc type
  | .writei c src off n => do let _ ← Fs.writei c src off n
  | .dirlink c name inum => do let _ ← Fs.dirlink c name inum
  | .stat c major minor nlink uid gid mode => do
      setDin c fun d => { d with major, minor, nlink, uid, gid, mode }
      iupdate c
  | .iput c => Fs.iput c

/-- An operation that returns; a panic ends the run, and so does `ilock` while
the inode is locked. -/
def step (s : State) (op : Op) : Option State :=
  match op.code s with
  | .ok (_, s') => some s'
  | .error _ => none

/-- **The callers' part**: they hold a reference to the inode of the entry they
pass, and the lock where the operation needs it. -/
def Proper (s : State) : Op → Prop
  | .iget _ => True
  | .idup c => 0 < (s.inode c).ref
  | .ilock c => (s.inode c).inum < s.sb.ninodes
  | .iunlock _ => True
  | .ialloc _ => True
  | .writei c _ _ _ => Locked s c
  | .dirlink c _ _ => Locked s c
  | .stat c _ _ _ _ _ _ => Locked s c
  | .iput c => 0 < (s.inode c).ref

/-- **One operation.** -/
theorem code_sound (h : Sound s) {op : Op} (hp : Proper s op) :
    wpE op.code s (fun _ s' => Sound s') (· ≠ .freeingFreeBlock) := by
  cases op with
  | iget inum =>
      simp only [Op.code, wpE_bind, wpE_pure]
      refine (iget_sound h inum).mono (fun _ _ hq => hq.1) ?_
      rintro _ rfl
      decide
  | idup c => exact idup_sound h hp
  | ilock c =>
      refine (ilock_sound h hp).mono (fun _ _ hq => hq.1) ?_
      rintro _ (rfl | rfl | rfl) <;> decide
  | iunlock c =>
      refine (iunlock_sound h).mono (fun _ _ hq => hq) ?_
      rintro _ rfl
      decide
  | ialloc type =>
      simp only [Op.code, wpE_bind, wpE_pure]
      refine (ialloc_sound h type).mono (fun _ _ hq => hq.1) ?_
      rintro _ (rfl | rfl) <;> decide
  | writei c src off n =>
      simp only [Op.code, wpE_bind, wpE_pure]
      refine (writei_sound h hp.ref hp.valid src off n).mono (fun _ _ hq => hq) ?_
      rintro _ rfl
      decide
  | dirlink c name inum =>
      simp only [Op.code, wpE_bind, wpE_pure]
      exact dirlink_sound h hp.ref hp.valid name inum
  | stat c major minor nlink uid gid mode =>
      exact setDin_iupdate_sound h hp.ref hp.valid
        (fun d => { d with major, minor, nlink, uid, gid, mode })
        (fun _ => rfl) (fun _ => rfl) fun _ => rfl
  | iput c =>
      refine (iput_sound h hp).mono (fun _ _ hq => hq) ?_
      rintro _ rfl
      decide

theorem step_sound {op : Op} (h : Sound s) (hp : Proper s op) (hs : step s op = some s') :
    Sound s' := by
  have hcode := code_sound h hp
  rw [step] at hs
  split at hs
  · next hok =>
    obtain rfl := Option.some.inj hs
    rw [wpE, hok] at hcode
    exact hcode
  · exact absurd hs (by simp)

/-- **Ownership of the blocks**: in a run of operations on properly locked
inodes the disk stays consistent, a cached inode is the one on the disk, and
`bfree` never panics. -/
theorem blocks_kept (ops : List Op) (hblocks : BlockConsistent s) (hdata : DataSlots s)
    (hmounted : Mounted s) (hcache : Coherent s) (hproper : Guarded step Proper s ops) :
    Along step (fun t => BlockConsistent t ∧ DataSlots t ∧
        ∀ c, 0 < (t.inode c).ref → (t.inode c).valid = true →
          dinode t.sb t.disk (t.inode c).inum = (t.inode c).din) s ops ∧
      Guarded step (fun t op => op.code t ≠ .error .freeingFreeBlock) s ops := by
  have h : Sound s := sound_iff.mpr ⟨hblocks, hdata, hmounted, hcache⟩
  constructor
  · exact along_of_guarded (fun _ _ _ hi hg hs => step_sound hi hg hs)
      (fun t ht => ⟨ht.blockConsistent, ht.dataSlots, ht.cache.copy⟩) h hproper
  · clear hblocks hdata hmounted hcache
    induction ops generalizing s with
    | nil => trivial
    | cons op ops ih =>
        refine ⟨fun herr => ?_, fun t ht => ih (hproper.2 t ht) (step_sound h hproper.1 ht)⟩
        have hcode := code_sound h hproper.1
        rw [wpE, herr] at hcode
        exact hcode rfl

/-! ### on small disks -/

instance (s : State) (c : Ip) : Decidable (Locked s c) :=
  decidable_of_iff (0 < (s.inode c).ref ∧ (s.inode c).busy = true ∧ (s.inode c).valid = true)
    ⟨fun h => ⟨h.1, h.2.1, h.2.2⟩, fun h => ⟨h.ref, h.busy, h.valid⟩⟩

instance (s : State) : DecidablePred (Proper s)
  | .iget _ => inferInstanceAs (Decidable True)
  | .idup c => inferInstanceAs (Decidable (0 < (s.inode c).ref))
  | .ilock c => inferInstanceAs (Decidable ((s.inode c).inum < s.sb.ninodes))
  | .iunlock _ => inferInstanceAs (Decidable True)
  | .ialloc _ => inferInstanceAs (Decidable True)
  | .writei c _ _ _ => inferInstanceAs (Decidable (Locked s c))
  | .dirlink c _ _ => inferInstanceAs (Decidable (Locked s c))
  | .stat c _ _ _ _ _ _ => inferInstanceAs (Decidable (Locked s c))
  | .iput c => inferInstanceAs (Decidable (0 < (s.inode c).ref))

/-- A file is written, loses its name, and is released. -/
def someOps : List Op :=
  [.writei first (fun _ => 7) 0 3, .stat first 0 0 0 0 0 0, .iunlock first, .iput first]

theorem blocks_kept_small :
    (BlockConsistent small ∧ DataSlots small ∧ Mounted small ∧ Coherent small) ∧
    Guarded step Proper small someOps ∧ (exec step small someOps).isSome = true ∧
    Guarded step (fun t op => op.code t ≠ .error .freeingFreeBlock) small someOps := by
  have hp : Guarded step Proper small someOps := by decide +kernel
  have h := sound_iff.mp small_sound
  exact ⟨h, hp, by decide +kernel, (blocks_kept someOps h.1 h.2.1 h.2.2.1 h.2.2.2 hp).2⟩

/-- A file without a name, whose only block is the log block. -/
def strayFile : Dinode :=
  { Dinode.fresh 2 with size := 512, addrs := fun k => if k.val = 0 then 2 else 0 }

/-- A disk of six blocks: boot block, super block, one log block, one inode block
with the file, one bitmap block and one free data block. -/
def strayDisk : Nat → Block
  | 1 => store (fun _ => 0) 0 (image fun k => [6, 1, 4, 1, 2, 3, 4].getD k 0) 28
  | 3 => putDinode (fun _ => 0) 1 strayFile
  | 4 => fun k => if k.val = 0 then 0x1f else 0
  | _ => fun _ => 0

def stray : State where
  sb := ⟨6, 1, 4, 1, 2, 3, 4⟩
  disk := strayDisk
  inode := fun c => ⟨1, if c.val = 0 then 1 else 0, false, true, strayFile⟩
  devsw := ⟨fun _ => none, fun _ => none⟩

theorem stray_dinode : ∀ i < 4, i ≠ 1 → (dinode stray.sb stray.disk i).type = 0 := by
  decide +kernel

theorem stray_file : dinode stray.sb stray.disk 1 = strayFile :=
  getDinode_putDinode _ (by decide) _

theorem stray_slotAddr (t : Slot) :
    slotAddr stray.disk strayFile t = if t = .block 0 then 2 else 0 := by
  have hzero (k : Nat) (hk : 0 < k) : strayFile.addr k = 0 := by
    unfold Dinode.addr
    split
    · exact if_neg hk.ne'
    · rfl
  cases t with
  | indirect =>
      rw [slotAddr, hzero NDIRECT (by decide)]
      rfl
  | block bn =>
      by_cases hbn : bn < NDIRECT
      · rw [slotAddr_direct hbn]
        by_cases h0 : bn = 0
        · subst h0
          rfl
        · rw [hzero bn (by omega), if_neg (by simp [h0])]
          rfl
      · have h0 : bn ≠ 0 := by
          rintro rfl
          exact hbn (by decide)
        rw [slotAddr, if_neg hbn, if_neg fun hc => hc.2 (hzero NDIRECT (by decide)),
          if_neg (by simp [h0])]

theorem stray_ref {x : Nat × Slot} {b : Nat} :
    ref stray.sb stray.disk (dinode stray.sb stray.disk) x = some b ↔
      x = (1, .block 0) ∧ b = 2 := by
  obtain ⟨i, t⟩ := x
  rw [ref_eq_some]
  constructor
  · rintro ⟨hi, htype, hslot, hb⟩
    obtain rfl : i = 1 := by
      by_contra h1
      exact htype (stray_dinode i hi h1)
    rw [stray_file, stray_slotAddr] at hslot
    split at hslot
    · next ht => exact ⟨by rw [ht], hslot.symm⟩
    · exact absurd hslot.symm hb
  · rintro ⟨hx, rfl⟩
    cases hx
    rw [stray_file, stray_slotAddr]
    decide

theorem stray_blockConsistent : BlockConsistent stray where
  bitmap := by
    intro b hb
    have hbits : ∀ b < 6, busy stray.sb stray.disk b = true ↔ isMeta stray.sb b := by
      decide +kernel
    rw [hbits b hb, or_iff_left_of_imp]
    rintro ⟨x, hx, -⟩
    obtain ⟨-, rfl⟩ := stray_ref.mp hx
    decide
  once := fun x y b hx hy => (stray_ref.mp hx).1.trans (stray_ref.mp hy).1.symm
  covered := by
    intro i hi ht bn hbn
    obtain rfl : i = 1 := by
      by_contra h1
      exact ht (stray_dinode i hi h1)
    rw [stray_file] at hbn ⊢
    have h0 : bn = 0 := Nat.lt_one_iff.mp hbn
    rw [stray_slotAddr, h0]
    decide

/-- **A slot with a metadata block**: the file system is consistent, and after
the release of the file the log block is marked free. -/
theorem iput_frees_log : BlockConsistent stray ∧ Mounted stray ∧ Coherent stray ∧
    Guarded step Proper stray [.iput first] ∧
    ∃ s', exec step stray [.iput first] = some s' ∧ ¬ BlockConsistent s' := by
  refine ⟨stray_blockConsistent, ⟨⟨?_, ?_, ?_, ?_, ?_⟩, by decide +kernel⟩, ?_, by decide +kernel, ?_⟩
  · decide
  · decide
  · decide
  · decide
  · decide
  · exact ⟨by decide, by decide, by decide, fun _ _ _ => stray_file⟩
  · obtain ⟨s', hs', hp⟩ := exists_of_exec_any step stray [.iput first]
      (fun t => decide (2 < t.sb.size) && decide (isMeta t.sb 2) && !busy t.sb t.disk 2)
      (by decide +kernel)
    simp only [Bool.and_eq_true, decide_eq_true_eq, Bool.not_eq_true'] at hp
    refine ⟨s', hs', fun hc => ?_⟩
    have hbusy := (hc.bitmap 2 hp.1.1).mpr (.inl hp.1.2)
    rw [hp.2] at hbusy
    exact absurd hbusy (by decide)

end Xv6.Fs
