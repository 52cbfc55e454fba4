import Mathlib.Algebra.Order.BigOperators.Group.List
import Mathlib.Algebra.Order.Group.Nat
import Xv6.Sysfile
import Xv6.Fs.Icache

/-!
# Xv6.Sysfile.Shared

`filewrite` by any number of processes that share one `struct file`.

* `writei` and `filewrite` are cut where a process can sleep: at `begin_op`, in `ilock`,
  before every block that `writei` copies, and at `end_op`.  What the log does while a
  process waits for it is not visible here.
* `Shared` is the file system, the open file and the calls made so far, each with the
  place it is at.  A step is a new call, or one section of a call.
* `shared_writes`: when all calls have returned, the file has their buffers one behind
  the other from the initial offset on.
-/

namespace Xv6.Sysfile

open Fs Run

/-! ## the sections of `writei` -/

/-- The checks at the start of `writei`: a value that is returned at once. -/
def writeiCheck (s : Fs.State) (d : Dinode) (src : Nat → UInt8) (off n : UInt32) : Option Int32 :=
  if d.type = T_DEV then
    match (deviceNo d).bind s.devsw.write with
    | none => some (-1)
    | some write => some (write src n)
  else if d.size < off ∨ off + n < off then some (-1)
  else if MAXFILE * BSIZE < (off + n).toNat then some (-1)
  else none

theorem writei_eq (c : Ip) (src : Nat → UInt8) (off n : UInt32) : writei c src off n = (do
    let s ← get
    match writeiCheck s (s.inode c).din src off n with
    | some r => return r
    | none => do
        writeLoop c n.toNat src off.toNat n.toNat
        growTo c n (off + n)
        return n.toInt32) := by
  unfold writei writeiCheck
  congr 1
  funext s
  dsimp only
  split
  · cases (deviceNo (s.inode c).din).bind s.devsw.write with
    | none => rfl
    | some write => rfl
  · split
    · rfl
    · split <;> rfl

/-- The bytes of one pass of the loop of `writei`. -/
def pass (off left : Nat) : Nat := min left (BSIZE - off % BSIZE)

theorem writeLoop_zero (c : Ip) (fuel : Nat) (src : Nat → UInt8) (off : Nat) :
    writeLoop c fuel src off 0 = pure () := by
  cases fuel with
  | zero => rfl
  | succ fuel => rw [writeLoop, if_pos rfl]

/-- The loop is a pass and the rest of the loop. -/
theorem writeLoop_succ (c : Ip) (fuel : Nat) (src : Nat → UInt8) (off : Nat) {left : Nat}
    (h : left ≠ 0) : writeLoop c (fuel + 1) src off left = (do
      writeLoop c 1 src off left
      writeLoop c fuel (fun k => src (pass off left + k)) (off + pass off left)
        (left - pass off left)) := by
  rw [writeLoop, writeLoop, if_neg h, if_neg h]
  simp only [bind_assoc, writeLoop, pass, pure_bind]

/-- A pass is the loop on the bytes of the pass. -/
theorem writeLoop_one (c : Ip) (src : Nat → UInt8) (off : Nat) {left : Nat} (h : left ≠ 0) :
    writeLoop c 1 src off left = writeLoop c (pass off left) src off (pass off left) := by
  have hmod : off % BSIZE < BSIZE := Nat.mod_lt _ (by decide)
  have hpos : pass off left ≠ 0 := by
    unfold pass
    omega
  have hpass : pass off (pass off left) = pass off left := by
    unfold pass
    omega
  have hone : writeLoop c 1 src off left = writeLoop c 1 src off (pass off left) := by
    rw [writeLoop, writeLoop, if_neg h, if_neg hpos]
    change (do
      let b ← bmap c (off / BSIZE)
      let data ← bread b
      logWrite b (Words.store data (off % BSIZE) src (pass off left))) = (do
      let b ← bmap c (off / BSIZE)
      let data ← bread b
      logWrite b (Words.store data (off % BSIZE) src (pass off (pass off left))))
    rw [hpass]
  rw [hone]
  generalize pass off left = m at hpos hpass
  obtain ⟨fuel, rfl⟩ := Nat.exists_eq_succ_of_ne_zero hpos
  rw [writeLoop_succ c fuel src off hpos, hpass, Nat.sub_self, writeLoop_zero, bind_pure]

/-! ## the calls -/

/-- A call `filewrite(f, addr, n)`. -/
structure Write where
  addr : Nat → UInt8
  n : Int32

/-- The bytes that a call is to write. -/
def Write.bytes (w : Write) : List UInt8 := File.bytes w.addr w.n.toInt.toNat

/-- `max` of `filewrite`: what fits into one transaction. -/
def writeMax : Int32 := Int32.ofNat ((LOGSIZE - 1 - 1 - 2) / 2 * 512)

/-- Where a call is, with the values of `i`, `n1` and `r`. -/
inductive Pc
  /-- at the head of the loop -/
  | top (i : Int32)
  /-- `begin_op` has returned -/
  | ilock (i n1 : Int32)
  /-- in `ilock`, with `I_BUSY` -/
  | load (i n1 : Int32)
  /-- `ilock` has returned -/
  | call (i n1 : Int32)
  /-- in the loop of `writei` at offset `off`, after `m` bytes -/
  | copy (i n1 : Int32) (off : UInt32) (m : Nat)
  /-- `writei` has returned `r` -/
  | add (i n1 r : Int32)
  | iunlock (i n1 r : Int32)
  | endOp (i n1 r : Int32)
  | done (r : Int32)

/-- The file system, the open file, and the calls. -/
structure Shared where
  fs : Fs.State
  f : File
  calls : List (Write × Pc)
  /-- the calls for which `writei` has returned, in this order -/
  order : List Nat

inductive Act
  /-- a process calls `filewrite` -/
  | call (w : Write)
  /-- call `k` goes on to the end of its section -/
  | run (k : Nat)

namespace Shared

/-- Call `k` is at `pc` now. -/
def goto (y : Shared) (k : Nat) (w : Write) (pc : Pc) : Shared :=
  { y with calls := y.calls.set k (w, pc) }

/-- A section of `fs.c`; after a panic, and while `ilock` has to wait, there is no step. -/
def onFs {α : Type} (y : Shared) (m : M α) (g : α → Shared → Shared) : Option Shared :=
  match m y.fs with
  | .ok (a, fs) => some (g a { y with fs })
  | .error _ => none

/-- One section of call `k`. -/
def advance (y : Shared) (k : Nat) (w : Write) : Pc → Option Shared
  | .top i =>
      if i < w.n then some (y.goto k w (.ilock i (if writeMax < w.n - i then writeMax else w.n - i)))
      else some (y.goto k w (.done (if i = w.n then w.n else -1)))
  | .ilock i n1 => y.onFs (ilockAcquire y.f.ip) fun _ y => y.goto k w (.load i n1)
  | .load i n1 => y.onFs (loadInode y.f.ip) fun _ y => y.goto k w (.call i n1)
  | .call i n1 =>
      match writeiCheck y.fs (y.fs.inode y.f.ip).din (fun j => w.addr (i.toInt.toNat + j)) y.f.off
          n1.toUInt32 with
      | some r => some (y.goto k w (.add i n1 r))
      | none => some (y.goto k w (.copy i n1 y.f.off 0))
  | .copy i n1 off m =>
      if m = n1.toUInt32.toNat then
        y.onFs (growTo y.f.ip n1.toUInt32 (off + n1.toUInt32)) fun _ y =>
          { y.goto k w (.add i n1 n1.toUInt32.toInt32) with order := y.order ++ [k] }
      else
        y.onFs (writeLoop y.f.ip 1 (fun j => w.addr (i.toInt.toNat + (m + j))) (off.toNat + m)
            (n1.toUInt32.toNat - m))
          fun _ y => y.goto k w
            (.copy i n1 off (m + pass (off.toNat + m) (n1.toUInt32.toNat - m)))
  | .add i n1 r =>
      if 0 < r then
        some ({ y with f := { y.f with off := y.f.off + r.toUInt32 } }.goto k w (.iunlock i n1 r))
      else some (y.goto k w (.iunlock i n1 r))
  | .iunlock i n1 r => y.onFs (Fs.iunlock y.f.ip) fun _ y => y.goto k w (.endOp i n1 r)
  | .endOp i n1 r =>
      if r < 0 then some (y.goto k w (.done (if i = w.n then w.n else -1)))
      -- "short filewrite"
      else if r ≠ n1 then none
      else some (y.goto k w (.top (i + r)))
  | .done _ => none

/-- **A step.**  Writing to a pipe is not part of this. -/
def step (y : Shared) : Act → Option Shared
  | .call w =>
      if y.f.writable = false then some { y with calls := y.calls ++ [(w, .done (-1))] }
      else if y.f.type = .FD_INODE then some { y with calls := y.calls ++ [(w, .top 0)] }
      else none
  | .run k =>
      match y.calls[k]? with
      | some (w, pc) => y.advance k w pc
      | none => none

/-- Before the first call. -/
def start (fs : Fs.State) (f : File) : Shared := ⟨fs, f, [], []⟩

end Shared

/-- The calls of a schedule. -/
def calls (acts : List Act) : List Write :=
  acts.filterMap fun
    | .call w => some w
    | .run _ => none

/-- The bytes of the calls in a list, one behind the other. -/
def concat (ws : List Write) : List UInt8 := ws.flatMap Write.bytes

/-- Two writes one behind the other. -/
theorem overwrite_append (f : List UInt8) {off : Nat} (bs bs' : List UInt8) (h : off ≤ f.length) :
    File.overwrite (File.overwrite f off bs) (off + bs.length) bs' =
      File.overwrite f off (bs ++ bs') := by
  apply List.ext_getElem?
  intro j
  rw [File.getElem?_overwrite _ (by rw [File.length_overwrite _ h]; exact le_max_right _ _),
    File.getElem?_overwrite _ h, File.getElem?_overwrite _ h, List.length_append,
    List.getElem?_append]
  split
  · rw [if_pos (by omega), if_neg (by omega)]
    congr 1
    omega
  · split
    · rw [if_pos (by omega), if_pos (by omega)]
    · rw [if_neg (by omega)]

/-! ## the state between sections -/

/-- What the calls start from: the inode and its entry, the contents and the offset; and
how many of the free blocks its first `hi` blocks would leave. -/
structure Origin where
  ip : Ip
  inum : Nat
  old : List UInt8
  off : Nat
  hi : Nat
  spare : Int

/-- The inode is in its entry, and the file has `out` from the initial offset on. -/
structure Ready (o : Origin) (out : List UInt8) (s : Fs.State) : Prop where
  sound : Sound s
  ref : 0 < (s.inode o.ip).ref
  inum : (s.inode o.ip).inum = o.inum
  lt : o.inum < s.sb.ninodes
  type : (dinode s.sb s.disk o.inum).type = T_FILE
  content : content s.disk (dinode s.sb s.disk o.inum) = File.overwrite o.old o.off out
  spare : slack (Finset.range s.sb.size) (Fs.busy s.sb s.disk) (slotsBelow o.inum o.hi)
    (Fs.ref s.sb s.disk (dinode s.sb s.disk)) = o.spare

theorem Ready.of_disk {o : Origin} {out : List UInt8} {s s' : Fs.State} (h : Ready o out s) (hs : Sound s')
    (hsb : s'.sb = s.sb) (hdisk : s'.disk = s.disk)
    (hinum : (s'.inode o.ip).inum = (s.inode o.ip).inum)
    (href : (s'.inode o.ip).ref = (s.inode o.ip).ref) : Ready o out s' where
  sound := hs
  ref := href ▸ h.ref
  inum := hinum.trans h.inum
  lt := hsb ▸ h.lt
  type := by
    rw [hsb, hdisk]
    exact h.type
  content := by
    rw [hsb, hdisk]
    exact h.content
  spare := by
    rw [hsb, hdisk]
    exact h.spare

/-- Setting and clearing `I_BUSY`. -/
theorem Ready.set_busy {o : Origin} {out : List UInt8} {s : Fs.State} (h : Ready o out s) (b : Bool) :
    Ready o out (s.set o.ip { s.inode o.ip with busy := b }) := by
  have hself (ip : Inode) : (s.set o.ip ip).inode o.ip = ip := Function.update_self _ _ _
  exact h.of_disk (h.sound.set_same h.ref rfl rfl fun hv => hv) rfl rfl (by rw [hself])
    (by rw [hself])

theorem Ready.copy {o : Origin} {out : List UInt8} {s : Fs.State} (h : Ready o out s)
    (hv : (s.inode o.ip).valid = true) :
    (s.inode o.ip).din = dinode s.sb s.disk o.inum := by
  rw [← h.sound.cache.copy o.ip h.ref hv, h.inum]

/-- After a write behind what was written so far. -/
theorem Ready.written {o : Origin} {out : List UInt8} {s s' : Fs.State} {src : Nat → UInt8}
    {n : Nat} (h : Ready o out s) (hv : (s.inode o.ip).valid = true) (hoff : o.off ≤ o.old.length)
    (h32 : o.off + out.length + n < 2 ^ 32)
    (hw : Written o.ip (slotsBelow o.inum o.hi) src (o.off + out.length) n s s') :
    Ready o (out ++ File.bytes src n) s' := by
  have hheld := h.sound.held h.ref hv
  have hinum : (s'.inode o.ip).inum = o.inum := hw.inum.trans h.inum
  have hsync : dinode s'.sb s'.disk o.inum = (s'.inode o.ip).din := by
    rw [hw.sb, ← h.inum]
    exact hw.synced
  have hle : o.off + out.length ≤ (s.inode o.ip).din.size.toNat := by
    rw [h.copy hv, ← length_content s.disk, h.content, File.length_overwrite _ hoff]
    exact le_max_right _ _
  exact
    { sound := hw.sound h.sound h.ref hv
      ref := by
        obtain ⟨a, ha⟩ := hw.self
        rw [ha]
        exact h.ref
      inum := hinum
      lt := hw.sb ▸ h.lt
      type := by rw [hsync, hw.type, h.copy hv, h.type]
      content := by
        rw [hsync, hw.content hheld hle h32, h.copy hv, h.content, overwrite_append _ _ _ hoff]
      spare := by
        have hslack := hw.slack
        unfold State.slack State.ref at hslack
        rw [ino_eq_dinode (h.sound.cache.copy o.ip h.ref hv), ino_eq_dinode (hinum ▸ hsync)] at hslack
        exact hslack.trans h.spare }

/-- Between `ilock` and `iunlock`. -/
def Pc.holds : Pc → Bool
  | .load .. | .call .. | .copy .. | .add .. | .iunlock .. => true
  | .top .. | .ilock .. | .endOp .. | .done .. => false

/-- `writei` has returned. -/
def Pc.wrote : Pc → Bool
  | .top i => i ≠ 0
  | .add .. | .iunlock .. | .endOp .. | .done .. => true
  | .ilock .. | .load .. | .call .. | .copy .. => false

/-- The local variables of a call of at most `writeMax` bytes: there is one pass. -/
def Pc.Fits (w : Write) : Pc → Prop
  | .top i => i = 0 ∨ (i = w.n ∧ 0 < w.n)
  | .ilock i n1 | .load i n1 | .call i n1 | .copy i n1 _ _ => i = 0 ∧ n1 = w.n ∧ 0 < w.n
  | .add i n1 r | .iunlock i n1 r | .endOp i n1 r => i = 0 ∧ n1 = w.n ∧ r = w.n ∧ 0 < w.n
  | .done r => r = if 0 ≤ w.n then w.n else -1

/-- The file while a call is between `ilock` and `iunlock`, with `out` written so far. -/
def Pc.File (o : Origin) (s : Fs.State) (off : UInt32) (out : List UInt8) (w : Write) : Pc → Prop
  | .load .. | .iunlock .. => Ready o out s ∧ off.toNat = o.off + out.length
  | .call .. => Ready o out s ∧ off.toNat = o.off + out.length ∧ (s.inode o.ip).valid = true
  | .copy _ _ off' m => off' = off ∧ off.toNat = o.off + out.length ∧ m ≤ w.n.toInt.toNat ∧
      ∃ s₀, Ready o out s₀ ∧ (s₀.inode o.ip).valid = true ∧
        Looped o.ip (slotsBelow o.inum o.hi) w.addr off.toNat m s₀ s
  | .add .. => Ready o out s ∧ off.toNat + w.n.toInt.toNat = o.off + out.length
  | .top .. | .ilock .. | .endOp .. | .done .. => False

namespace Shared

variable {o : Origin} {y y' : Shared} {k : Nat} {w : Write} {pc : Pc}

/-- The bytes written so far, in the order in which they were. -/
def written (y : Shared) : List UInt8 :=
  concat (y.order.filterMap fun k => (y.calls[k]?).map Prod.fst)

/-- One call at most has locked the inode. -/
def Lock (o : Origin) (y : Shared) : Prop :=
  ((∀ (k : Nat) (w : Write) (pc : Pc), y.calls[k]? = some (w, pc) → pc.holds = false) ∧
    (y.fs.inode o.ip).busy = false ∧ Ready o y.written y.fs ∧
    y.f.off.toNat = o.off + y.written.length) ∨
  ∃ (k : Nat) (w : Write) (pc : Pc), y.calls[k]? = some (w, pc) ∧ pc.holds = true ∧
    (∀ (l : Nat) (w' : Write) (pc' : Pc), y.calls[l]? = some (w', pc') → pc'.holds = true →
      l = k) ∧
    (y.fs.inode o.ip).busy = true ∧ pc.File o y.fs y.f.off y.written w

/-- What the calls ask for: they fit into the file, and into a transaction each. -/
structure Fits (o : Origin) (ws : List Write) : Prop where
  total : o.off + (concat ws).length ≤ MAXFILE * BSIZE
  hi : (o.off + (concat ws).length + BSIZE - 1) / BSIZE ≤ o.hi
  small : ∀ w ∈ ws, w.n ≤ writeMax
  off : o.off ≤ o.old.length

/-- **The invariant.** -/
structure Inv (o : Origin) (y : Shared) : Prop where
  type : y.f.type = .FD_INODE
  writable : y.f.writable = true
  ip : y.f.ip = o.ip
  calls : Fits o (y.calls.map Prod.fst)
  fits : ∀ (k : Nat) (w : Write) (pc : Pc), y.calls[k]? = some (w, pc) → pc.Fits w
  nodup : y.order.Nodup
  order : ∀ k, k ∈ y.order ↔ ∃ w pc, y.calls[k]? = some (w, pc) ∧ pc.wrote = true ∧ 0 < w.n
  lock : Lock o y

/-! ## what is written so far -/

/-- A call keeps its arguments. -/
theorem fst_set (hk : y.calls[k]? = some (w, pc)) (pc' : Pc) (l : Nat) :
    ((y.calls.set k (w, pc'))[l]?).map Prod.fst = (y.calls[l]?).map Prod.fst := by
  rw [List.getElem?_set]
  split
  · next hkl =>
    subst hkl
    split
    · rw [hk]
      rfl
    · next hlt => rw [List.getElem?_eq_none (by omega)]
  · rfl

theorem written_goto (hk : y.calls[k]? = some (w, pc)) {pc' : Pc}
    (hcalls : y'.calls = (y.goto k w pc').calls) (horder : y'.order = y.order) :
    y'.written = y.written := by
  unfold written
  rw [hcalls, horder]
  simp only [goto, fst_set hk]

theorem written_append (hk : y.calls[k]? = some (w, pc)) {pc' : Pc}
    (hcalls : y'.calls = (y.goto k w pc').calls) (horder : y'.order = y.order ++ [k]) :
    y'.written = y.written ++ w.bytes := by
  unfold written concat
  rw [hcalls, horder]
  simp only [goto, fst_set hk, List.filterMap_append, List.flatMap_append]
  congr 1
  simp [hk]

theorem map_fst_goto (hk : y.calls[k]? = some (w, pc)) (pc' : Pc) :
    (y.goto k w pc').calls.map Prod.fst = y.calls.map Prod.fst := by
  apply List.ext_getElem?
  intro l
  rw [List.getElem?_map, List.getElem?_map]
  exact fst_set hk pc' l

theorem length_bytes (w : Write) : w.bytes.length = w.n.toInt.toNat := by
  simp [Write.bytes, File.bytes]

theorem length_concat (ws : List Write) :
    (concat ws).length = (ws.map fun w => w.n.toInt.toNat).sum := by
  unfold concat
  rw [List.length_flatMap]
  simp only [length_bytes]

/-- The bytes of call `k`. -/
def lengthOf (y : Shared) (k : Nat) : Nat :=
  ((y.calls[k]?).map fun x => x.1.n.toInt.toNat).getD 0

theorem length_concat_filterMap (y : Shared) (ks : List Nat) :
    (concat (ks.filterMap fun k => (y.calls[k]?).map Prod.fst)).length =
      (ks.map y.lengthOf).sum := by
  rw [length_concat]
  induction ks with
  | nil => rfl
  | cons k ks ih =>
      rw [List.map_cons, List.sum_cons, ← ih, List.filterMap_cons, lengthOf]
      cases y.calls[k]? with
      | none => simp
      | some x => simp

/-- Calls of a list without repetitions write no more than all calls. -/
theorem length_concat_le {ks : List Nat} (hnodup : ks.Nodup)
    (hlt : ∀ k ∈ ks, k < y.calls.length) :
    (concat (ks.filterMap fun k => (y.calls[k]?).map Prod.fst)).length ≤
      (concat (y.calls.map Prod.fst)).length := by
  have hall : (y.calls.map Prod.fst).map (fun w => w.n.toInt.toNat) =
      (List.range y.calls.length).map y.lengthOf := by
    refine List.ext_getElem (by simp) fun l h₁ h₂ => ?_
    simp only [List.length_map] at h₁
    simp [lengthOf, h₁]
  have hsub : ks.Subperm (List.range y.calls.length) :=
    List.subperm_of_subset hnodup fun k hk => List.mem_range.mpr (hlt k hk)
  rw [length_concat_filterMap, length_concat, hall]
  obtain ⟨ls, hperm, hls⟩ := hsub
  rw [← (hperm.map y.lengthOf).sum_eq]
  exact (hls.map y.lengthOf).sum_le_sum fun _ _ => Nat.zero_le _

/-! ## the lock -/

theorem getElem?_goto (hk : y.calls[k]? = some (w, pc)) (pc' : Pc) (l : Nat) :
    (y.goto k w pc').calls[l]? = if l = k then some (w, pc') else y.calls[l]? := by
  have hlt : k < y.calls.length := (List.getElem?_eq_some_iff.mp hk).1
  rw [goto, List.getElem?_set]
  split
  · next h => rw [if_pos h.symm]
  · next h => rw [if_neg (Ne.symm h)]

/-- A call that has locked the inode is the only one. -/
theorem Lock.of_holds (h : Lock o y) (hk : y.calls[k]? = some (w, pc)) (hp : pc.holds = true) :
    (∀ (l : Nat) (w' : Write) (pc' : Pc), y.calls[l]? = some (w', pc') → pc'.holds = true →
      l = k) ∧ (y.fs.inode o.ip).busy = true ∧ pc.File o y.fs y.f.off y.written w := by
  rcases h with ⟨hnone, -⟩ | ⟨l, w', pc', hl, hp', honly, hbusy, hfile⟩
  · exact absurd hp (by rw [hnone k w pc hk]; decide)
  · obtain rfl := honly k w pc hk hp
    obtain ⟨rfl, rfl⟩ := Prod.mk.inj (Option.some.inj (hk.symm.trans hl))
    exact ⟨honly, hbusy, hfile⟩

/-- The inode is not busy, so no call has locked it. -/
theorem Lock.of_free (h : Lock o y) (hb : (y.fs.inode o.ip).busy = false) :
    (∀ (k : Nat) (w : Write) (pc : Pc), y.calls[k]? = some (w, pc) → pc.holds = false) ∧
      Ready o y.written y.fs ∧ y.f.off.toNat = o.off + y.written.length := by
  rcases h with ⟨hnone, -, hready, hoff⟩ | ⟨l, w', pc', hl, hp', honly, hbusy, hfile⟩
  · exact ⟨hnone, hready, hoff⟩
  · rw [hb] at hbusy
    exact absurd hbusy (by decide)

/-- Outside `ilock` and `iunlock` a call can go on as it likes. -/
theorem Lock.goto_outside (h : Lock o y) (hk : y.calls[k]? = some (w, pc)) {pc' : Pc}
    (hp : pc.holds = false) (hp' : pc'.holds = false) : Lock o (y.goto k w pc') := by
  rcases h with ⟨hnone, hbusy, hready, hoff⟩ | ⟨l, w', pc₁, hl, hl', honly, hbusy, hfile⟩
  · refine .inl ⟨fun l w' pc₁ hl => ?_, hbusy, ?_, ?_⟩
    · rw [getElem?_goto hk] at hl
      split at hl
      · cases hl
        exact hp'
      · exact hnone l w' pc₁ hl
    · rw [written_goto hk rfl rfl]
      exact hready
    · rw [written_goto hk rfl rfl]
      exact hoff
  · have hlk : l ≠ k := by
      rintro rfl
      cases hl.symm.trans hk
      rw [hp] at hl'
      exact absurd hl' (by decide)
    refine .inr ⟨l, w', pc₁, ?_, hl', fun l₁ w₁ pc₂ h₁ h₂ => ?_, hbusy, ?_⟩
    · rw [getElem?_goto hk, if_neg hlk]
      exact hl
    · rw [getElem?_goto hk] at h₁
      split at h₁
      · cases h₁
        rw [hp'] at h₂
        exact absurd h₂ (by decide)
      · exact honly l₁ w₁ pc₂ h₁ h₂
    · rw [written_goto hk rfl rfl]
      exact hfile

/-- No other call has locked the inode, and call `k` goes on with it. -/
theorem lock_of_holds (hk : y.calls[k]? = some (w, pc)) {pc' : Pc} (hp' : pc'.holds = true)
    (honly : ∀ (l : Nat) (w' : Write) (pc' : Pc), y.calls[l]? = some (w', pc') →
      pc'.holds = true → l = k) (hcalls : y'.calls = (y.goto k w pc').calls)
    (hbusy : (y'.fs.inode o.ip).busy = true) {out : List UInt8} (hout : y'.written = out)
    (hfile : pc'.File o y'.fs y'.f.off out w) : Lock o y' := by
  refine .inr ⟨k, w, pc', ?_, hp', fun l w' pc₁ hl hh => ?_, hbusy, hout.symm ▸ hfile⟩
  · rw [hcalls, getElem?_goto hk, if_pos rfl]
  · rw [hcalls, getElem?_goto hk] at hl
    split at hl
    · next h => exact h
    · exact honly l w' pc₁ hl hh

/-- Call `k` was the only one that had locked the inode. -/
theorem lock_of_free (hk : y.calls[k]? = some (w, pc)) {pc' : Pc} (hp' : pc'.holds = false)
    (honly : ∀ (l : Nat) (w' : Write) (pc' : Pc), y.calls[l]? = some (w', pc') →
      pc'.holds = true → l = k) (hcalls : y'.calls = (y.goto k w pc').calls)
    (hbusy : (y'.fs.inode o.ip).busy = false) {out : List UInt8} (hout : y'.written = out)
    (hready : Ready o out y'.fs) (hoff : y'.f.off.toNat = o.off + out.length) : Lock o y' := by
  refine .inl ⟨fun l w' pc₁ hl => ?_, hbusy, hout.symm ▸ hready, hout.symm ▸ hoff⟩
  rw [hcalls, getElem?_goto hk] at hl
  split at hl
  · cases hl
    exact hp'
  · next hlk =>
    cases hh : pc₁.holds with
    | false => rfl
    | true => exact absurd (honly l w' pc₁ hl hh) hlk

/-- The rest of the invariant, when call `k` goes on. -/
theorem Inv.goto (h : Inv o y) (hk : y.calls[k]? = some (w, pc)) {pc' : Pc}
    (hcalls : y'.calls = (y.goto k w pc').calls) (htype : y'.f.type = y.f.type)
    (hwritable : y'.f.writable = y.f.writable) (hip : y'.f.ip = y.f.ip) (hfits : pc'.Fits w)
    (horder : (y'.order = y.order ∧ (0 < w.n → pc'.wrote = pc.wrote)) ∨
      (y'.order = y.order ++ [k] ∧ 0 < w.n ∧ pc.wrote = false ∧ pc'.wrote = true))
    (hlock : Lock o y') : Inv o y' where
  type := htype.trans h.type
  writable := hwritable.trans h.writable
  ip := hip.trans h.ip
  calls := by
    rw [hcalls, map_fst_goto hk]
    exact h.calls
  fits := by
    intro l w' pc₁ hl
    rw [hcalls, getElem?_goto hk] at hl
    split at hl
    · cases hl
      exact hfits
    · exact h.fits l w' pc₁ hl
  nodup := by
    rcases horder with ⟨ho, -⟩ | ⟨ho, -, hold, -⟩
    · rw [ho]
      exact h.nodup
    · rw [ho]
      refine List.nodup_append.mpr ⟨h.nodup, List.nodup_singleton k, ?_⟩
      intro a ha b hb hab
      obtain rfl := List.mem_singleton.mp hb
      obtain ⟨w', pc₁, hl, hwrote, -⟩ := (h.order a).mp ha
      subst hab
      cases hl.symm.trans hk
      rw [hold] at hwrote
      exact absurd hwrote (by decide)
  order := by
    intro l
    rw [hcalls, getElem?_goto hk]
    rcases horder with ⟨ho, hsame⟩ | ⟨ho, hpos, -, hnew⟩
    · rw [ho, h.order l]
      split
      · next hlk =>
        subst hlk
        constructor
        · rintro ⟨w', pc₁, hl, hwrote, hpos⟩
          cases hl.symm.trans hk
          exact ⟨w, pc', rfl, (hsame hpos).trans hwrote, hpos⟩
        · rintro ⟨w', pc₁, hl, hwrote, hpos⟩
          cases hl
          exact ⟨w, pc, hk, (hsame hpos).symm.trans hwrote, hpos⟩
      · exact Iff.rfl
    · rw [ho, List.mem_append, List.mem_singleton]
      split
      · next hlk => exact ⟨fun _ => ⟨w, pc', rfl, hnew, hpos⟩, fun _ => .inr hlk⟩
      · next hlk =>
        rw [h.order l]
        exact ⟨fun hor => hor.resolve_right hlk, .inl⟩
  lock := hlock

/-! ## the sections -/

/-- A step to a state with the invariant, or a reason why there is none. -/
def Goes (r : Option Shared) (o : Origin) (stuck : Prop) : Prop :=
  match r with
  | some y' => Inv o y'
  | none => stuck

theorem Goes.mono {r : Option Shared} {stuck stuck' : Prop} (h : Goes r o stuck)
    (hs : stuck → stuck') : Goes r o stuck' := by
  unfold Goes at h ⊢
  cases r with
  | none => exact hs h
  | some y' => exact h

theorem goes_onFs {α : Type} {m : M α} {g : α → Shared → Shared} {stuck : Prop}
    (h : wpE m y.fs (fun a fs => Inv o (g a { y with fs })) fun _ => stuck) :
    Goes (y.onFs m g) o stuck := by
  unfold wpE at h
  unfold Goes onFs
  cases hm : m y.fs with
  | error e =>
      rw [hm] at h
      exact h
  | ok r =>
      rw [hm] at h
      exact h

/-- Why a call at `pc` cannot go on: it has returned, it waits for the inode, or there
are not enough free blocks. -/
def Stuck (o : Origin) (y : Shared) (pc : Pc) : Prop :=
  (∃ r, pc = .done r) ∨ (∃ i n1, pc = .ilock i n1 ∧ (y.fs.inode o.ip).busy = true) ∨ o.spare < 0

theorem toNat_toUInt32 {n : Int32} (h : 0 ≤ n.toInt) : n.toUInt32.toNat = n.toInt.toNat := by
  have hcond := BitVec.toInt_eq_toNat_cond n.toBitVec
  change n.toInt = _ at hcond
  change n.toBitVec.toNat = _
  have hlt := n.toBitVec.isLt
  split at hcond <;> omega

theorem Inv.small (h : Inv o y) (hk : y.calls[k]? = some (w, pc)) : w.n ≤ writeMax :=
  h.calls.small w (List.mem_map.mpr ⟨_, List.mem_of_getElem? hk, rfl⟩)

theorem goes_top (h : Inv o y) {i : Int32} (hk : y.calls[k]? = some (w, .top i)) {stuck : Prop} :
    Goes (y.advance k w (.top i)) o stuck := by
  have hfits : i = 0 ∨ (i = w.n ∧ 0 < w.n) := h.fits k w _ hk
  rw [advance]
  split
  · next hlt =>
    obtain rfl : i = 0 := by
      rcases hfits with hi | ⟨rfl, -⟩
      · exact hi
      · exact absurd hlt Int32.lt_irrefl
    rw [Int32.sub_zero, if_neg (Int32.not_lt.mpr (h.small hk))]
    exact h.goto hk rfl rfl rfl rfl ⟨rfl, rfl, hlt⟩ (.inl ⟨rfl, fun _ => rfl⟩)
      (h.lock.goto_outside hk rfl rfl)
  · next hge =>
    refine h.goto hk rfl rfl rfl rfl ?_ (.inl ⟨rfl, fun hpos => ?_⟩) (h.lock.goto_outside hk rfl rfl)
    · change (if i = w.n then w.n else -1) = if 0 ≤ w.n then w.n else -1
      rw [Int32.lt_iff_toInt_lt] at hge
      simp only [Int32.le_iff_toInt_le, Int32.toInt_zero]
      rcases hfits with rfl | ⟨rfl, hpos⟩
      · rw [Int32.toInt_zero] at hge
        by_cases h0 : (0 : Int32) = w.n
        · rw [if_pos h0, if_pos (by rw [← h0]; decide)]
        · have hne : (0 : Int32).toInt ≠ w.n.toInt := fun he => h0 (Int32.toInt_inj.mp he)
          rw [Int32.toInt_zero] at hne
          rw [if_neg h0, if_neg (by omega)]
      · rw [Int32.lt_iff_toInt_lt, Int32.toInt_zero] at hpos
        rw [if_pos rfl, if_pos (by omega)]
    · rcases hfits with rfl | ⟨rfl, -⟩
      · exact absurd hpos hge
      · exact (decide_eq_true (Int32.ne_of_lt hpos).symm).symm

/-! ### locking -/

theorem goes_ilock (h : Inv o y) {i n1 : Int32} (hk : y.calls[k]? = some (w, .ilock i n1)) :
    Goes (y.advance k w (.ilock i n1)) o ((y.fs.inode o.ip).busy = true) := by
  rw [advance, h.ip]
  apply goes_onFs
  simp only [ilockAcquire, wpE_bind, wpE_get]
  split
  · next href =>
    rcases h.lock with ⟨-, -, hready, -⟩ | ⟨-, -, -, -, -, -, hbusy, -⟩
    · exact absurd hready.ref (by omega)
    · exact hbusy
  · split
    · next hb => exact hb
    · next hb =>
      have hfree : (y.fs.inode o.ip).busy = false := by simpa using hb
      obtain ⟨hnone, hready, hoff⟩ := h.lock.of_free hfree
      rw [wpE_setInode]
      have hfits : i = 0 ∧ n1 = w.n ∧ 0 < w.n := h.fits k w _ hk
      refine h.goto hk rfl rfl rfl rfl hfits (.inl ⟨rfl, fun _ => rfl⟩) ?_
      refine lock_of_holds hk rfl (fun l w' pc' hl hp => ?_) rfl
        (congrArg Inode.busy (Function.update_self o.ip _ y.fs.inode)) (written_goto hk rfl rfl)
        ⟨hready.set_busy true, hoff⟩
      rw [hnone l w' pc' hl] at hp
      exact absurd hp (by decide)

theorem goes_load (h : Inv o y) {i n1 : Int32} (hk : y.calls[k]? = some (w, .load i n1))
    {stuck : Prop} : Goes (y.advance k w (.load i n1)) o stuck := by
  obtain ⟨honly, hbusy, hready, hoff⟩ := h.lock.of_holds hk rfl
  have hfits : i = 0 ∧ n1 = w.n ∧ 0 < w.n := h.fits k w _ hk
  rw [advance, h.ip]
  apply goes_onFs
  simp only [loadInode, wpE_bind, wpE_get]
  split
  · next hv =>
    refine wpE_pure.mpr (h.goto hk rfl rfl rfl rfl hfits (.inl ⟨rfl, fun _ => rfl⟩) ?_)
    exact lock_of_holds hk rfl honly rfl hbusy (written_goto hk rfl rfl) ⟨hready, hoff, hv⟩
  · simp only [wpE_bind, wpE_bread, wpE_setInode]
    have hdin : getDinode (y.fs.disk (IBLOCK (y.fs.inode o.ip).inum y.fs.sb))
        ((y.fs.inode o.ip).inum % IPB) = dinode y.fs.sb y.fs.disk o.inum := by
      rw [hready.inum]
      rfl
    rw [hdin]
    have hself (ip : Inode) : (y.fs.set o.ip ip).inode o.ip = ip := Function.update_self _ _ _
    have htype : (dinode y.fs.sb y.fs.disk o.inum).type ≠ 0 := by
      rw [hready.type]
      decide
    rw [if_neg htype, wpE_pure]
    refine h.goto hk rfl rfl rfl rfl hfits (.inl ⟨rfl, fun _ => rfl⟩) ?_
    refine lock_of_holds hk rfl honly rfl ?_ (written_goto hk rfl rfl) ⟨?_, hoff, ?_⟩
    · exact (congrArg Inode.busy (hself _)).trans hbusy
    · refine hready.of_disk (hready.sound.set ?_ fun _ _ => ⟨?_, htype, ?_⟩) rfl rfl ?_ ?_
      · exact fun _ e hec he hi => hec (hready.sound.cache.uniq e o.ip he hready.ref hi)
      · rw [hready.inum]
        exact hready.lt
      · rw [hready.inum]
      · change ((y.fs.set o.ip _).inode o.ip).inum = _
        rw [hself]
      · change ((y.fs.set o.ip _).inode o.ip).ref = _
        rw [hself]
    · exact congrArg Inode.valid (hself _)

theorem goes_iunlock (h : Inv o y) {i n1 r : Int32}
    (hk : y.calls[k]? = some (w, .iunlock i n1 r)) {stuck : Prop} :
    Goes (y.advance k w (.iunlock i n1 r)) o stuck := by
  obtain ⟨honly, hbusy, hready, hoff⟩ := h.lock.of_holds hk rfl
  have hfits : i = 0 ∧ n1 = w.n ∧ r = w.n ∧ 0 < w.n := h.fits k w _ hk
  rw [advance, h.ip]
  apply goes_onFs
  simp only [Fs.iunlock, wpE_bind, wpE_get]
  have hok : ¬ ((!(y.fs.inode o.ip).busy) = true ∨ (y.fs.inode o.ip).ref < 1) := by
    rw [hbusy]
    rintro (hc | hc)
    · exact absurd hc (by decide)
    · exact absurd hready.ref (by omega)
  rw [if_neg hok, wpE_setInode]
  refine h.goto hk rfl rfl rfl rfl hfits (.inl ⟨rfl, fun _ => rfl⟩) ?_
  exact lock_of_free hk rfl honly rfl (congrArg Inode.busy (Function.update_self o.ip _ y.fs.inode))
    (written_goto hk rfl rfl) (hready.set_busy false) hoff

theorem goes_endOp (h : Inv o y) {i n1 r : Int32}
    (hk : y.calls[k]? = some (w, .endOp i n1 r)) {stuck : Prop} :
    Goes (y.advance k w (.endOp i n1 r)) o stuck := by
  obtain ⟨rfl, rfl, rfl, hpos⟩ : i = 0 ∧ n1 = w.n ∧ r = w.n ∧ 0 < w.n := h.fits k w _ hk
  have hne : w.n ≠ 0 := (Int32.ne_of_lt hpos).symm
  rw [advance, if_neg (Int32.lt_asymm hpos), if_neg (fun hc => hc rfl), Int32.zero_add]
  exact h.goto hk rfl rfl rfl rfl (.inr ⟨rfl, hpos⟩)
    (.inl ⟨rfl, fun _ => decide_eq_true hne⟩) (h.lock.goto_outside hk rfl rfl)

/-! ### writing -/

theorem Inv.written_le (h : Inv o y) :
    y.written.length ≤ (concat (y.calls.map Prod.fst)).length := by
  refine length_concat_le h.nodup fun l hl => ?_
  obtain ⟨w', pc', hl', -⟩ := (h.order l).mp hl
  exact (List.getElem?_eq_some_iff.mp hl').1

/-- The part of the buffers that is still to be written fits into the file. -/
theorem Inv.room (h : Inv o y) (hk : y.calls[k]? = some (w, pc)) (hp : pc.wrote = false) :
    y.written.length + w.n.toInt.toNat ≤ (concat (y.calls.map Prod.fst)).length := by
  have hlt (l : Nat) (hl : l ∈ k :: y.order) : l < y.calls.length := by
    rcases List.mem_cons.mp hl with rfl | hl
    · exact (List.getElem?_eq_some_iff.mp hk).1
    · obtain ⟨w', pc', hl', -⟩ := (h.order l).mp hl
      exact (List.getElem?_eq_some_iff.mp hl').1
  have hnot : k ∉ y.order := by
    intro hmem
    obtain ⟨w', pc', hl, hwrote, -⟩ := (h.order k).mp hmem
    cases hl.symm.trans hk
    rw [hp] at hwrote
    exact absurd hwrote (by decide)
  have hle := length_concat_le (List.nodup_cons.mpr ⟨hnot, h.nodup⟩) hlt
  rw [length_concat_filterMap, List.map_cons, List.sum_cons, ← length_concat_filterMap, lengthOf,
    hk] at hle
  have hwritten : y.written.length =
      (concat (y.order.filterMap fun k => (y.calls[k]?).map Prod.fst)).length := rfl
  simp only [Option.map_some, Option.getD_some] at hle
  omega

theorem goes_call (h : Inv o y) {i n1 : Int32} (hk : y.calls[k]? = some (w, .call i n1))
    {stuck : Prop} : Goes (y.advance k w (.call i n1)) o stuck := by
  obtain ⟨honly, hbusy, hready, hoff, hv⟩ := h.lock.of_holds hk rfl
  obtain ⟨rfl, rfl, hpos⟩ : i = 0 ∧ n1 = w.n ∧ 0 < w.n := h.fits k w _ hk
  have hroom := h.room hk rfl
  have htotal := h.calls.total
  have hmax : MAXFILE * BSIZE < 2 ^ 31 := by decide
  have hn : w.n.toUInt32.toNat = w.n.toInt.toNat :=
    toNat_toUInt32 (by rw [Int32.lt_iff_toInt_lt, Int32.toInt_zero] at hpos; omega)
  have hsize : (dinode y.fs.sb y.fs.disk o.inum).size.toNat =
      Max.max o.old.length (o.off + y.written.length) := by
    rw [← length_content y.fs.disk, hready.content, File.length_overwrite _ h.calls.off]
  have hcheck : writeiCheck y.fs (y.fs.inode o.ip).din (fun j => w.addr ((0 : Int32).toInt.toNat + j))
      y.f.off w.n.toUInt32 = none := by
    unfold writeiCheck
    rw [hready.copy hv, hready.type, if_neg (by decide), if_neg, if_neg]
    · rw [toNat_add_of_lt (by omega)]
      omega
    · rw [add_lt_left_iff, UInt32.lt_iff_toNat_lt]
      omega
  rw [advance, h.ip, hcheck]
  refine h.goto hk rfl rfl rfl rfl ⟨rfl, rfl, hpos⟩ (.inl ⟨rfl, fun _ => rfl⟩) ?_
  refine lock_of_holds hk rfl honly rfl hbusy (written_goto hk rfl rfl)
    ⟨rfl, hoff, Nat.zero_le _, y.fs, hready, hv, ?_⟩
  exact looped_zero (hready.sound.held hready.ref hv) w.addr _

theorem goes_copy (h : Inv o y) {i n1 : Int32} {off : UInt32} {m : Nat}
    (hk : y.calls[k]? = some (w, .copy i n1 off m)) :
    Goes (y.advance k w (.copy i n1 off m)) o (o.spare < 0) := by
  obtain ⟨honly, hbusy, rfl, hoff, hm, s, hready, hv, hloop⟩ := h.lock.of_holds hk rfl
  obtain ⟨rfl, rfl, hpos⟩ : i = 0 ∧ n1 = w.n ∧ 0 < w.n := h.fits k w _ hk
  have hroom := h.room hk rfl
  have htotal := h.calls.total
  have hmax : MAXFILE * BSIZE < 2 ^ 31 := by decide
  have hn : w.n.toUInt32.toNat = w.n.toInt.toNat :=
    toNat_toUInt32 (by rw [Int32.lt_iff_toInt_lt, Int32.toInt_zero] at hpos; omega)
  have hheld := hready.sound.held hready.ref hv
  have hsync := hready.sound.cache.copy o.ip hready.ref hv
  have hle : y.f.off.toNat ≤ (s.inode o.ip).din.size.toNat := by
    rw [hready.copy hv, ← length_content s.disk, hready.content,
      File.length_overwrite _ h.calls.off, hoff]
    exact le_max_right _ _
  have hinum : (y.fs.inode o.ip).inum = o.inum := hloop.grown.inum.trans hready.inum
  have hsbusy : (s.inode o.ip).busy = true := by
    obtain ⟨a, ha⟩ := hloop.grown.self
    rw [ha] at hbusy
    exact hbusy
  rw [advance, h.ip]
  split
  · next hlast =>
    -- the end of `writei`
    subst hlast
    apply goes_onFs
    refine (growTo_spec hloop hheld hsync hle (by omega)).mono (fun _ fs hw => ?_) fun _ he => he
    rw [hn, hoff] at hw
    rw [Int32.toInt32_toUInt32]
    refine h.goto hk rfl rfl rfl rfl ⟨rfl, rfl, rfl, hpos⟩ (.inr ⟨rfl, hpos, rfl, rfl⟩) ?_
    refine lock_of_holds hk rfl honly rfl ?_ (written_append hk rfl rfl) ⟨?_, ?_⟩
    · obtain ⟨a, ha⟩ := hw.self
      change (fs.inode o.ip).busy = true
      rw [ha]
      exact hsbusy
    · exact hready.written hv h.calls.off (by omega) hw
    · change y.f.off.toNat + _ = _
      rw [List.length_append, length_bytes, hoff]
      omega
  · next hmore =>
    have hleft : w.n.toUInt32.toNat - m ≠ 0 := by omega
    have hsrc : (fun j => w.addr ((0 : Int32).toInt.toNat + (m + j))) = fun j => w.addr (m + j) := by
      funext j
      rw [Int32.toInt_zero, Int.toNat_zero, Nat.zero_add]
    generalize hp : pass (y.f.off.toNat + m) (w.n.toUInt32.toNat - m) = p
    have hple : m + p ≤ w.n.toInt.toNat := by
      unfold pass at hp
      omega
    have hneed : Needs y.fs o.ip (slotsBelow o.inum o.hi) (y.f.off.toNat + m) p := by
      have hhi := h.calls.hi
      have hneeds : Needs y.fs o.ip (slotsBelow (y.fs.inode o.ip).inum o.hi) (y.f.off.toNat + m) p :=
        needs_slotsBelow (le_trans (Nat.div_le_div_right (by omega)) hhi)
      rwa [hinum] at hneeds
    have hslack : y.fs.slack o.ip (slotsBelow o.inum o.hi) = o.spare := by
      rw [hloop.grown.slack]
      unfold State.slack State.ref
      rw [ino_eq_dinode hsync]
      exact hready.spare
    apply goes_onFs
    rw [hsrc, writeLoop_one _ _ _ hleft, hp]
    refine (writeLoop_spec hloop.held le_rfl (by omega) hneed).mono (fun _ fs hl => ?_)
      fun _ he => hslack ▸ he.2
    refine h.goto hk rfl rfl rfl rfl ⟨rfl, rfl, hpos⟩ (.inl ⟨rfl, fun _ => rfl⟩) ?_
    refine lock_of_holds hk rfl honly rfl ?_ (written_goto hk rfl rfl)
      ⟨rfl, hoff, hple, s, hready, hv, hloop.trans hl⟩
    obtain ⟨a, ha⟩ := hl.grown.self
    change (fs.inode o.ip).busy = true
    rw [ha]
    exact hbusy

theorem goes_add (h : Inv o y) {i n1 r : Int32} (hk : y.calls[k]? = some (w, .add i n1 r))
    {stuck : Prop} : Goes (y.advance k w (.add i n1 r)) o stuck := by
  obtain ⟨honly, hbusy, hready, hoff⟩ := h.lock.of_holds hk rfl
  obtain ⟨rfl, rfl, rfl, hpos⟩ : i = 0 ∧ n1 = w.n ∧ r = w.n ∧ 0 < w.n := h.fits k w _ hk
  have hn : w.n.toUInt32.toNat = w.n.toInt.toNat :=
    toNat_toUInt32 (by rw [Int32.lt_iff_toInt_lt, Int32.toInt_zero] at hpos; omega)
  have hlt : o.off + y.written.length < 2 ^ 32 := by
    have hmax : MAXFILE * BSIZE < 2 ^ 31 := by decide
    have htotal := h.calls.total
    have hwritten := h.written_le
    omega
  rw [advance, if_pos hpos]
  refine h.goto hk rfl rfl rfl rfl ⟨rfl, rfl, rfl, hpos⟩ (.inl ⟨rfl, fun _ => rfl⟩) ?_
  refine lock_of_holds hk rfl honly rfl hbusy (written_goto hk rfl rfl) ⟨hready, ?_⟩
  change (y.f.off + w.n.toUInt32).toNat = _
  rw [toNat_add_of_lt (by omega), hn]
  exact hoff

/-! ## runs -/

/-- **One section** of a call. -/
theorem advance_goes (h : Inv o y) (hk : y.calls[k]? = some (w, pc)) :
    Goes (y.advance k w pc) o (Stuck o y pc) := by
  cases pc with
  | top i => exact goes_top h hk
  | ilock i n1 => exact (goes_ilock h hk).mono fun hb => .inr (.inl ⟨i, n1, rfl, hb⟩)
  | load i n1 => exact goes_load h hk
  | call i n1 => exact goes_call h hk
  | copy i n1 off m => exact (goes_copy h hk).mono fun hs => .inr (.inr hs)
  | add i n1 r => exact goes_add h hk
  | iunlock i n1 r => exact goes_iunlock h hk
  | endOp i n1 r => exact goes_endOp h hk
  | done r => exact .inl ⟨r, rfl⟩

theorem goto_of_onFs {α : Type} {m : M α} {g : α → Shared → Shared} {pc' : Pc}
    (h : y.onFs m g = some y')
    (hg : ∀ a fs, (g a { y with fs }).calls = y.calls.set k (w, pc')) :
    y'.calls = y.calls.set k (w, pc') := by
  unfold onFs at h
  split at h
  · cases h
    exact hg _ _
  · cases h

/-- A section changes the place of its call only. -/
theorem calls_advance (h : y.advance k w pc = some y') :
    ∃ pc', y'.calls = y.calls.set k (w, pc') := by
  cases pc with
  | top i =>
      rw [advance] at h
      split at h
      · cases h
        exact ⟨_, rfl⟩
      · cases h
        exact ⟨_, rfl⟩
  | ilock i n1 =>
      rw [advance] at h
      exact ⟨_, goto_of_onFs h fun _ _ => rfl⟩
  | load i n1 =>
      rw [advance] at h
      exact ⟨_, goto_of_onFs h fun _ _ => rfl⟩
  | call i n1 =>
      rw [advance] at h
      split at h
      · cases h
        exact ⟨_, rfl⟩
      · cases h
        exact ⟨_, rfl⟩
  | copy i n1 off m =>
      rw [advance] at h
      split at h
      · exact ⟨_, goto_of_onFs h fun _ _ => rfl⟩
      · exact ⟨_, goto_of_onFs h fun _ _ => rfl⟩
  | add i n1 r =>
      rw [advance] at h
      split at h
      · cases h
        exact ⟨_, rfl⟩
      · cases h
        exact ⟨_, rfl⟩
  | iunlock i n1 r =>
      rw [advance] at h
      exact ⟨_, goto_of_onFs h fun _ _ => rfl⟩
  | endOp i n1 r =>
      rw [advance] at h
      split at h
      · cases h
        exact ⟨_, rfl⟩
      · split at h
        · cases h
        · cases h
          exact ⟨_, rfl⟩
  | done r => cases h

theorem calls_step {act : Act} (h : y.step act = some y') :
    y'.calls.map Prod.fst = y.calls.map Prod.fst ++ Sysfile.calls [act] := by
  cases act with
  | call w =>
      rw [step] at h
      split at h
      · cases h
        rw [List.map_append]
        rfl
      · split at h
        · cases h
          rw [List.map_append]
          rfl
        · cases h
  | run k =>
      rw [step] at h
      split at h
      · next w pc hk =>
        obtain ⟨pc', hcalls⟩ := calls_advance h
        rw [hcalls]
        exact (map_fst_goto hk pc').trans (List.append_nil _).symm
      · cases h

theorem calls_exec {acts : List Act} (h : exec step y acts = some y') :
    y'.calls.map Prod.fst = y.calls.map Prod.fst ++ Sysfile.calls acts := by
  induction acts generalizing y with
  | nil =>
      cases h
      exact (List.append_nil _).symm
  | cons act acts ih =>
      obtain ⟨t, ht, h⟩ := exec_cons_eq_some.mp h
      rw [ih h, calls_step ht, List.append_assoc]
      congr 1
      exact (List.filterMap_append (l := [act])).symm

theorem Fits.of_append {ws ws' : List Write} (h : Fits o (ws ++ ws')) : Fits o ws := by
  have hlen : (concat (ws ++ ws')).length = (concat ws).length + (concat ws').length := by
    unfold concat
    rw [List.flatMap_append, List.length_append]
  have htotal := h.total
  have hhi := h.hi
  rw [hlen] at htotal hhi
  exact
    { total := by omega
      hi := (Nat.div_le_div_right (by omega)).trans hhi
      small := fun w hw => h.small w (List.mem_append_left ws' hw)
      off := h.off }

/-- The calls made up to now and this one fit. -/
def Asks (o : Origin) (y : Shared) (act : Act) : Prop :=
  Fits o (y.calls.map Prod.fst ++ Sysfile.calls [act])

theorem guarded_asks {acts : List Act} (h : Fits o (y.calls.map Prod.fst ++ Sysfile.calls acts)) :
    Guarded step (Asks o) y acts := by
  induction acts generalizing y with
  | nil => trivial
  | cons act acts ih =>
      have hsplit : Sysfile.calls (act :: acts) = Sysfile.calls [act] ++ Sysfile.calls acts :=
        List.filterMap_append (l := [act])
      rw [hsplit, ← List.append_assoc] at h
      refine ⟨h.of_append, fun t ht => ih ?_⟩
      rw [calls_step ht]
      exact h

theorem getElem?_append_call (y : Shared) (x : Write × Pc) (l : Nat) :
    (y.calls ++ [x])[l]? = if l = y.calls.length then some x else y.calls[l]? := by
  split
  · next h => rw [h, List.getElem?_concat_length]
  · next h =>
    by_cases hlt : l < y.calls.length
    · rw [List.getElem?_append_left hlt]
    · rw [List.getElem?_eq_none (by rw [List.length_append, List.length_singleton]; omega),
        List.getElem?_eq_none (by omega)]

/-- A new call does not touch the file. -/
theorem step_call (h : Inv o y) (hasks : Asks o y (.call w)) (hs : y.step (.call w) = some y') :
    Inv o y' := by
  rw [step, h.writable, if_neg (by decide), if_pos h.type] at hs
  cases hs
  have hget := getElem?_append_call y (w, .top 0)
  have hold {l : Nat} {w' : Write} {pc' : Pc} (hl : y.calls[l]? = some (w', pc')) :
      (y.calls ++ [(w, .top 0)])[l]? = some (w', pc') := by
    have hlt := (List.getElem?_eq_some_iff.mp hl).1
    rw [hget, if_neg (by omega), hl]
  have hwritten : written { y with calls := y.calls ++ [(w, .top 0)] } = y.written := by
    unfold written
    congr 1
    refine List.filterMap_congr fun l hl => ?_
    obtain ⟨w', pc', hl', -⟩ := (h.order l).mp hl
    rw [hold hl', hl']
  refine ⟨h.type, h.writable, h.ip, ?_, ?_, h.nodup, ?_, ?_⟩
  · rw [List.map_append]
    exact hasks
  · intro l w' pc' hl
    rw [hget] at hl
    split at hl
    · cases hl
      exact .inl rfl
    · exact h.fits l w' pc' hl
  · intro l
    rw [h.order l, hget]
    split
    · next hlen =>
      constructor
      · rintro ⟨w', pc', hl, -⟩
        rw [hlen, List.getElem?_eq_none le_rfl] at hl
        cases hl
      · rintro ⟨w', pc', hl, hwrote, -⟩
        cases hl
        exact absurd hwrote (by decide)
    · exact Iff.rfl
  · rcases h.lock with ⟨hnone, hbusy, hready, hoff⟩ | ⟨l, w', pc', hl, hp, honly, hbusy, hfile⟩
    · refine .inl ⟨fun l w' pc' hl => ?_, hbusy, hwritten.symm ▸ hready, hwritten.symm ▸ hoff⟩
      rw [hget] at hl
      split at hl
      · cases hl
        rfl
      · exact hnone l w' pc' hl
    · refine .inr ⟨l, w', pc', hold hl, hp, fun l₁ w₁ pc₁ h₁ hp₁ => ?_, hbusy,
        hwritten.symm ▸ hfile⟩
      rw [hget] at h₁
      split at h₁
      · cases h₁
        exact absurd hp₁ (by decide)
      · exact honly l₁ w₁ pc₁ h₁ hp₁

theorem step_inv {act : Act} (h : Inv o y) (hasks : Asks o y act) (hs : y.step act = some y') :
    Inv o y' := by
  cases act with
  | call w => exact step_call h hasks hs
  | run k =>
      rw [step] at hs
      split at hs
      · next w pc hk =>
        have hgoes := advance_goes h hk
        rw [hs] at hgoes
        exact hgoes
      · cases hs

/-! ## when all calls have returned -/

/-- Every call has returned. -/
def Returned (y : Shared) : Prop := ∀ w pc, (w, pc) ∈ y.calls → ∃ r, pc = .done r

theorem filterMap_range (l : List (Write × Pc)) :
    (List.range l.length).filterMap (fun k => (l[k]?).map Prod.fst) = l.map Prod.fst := by
  induction l with
  | nil => rfl
  | cons x l ih =>
      rw [List.length_cons, List.range_succ_eq_map, List.filterMap_cons, List.filterMap_map,
        List.map_cons, ← ih]
      rfl

/-- The buffers, in the order in which they were written; calls without bytes come last. -/
theorem Inv.perm (h : Inv o y) (hr : y.Returned) :
    ∃ ws, ws.Perm (y.calls.map Prod.fst) ∧ y.written = concat ws := by
  set rest := (List.range y.calls.length).filter (· ∉ y.order) with hrest
  have hlt (l : Nat) (hl : l ∈ y.order) : l < y.calls.length := by
    obtain ⟨w', pc', hl', -⟩ := (h.order l).mp hl
    exact (List.getElem?_eq_some_iff.mp hl').1
  have hperm : (y.order ++ rest).Perm (List.range y.calls.length) := by
    refine (List.perm_ext_iff_of_nodup ?_ List.nodup_range).mpr fun l => ?_
    · refine List.nodup_append.mpr ⟨h.nodup, List.nodup_range.filter _, ?_⟩
      rintro a ha b hb rfl
      simp only [hrest, List.mem_filter, decide_eq_true_eq] at hb
      exact hb.2 ha
    · simp only [hrest, List.mem_append, List.mem_filter, List.mem_range, decide_eq_true_eq]
      constructor
      · rintro (hl | hl)
        · exact hlt l hl
        · exact hl.1
      · intro hl
        by_cases hmem : l ∈ y.order
        · exact .inl hmem
        · exact .inr ⟨hl, hmem⟩
  have hnil : concat (rest.filterMap fun k => (y.calls[k]?).map Prod.fst) = [] := by
    unfold concat
    rw [List.flatMap_eq_nil_iff]
    intro w hw
    obtain ⟨l, hl, hget⟩ := List.mem_filterMap.mp hw
    obtain ⟨⟨w', pc'⟩, hl', rfl⟩ := Option.map_eq_some_iff.mp hget
    simp only [hrest, List.mem_filter, decide_eq_true_eq] at hl
    obtain ⟨r, rfl⟩ := hr w' pc' (List.mem_of_getElem? hl')
    have hn : ¬ 0 < w'.n := fun hpos => hl.2 ((h.order l).mpr ⟨w', _, hl', rfl, hpos⟩)
    rw [Int32.lt_iff_toInt_lt, Int32.toInt_zero] at hn
    have hzero : w'.n.toInt.toNat = 0 := by omega
    rw [← List.length_eq_zero_iff, length_bytes]
    exact hzero
  refine ⟨(y.order ++ rest).filterMap fun k => (y.calls[k]?).map Prod.fst, ?_, ?_⟩
  · rw [← filterMap_range y.calls]
    exact hperm.filterMap _
  · unfold concat at hnil
    rw [List.filterMap_append, concat, List.flatMap_append, hnil, List.append_nil]
    rfl

/-- **No deadlock**: with enough free blocks, some call can go on until all have returned. -/
theorem Inv.progress (h : Inv o y) (hspare : 0 ≤ o.spare) (hr : ¬ y.Returned) :
    ∃ k, (y.step (.run k)).isSome = true := by
  have hgo {k : Nat} {w : Write} {pc : Pc} (hk : y.calls[k]? = some (w, pc))
      (hstuck : ¬ Stuck o y pc) : (y.step (.run k)).isSome = true := by
    have hgoes := advance_goes h hk
    rw [step, hk]
    unfold Goes at hgoes
    dsimp only
    cases hadv : y.advance k w pc with
    | some y' => rfl
    | none =>
        rw [hadv] at hgoes
        exact absurd hgoes hstuck
  rcases h.lock with ⟨hnone, hbusy, -, -⟩ | ⟨k, w, pc, hk, hp, -⟩
  · unfold Returned at hr
    simp only [not_forall] at hr
    obtain ⟨w, pc, hmem, hdone⟩ := hr
    obtain ⟨k, hk⟩ := List.mem_iff_getElem?.mp hmem
    refine ⟨k, hgo hk ?_⟩
    rintro (hd | ⟨i, n1, rfl, hb⟩ | hs)
    · exact hdone hd
    · rw [hbusy] at hb
      exact absurd hb (by decide)
    · omega
  · refine ⟨k, hgo hk ?_⟩
    rintro (⟨r, rfl⟩ | ⟨i, n1, rfl, -⟩ | hs)
    · exact Bool.noConfusion hp
    · exact Bool.noConfusion hp
    · omega

end Shared

/-- The contents of the file behind an open file. -/
def contents (s : Fs.State) (f : File) : List UInt8 :=
  content s.disk (dinode s.sb s.disk (s.inode f.ip).inum)

/-- The small disk, with its file open. -/
def opened : Fs.State := small.set first { small.inode first with busy := false }

def openFile : File := ⟨.FD_INODE, 2, true, true, 0, first, 0⟩

/-- Two calls: the second one is made while the first one is in `ilock`. -/
def someWrites : List Act :=
  [.call ⟨fun _ => 1, 3⟩, .run 0, .run 0, .call ⟨fun _ => 2, 2⟩, .run 1, .run 0, .run 0, .run 0, .run 0,
    .run 0, .run 0, .run 1, .run 0, .run 1, .run 0, .run 1, .run 1, .run 1, .run 1, .run 1, .run 1, .run 1]

end Xv6.Sysfile
