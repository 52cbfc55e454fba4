import Xv6.Fs.Blocks

/-!
# Xv6.Fs.Icache

The inode cache under any interleaving of the processes that use it.

* The functions of `fs.c` are cut where `icache.lock` is released: `ilock` into
  `ilockAcquire` and `loadInode`, `iput` into `iputBegin`, the freeing of the inode and
  `iputFinish`, and `ialloc` into `iallocAt` and `iget`.
* `Hist` adds to the file system what was last written for every inode number.  Only
  `iupdate` and `ialloc` write it; `Hist.writei` and `Hist.itrunc` are the code with the
  `iupdate` in it noted, and forgetting the notes gives the code back (`Erases`).
* `Icache` adds who uses which entry: the counted references, and the section that the
  process which set `I_BUSY` is in.
* `icache_reloads`: whenever `ilock` returns, the entry has what was last written.
-/

namespace Xv6.Fs

open Words Run

variable {α β : Type}

/-! ## the sections of the code -/

/-- The first section of `ilock`: take `I_BUSY`. -/
def ilockAcquire (c : Ip) : M Unit := do
  let ip := (← get).inode c
  if ip.ref < 1 then throw .ilock
  else if ip.busy then throw .sleep
  else setInode c fun ip => { ip with busy := true }

theorem ilock_eq (c : Ip) : ilock c = (do
    ilockAcquire c
    loadInode c) := by
  unfold ilock ilockAcquire
  rw [bind_assoc]
  congr 1
  funext s
  dsimp only
  split
  · rfl
  · split <;> rfl

/-- The first section of `iput`: whether the inode has to be freed.  If not, the
reference is dropped right away. -/
def iputBegin (c : Ip) : M Bool := do
  let ip := (← get).inode c
  if ip.ref = 1 ∧ ip.valid ∧ ip.din.nlink = 0 then
    if ip.busy then throw .iputBusy
    else do
      setInode c fun ip => { ip with busy := true }
      return true
  else do
    setInode c fun ip => { ip with ref := ip.ref - 1 }
    return false

/-- The last section of `iput` when the inode was freed. -/
def iputFinish (c : Ip) : M Unit := do
  setInode c fun ip => { ip with busy := false, valid := false }
  setInode c fun ip => { ip with ref := ip.ref - 1 }

theorem iput_eq (c : Ip) : iput c = (do
    if ← iputBegin c then do
      itrunc c
      setDin c fun d => { d with type := 0 }
      iupdate c
      iputFinish c
    else pure ()) := by
  unfold iput reap iputBegin iputFinish
  simp only [bind_assoc]
  congr 1
  funext s
  split
  · split
    · rfl
    · simp only [bind_assoc, pure_bind, if_true]
  · simp

/-- The body of the loop of `ialloc`: claim the inode if it is free. -/
def iallocAt (type : Int16) (inum : Nat) : M Bool := do
  let sb := (← get).sb
  let data ← bread (IBLOCK inum sb)
  if (getDinode data (inum % IPB)).type = 0 then do
    logWrite (IBLOCK inum sb) (putDinode data (inum % IPB) (Dinode.fresh type))
    return true
  else return false

theorem iallocIn_cons (type : Int16) (inum : Nat) (inums : List Nat) :
    iallocIn type (inum :: inums) = (do
      if ← iallocAt type inum then iget inum else iallocIn type inums) := by
  rw [iallocIn]
  unfold iallocAt
  simp only [bind_assoc]
  congr 1
  funext s
  congr 1
  funext data
  split
  · simp only [bind_assoc, pure_bind, if_true]
  · simp

/-! ## what was last written -/

structure Hist where
  fs : State
  /-- for every inode number, what was last written for it, or is on the image -/
  last : Nat → Dinode

abbrev HM := Prog Panic Hist

/-- Code that writes no inode. -/
def onFs (m : M α) : HM α := focus Hist.fs (fun s h => { h with fs := s }) m

namespace Hist

/-- `iupdate`, noted. -/
def iupdate (c : Ip) : HM Unit := do
  onFs (Fs.iupdate c)
  modify fun h => { h with last := Function.update h.last (h.fs.inode c).inum (h.fs.inode c).din }

def growTo (c : Ip) (n off : UInt32) : HM Unit := do
  if 0 < n ∧ ((← onFs get).inode c).din.size < off then do
    onFs (setDin c fun d => { d with size := off })
    Hist.iupdate c
  else pure ()

def writei (c : Ip) (src : Nat → UInt8) (off n : UInt32) : HM Int32 := do
  let s ← onFs get
  let d := (s.inode c).din
  if d.type = T_DEV then
    match (deviceNo d).bind s.devsw.write with
    | none => return -1
    | some write => return write src n
  else if d.size < off ∨ off + n < off then return -1
  else if MAXFILE * BSIZE < (off + n).toNat then return -1
  else do
    onFs (writeLoop c n.toNat src off.toNat n.toNat)
    Hist.growTo c n (off + n)
    return n.toInt32

def itrunc (c : Ip) : HM Unit := do
  onFs do
    (List.range NDIRECT).forM (truncDirect c)
    truncIndirect c
  onFs (setDin c fun d => { d with size := 0 })
  Hist.iupdate c

/-- `iallocAt`, noted. -/
def iallocAt (type : Int16) (inum : Nat) : HM Bool := do
  if ← onFs (Fs.iallocAt type inum) then do
    modify fun h => { h with last := Function.update h.last inum (Dinode.fresh type) }
    return true
  else return false

end Hist

/-- Without the notes, `m'` is `m`. -/
def Erases (m' : HM α) (m : M α) : Prop :=
  ∀ h : Hist, (m' h).map (fun r => (r.1, r.2.fs)) = m h.fs

theorem erases_onFs (m : M α) : Erases (onFs m) m := by
  intro h
  unfold onFs focus
  cases m h.fs with
  | error e => rfl
  | ok r => rfl

theorem erases_pure (a : α) : Erases (pure a) (pure a) := fun _ => rfl

theorem Erases.bind {m' : HM α} {m : M α} {f' : α → HM β} {f : α → M β} (hm : Erases m' m)
    (hf : ∀ a, Erases (f' a) (f a)) : Erases (m' >>= f') (m >>= f) := by
  intro h
  have hh := hm h
  have hbind : (m' >>= f') h = (m' h).bind fun r => f' r.1 r.2 := rfl
  have hbind' : (m >>= f) h.fs = (m h.fs).bind fun r => f r.1 r.2 := rfl
  rw [hbind, hbind', ← hh]
  cases m' h with
  | error e => rfl
  | ok r => exact hf r.1 r.2

/-- A note leaves no trace. -/
theorem erases_note {f : Hist → Hist} (hf : ∀ h, (f h).fs = h.fs) :
    Erases (modify f) (pure ()) := by
  intro h
  change Except.ok ((), (f h).fs) = Except.ok ((), h.fs)
  rw [hf]

theorem erases_iupdate (c : Ip) : Erases (Hist.iupdate c) (iupdate c) := by
  have h := (erases_onFs (iupdate c)).bind fun _ : Unit =>
    erases_note (f := fun h : Hist =>
      { h with last := Function.update h.last (h.fs.inode c).inum (h.fs.inode c).din }) fun _ => rfl
  rwa [bind_pure] at h

/-- **The code with notes is the code.** -/
theorem erases_writei (c : Ip) (src : Nat → UInt8) (off n : UInt32) :
    Erases (Hist.writei c src off n) (writei c src off n) := by
  have hgrow (off : UInt32) : Erases (Hist.growTo c n off) (growTo c n off) := by
    refine (erases_onFs get).bind fun s => ?_
    split
    · exact (erases_onFs _).bind fun _ => erases_iupdate c
    · exact erases_pure _
  refine (erases_onFs get).bind fun s => ?_
  dsimp only
  split
  · cases (deviceNo (s.inode c).din).bind s.devsw.write with
    | none => exact erases_pure _
    | some write => exact erases_pure _
  · split
    · exact erases_pure _
    · split
      · exact erases_pure _
      · exact (erases_onFs _).bind fun _ => (hgrow _).bind fun _ => erases_pure _

theorem erases_itrunc (c : Ip) : Erases (Hist.itrunc c) (itrunc c) := by
  have h := (erases_onFs (do
    (List.range NDIRECT).forM (truncDirect c)
    truncIndirect c)).bind fun _ => (erases_onFs (setDin c fun d => { d with size := 0 })).bind
      fun _ => erases_iupdate c
  rwa [bind_assoc] at h

/-! ## entries in use -/

/-- Where the process that has set `I_BUSY` is. -/
inductive Phase
  /-- in `ilock`, before the inode is read -/
  | loading
  /-- `ilock` has returned -/
  | locked
  /-- fields were changed, and `iupdate` has to follow -/
  | changed
  /-- in `iput`, before `itrunc` -/
  | freeing
  /-- in `iput`, after `itrunc` -/
  | truncated
  /-- in `iput`, after `ip->type = 0` -/
  | cleared
  /-- in `iput`, after the `iupdate` that follows -/
  | freed
deriving DecidableEq

/-- The file system, its history, the references to every entry, and the process that
has set `I_BUSY`: the reference it uses and where it is. -/
structure Icache extends Hist where
  refs : Ip → List Nat
  holder : Ip → Option (Nat × Phase)

/-- The steps: one section of the code each.  `r` is the reference that is made, used or
dropped. -/
inductive Act
  | iget (r inum : Nat)
  | idup (r : Nat) (c : Ip)
  /-- `ilock`, first section -/
  | acquire (r : Nat) (c : Ip)
  /-- `ilock`, to its end -/
  | load (c : Ip)
  /-- the holder changes fields -/
  | change (c : Ip) (major minor nlink : Int16) (uid gid mode : UInt32)
  | iupdate (c : Ip)
  | writei (c : Ip) (src : Nat → UInt8) (off n : UInt32)
  | iunlock (c : Ip)
  /-- `iput`, first section -/
  | iput (r : Nat) (c : Ip)
  | itrunc (c : Ip)
  /-- `ip->type = 0` in `iput` -/
  | clear (c : Ip)
  /-- `iput`, last section -/
  | finish (c : Ip)
  /-- the loop body of `ialloc` -/
  | iallocAt (type : Int16) (inum : Nat)

namespace Icache

/-- Run code; a panic ends the run, and so does a wait. -/
def run (y : Icache) (m : HM α) (k : α → Hist → Icache) : Option Icache :=
  match m y.toHist with
  | .ok (a, h) => some (k a h)
  | .error _ => none

/-- The process in section `ph` of entry `c` runs code and is in section `ph'` then. -/
def go (y : Icache) (c : Ip) (ph : Phase) (m : HM α) (ph' : Phase) : Option Icache :=
  match y.holder c with
  | some (r, p) =>
      if p = ph then
        y.run m fun _ h => { y with
          toHist := h, holder := Function.update y.holder c (some (r, ph')) }
      else none
  | none => none

/-- The process in section `ph` of entry `c` runs code that gives up `I_BUSY`. -/
def leave (y : Icache) (c : Ip) (ph : Phase) (m : HM α) (k : Nat → List Nat → List Nat) :
    Option Icache :=
  match y.holder c with
  | some (r, p) =>
      if p = ph then
        y.run m fun _ h => { y with
          toHist := h, holder := Function.update y.holder c none
          refs := Function.update y.refs c (k r (y.refs c)) }
      else none
  | none => none

/-- A reference to `c` is added. -/
def addRef (y : Icache) (r : Nat) (c : Ip) (h : Hist) : Icache :=
  { y with toHist := h, refs := Function.update y.refs c (r :: y.refs c) }

/-- **A step.**  The callers' part: inode numbers are on the disk, a process passes an
entry to which it has a reference, and drops no reference under which it has locked the
entry. -/
def step (y : Icache) : Act → Option Icache
  | .iget r inum =>
      if inum < y.fs.sb.ninodes then y.run (onFs (Fs.iget inum)) (y.addRef r) else none
  | .idup r c =>
      if y.refs c = [] then none else y.run (onFs (Fs.idup c)) fun _ h => y.addRef r c h
  | .acquire r c =>
      if r ∈ y.refs c then
        y.run (onFs (ilockAcquire c)) fun _ h => { y with
          toHist := h, holder := Function.update y.holder c (some (r, .loading)) }
      else none
  | .load c => y.go c .loading (onFs (loadInode c)) .locked
  | .change c major minor nlink uid gid mode =>
      y.go c .locked (onFs (setDin c fun d => { d with major, minor, nlink, uid, gid, mode }))
        .changed
  | .iupdate c =>
      (y.go c .changed (Hist.iupdate c) .locked).or (y.go c .cleared (Hist.iupdate c) .freed)
  | .writei c src off n => y.go c .locked (Hist.writei c src off n) .locked
  | .iunlock c => y.leave c .locked (onFs (Fs.iunlock c)) fun _ rs => rs
  | .iput r c =>
      if r ∈ y.refs c ∧ (y.holder c).map Prod.fst ≠ some r then
        y.run (onFs (iputBegin c)) fun freeing h =>
          if freeing then { y with
            toHist := h, holder := Function.update y.holder c (some (r, .freeing)) }
          else { y with toHist := h, refs := Function.update y.refs c ((y.refs c).erase r) }
      else none
  | .itrunc c => y.go c .freeing (Hist.itrunc c) .truncated
  | .clear c => y.go c .truncated (onFs (setDin c fun d => { d with type := 0 })) .cleared
  | .finish c => y.leave c .freed (onFs (iputFinish c)) fun r rs => rs.erase r
  | .iallocAt type inum =>
      if inum < y.fs.sb.ninodes then y.run (Hist.iallocAt type inum) fun _ h => { y with toHist := h }
      else none

/-- The cache of a file system that was just mounted: no entry is in use. -/
def mounted (s : State) : Icache := ⟨⟨s, dinode s.sb s.disk⟩, fun _ => [], fun _ => none⟩

/-! ## the invariant -/

/-- What a section knows about the entry `ip`, when the inode on the disk is `d`. -/
def Phase.Fits (ph : Phase) (d : Dinode) (ip : Inode) : Prop :=
  match ph with
  | .loading => ip.valid = true → ip.din.type ≠ 0 ∧ d = ip.din
  | .locked | .freeing => ip.valid = true ∧ ip.din.type ≠ 0 ∧ d = ip.din
  | .changed => ip.valid = true ∧ ip.din.type ≠ 0 ∧ d.type = ip.din.type ∧
      d.size = ip.din.size ∧ d.addrs = ip.din.addrs
  | .truncated => ip.valid = true ∧ ip.din.type ≠ 0 ∧ d = ip.din ∧ d.size = 0 ∧
      ∀ k ≤ NDIRECT, d.addr k = 0
  | .cleared => ip.valid = true ∧ d.type ≠ 0 ∧ ip.din.type = 0 ∧ ip.din.size = 0 ∧
      (∀ k ≤ NDIRECT, d.addr k = 0) ∧ ∀ k ≤ NDIRECT, ip.din.addr k = 0
  | .freed => True

/-- The inode of entry `c`, as it is on the disk. -/
def disked (y : Icache) (c : Ip) : Dinode := dinode y.fs.sb y.fs.disk (y.fs.inode c).inum

/-- An entry and the process that uses it. -/
def Entry (y : Icache) (c : Ip) : Prop :=
  match y.holder c with
  | none => 0 < (y.fs.inode c).ref →
      (y.fs.inode c).busy = false ∧ Phase.Fits .loading (y.disked c) (y.fs.inode c)
  | some (r, ph) => r ∈ y.refs c ∧ (y.fs.inode c).busy = true ∧
      Phase.Fits ph (y.disked c) (y.fs.inode c)

structure Inv (y : Icache) : Prop where
  cons : Consistent y.fs.sb y.fs.disk (dinode y.fs.sb y.fs.disk)
  last : ∀ i < y.fs.sb.ninodes, y.last i = dinode y.fs.sb y.fs.disk i
  ref : ∀ c, (y.fs.inode c).ref = (y.refs c).length
  lt : ∀ c, 0 < (y.fs.inode c).ref → (y.fs.inode c).inum < y.fs.sb.ninodes
  uniq : ∀ c e, 0 < (y.fs.inode c).ref → 0 < (y.fs.inode e).ref →
    (y.fs.inode c).inum = (y.fs.inode e).inum → c = e
  entry : ∀ c, y.Entry c

variable {y y' : Icache} {c : Ip} {r : Nat} {ph : Phase}

theorem Entry.of_holder (h : y.Entry c) (hh : y.holder c = some (r, ph)) :
    r ∈ y.refs c ∧ (y.fs.inode c).busy = true ∧ Phase.Fits ph (y.disked c) (y.fs.inode c) := by
  unfold Entry at h
  rwa [hh] at h

theorem Entry.of_idle (h : y.Entry c) (hh : y.holder c = none) (href : 0 < (y.fs.inode c).ref) :
    (y.fs.inode c).busy = false ∧ Phase.Fits .loading (y.disked c) (y.fs.inode c) := by
  unfold Entry at h
  rw [hh] at h
  exact h href

theorem entry_of_holder (hh : y.holder c = some (r, ph)) (hr : r ∈ y.refs c)
    (hbusy : (y.fs.inode c).busy = true) (hfits : Phase.Fits ph (y.disked c) (y.fs.inode c)) :
    y.Entry c := by
  unfold Entry
  rw [hh]
  exact ⟨hr, hbusy, hfits⟩

theorem entry_of_idle (hh : y.holder c = none)
    (hfits : 0 < (y.fs.inode c).ref →
      (y.fs.inode c).busy = false ∧ Phase.Fits .loading (y.disked c) (y.fs.inode c)) :
    y.Entry c := by
  unfold Entry
  rw [hh]
  exact hfits

namespace Inv

theorem pos_of_mem (h : y.Inv) (hr : r ∈ y.refs c) : 0 < (y.fs.inode c).ref := by
  rw [h.ref]
  exact List.length_pos_of_mem hr

/-- Whoever has set `I_BUSY` has a reference. -/
theorem pos_of_holder (h : y.Inv) (hh : y.holder c = some (r, ph)) : 0 < (y.fs.inode c).ref :=
  h.pos_of_mem ((h.entry c).of_holder hh).1

theorem holder_of_free (h : y.Inv) (hbusy : (y.fs.inode c).busy = false) : y.holder c = none := by
  cases hh : y.holder c with
  | none => rfl
  | some p =>
      rw [((h.entry c).of_holder hh).2.1] at hbusy
      contradiction

/-- **Frame rule**: a step on entry `c`, which does not touch the other entries and writes
no inode but the one in `c`. -/
theorem frame (h : y.Inv) (c : Ip) (hsb : y'.fs.sb = y.fs.sb)
    (hcons : Consistent y.fs.sb y'.fs.disk (dinode y.fs.sb y'.fs.disk))
    (hinode : ∀ e, e ≠ c → y'.fs.inode e = y.fs.inode e)
    (hrefs : ∀ e, e ≠ c → y'.refs e = y.refs e) (hholder : ∀ e, e ≠ c → y'.holder e = y.holder e)
    (huniq : ∀ e, e ≠ c → 0 < (y.fs.inode e).ref →
      (y.fs.inode e).inum ≠ (y'.fs.inode c).inum)
    (hdinode : ∀ j < y.fs.sb.ninodes, j ≠ (y'.fs.inode c).inum →
      dinode y.fs.sb y'.fs.disk j = dinode y.fs.sb y.fs.disk j)
    (hlast : ∀ j, j ≠ (y'.fs.inode c).inum → y'.last j = y.last j)
    (hself : y'.last (y'.fs.inode c).inum = y'.disked c)
    (hlen : (y'.fs.inode c).ref = (y'.refs c).length)
    (hlt : 0 < (y'.fs.inode c).ref → (y'.fs.inode c).inum < y.fs.sb.ninodes)
    (hentry : y'.Entry c) : y'.Inv where
  cons := by
    rw [hsb]
    exact hcons
  last := by
    intro i hi
    rw [hsb] at hi
    by_cases hic : i = (y'.fs.inode c).inum
    · rw [hic, hself]
      rfl
    · rw [hlast i hic, hsb, hdinode i hi hic]
      exact h.last i hi
  ref := by
    intro e
    by_cases hec : e = c
    · rw [hec]
      exact hlen
    · rw [hinode e hec, hrefs e hec]
      exact h.ref e
  lt := by
    intro e he
    rw [hsb]
    by_cases hec : e = c
    · rw [hec] at he ⊢
      exact hlt he
    · rw [hinode e hec] at he ⊢
      exact h.lt e he
  uniq := by
    intro d e hd he hi
    by_cases hdc : d = c
    · by_cases hec : e = c
      · rw [hdc, hec]
      · rw [hinode e hec] at he hi
        rw [hdc] at hi
        exact absurd hi.symm (huniq e hec he)
    · rw [hinode d hdc] at hd hi
      by_cases hec : e = c
      · rw [hec] at hi
        exact absurd hi (huniq d hdc hd)
      · rw [hinode e hec] at he hi
        exact h.uniq d e hd he hi
  entry := by
    intro e
    by_cases hec : e = c
    · rw [hec]
      exact hentry
    · have hold := h.entry e
      have hsame (hpos : 0 < (y.fs.inode e).ref) : y'.disked e = y.disked e := by
        unfold disked
        rw [hsb, hinode e hec]
        exact hdinode _ (h.lt e hpos) (huniq e hec hpos)
      cases hh : y.holder e with
      | none =>
          refine entry_of_idle (by rw [hholder e hec, hh]) fun hpos => ?_
          rw [hinode e hec] at hpos ⊢
          rw [hsame hpos]
          exact hold.of_idle hh hpos
      | some p =>
          obtain ⟨hr, hbusy, hfits⟩ := hold.of_holder hh
          refine entry_of_holder (by rw [hholder e hec, hh]) (by rw [hrefs e hec]; exact hr) ?_ ?_
          · rw [hinode e hec]
            exact hbusy
          · rw [hinode e hec, hsame (h.pos_of_mem hr)]
            exact hfits

/-- The frame rule for an entry in use that keeps its inode number. -/
theorem frame_used (h : y.Inv) (href : 0 < (y.fs.inode c).ref) (hsb : y'.fs.sb = y.fs.sb)
    (hcons : Consistent y.fs.sb y'.fs.disk (dinode y.fs.sb y'.fs.disk))
    (hinode : ∀ e, e ≠ c → y'.fs.inode e = y.fs.inode e)
    (hrefs : ∀ e, e ≠ c → y'.refs e = y.refs e) (hholder : ∀ e, e ≠ c → y'.holder e = y.holder e)
    (hinum : (y'.fs.inode c).inum = (y.fs.inode c).inum)
    (hdinode : ∀ j < y.fs.sb.ninodes, j ≠ (y.fs.inode c).inum →
      dinode y.fs.sb y'.fs.disk j = dinode y.fs.sb y.fs.disk j)
    (hlast : ∀ j, j ≠ (y.fs.inode c).inum → y'.last j = y.last j)
    (hself : y'.last (y.fs.inode c).inum = y'.disked c)
    (hlen : (y'.fs.inode c).ref = (y'.refs c).length) (hentry : y'.Entry c) : y'.Inv := by
  refine h.frame c hsb hcons hinode hrefs hholder ?_ ?_ ?_ ?_ hlen ?_ hentry
  · rw [hinum]
    exact fun e hec he hi => hec (h.uniq e c he href hi)
  · rw [hinum]
    exact hdinode
  · rw [hinum]
    exact hlast
  · rw [hinum]
    exact hself
  · rw [hinum]
    exact fun _ => h.lt c href

/-- The frame rule for a change of an entry of the cache, and of nothing on the disk. -/
theorem frame_cache (h : y.Inv) (href : 0 < (y.fs.inode c).ref) {ip : Inode}
    (hfs : y'.fs = y.fs.set c ip) (hlast : y'.last = y.last)
    (hrefs : ∀ e, e ≠ c → y'.refs e = y.refs e) (hholder : ∀ e, e ≠ c → y'.holder e = y.holder e)
    (hinum : ip.inum = (y.fs.inode c).inum) (hlen : ip.ref = (y'.refs c).length)
    (hentry : y'.Entry c) : y'.Inv := by
  have hself : y'.fs.inode c = ip := by
    rw [hfs]
    exact Function.update_self _ _ _
  refine h.frame_used href (by rw [hfs]; rfl) (by rw [hfs]; exact h.cons) (fun e he => ?_) hrefs
    hholder (by rw [hself, hinum]) (fun _ _ _ => by rw [hfs]; rfl) (fun _ _ => by rw [hlast]) ?_
    (by rw [hself, hlen]) hentry
  · rw [hfs]
    exact Function.update_of_ne he _ _
  · rw [disked, hself, hinum, hlast, hfs]
    exact h.last _ (h.lt c href)

end Inv

/-! ## steps -/

theorem wpE_onFs {m : M α} {h : Hist} {Q : α → Hist → Prop} {E : Panic → Prop} :
    wpE (onFs m) h Q E ↔ wpE m h.fs (fun a s => Q a { h with fs := s }) E := by
  unfold wpE onFs focus
  cases m h.fs with
  | error e => exact Iff.rfl
  | ok r => exact Iff.rfl

theorem wpE_histIupdate {h : Hist} {Q : Unit → Hist → Prop} {E : Panic → Prop} :
    wpE (Hist.iupdate c) h Q E ↔ Q () ⟨h.fs.flush c,
      Function.update h.last (h.fs.inode c).inum (h.fs.inode c).din⟩ := by
  rw [Hist.iupdate, wpE_bind, wpE_onFs]
  exact Iff.rfl

theorem run_elim {m : HM α} {k : α → Hist → Icache} {Q : α → Hist → Prop} {E : Panic → Prop}
    (hrun : y.run m k = some y') (hm : wpE m y.toHist Q E) : ∃ a h, y' = k a h ∧ Q a h := by
  unfold run at hrun
  split at hrun
  · next a h hok => exact ⟨a, h, (Option.some.inj hrun).symm, hm.of_ok hok⟩
  · exact absurd hrun (by simp)

theorem go_elim {m : HM α} {ph' : Phase} (hgo : y.go c ph m ph' = some y') :
    ∃ r, y.holder c = some (r, ph) ∧ y.run m (fun _ h => { y with
      toHist := h, holder := Function.update y.holder c (some (r, ph')) }) = some y' := by
  unfold go at hgo
  split at hgo
  · next r p hh =>
    split at hgo
    · next hp => exact ⟨r, by rw [hh, hp], hgo⟩
    · exact absurd hgo (by simp)
  · exact absurd hgo (by simp)

theorem leave_elim {m : HM α} {k : Nat → List Nat → List Nat} (hgo : y.leave c ph m k = some y') :
    ∃ r, y.holder c = some (r, ph) ∧ y.run m (fun _ h => { y with
      toHist := h, holder := Function.update y.holder c none
      refs := Function.update y.refs c (k r (y.refs c)) }) = some y' := by
  unfold leave at hgo
  split at hgo
  · next r p hh =>
    split at hgo
    · next hp => exact ⟨r, by rw [hh, hp], hgo⟩
    · exact absurd hgo (by simp)
  · exact absurd hgo (by simp)

theorem Phase.Fits.of_eq {d : Dinode} {ip ip' : Inode} (h : Phase.Fits ph d ip)
    (hvalid : ip'.valid = ip.valid) (hdin : ip'.din = ip.din) : Phase.Fits ph d ip' := by
  unfold Phase.Fits at h ⊢
  rw [hvalid, hdin]
  exact h

/-- An entry that gains a reference. -/
theorem inv_addRef (h : y.Inv) (href : 0 < (y.fs.inode c).ref) (r : Nat) :
    (y.addRef r c ⟨y.fs.set c { y.fs.inode c with ref := (y.fs.inode c).ref + 1 }, y.last⟩).Inv := by
  have hself : (y.fs.set c { y.fs.inode c with ref := (y.fs.inode c).ref + 1 }).inode c =
      { y.fs.inode c with ref := (y.fs.inode c).ref + 1 } := Function.update_self _ _ _
  have hrefs : Function.update y.refs c (r :: y.refs c) c = r :: y.refs c :=
    Function.update_self _ _ _
  refine h.frame_cache href rfl rfl (fun e he => Function.update_of_ne he _ _) (fun _ _ => rfl)
    rfl ?_ ?_
  · change (y.fs.inode c).ref + 1 = (Function.update y.refs c (r :: y.refs c) c).length
    rw [hrefs, List.length_cons, h.ref]
  · cases hh : y.holder c with
    | none =>
        obtain ⟨hbusy, hfits⟩ := (h.entry c).of_idle hh href
        refine entry_of_idle hh fun _ => ?_
        unfold disked addRef
        dsimp only
        rw [hself]
        exact ⟨hbusy, hfits.of_eq rfl rfl⟩
    | some p =>
        obtain ⟨hr, hbusy, hfits⟩ := (h.entry c).of_holder hh
        refine entry_of_holder hh ?_ ?_ ?_
        · change _ ∈ Function.update y.refs c (r :: y.refs c) c
          rw [hrefs]
          exact List.mem_cons_of_mem r hr
        · unfold addRef
          dsimp only
          rw [hself]
          exact hbusy
        · unfold disked addRef
          dsimp only
          rw [hself]
          exact hfits.of_eq rfl rfl

/-- `iget` finds the inode, or takes an entry that is not in use. -/
theorem step_iget (h : y.Inv) {inum : Nat} (hs : y.step (.iget r inum) = some y') : y'.Inv := by
  rw [step] at hs
  split at hs
  · next hlt =>
    have hspec : wpE (onFs (Fs.iget inum)) y.toHist
        (fun c h' => (y.addRef r c h').Inv) fun _ => True := by
      rw [wpE_onFs]
      simp only [Fs.iget, wpE_bind, wpE_get]
      split
      · next c hfind =>
        have hp := List.find?_some hfind
        simp only [Bool.and_eq_true, decide_eq_true_eq, beq_iff_eq] at hp
        simp only [wpE_bind, wpE_setInode, wpE_pure]
        exact inv_addRef h hp.1 r
      · next hnone =>
        have hmiss (e : Ip) (he : 0 < (y.fs.inode e).ref) : (y.fs.inode e).inum ≠ inum := by
          have := List.find?_eq_none.mp hnone e (List.mem_finRange e)
          simpa [he] using this
        split
        · exact trivial
        · next c hfind =>
          have hzero : (y.fs.inode c).ref = 0 := by simpa using List.find?_some hfind
          have hnil : y.refs c = [] := by
            rw [← List.length_eq_zero_iff, ← h.ref, hzero]
          have hidle : y.holder c = none := by
            cases hh : y.holder c with
            | none => rfl
            | some p =>
                have := h.pos_of_holder hh
                omega
          simp only [wpE_bind, wpE_setInode, wpE_pure]
          generalize hip : ({ y.fs.inode c with
            inum := inum, ref := 1, busy := false, valid := false } : Inode) = ip
          have hself : (y.fs.set c ip).inode c = ip := Function.update_self _ _ _
          refine h.frame c rfl h.cons (fun e he => Function.update_of_ne he _ _)
            (fun e he => Function.update_of_ne he _ _) (fun _ _ => rfl) ?_ (fun _ _ _ => rfl)
            (fun _ _ => rfl) ?_ ?_ ?_ ?_
          · intro e _ he
            change _ ≠ ((y.fs.set c ip).inode c).inum
            rw [hself, ← hip]
            exact hmiss e he
          · change y.last ((y.fs.set c ip).inode c).inum =
              dinode y.fs.sb y.fs.disk ((y.fs.set c ip).inode c).inum
            rw [hself, ← hip]
            exact h.last inum hlt
          · change ((y.fs.set c ip).inode c).ref = (Function.update y.refs c (r :: y.refs c) c).length
            rw [hself, Function.update_self, hnil, ← hip]
            rfl
          · intro _
            change ((y.fs.set c ip).inode c).inum < _
            rw [hself, ← hip]
            exact hlt
          · refine entry_of_idle hidle fun _ => ?_
            unfold disked addRef
            dsimp only
            rw [hself, ← hip]
            exact ⟨rfl, fun hv => absurd hv (by simp)⟩
    obtain ⟨c, h', rfl, hinv⟩ := run_elim hs hspec
    exact hinv
  · exact absurd hs (by simp)

theorem step_idup (h : y.Inv) (hs : y.step (.idup r c) = some y') : y'.Inv := by
  rw [step] at hs
  split at hs
  · exact absurd hs (by simp)
  · next hne =>
    have href : 0 < (y.fs.inode c).ref := by
      rw [h.ref]
      exact List.length_pos_iff.mpr hne
    have hspec : wpE (onFs (Fs.idup c)) y.toHist (fun _ h' => (y.addRef r c h').Inv)
        fun _ => True := wpE_onFs.mpr (inv_addRef h href r)
    obtain ⟨_, h', rfl, hinv⟩ := run_elim hs hspec
    exact hinv

/-! ### sections that change the cache -/

/-- The entry as the next section finds it. -/
theorem inv_section (h : y.Inv) (hr : r ∈ y.refs c) {ip : Inode}
    (hinum : ip.inum = (y.fs.inode c).inum) (href : ip.ref = (y.fs.inode c).ref)
    (hbusy : ip.busy = true) (hfits : Phase.Fits ph (y.disked c) ip) :
    Inv { y with
      toHist := { y.toHist with fs := y.fs.set c ip }
      holder := Function.update y.holder c (some (r, ph)) } := by
  have hself : (y.fs.set c ip).inode c = ip := Function.update_self _ _ _
  refine h.frame_cache (h.pos_of_mem hr) rfl rfl (fun _ _ => rfl)
    (fun e he => Function.update_of_ne he _ _) hinum (href.trans (h.ref c)) ?_
  refine entry_of_holder (Function.update_self _ _ _) hr ?_ ?_
  · dsimp only
    rw [hself]
    exact hbusy
  · unfold disked
    dsimp only
    rw [hself, State.set_sb, State.set_disk, hinum]
    exact hfits

theorem step_acquire (h : y.Inv) (hs : y.step (.acquire r c) = some y') : y'.Inv := by
  rw [step] at hs
  split at hs
  · next hr =>
    have hspec : wpE (onFs (ilockAcquire c)) y.toHist (fun _ h' => Inv { y with
        toHist := h', holder := Function.update y.holder c (some (r, .loading)) })
        fun _ => True := by
      rw [wpE_onFs]
      simp only [ilockAcquire, wpE_bind, wpE_get]
      split
      · exact trivial
      · split
        · exact trivial
        · next hfree =>
          have hfree : (y.fs.inode c).busy = false := by simpa using hfree
          have hidle := h.holder_of_free hfree
          have hfits := ((h.entry c).of_idle hidle (h.pos_of_mem hr)).2
          rw [wpE_setInode]
          exact inv_section h hr rfl rfl rfl (hfits.of_eq rfl rfl)
    obtain ⟨_, h', rfl, hinv⟩ := run_elim hs hspec
    exact hinv
  · exact absurd hs (by simp)

/-- **`ilock` returns** with the inode as it is on the disk. -/
theorem step_load (h : y.Inv) (hs : y.step (.load c) = some y') :
    y'.Inv ∧ ∃ r, y'.holder c = some (r, .locked) := by
  obtain ⟨r, hh, hrun⟩ := go_elim hs
  obtain ⟨hr, hbusy, hfits⟩ := (h.entry c).of_holder hh
  have hspec : wpE (onFs (loadInode c)) y.toHist (fun _ h' => Inv { y with
      toHist := h', holder := Function.update y.holder c (some (r, .locked)) })
      fun _ => True := by
    rw [wpE_onFs]
    simp only [loadInode, wpE_bind, wpE_get]
    split
    · next hv =>
      have hsame : y.fs.set c (y.fs.inode c) = y.fs := by
        rw [State.set, Function.update_eq_self]
      have hlocked : Phase.Fits .locked (y.disked c) (y.fs.inode c) := ⟨hv, hfits hv⟩
      have hinv := inv_section h hr rfl rfl hbusy hlocked
      rw [hsame] at hinv
      exact wpE_pure.mpr hinv
    · simp only [wpE_bind, wpE_bread, wpE_setInode]
      split
      · exact trivial
      · next htype => exact wpE_pure.mpr (inv_section h hr rfl rfl hbusy ⟨rfl, htype, rfl⟩)
  obtain ⟨_, h', rfl, hinv⟩ := run_elim hrun hspec
  exact ⟨hinv, r, Function.update_self _ _ _⟩

theorem step_change (h : y.Inv) {major minor nlink : Int16} {uid gid mode : UInt32}
    (hs : y.step (.change c major minor nlink uid gid mode) = some y') : y'.Inv := by
  obtain ⟨r, hh, hrun⟩ := go_elim hs
  obtain ⟨hr, hbusy, hvalid, htype, hd⟩ := (h.entry c).of_holder hh
  have hspec : wpE (onFs (setDin c fun d => { d with major, minor, nlink, uid, gid, mode })) y.toHist
      (fun _ h' => Inv { y with
        toHist := h', holder := Function.update y.holder c (some (r, .changed)) }) fun _ => True := by
    rw [wpE_onFs, wpE_setDin]
    refine inv_section h hr rfl rfl hbusy ⟨hvalid, htype, ?_⟩
    rw [hd]
    exact ⟨rfl, rfl, rfl⟩
  obtain ⟨_, h', rfl, hinv⟩ := run_elim hrun hspec
  exact hinv

theorem step_clear (h : y.Inv) (hs : y.step (.clear c) = some y') : y'.Inv := by
  obtain ⟨r, hh, hrun⟩ := go_elim hs
  obtain ⟨hr, hbusy, hvalid, htype, hd, hsize, haddr⟩ := (h.entry c).of_holder hh
  have hspec : wpE (onFs (setDin c fun d => { d with type := 0 })) y.toHist
      (fun _ h' => Inv { y with
        toHist := h', holder := Function.update y.holder c (some (r, .cleared)) }) fun _ => True := by
    rw [wpE_onFs, wpE_setDin]
    refine inv_section h hr rfl rfl hbusy ⟨hvalid, ?_, rfl, ?_, haddr, ?_⟩
    · rw [hd]
      exact htype
    · rw [← hsize, hd]
    · rw [hd] at haddr
      exact haddr
  obtain ⟨_, h', rfl, hinv⟩ := run_elim hrun hspec
  exact hinv

/-- The process gives up `I_BUSY` on an entry that agrees with the disk or is not valid. -/
theorem inv_leave (h : y.Inv) (href : 0 < (y.fs.inode c).ref) {ip : Inode} {rs : List Nat}
    (hinum : ip.inum = (y.fs.inode c).inum) (hlen : ip.ref = rs.length) (hbusy : ip.busy = false)
    (hfits : Phase.Fits .loading (y.disked c) ip) :
    Inv { y with
      toHist := { y.toHist with fs := y.fs.set c ip }
      holder := Function.update y.holder c none, refs := Function.update y.refs c rs } := by
  have hself : (y.fs.set c ip).inode c = ip := Function.update_self _ _ _
  refine h.frame_cache href rfl rfl (fun e he => Function.update_of_ne he _ _)
    (fun e he => Function.update_of_ne he _ _) hinum ?_ ?_
  · dsimp only
    rw [Function.update_self, hlen]
  · refine entry_of_idle (Function.update_self _ _ _) fun _ => ?_
    unfold disked
    dsimp only
    rw [hself, State.set_sb, State.set_disk, hinum]
    exact ⟨hbusy, hfits⟩

theorem step_iunlock (h : y.Inv) (hs : y.step (.iunlock c) = some y') : y'.Inv := by
  rw [step] at hs
  obtain ⟨r, hh, hrun⟩ := leave_elim hs
  obtain ⟨hr, hbusy, hvalid, hcopy⟩ := (h.entry c).of_holder hh
  have hspec : wpE (onFs (Fs.iunlock c)) y.toHist (fun _ h' => Inv { y with
      toHist := h', holder := Function.update y.holder c none
      refs := Function.update y.refs c (y.refs c) }) fun _ => True := by
    rw [wpE_onFs]
    simp only [Fs.iunlock, wpE_bind, wpE_get]
    split
    · exact trivial
    · rw [wpE_setInode]
      exact inv_leave h (h.pos_of_mem hr) rfl (h.ref c) rfl fun _ => hcopy
  obtain ⟨_, h', rfl, hinv⟩ := run_elim hrun hspec
  exact hinv

theorem step_finish (h : y.Inv) (hs : y.step (.finish c) = some y') : y'.Inv := by
  rw [step] at hs
  obtain ⟨r, hh, hrun⟩ := leave_elim hs
  obtain ⟨hr, hbusy, -⟩ := (h.entry c).of_holder hh
  have hspec : wpE (onFs (iputFinish c)) y.toHist (fun _ h' => Inv { y with
      toHist := h', holder := Function.update y.holder c none
      refs := Function.update y.refs c ((y.refs c).erase r) }) fun _ => True := by
    rw [wpE_onFs]
    simp only [iputFinish, wpE_bind, wpE_setInode, State.set_inode, Function.update_self]
    rw [State.set, State.set_inode, Function.update_idem]
    refine inv_leave h (h.pos_of_mem hr) rfl ?_ rfl fun hv => absurd hv (by simp)
    rw [List.length_erase_of_mem hr, ← h.ref]
  obtain ⟨_, h', rfl, hinv⟩ := run_elim hrun hspec
  exact hinv

/-- `iput` begins to free the inode, or drops the reference. -/
theorem step_iput (h : y.Inv) (hs : y.step (.iput r c) = some y') : y'.Inv := by
  rw [step] at hs
  split at hs
  · next hguard =>
    obtain ⟨hr, hother⟩ := hguard
    have href := h.pos_of_mem hr
    have hspec : wpE (onFs (iputBegin c)) y.toHist (fun freeing h' =>
        Inv (if freeing then { y with
          toHist := h', holder := Function.update y.holder c (some (r, .freeing)) }
        else { y with toHist := h', refs := Function.update y.refs c ((y.refs c).erase r) }))
        fun _ => True := by
      rw [wpE_onFs]
      simp only [iputBegin, wpE_bind, wpE_get]
      split
      · next hlast =>
        split
        · exact trivial
        · next hfree =>
          have hfree : (y.fs.inode c).busy = false := by simpa using hfree
          have hfits := ((h.entry c).of_idle (h.holder_of_free hfree) href).2
          simp only [wpE_bind, wpE_setInode, wpE_pure, if_true]
          exact inv_section h hr rfl rfl rfl ⟨hlast.2.1, hfits hlast.2.1⟩
      · simp only [wpE_bind, wpE_setInode, wpE_pure, Bool.false_eq_true, if_false]
        generalize hip : ({ y.fs.inode c with ref := (y.fs.inode c).ref - 1 } : Inode) = ip
        have hself : (y.fs.set c ip).inode c = ip := Function.update_self _ _ _
        have hlen : ip.ref = ((y.refs c).erase r).length := by
          rw [List.length_erase_of_mem hr, ← h.ref, ← hip]
        refine h.frame_cache href rfl rfl (fun e he => Function.update_of_ne he _ _)
          (fun _ _ => rfl) (by rw [← hip]) ?_ ?_
        · dsimp only
          rw [Function.update_self, hlen]
        · cases hh : y.holder c with
          | none =>
              obtain ⟨hbusy, hfits⟩ := (h.entry c).of_idle hh href
              refine entry_of_idle hh fun _ => ?_
              unfold disked
              dsimp only
              rw [hself, ← hip]
              exact ⟨hbusy, hfits.of_eq rfl rfl⟩
          | some p =>
              obtain ⟨hq, hbusy, hfits⟩ := (h.entry c).of_holder hh
              -- the reference of the section is another one, and stays
              have hne : p.1 ≠ r := fun he => hother (by rw [hh, ← he]; rfl)
              refine entry_of_holder hh ?_ ?_ ?_
              · dsimp only
                rw [Function.update_self]
                exact (List.mem_erase_of_ne hne).mpr hq
              · dsimp only
                rw [hself, ← hip]
                exact hbusy
              · unfold disked
                dsimp only
                rw [hself, ← hip]
                exact hfits.of_eq rfl rfl
    obtain ⟨_, h', rfl, hinv⟩ := run_elim hs hspec
    exact hinv
  · exact absurd hs (by simp)

/-! ### sections that write the inode -/

/-- The inode in entry `c` is written, and no other. -/
structure Rewrites (c : Ip) (h h' : Hist) : Prop where
  sb : h'.fs.sb = h.fs.sb
  other : ∀ e, e ≠ c → h'.fs.inode e = h.fs.inode e
  inum : (h'.fs.inode c).inum = (h.fs.inode c).inum
  ref : (h'.fs.inode c).ref = (h.fs.inode c).ref
  busy : (h'.fs.inode c).busy = (h.fs.inode c).busy
  cons : Consistent h.fs.sb h'.fs.disk (dinode h.fs.sb h'.fs.disk)
  dinode : ∀ j < h.fs.sb.ninodes, j ≠ (h.fs.inode c).inum →
    dinode h.fs.sb h'.fs.disk j = dinode h.fs.sb h.fs.disk j
  last : ∀ j, j ≠ (h.fs.inode c).inum → h'.last j = h.last j
  self : h'.last (h.fs.inode c).inum = Fs.dinode h.fs.sb h'.fs.disk (h.fs.inode c).inum

theorem inv_rewrites (h : y.Inv) (hh : y.holder c = some (r, ph)) {h' : Hist} {ph' : Phase}
    (hw : Rewrites c y.toHist h')
    (hfits : Phase.Fits ph' (dinode y.fs.sb h'.fs.disk (y.fs.inode c).inum) (h'.fs.inode c)) :
    Inv { y with toHist := h', holder := Function.update y.holder c (some (r, ph')) } := by
  obtain ⟨hr, hbusy, -⟩ := (h.entry c).of_holder hh
  refine h.frame_used (h.pos_of_mem hr) hw.sb hw.cons hw.other (fun _ _ => rfl)
    (fun e he => Function.update_of_ne he _ _) hw.inum hw.dinode hw.last ?_ ?_ ?_
  · rw [disked, hw.inum, hw.sb]
    exact hw.self
  · exact hw.ref.trans (h.ref c)
  · refine entry_of_holder (Function.update_self _ _ _) hr (hw.busy.trans hbusy) ?_
    rw [disked, hw.inum, hw.sb]
    exact hfits

/-- `iupdate` of an entry with which the table of inodes is consistent. -/
theorem rewrites_iupdate {h : Hist} (hlt : (h.fs.inode c).inum < h.fs.sb.ninodes)
    (hcons : Consistent h.fs.sb h.fs.disk (h.fs.ino c)) :
    Rewrites c h ⟨h.fs.flush c, Function.update h.last (h.fs.inode c).inum (h.fs.inode c).din⟩ where
  sb := rfl
  other := fun _ _ => rfl
  inum := rfl
  ref := rfl
  busy := rfl
  cons := by
    rw [flush_dinode]
    exact flush_consistent hcons hlt
  dinode := by
    intro j _ hj
    rw [flush_dinode, h.fs.ino_of_ne c hj]
  last := fun j hj => Function.update_of_ne hj _ _
  self := by
    rw [flush_dinode, h.fs.ino_self]
    exact Function.update_self _ _ _

theorem step_iupdate (h : y.Inv) (hs : y.step (.iupdate c) = some y') : y'.Inv := by
  rw [step] at hs
  have hcase {ph ph' : Phase} (hgo : y.go c ph (Hist.iupdate c) ph' = some y')
      (hcons : ∀ r, y.holder c = some (r, ph) → Consistent y.fs.sb y.fs.disk (y.fs.ino c))
      (hfits : ∀ r, y.holder c = some (r, ph) →
        Phase.Fits ph' (y.fs.inode c).din (y.fs.inode c)) : y'.Inv := by
    obtain ⟨r, hh, hrun⟩ := go_elim hgo
    have hlt := h.lt c (h.pos_of_holder hh)
    have hspec : wpE (Hist.iupdate c) y.toHist (fun _ h' => Inv { y with
        toHist := h', holder := Function.update y.holder c (some (r, ph')) }) fun _ => True := by
      rw [wpE_histIupdate]
      refine inv_rewrites h hh (rewrites_iupdate hlt (hcons r hh)) ?_
      dsimp only
      rw [flush_dinode, y.fs.ino_self]
      exact hfits r hh
    obtain ⟨_, h', rfl, hinv⟩ := run_elim hrun hspec
    exact hinv
  rcases Option.or_eq_some_iff.mp hs with hgo | ⟨-, hgo⟩
  · refine hcase hgo (fun r hh => ?_) fun r hh => ?_
    · obtain ⟨-, -, -, -, htype, hsize, haddrs⟩ := (h.entry c).of_holder hh
      refine h.cons.table_same htype.symm hsize.symm fun k _ => ?_
      unfold Dinode.addr
      rw [← haddrs]
      rfl
    · obtain ⟨-, -, hvalid, htype, -⟩ := (h.entry c).of_holder hh
      exact ⟨hvalid, htype, rfl⟩
  · refine hcase hgo (fun r hh => ?_) fun _ _ => trivial
    obtain ⟨-, -, -, -, htype, -, haddr, -⟩ := (h.entry c).of_holder hh
    exact h.cons.table_free haddr htype

/-- **`writei`** leaves the inode in memory as it was last written. -/
theorem rewrites_writei {h : Hist} (hheld : Held h.fs c)
    (hcons : Consistent h.fs.sb h.fs.disk (dinode h.fs.sb h.fs.disk))
    (hsync : dinode h.fs.sb h.fs.disk (h.fs.inode c).inum = (h.fs.inode c).din)
    (hlast : h.last (h.fs.inode c).inum = (h.fs.inode c).din) (src : Nat → UInt8)
    (off n : UInt32) :
    wpE (Hist.writei c src off n) h (fun _ h' => Rewrites c h h' ∧
      (h'.fs.inode c).valid = (h.fs.inode c).valid ∧ (h'.fs.inode c).din.type ≠ 0 ∧
      dinode h.fs.sb h'.fs.disk (h.fs.inode c).inum = (h'.fs.inode c).din) fun _ => True := by
  have hnone : Rewrites c h h ∧ (h.fs.inode c).valid = (h.fs.inode c).valid ∧
      (h.fs.inode c).din.type ≠ 0 ∧
      dinode h.fs.sb h.fs.disk (h.fs.inode c).inum = (h.fs.inode c).din :=
    ⟨⟨rfl, fun _ _ => rfl, rfl, rfl, rfl, hcons, fun _ _ _ => rfl, fun _ _ => rfl,
      hlast.trans hsync.symm⟩, rfl, hheld.type_ne, hsync⟩
  simp only [Hist.writei, wpE_bind, wpE_onFs, wpE_get]
  split
  · cases (deviceNo (h.fs.inode c).din).bind h.fs.devsw.write with
    | none => exact wpE_pure.mpr hnone
    | some write => exact wpE_pure.mpr hnone
  · simp only [add_lt_left_iff]
    simp only [UInt32.lt_iff_toNat_lt]
    split
    · exact wpE_pure.mpr hnone
    · next hok =>
      rw [not_or, Nat.not_lt, Nat.not_le] at hok
      rw [toNat_add_of_lt hok.2]
      split
      · exact wpE_pure.mpr hnone
      · next hmax =>
        simp only [wpE_bind, wpE_onFs]
        have hneed : Needs h.fs c (slotsBelow (h.fs.inode c).inum
          ((off.toNat + n.toNat + BSIZE - 1) / BSIZE)) off.toNat n.toNat := needs_slotsBelow le_rfl
        refine (writeLoop_spec hheld le_rfl (by omega) hneed).mono ?_ fun _ _ => trivial
        intro _ s₁ h₁
        have hwritten {need : Finset (Nat × Slot)} {s' : State} {last' : Nat → Dinode}
            (hw : Written c need src off.toNat n.toNat h.fs s')
            (hother : ∀ j, j ≠ (h.fs.inode c).inum → last' j = h.last j)
            (hself : last' (h.fs.inode c).inum = (s'.inode c).din) :
            Rewrites c h ⟨s', last'⟩ ∧ (s'.inode c).valid = (h.fs.inode c).valid ∧
              (s'.inode c).din.type ≠ 0 ∧
              dinode h.fs.sb s'.disk (h.fs.inode c).inum = (s'.inode c).din := by
          have hsync' : dinode s'.sb s'.disk (s'.inode c).inum = (s'.inode c).din := by
            rw [hw.sb, hw.inum]
            exact hw.synced
          obtain ⟨a, ha⟩ := hw.self
          refine ⟨⟨hw.sb, hw.other, hw.inum, by rw [ha], by rw [ha], ?_, hw.dinode, hother,
            hself.trans hw.synced.symm⟩, by rw [ha], hw.held.type_ne, hw.synced⟩
          dsimp only
          rw [← hw.sb, ← ino_eq_dinode hsync']
          exact hw.held.cons
        have hadd := toNat_add_of_lt hok.2
        simp only [Hist.growTo, wpE_bind, wpE_onFs, wpE_get, UInt32.lt_iff_toNat_lt,
          h₁.grown.size, hadd]
        split
        · next hgrow =>
          simp only [wpE_bind, wpE_onFs, wpE_setDin, wpE_histIupdate]
          have hw := h₁.written_grow hheld hok.1 hgrow.2 hok.2
          rw [← hadd, UInt32.ofNat_toNat] at hw
          have hinum : ((s₁.resize c (off + n)).inode c).inum = (h.fs.inode c).inum := by
            rw [resize_inode_self]
            exact h₁.grown.inum
          refine wpE_pure.mpr (hwritten hw (fun j hj => ?_) ?_)
          · exact Function.update_of_ne (by rw [← hinum] at hj; exact hj) _ _
          · rw [← hinum]
            exact Function.update_self _ _ _
        · next hgrow =>
          have hle : off.toNat + n.toNat ≤ (h.fs.inode c).din.size.toNat := by
            have hzero : (0 : UInt32).toNat = 0 := rfl
            omega
          simp only [wpE_pure]
          refine hwritten (h₁.written_same hsync hheld.inum_lt hle) (fun _ _ => rfl) ?_
          rw [h₁.same hle]
          exact hlast

theorem step_writei (h : y.Inv) {src : Nat → UInt8} {off n : UInt32}
    (hs : y.step (.writei c src off n) = some y') : y'.Inv := by
  obtain ⟨r, hh, hrun⟩ := go_elim hs
  obtain ⟨hr, hbusy, hvalid, htype, hd⟩ := (h.entry c).of_holder hh
  have hlt := h.lt c (h.pos_of_mem hr)
  have hheld : Held y.fs c := ⟨by rw [ino_eq_dinode hd]; exact h.cons, hlt, htype⟩
  have hspec : wpE (Hist.writei c src off n) y.toHist (fun _ h' => Inv { y with
      toHist := h', holder := Function.update y.holder c (some (r, .locked)) }) fun _ => True := by
    refine (rewrites_writei hheld h.cons hd ((h.last _ hlt).trans hd) src off n).mono ?_
      fun _ _ => trivial
    rintro _ h' ⟨hw, hvalid', htype', hd'⟩
    exact inv_rewrites h hh hw ⟨hvalid'.trans hvalid, htype', hd'⟩
  obtain ⟨_, h', rfl, hinv⟩ := run_elim hrun hspec
  exact hinv

/-- What `itrunc` leaves: an inode without blocks, written. -/
structure Truncates (c : Ip) (h h' : Hist) : Prop where
  rewrites : Rewrites c h h'
  valid : (h'.fs.inode c).valid = (h.fs.inode c).valid
  type : (h'.fs.inode c).din.type = (h.fs.inode c).din.type
  synced : dinode h.fs.sb h'.fs.disk (h.fs.inode c).inum = (h'.fs.inode c).din
  size : (h'.fs.inode c).din.size = 0
  addr : ∀ k ≤ NDIRECT, (h'.fs.inode c).din.addr k = 0

theorem itrunc_truncates {h : Hist} (hheld : Held h.fs c) {E : Panic → Prop} :
    wpE (Hist.itrunc c) h (fun _ h' => Truncates c h h') E := by
  rw [Hist.itrunc, wpE_bind, wpE_onFs]
  refine (truncBlocks hheld).mono ?_ fun _ he => he
  rintro _ s₁ ⟨hf, haddr⟩
  rw [wpE_bind, wpE_onFs, wpE_setDin, wpE_histIupdate]
  change Truncates c h ⟨(s₁.resize c 0).flush c, Function.update h.last
    ((s₁.resize c 0).inode c).inum ((s₁.resize c 0).inode c).din⟩
  have hself : (s₁.resize c 0).inode c =
      { s₁.inode c with din := { (s₁.inode c).din with size := 0 } } := resize_inode_self s₁ c 0
  have hinum : ((s₁.resize c 0).inode c).inum = (h.fs.inode c).inum := by
    rw [hself]
    exact hf.inum
  have hsb : (s₁.resize c 0).sb = h.fs.sb := hf.sb
  have hdin : dinode h.fs.sb ((s₁.resize c 0).flush c).disk = (s₁.resize c 0).ino c := by
    rw [← hsb]
    exact flush_dinode _ c
  have hother (j : Nat) (hj : j < h.fs.sb.ninodes) (hne : j ≠ (h.fs.inode c).inum) :
      (s₁.resize c 0).ino c j = dinode h.fs.sb h.fs.disk j := by
    rw [resize_ino, if_neg (by rw [hf.inum]; exact hne),
      s₁.ino_of_ne c (by rw [hf.inum]; exact hne), hf.sb, hf.dinode hheld hj]
  have hown : (s₁.resize c 0).ino c (h.fs.inode c).inum = ((s₁.resize c 0).inode c).din := by
    rw [← hinum, State.ino_self]
  have hcons : Consistent h.fs.sb s₁.disk ((s₁.resize c 0).ino c) := by
    refine hf.consistent hheld (fun j hj hne => ?_) ?_ ?_
    · rw [hother j hj hne, h.fs.ino_of_ne c hne]
    · rw [hown, hself]
      exact haddr
    · rw [hown, hself]
  obtain ⟨a, ha⟩ := hf.self
  constructor
  case rewrites =>
    exact
      { sb := hsb
        other := fun e he => (Function.update_of_ne he _ _).trans (hf.other e he)
        inum := hinum
        ref := by rw [flush_inode, hself, ha]
        busy := by rw [flush_inode, hself, ha]
        cons := by
          rw [hdin, State.flush, State.write_disk, hsb, hinum]
          exact hcons.write_iblock hheld.inum_lt _
        dinode := fun j hj hne => by rw [hdin, hother j hj hne]
        last := fun j hj => Function.update_of_ne (by rw [hinum]; exact hj) _ _
        self := by
          rw [hdin, hown, ← hinum]
          exact Function.update_self _ _ _ }
  case valid => rw [flush_inode, hself, ha]
  case type => rw [flush_inode, hself, ha]
  case synced => rw [hdin, flush_inode, hown]
  case size => rw [flush_inode, hself]
  case addr =>
    rw [flush_inode, hself]
    exact haddr

theorem step_itrunc (h : y.Inv) (hs : y.step (.itrunc c) = some y') : y'.Inv := by
  obtain ⟨r, hh, hrun⟩ := go_elim hs
  obtain ⟨hr, hbusy, hvalid, htype, hd⟩ := (h.entry c).of_holder hh
  have hheld : Held y.fs c :=
    ⟨by rw [ino_eq_dinode hd]; exact h.cons, h.lt c (h.pos_of_mem hr), htype⟩
  have hspec : wpE (Hist.itrunc c) y.toHist (fun _ h' => Inv { y with
      toHist := h', holder := Function.update y.holder c (some (r, .truncated)) })
      fun _ => True := by
    refine (itrunc_truncates hheld).mono ?_ fun _ he => he
    intro _ h' ht
    refine inv_rewrites h hh ht.rewrites
      ⟨ht.valid.trans hvalid, by rw [ht.type]; exact htype, ht.synced, ?_, ?_⟩
    · rw [ht.synced]
      exact ht.size
    · rw [ht.synced]
      exact ht.addr
  obtain ⟨_, h', rfl, hinv⟩ := run_elim hrun hspec
  exact hinv

/-- A free inode is in no entry that was read. -/
theorem Phase.Fits.fresh {d d' : Dinode} {ip : Inode} (h : Phase.Fits ph d ip) (hd : d.type = 0) :
    Phase.Fits ph d' ip := by
  cases ph with
  | loading => exact fun hv => absurd hd ((h hv).2 ▸ (h hv).1)
  | locked => exact absurd hd (h.2.2 ▸ h.2.1)
  | changed => exact absurd hd (h.2.2.1 ▸ h.2.1)
  | freeing => exact absurd hd (h.2.2 ▸ h.2.1)
  | truncated => exact absurd hd (h.2.2.1 ▸ h.2.1)
  | cleared => exact absurd hd h.2.1
  | freed => trivial

theorem step_iallocAt (h : y.Inv) {type : Int16} {inum : Nat}
    (hs : y.step (.iallocAt type inum) = some y') : y'.Inv := by
  rw [step] at hs
  split at hs
  · next hlt =>
    have hspec : wpE (Hist.iallocAt type inum) y.toHist (fun _ h' => Inv { y with toHist := h' })
        fun _ => True := by
      rw [Hist.iallocAt, wpE_bind, wpE_onFs]
      simp only [Fs.iallocAt, wpE_bind, wpE_get, wpE_bread]
      split
      · next hfree =>
        simp only [wpE_bind, wpE_logWrite, wpE_pure, if_true, wpE_modify]
        generalize hdisk : putDinode (y.fs.disk (IBLOCK inum y.fs.sb)) (inum % IPB)
          (Dinode.fresh type) = data
        have htable : dinode y.fs.sb (Function.update y.fs.disk (IBLOCK inum y.fs.sb) data) =
            Function.update (dinode y.fs.sb y.fs.disk) inum (Dinode.fresh type) := by
          funext j
          rw [← hdisk, dinode_putDinode, Function.update_apply]
        have hdisked (c : Ip) : disked ⟨⟨y.fs.write (IBLOCK inum y.fs.sb) data,
            Function.update y.last inum (Dinode.fresh type)⟩, y.refs, y.holder⟩ c =
            if (y.fs.inode c).inum = inum then Dinode.fresh type else y.disked c := by
          unfold disked
          dsimp only [State.write_sb, State.write_disk, State.write_inode]
          rw [htable, Function.update_apply]
        have hfits (c : Ip) (ph : Phase)
            (hold : Phase.Fits ph (y.disked c) (y.fs.inode c)) :
            Phase.Fits ph (disked ⟨⟨y.fs.write (IBLOCK inum y.fs.sb) data,
              Function.update y.last inum (Dinode.fresh type)⟩, y.refs, y.holder⟩ c)
              (y.fs.inode c) := by
          rw [hdisked]
          split
          · next hc => exact hold.fresh (by rw [disked, hc]; exact hfree)
          · exact hold
        refine ⟨?_, fun i hi => ?_, h.ref, h.lt, h.uniq, fun c => ?_⟩
        · dsimp only [State.write_sb, State.write_disk]
          rw [htable]
          refine (h.cons.write_iblock hlt data).table_fresh hfree (fun k _ => ?_) rfl
          unfold Dinode.addr Dinode.fresh
          split <;> rfl
        · dsimp only [State.write_sb, State.write_disk]
          rw [htable, Function.update_apply, Function.update_apply]
          split
          · rfl
          · exact h.last i hi
        · cases hh : y.holder c with
          | none =>
              refine entry_of_idle hh fun href => ?_
              obtain ⟨hbusy, hold⟩ := (h.entry c).of_idle hh href
              exact ⟨hbusy, hfits c .loading hold⟩
          | some p =>
              obtain ⟨hr, hbusy, hold⟩ := (h.entry c).of_holder hh
              exact entry_of_holder hh hr hbusy (hfits c p.2 hold)
      · simp only [wpE_pure, Bool.false_eq_true, if_false]
        exact h
    obtain ⟨_, h', rfl, hinv⟩ := run_elim hs hspec
    exact hinv
  · exact absurd hs (by simp)

/-- **Step lemma.** -/
theorem step_inv {act : Act} (h : y.Inv) (hs : y.step act = some y') : y'.Inv := by
  cases act with
  | iget r inum => exact step_iget h hs
  | idup r c => exact step_idup h hs
  | acquire r c => exact step_acquire h hs
  | load c => exact (step_load h hs).1
  | change c major minor nlink uid gid mode => exact step_change h hs
  | iupdate c => exact step_iupdate h hs
  | writei c src off n => exact step_writei h hs
  | iunlock c => exact step_iunlock h hs
  | iput r c => exact step_iput h hs
  | itrunc c => exact step_itrunc h hs
  | clear c => exact step_clear h hs
  | finish c => exact step_finish h hs
  | iallocAt type inum => exact step_iallocAt h hs

/-! ## runs -/

/-- Where `ilock` returns, every field of the entry is as it was last written. -/
def Reloads (_ : Icache) (act : Act) (y' : Icache) : Prop :=
  ∀ c, act = .load c → (y'.fs.inode c).din = y'.last (y'.fs.inode c).inum

theorem step_reloads {act : Act} (h : y.Inv) (hs : y.step act = some y') : Reloads y act y' := by
  rintro c rfl
  obtain ⟨hinv, r, hh⟩ := step_load h hs
  obtain ⟨hr, -, -, -, hd⟩ := (hinv.entry c).of_holder hh
  rw [hinv.last _ (hinv.lt c (hinv.pos_of_mem hr))]
  exact hd.symm

theorem mounted_inv {s : State} (hcons : Consistent s.sb s.disk (dinode s.sb s.disk))
    (hunused : ∀ c, (s.inode c).ref = 0) : (mounted s).Inv where
  cons := hcons
  last := fun _ _ => rfl
  ref := hunused
  lt := fun c hc => absurd (hunused c) hc.ne'
  uniq := fun c _ hc => absurd (hunused c) hc.ne'
  entry := fun c => entry_of_idle rfl fun hc => absurd (hunused c) hc.ne'

/-- The 128 bytes of one inode change, to what is in the entry, and nothing else does. -/
structure SlotOnly (c : Ip) (s s' : State) : Prop where
  blocks : ∀ b, b ≠ IBLOCK (s.inode c).inum s.sb → s'.disk b = s.disk b
  bytes : ∀ k, k < 128 * ((s.inode c).inum % IPB) ∨ 128 * ((s.inode c).inum % IPB) + 128 ≤ k →
    Words.get (s'.disk (IBLOCK (s.inode c).inum s.sb)) k =
      Words.get (s.disk (IBLOCK (s.inode c).inum s.sb)) k
  stored : dinode s.sb s'.disk (s.inode c).inum = (s.inode c).din
  others : ∀ i, i ≠ (s.inode c).inum → dinode s.sb s'.disk i = dinode s.sb s.disk i

theorem iupdate_slotOnly (s : State) (c : Ip) : wp (Fs.iupdate c) s fun _ s' => SlotOnly c s s' := by
  refine wpE.returns (E := fun _ => False) ((iupdate_spec s c).mono ?_ fun _ he => he) fun _ he => he
  rintro _ _ rfl
  refine ⟨fun b hb => Function.update_of_ne hb _ _, fun k hk => ?_, ?_, fun i hi => ?_⟩
  · rw [State.write_disk, Function.update_self]
    exact get_putDinode_of_outside _ _ hk
  · rw [State.write_disk, dinode_putDinode, if_pos rfl]
  · rw [State.write_disk, dinode_putDinode, if_neg hi]

/-- **Inode cache coherence**: from a consistent image on, under any interleaving of the
sections of `iget`, `idup`, `ilock`, changes of fields with their `iupdate`, `writei`,
`iunlock`, `iput` and `ialloc`, whenever `ilock` returns, the entry has what was last
written for its inode number; and `iupdate` changes the 128 bytes of its inode only. -/
theorem icache_reloads {s : State} (hblocks : BlockConsistent s) (hdata : DataSlots s)
    (hmounted : Mounted s) (hunused : ∀ c, (s.inode c).ref = 0) (acts : List Act) :
    Each step Reloads (mounted s) acts ∧
      ∀ t c, wp (Fs.iupdate c) t fun _ t' => SlotOnly c t t' := by
  have hcoherent : Coherent s :=
    ⟨fun c _ hc => absurd (hunused c) hc.ne', fun c hc => absurd (hunused c) hc.ne',
      fun c hc => absurd (hunused c) hc.ne', fun c hc => absurd (hunused c) hc.ne'⟩
  have hsound : Sound s := sound_iff.mpr ⟨hblocks, hdata, hmounted, hcoherent⟩
  refine ⟨?_, iupdate_slotOnly⟩
  have hstep : ∀ y act y', Inv y → step y act = some y' → Reloads y act y' ∧ Inv y' :=
    fun _ _ _ h hs => ⟨step_reloads h hs, step_inv h hs⟩
  exact each_of_step hstep (mounted_inv hsound.cons hunused)

/-- The disk and the entries between two sections of the code. -/
structure InOrder (y : Icache) : Prop where
  /-- no block is lost or used twice -/
  cons : Consistent y.fs.sb y.fs.disk (dinode y.fs.sb y.fs.disk)
  ref : ∀ c, (y.fs.inode c).ref = (y.refs c).length
  /-- who has set `I_BUSY` has a reference -/
  holder : ∀ c r ph, y.holder c = some (r, ph) → r ∈ y.refs c ∧ (y.fs.inode c).busy = true
  /-- an inode is in one entry -/
  uniq : ∀ c e, 0 < (y.fs.inode c).ref → 0 < (y.fs.inode e).ref →
    (y.fs.inode c).inum = (y.fs.inode e).inum → c = e

/-- **Blocks and references are kept** under any interleaving of these sections. -/
theorem icache_in_order {s : State} (hcons : Consistent s.sb s.disk (dinode s.sb s.disk))
    (hunused : ∀ c, (s.inode c).ref = 0) (acts : List Act) :
    Along step InOrder (mounted s) acts := by
  refine along_of_step (fun _ _ _ => step_inv) (fun y h => ?_) (mounted_inv hcons hunused)
  refine ⟨h.cons, h.ref, fun c r ph hh => ?_, h.uniq⟩
  obtain ⟨hr, hbusy, -⟩ := (h.entry c).of_holder hh
  exact ⟨hr, hbusy⟩

/-- The small disk, before any entry of the cache is in use. -/
def fresh : State := { small with inode := fun _ => ⟨0, 0, false, false, emptyFile⟩ }

/-- A file loses its name while another process waits for it, and is written and freed
later; then its inode is used again. -/
def someActs : List Act :=
  [.iget 0 1, .acquire 0 first, .iget 1 1, .load first, .change first 0 0 0 0 0 7, .iupdate first,
    .iunlock first, .acquire 1 first, .iput 0 first, .load first, .writei first (fun _ => 7) 0 3,
    .iunlock first, .iput 1 first, .itrunc first, .clear first, .iupdate first,
    .iallocAt 2 1, .finish first, .iget 2 1, .acquire 2 first, .load first]

theorem icache_reloads_fresh : BlockConsistent fresh ∧ DataSlots fresh ∧ Mounted fresh ∧
    (∀ c, (fresh.inode c).ref = 0) ∧ (exec step (mounted fresh) someActs).isSome = true ∧
    Each step Reloads (mounted fresh) someActs := by
  have hcoherent : Coherent fresh := by
    constructor
    · decide
    · decide
    · decide
    · exact fun c hc => absurd hc (Nat.lt_irrefl 0)
  have hsound : Sound fresh := ⟨small_sound.cons, hcoherent⟩
  obtain ⟨hblocks, hdata, hmounted, -⟩ := sound_iff.mp hsound
  exact ⟨hblocks, hdata, hmounted, fun _ => rfl, by decide +kernel,
    (icache_reloads hblocks hdata hmounted (fun _ => rfl) someActs).1⟩

theorem icache_in_order_fresh : Along step InOrder (mounted fresh) someActs :=
  icache_in_order (s := fresh) small_sound.cons (fun _ => rfl) someActs

end Icache

end Xv6.Fs
