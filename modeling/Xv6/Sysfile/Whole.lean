import Xv6.Sysfile.Budget

/-!
# Xv6.Sysfile.Whole

What one call of `filewrite` leaves behind.

`filewrite` cuts a request into sections of `writeMax` bytes, and a section is refused if
it would go beyond the largest file.  The sections before it stay written, and the caller
gets -1.  `filewrite_whole_iff` says for which requests a call is all or nothing.
-/

namespace Xv6.Sysfile

open Fs

/-! ## the code -/

/-- Why `filewrite` does not return. -/
inductive Stop
  /-- a panic of the file system -/
  | fs (e : Panic)
  /-- "short filewrite" -/
  | shortFilewrite
  /-- "filewrite" -/
  | filewrite
  /-- no panic: the rest of the call is `pipewrite` -/
  | pipewrite
  /-- more passes than there are bytes -/
  | passes
deriving DecidableEq

/-- The code of `filewrite`. -/
abbrev FileM (α : Type) := Prog Stop Fs.State α

/-- Code of the file system. -/
def ofFs {α : Type} (m : Fs.M α) : FileM α := fun s =>
  match m s with
  | .ok r => .ok r
  | .error e => .error (.fs e)

/-- What a pass does to the inode, between `begin_op` and `end_op`. -/
def writeSection (f : File) (addr : Nat → UInt8) (i n1 : Int32) : Fs.M Int32 := do
  ilock f.ip
  let r ← writei f.ip (fun j => addr (i.toInt.toNat + j)) f.off n1.toUInt32
  iunlock f.ip
  return r

/-- `f->off += r`, if `r` is positive. -/
def File.advance (f : File) (r : Int32) : File :=
  if 0 < r then { f with off := f.off + r.toUInt32 } else f

/-- The loop of `filewrite`: `i` and the file, after the last pass. -/
def filewriteLoop (addr : Nat → UInt8) (n : Int32) : Nat → Int32 → File → FileM (Int32 × File)
  | 0, _, _ => throw .passes
  | fuel + 1, i, f =>
      if i < n then do
        let r ← ofFs (writeSection f addr i (chunk i n))
        if r < 0 then return (i, f.advance r)
        else if r ≠ chunk i n then throw .shortFilewrite
        else filewriteLoop addr n fuel (i + r) (f.advance r)
      else return (i, f)

/-- `filewrite`, with the `struct file` afterwards. -/
def filewrite (f : File) (addr : Nat → UInt8) (n : Int32) : FileM (Int32 × File) :=
  if f.writable = false then return (-1, f)
  else
    match f.type with
    | .FD_PIPE => throw .pipewrite
    | .FD_INODE => do
        let (i, f) ← filewriteLoop addr n (n.toInt.toNat + 1) 0 f
        return (if i = n then n else -1, f)
    | .FD_NONE => throw .filewrite

/-! ## a pass -/

section Passes

variable {s : Fs.State} {f : File} {o : Origin} {addr : Nat → UInt8} {i n : Int32}

theorem wp_ofFs {α : Type} {m : Fs.M α} {Q : α → Fs.State → Prop} (h : wp m s Q) :
    wp (ofFs m) s Q := by
  obtain ⟨a, s', hm, hq⟩ := h
  exact ⟨a, s', by rw [ofFs, hm], hq⟩

/-- A pass of the loop takes what is left, up to `writeMax`. -/
theorem toInt_chunk (hi : 0 ≤ i.toInt) (hin : i.toInt < n.toInt) :
    (chunk i n).toInt = min (n.toInt - i.toInt) 6656 := by
  have hmax : writeMax.toInt = 6656 := by decide
  have hsub : (n - i).toInt = n.toInt - i.toInt := by
    have := n.toInt_lt
    rw [Int32.toInt_sub, Int.bmod_eq_of_le (by omega) (by omega)]
  unfold chunk
  split
  · next h =>
    rw [Int32.lt_iff_toInt_lt, hmax, hsub] at h
    omega
  · next h =>
    rw [Int32.lt_iff_toInt_lt, hmax, hsub] at h
    omega

theorem overwrite_nil (l : List UInt8) (off : Nat) : File.overwrite l off [] = l := by
  simp [File.overwrite]

/-- `ilock` on a file that nobody has locked. -/
theorem ready_ilock {out : List UInt8} (h : Ready o out s) (hbusy : (s.inode o.ip).busy = false) :
    wp (ilock o.ip) s fun _ s' => Ready o out s' ∧ (s'.inode o.ip).valid = true ∧
      (s'.inode o.ip).busy = true := by
  have hfetched : s.fetched o.ip = dinode s.sb s.disk (s.inode o.ip).inum := by
    unfold State.fetched
    split
    · next hv => exact (h.sound.cache.copy o.ip h.ref hv).symm
    · rfl
  have htype : (s.fetched o.ip).type ≠ 0 := by
    rw [hfetched, h.inum, h.type]
    decide
  refine wp.mono ((ilock_cases s o.ip).returns fun e he => ?_) ?_
  · rcases he with ⟨-, href⟩ | ⟨-, hlocked⟩ | ⟨-, -, hnone⟩
    · exact absurd h.ref (by omega)
    · rw [hbusy] at hlocked
      exact absurd hlocked (by decide)
    · exact htype hnone
  · rintro _ _ ⟨-, -, -, rfl⟩
    have hself (ip : Inode) : (s.set o.ip ip).inode o.ip = ip := Function.update_self _ _ _
    refine ⟨h.of_disk (h.sound.set ?_ fun _ _ => ?_) rfl rfl (by rw [hself]) (by rw [hself]), ?_, ?_⟩
    · exact fun _ e hec he hi => hec (h.sound.cache.uniq e o.ip he h.ref hi)
    · exact ⟨h.inum ▸ h.lt, htype, hfetched.symm⟩
    · rw [hself]
    · rw [hself]

theorem ready_iunlock {out : List UInt8} (h : Ready o out s)
    (hlocked : (s.inode o.ip).busy = true) :
    wp (iunlock o.ip) s fun _ s' => Ready o out s' ∧ (s'.inode o.ip).busy = false := by
  refine ((iunlock_cases s o.ip).returns fun e he => ?_).mono ?_
  · rw [hlocked] at he
    rcases he with ⟨-, href | habs⟩
    · exact absurd h.ref (by omega)
    · cases habs
  · rintro _ _ ⟨-, -, rfl⟩
    refine ⟨h.set_busy false, ?_⟩
    rw [State.set_self]

/-- **A pass** is refused, or writes its bytes behind those of the passes before it. -/
theorem writeSection_spec {out : List UInt8} {n1 : Int32} (h : Ready o out s)
    (hip : f.ip = o.ip) (hbusy : (s.inode o.ip).busy = false)
    (hout : out = [] ∨ o.off ≤ o.old.length) (hoff : f.off.toNat = o.off + out.length)
    (hn1 : 0 ≤ n1.toInt) (hspare : 0 ≤ o.spare)
    (hhi : (min (o.off + out.length + n1.toInt.toNat) (MAXFILE * BSIZE) + BSIZE - 1) / BSIZE ≤ o.hi) :
    wp (writeSection f addr i n1) s fun r s' => (s'.inode o.ip).busy = false ∧
      ((o.off ≤ o.old.length ∧ o.off + out.length + n1.toInt.toNat ≤ MAXFILE * BSIZE ∧ r = n1 ∧
          Ready o (out ++ File.bytes (fun j => addr (i.toInt.toNat + j)) n1.toInt.toNat) s') ∨
        ((o.old.length < o.off ∨ MAXFILE * BSIZE < o.off + out.length + n1.toInt.toNat) ∧ r = -1 ∧
          Ready o out s')) := by
  have hmax : MAXFILE * BSIZE = 78336 := by decide
  unfold writeSection
  rw [hip]
  refine wp_bind_of (ready_ilock h hbusy) ?_
  rintro _ s₁ ⟨h₁, hv, hlocked⟩
  have hheld := h₁.sound.held h₁.ref hv
  have hdin := h₁.copy hv
  have hn : n1.toUInt32.toNat = n1.toInt.toNat := Shared.toNat_toUInt32 hn1
  have hsize : (s₁.inode o.ip).din.size.toNat = (File.overwrite o.old o.off out).length := by
    rw [hdin, ← length_content s₁.disk, h₁.content]
  have hrefused : WriteRefused (s₁.inode o.ip).din.size.toNat f.off n1.toUInt32 ↔
      o.old.length < o.off ∨ MAXFILE * BSIZE < o.off + out.length + n1.toInt.toNat := by
    unfold WriteRefused
    rw [hsize, hoff, hn]
    rcases hout with rfl | hle
    · rw [overwrite_nil]
      simp only [List.length_nil]
      omega
    · rw [File.length_overwrite _ hle]
      omega
  have hslack : s₁.slack o.ip (slotsBelow o.inum o.hi) = o.spare := by
    unfold State.slack State.ref
    rw [ino_eq_dinode (h₁.sound.cache.copy o.ip h₁.ref hv)]
    exact h₁.spare
  have hneed (hok : ¬ WriteRefused (s₁.inode o.ip).din.size.toNat f.off n1.toUInt32) :
      Needs s₁ o.ip (slotsBelow o.inum o.hi) f.off.toNat n1.toUInt32.toNat := by
    rw [hrefused] at hok
    rw [Nat.min_eq_left (by omega)] at hhi
    rw [← h₁.inum, hoff, hn]
    exact needs_slotsBelow hhi
  have hdev : (s₁.inode o.ip).din.type ≠ T_DEV := by
    rw [hdin, h₁.type]
    decide
  refine wp_bind_of ((writei_spec hheld (h₁.sound.cache.copy o.ip h₁.ref hv) hdev hneed).returns
    fun e he => ?_) ?_
  · rw [hslack] at he
    omega
  · rintro r s₂ (⟨hbad, rfl, rfl⟩ | ⟨hok, rfl, hw⟩)
    · refine wp_bind_of (ready_iunlock h₁ hlocked) ?_
      rintro _ s' ⟨h', hfree⟩
      exact wp_pure.mpr ⟨hfree, .inr ⟨hrefused.mp hbad, rfl, h'⟩⟩
    · rw [hrefused, not_or, Nat.not_lt, Nat.not_lt] at hok
      rw [hoff, hn] at hw
      have h₂ := h₁.written hv hok.1 (by omega) hw
      obtain ⟨d, hself⟩ := hw.self
      refine wp_bind_of (ready_iunlock h₂ (by rw [hself]; exact hlocked)) ?_
      rintro _ s' ⟨h', hfree⟩
      exact wp_pure.mpr ⟨hfree, .inl ⟨hok.1, hok.2, rfl, h'⟩⟩

end Passes

/-! ## the loop -/

/-- At the head of the loop: the passes so far have written the first `i` bytes of the
buffer at the old offset, and the offset is behind them. -/
structure AtHead (o : Origin) (f₀ : File) (addr : Nat → UInt8) (n i : Int32) (f : File)
    (s : Fs.State) : Prop where
  ready : Ready o (File.bytes addr i.toInt.toNat) s
  free : (s.inode o.ip).busy = false
  pos : 0 ≤ i.toInt
  le : i.toInt ≤ n.toInt
  file : f = { f₀ with off := f₀.off + i.toUInt32 }
  /-- the first pass was not refused, and neither was any other -/
  begun : i.toInt = 0 ∨ (o.off ≤ o.old.length ∧
    o.off + min n.toInt.toNat 6656 ≤ MAXFILE * BSIZE ∧ o.off + i.toInt.toNat ≤ MAXFILE * BSIZE)

/-- The next pass is refused. -/
def Refused (o : Origin) (n i : Int32) : Prop :=
  o.old.length < o.off ∨
    MAXFILE * BSIZE < o.off + i.toInt.toNat + min (n.toInt.toNat - i.toInt.toNat) 6656

section Loop

variable {s : Fs.State} {f f₀ : File} {o : Origin} {addr : Nat → UInt8} {i n : Int32}

theorem length_bytes (src : Nat → UInt8) (k : Nat) : (File.bytes src k).length = k := by
  simp [File.bytes]

theorem bytes_append (src : Nat → UInt8) (k l : Nat) :
    File.bytes src k ++ File.bytes (fun j => src (k + j)) l = File.bytes src (k + l) := by
  simp [File.bytes, List.range_add, Function.comp_def]

theorem AtHead.off (h : AtHead o f₀ addr n i f s) (hoff : f₀.off.toNat = o.off) :
    f.off.toNat = o.off + i.toInt.toNat := by
  have hpos := h.pos
  have hmax : MAXFILE * BSIZE = 78336 := by decide
  have hlt := f₀.off.toNat_lt
  have hbegun := h.begun
  rw [h.file]
  change (f₀.off + i.toUInt32).toNat = _
  rw [UInt32.toNat_add, Shared.toNat_toUInt32 hpos, hoff, Nat.mod_eq_of_lt (by omega)]

/-- **The loop** ends behind the last byte, or at the first pass that is refused. -/
theorem filewriteLoop_spec (hip : f₀.ip = o.ip) (hoff : f₀.off.toNat = o.off)
    (hspare : 0 ≤ o.spare)
    (hhi : (min (o.off + n.toInt.toNat) (MAXFILE * BSIZE) + BSIZE - 1) / BSIZE ≤ o.hi)
    (fuel : Nat) : ∀ (i : Int32) (f : File) (s : Fs.State), AtHead o f₀ addr n i f s →
      n.toInt.toNat < i.toInt.toNat + fuel →
      wp (filewriteLoop addr n fuel i f) s fun x s' => AtHead o f₀ addr n x.1 x.2 s' ∧
        (x.1 ≠ n → Refused o n x.1) := by
  have hmax : MAXFILE * BSIZE = 78336 := by decide
  induction fuel with
  | zero =>
      intro i f s h hfuel
      have := h.le
      omega
  | succ fuel ih =>
      intro i f s h hfuel
      have hpos := h.pos
      rw [filewriteLoop]
      split
      · next hlt =>
        rw [Int32.lt_iff_toInt_lt] at hlt
        have hchunk := toInt_chunk hpos hlt
        have hn1 : 0 < (chunk i n).toInt := by omega
        refine wp_bind_of (wp_ofFs (writeSection_spec h.ready (by rw [h.file]; exact hip) h.free
          ?_ ?_ hn1.le hspare ?_)) ?_
        · rcases h.begun with h0 | hb
          · left
            simp [h0, File.bytes]
          · exact .inr hb.1
        · rw [length_bytes]
          exact h.off hoff
        · refine le_trans (Nat.div_le_div_right ?_) hhi
          rw [length_bytes]
          omega
        · rw [length_bytes]
          rintro r s' ⟨hfree, ⟨hle, hfits, rfl, hready⟩ | ⟨hbad, rfl, hready⟩⟩
          · have hadd : (i + chunk i n).toInt = i.toInt + (chunk i n).toInt := by
              have := n.toInt_lt
              rw [Int32.toInt_add, Int.bmod_eq_of_le (by omega) (by omega)]
            rw [if_neg (by rw [Int32.lt_iff_toInt_lt, Int32.toInt_zero]; omega), if_neg (by simp)]
            refine ih _ _ _ ⟨?_, hfree, by omega, by omega, ?_, .inr ⟨hle, ?_, by omega⟩⟩ (by omega)
            · rw [bytes_append] at hready
              rw [hadd, Int.toNat_add hpos hn1.le]
              exact hready
            · rw [File.advance, if_pos (by rw [Int32.lt_iff_toInt_lt, Int32.toInt_zero]; exact hn1),
                h.file]
              simp only [Int32.toUInt32_add, UInt32.add_assoc]
            · -- the first pass was as large as any other
              rcases h.begun with h0 | hb
              · omega
              · exact hb.2.1
          · have hadvance : f.advance (-1) = f := if_neg (by decide)
            rw [if_pos (by decide), hadvance]
            refine wp_pure.mpr ⟨{ h with ready := hready, free := hfree }, fun _ => ?_⟩
            exact hbad.imp_right fun hb => by dsimp only; omega
      · next hge =>
        rw [Int32.lt_iff_toInt_lt] at hge
        have hle := h.le
        have hend : i = n := Int32.toInt_inj.mp (by omega)
        exact wp_pure.mpr ⟨h, fun hne => absurd hend hne⟩

end Loop

/-! ## a call -/

/-- A call with the result `x` has written the whole buffer at the old offset, or nothing. -/
def AllOrNothing (s : Fs.State) (f : File) (addr : Nat → UInt8) (n : Int32) (x : Int32 × File)
    (s' : Fs.State) : Prop :=
  (x = (n, { f with off := f.off + n.toUInt32 }) ∧
    contents s' f = File.overwrite (contents s f) f.off.toNat (File.bytes addr n.toInt.toNat)) ∨
  (x = (-1, f) ∧ contents s' f = contents s f)

/-- The first pass is not refused, and a later one is: the file would get too large, at an
offset that is not within `writeMax` of the largest size. -/
def Splits (s : Fs.State) (f : File) (n : Int32) : Prop :=
  f.off.toNat ≤ (contents s f).length ∧ f.off.toNat + writeMax.toInt.toNat ≤ MAXFILE * BSIZE ∧
    MAXFILE * BSIZE < f.off.toNat + n.toInt.toNat

section Calls

variable {s : Fs.State} {f : File} {addr : Nat → UInt8} {n : Int32}

/-- An open, writable file that nobody has locked, and the blocks for the call. -/
structure Writable (s : Fs.State) (f : File) (n : Int32) : Prop where
  sound : Sound s
  type : f.type = .FD_INODE
  writable : f.writable = true
  ref : 0 < (s.inode f.ip).ref
  free : (s.inode f.ip).busy = false
  lt : (s.inode f.ip).inum < s.sb.ninodes
  file : (dinode s.sb s.disk (s.inode f.ip).inum).type = T_FILE
  blocks : lacking (slotsBelow (s.inode f.ip).inum
      ((min (f.off.toNat + n.toInt.toNat) (MAXFILE * BSIZE) + BSIZE - 1) / BSIZE))
    (Fs.ref s.sb s.disk (dinode s.sb s.disk)) ≤
      idle (Finset.range s.sb.size) (Fs.busy s.sb s.disk)

/-- Where a call starts from. -/
def origin (s : Fs.State) (f : File) (n : Int32) : Origin :=
  let hi := (min (f.off.toNat + n.toInt.toNat) (MAXFILE * BSIZE) + BSIZE - 1) / BSIZE
  ⟨f.ip, (s.inode f.ip).inum, contents s f, f.off.toNat, hi,
    slack (Finset.range s.sb.size) (Fs.busy s.sb s.disk) (slotsBelow (s.inode f.ip).inum hi)
      (Fs.ref s.sb s.disk (dinode s.sb s.disk))⟩

@[simp] theorem origin_off : (origin s f n).off = f.off.toNat := rfl

@[simp] theorem origin_old : (origin s f n).old = contents s f := rfl

/-- **What a call leaves**: the first `i` bytes are written, and the call has stopped there
at the end, or because the next pass is refused. -/
theorem filewrite_spec (h : Writable s f n) (hn : 0 ≤ n.toInt) :
    wp (filewrite f addr n) s fun x s' => ∃ i : Int32, x.1 = (if i = n then n else -1) ∧
      AtHead (origin s f n) f addr n i x.2 s' ∧ (i ≠ n → Refused (origin s f n) n i) := by
  have hspare : 0 ≤ (origin s f n).spare := by
    have := h.blocks
    change 0 ≤ slack _ _ _ _
    unfold slack
    omega
  have hready : Ready (origin s f n) [] s :=
    ⟨h.sound, h.ref, rfl, h.lt, h.file, (overwrite_nil _ _).symm, rfl⟩
  have hstart : AtHead (origin s f n) f addr n 0 f s :=
    ⟨hready, h.free, by decide, hn, (congrArg (File.mk _ _ _ _ _ _) (UInt32.add_zero _)).symm,
      .inl (by decide)⟩
  rw [filewrite, if_neg (by simp [h.writable]), h.type]
  refine wp_bind_of (filewriteLoop_spec rfl rfl hspare le_rfl _ 0 f s hstart (by simp)) ?_
  rintro ⟨i, f'⟩ s' ⟨hhead, hstop⟩
  exact wp_pure.mpr ⟨i, rfl, hhead, hstop⟩

theorem AtHead.contents {i : Int32} {f' : File} {s' : Fs.State}
    (h : AtHead (origin s f n) f addr n i f' s') :
    contents s' f = File.overwrite (contents s f) f.off.toNat (File.bytes addr i.toInt.toNat) := by
  have hinum : (s'.inode f.ip).inum = (s.inode f.ip).inum := h.ready.inum
  rw [Sysfile.contents, hinum]
  exact h.ready.content

/-- A call that splits has written some of its passes, and returns -1. -/
theorem filewrite_splits (h : Writable s f n) (hn : 0 ≤ n.toInt) (hsplit : Splits s f n) :
    wp (filewrite f addr n) s fun x _ => x.1 = -1 ∧ x.2.off ≠ f.off := by
  have hmax : MAXFILE * BSIZE = 78336 := by decide
  have hwmax : writeMax.toInt.toNat = 6656 := by decide
  obtain ⟨hoff, hfirst, hlast⟩ := hsplit
  refine (filewrite_spec h hn).mono ?_
  rintro ⟨r, f'⟩ s' ⟨i, rfl, hhead, hstop⟩
  have hpos := hhead.pos
  have hbegun := hhead.begun
  have hend := hhead.off rfl
  simp only [Refused, origin_off, origin_old] at hbegun hstop hend
  have hne : i ≠ n := by
    rintro rfl
    omega
  refine ⟨if_neg hne, fun hsame => ?_⟩
  rw [hsame] at hend
  have hrefused := hstop hne
  omega

theorem filewrite_not_whole (h : Writable s f n) (hn : 0 ≤ n.toInt) (hsplit : Splits s f n) :
    ¬ wp (filewrite f addr n) s (AllOrNothing s f addr n) := by
  intro hall
  obtain ⟨x, s', hx, hr, hmoved⟩ := hall.det (filewrite_splits h hn hsplit)
  rcases hx with ⟨rfl, -⟩ | ⟨rfl, -⟩
  · rw [show n = -1 from hr] at hn
    exact absurd hn (by decide)
  · exact hmoved rfl

/-- **`filewrite` is all or nothing** exactly if the request does not split. -/
theorem filewrite_whole_iff (h : Writable s f n) (hn : 0 ≤ n) :
    wp (filewrite f addr n) s (AllOrNothing s f addr n) ↔ ¬ Splits s f n := by
  have hmax : MAXFILE * BSIZE = 78336 := by decide
  have hwmax : writeMax.toInt.toNat = 6656 := by decide
  rw [Int32.le_iff_toInt_le, Int32.toInt_zero] at hn
  constructor
  · exact fun hall hsplit => filewrite_not_whole h hn hsplit hall
  · intro hwhole
    refine (filewrite_spec h hn).mono ?_
    rintro ⟨r, f'⟩ s' ⟨i, rfl, hhead, hstop⟩
    by_cases hend : i = n
    · subst hend
      exact .inl ⟨by rw [if_pos rfl, ← hhead.file], hhead.contents⟩
    · -- a later pass would have split the call
      have hzero : i.toInt = 0 := by
        have hpos := hhead.pos
        have hle := hhead.le
        have hbegun := hhead.begun
        have hrefused := hstop hend
        simp only [Refused, origin_off, origin_old] at hbegun hrefused
        unfold Splits at hwhole
        omega
      obtain rfl : i = 0 := Int32.toInt_inj.mp hzero
      refine .inr ⟨?_, ?_⟩
      · have hfile : f' = { f with off := f.off + (0 : Int32).toUInt32 } := hhead.file
        rw [if_neg hend, hfile, show (0 : Int32).toUInt32 = 0 from rfl, UInt32.add_zero]
      · rw [hhead.contents]
        exact overwrite_nil _ _

end Calls

/-! ### on a vast disk -/

/-- A disk like the roomy one, with blocks for the largest file. -/
def vast : Fs.State where
  sb := ⟨200, 195, 4, 1, 2, 3, 4⟩
  disk := Function.update roomyDisk 1 (Words.store (fun _ => 0) 0
    (Words.image fun k => [200, 195, 4, 1, 2, 3, 4].getD k 0) 28)
  inode := roomy.inode
  devsw := roomy.devsw

theorem vast_file : dinode vast.sb vast.disk 1 = emptyFile :=
  getDinode_putDinode _ (by decide) _

theorem vast_sound : Sound vast :=
  .of_empty_file ⟨by decide, by decide, by decide, by decide, by decide +kernel⟩ (by decide +kernel)
    (by decide +kernel) (by decide +kernel) vast_file (by decide) (by decide) fun _ => ⟨rfl, rfl⟩

theorem vast_writable {n : Int32} : Writable vast openFile n where
  sound := vast_sound
  type := rfl
  writable := rfl
  ref := by decide
  free := rfl
  lt := by decide
  file := congrArg Dinode.type vast_file
  blocks := by
    set hi := (min ((openFile.off).toNat + n.toInt.toNat) (MAXFILE * BSIZE) + BSIZE - 1) / BSIZE
      with hhi
    have hle : hi ≤ 153 := by
      have hmax : MAXFILE * BSIZE = 78336 := by decide
      have hsize : BSIZE = 512 := rfl
      rw [hmax, hsize] at hhi
      omega
    have hslots : (slotsBelow 1 hi).card ≤ hi + 1 := by
      refine (Finset.card_union_le _ _).trans (Nat.add_le_add ?_ ?_)
      · exact Finset.card_image_le.trans (by simp)
      · split <;> simp
    have hidle : idle (Finset.range vast.sb.size) (Fs.busy vast.sb vast.disk) = 195 := by
      decide +kernel
    calc lacking (slotsBelow 1 hi) (Fs.ref vast.sb vast.disk (dinode vast.sb vast.disk))
        ≤ (slotsBelow 1 hi).card := Finset.card_filter_le _ _
      _ ≤ idle (Finset.range vast.sb.size) (Fs.busy vast.sb vast.disk) := by omega

/-- A write of one block to an empty file. -/
theorem filewrite_whole_one_block : Writable vast openFile 512 ∧
    wp (filewrite openFile (fun _ => 7) 512) vast (AllOrNothing vast openFile (fun _ => 7) 512) :=
  ⟨vast_writable, (filewrite_whole_iff vast_writable (by decide)).mpr fun h =>
    absurd h.2.2 (by decide)⟩

/-- A write of one byte more than the largest file has, to an empty file: eleven passes are
written, and the last one is refused. -/
theorem filewrite_stops_midway : Writable vast openFile 78337 ∧
    wp (filewrite openFile (fun _ => 7) 78337) vast (fun x _ => x.1 = -1 ∧ x.2.off ≠ 0) ∧
    ¬ wp (filewrite openFile (fun _ => 7) 78337) vast
      (AllOrNothing vast openFile (fun _ => 7) 78337) := by
  have hsplit : Splits vast openFile 78337 := ⟨Nat.zero_le _, by decide, by decide⟩
  exact ⟨vast_writable, filewrite_splits vast_writable (by decide) hsplit,
    filewrite_not_whole vast_writable (by decide) hsplit⟩

end Xv6.Sysfile
