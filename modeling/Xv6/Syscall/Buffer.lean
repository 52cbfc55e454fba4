import Xv6.Syscall.Args
import Xv6.Fs.Refine

/-!
# Xv6.Syscall.Buffer

Which bytes of memory `sys_read`, `sys_write`, `sys_fstat` and `sys_pipe` use.

Each function stays in a block that has room for the count.  When `argptr` has let a
negative count through, everything depends on how the count is used: the loops of
pipes, of the console and of `filewrite` compare it as a signed number and do
nothing, and `readi` takes it for a large number and cuts it down to the rest of the
file.

* `readi_refines`: a read stores the bytes that `Fs.readi` delivers;
* `buffers_inside`: the bytes used are all inside the process exactly if the call
  does not overrun in this way;
* `negative_count_overruns`: a call that does.
-/

namespace Xv6.Syscall

open MemProg

variable {P : UInt32 → Prop} {s : State Found} {p : UInt32} {n : Nat}

/-! ## pipes, the console and blocks of the disk -/

theorem onFs_within {α : Type} (m : Fs.M α) : Within P (onFs m) := within_onRest _ _ _ m

theorem pipereadCopy_within (h : Covers P p n) : Within P (pipereadCopy n p) := by
  induction n generalizing p with
  | zero => exact within_pure _
  | succ n ih =>
      refine now_within.bind fun k => .ite (fun _ => within_pure _) fun _ => ?_
      exact (within_store h.head _).bind fun _ => (within_modifyRest _).bind fun _ =>
        (ih h.tail).bind fun _ => within_pure _

theorem piperead_within {n : Int32} (h : Covers P p n.toInt.toNat) : Within P (piperead p n) := by
  refine lock_within.bind fun _ => (sleepWhile_within _).bind fun _ => now_within.bind fun k => ?_
  exact .ite (fun _ => within_pure _) fun _ =>
    (pipereadCopy_within h).bind fun _ => within_pure _

theorem pipewriteLoop_within (h : Covers P p n) : Within P (pipewriteLoop n p) := by
  induction n generalizing p with
  | zero => exact within_pure _
  | succ n ih =>
      refine (sleepWhile_within _).bind fun _ => now_within.bind fun k => ?_
      exact .ite (fun _ => within_pure _) fun _ => (within_load h.head).bind fun b =>
        (within_modifyRest _).bind fun _ => ih h.tail

theorem pipewrite_within {n : Int32} (h : Covers P p n.toInt.toNat) : Within P (pipewrite p n) :=
  lock_within.bind fun _ => (pipewriteLoop_within h).bind fun _ =>
    .ite (fun _ => within_pure _) fun _ => within_pure _

theorem consoleLoop_within (h : Covers P p n) (target : UInt32) :
    Within P (consoleLoop target n p) := by
  induction n generalizing p with
  | zero => exact within_pure _
  | succ n ih =>
      refine (sleepWhile_within _).bind fun _ => now_within.bind fun k => ?_
      refine .ite (fun _ => within_pure _) fun _ => (within_modifyRest _).bind fun _ => ?_
      refine .ite (fun _ => ?_) fun _ => (within_store h.head _).bind fun _ =>
        .ite (fun _ => within_pure _) fun _ => ih h.tail
      exact .ite (fun _ => (within_modifyRest _).bind fun _ => within_pure _) fun _ => within_pure _

theorem consoleread_within {n : Int32} (h : Covers P p n.toInt.toNat) :
    Within P (consoleread p n) := by
  refine lock_within.bind fun _ => (consoleLoop_within h _).bind fun left => ?_
  refine lock_within.bind fun _ => ?_
  cases left with
  | none => exact within_pure _
  | some left => exact within_pure _

theorem consolewrite_within {n : Int32} (h : Covers P p n.toInt.toNat) :
    Within P (consolewrite p n) :=
  lock_within.bind fun _ => (copyFrom_within h).bind fun _ => lock_within.bind fun _ =>
    within_pure _

theorem stati_within (h : Covers P p 32) (c : Fs.Ip) : Within P (stati c p) :=
  now_within.bind fun k => setFields_within h (by simp [statFields])

theorem readLoop_within (c : Fs.Ip) (fuel off : Nat) (h : Covers P p n) :
    Within P (readLoop c fuel p off n) := by
  induction fuel generalizing p n off with
  | zero => exact within_pure _
  | succ fuel ih =>
      refine .ite (fun _ => within_pure _) fun _ => ?_
      refine (onFs_within _).bind fun b => (onFs_within _).bind fun data => ?_
      refine (copyTo_within (h.take ?_)).bind fun _ => ih _ (h.sub (by omega))
      simp

theorem writeLoop_within (c : Fs.Ip) (fuel off : Nat) (h : Covers P p n) :
    Within P (writeLoop c fuel p off n) := by
  induction fuel generalizing p n off with
  | zero => exact within_pure _
  | succ fuel ih =>
      refine .ite (fun _ => within_pure _) fun _ => ?_
      refine (onFs_within _).bind fun b => (onFs_within _).bind fun data => ?_
      refine (copyFrom_within (h.take (Nat.min_le_left _ _))).bind fun bytes => ?_
      exact (onFs_within _).bind fun _ => ih _ (h.sub (by omega))

/-! ## reading and writing files -/

theorem toInt_toInt32_le (n : UInt32) : n.toInt32.toInt.toNat ≤ n.toNat := by
  have h := toInt_cond n.toInt32
  rw [UInt32.toUInt32_toInt32] at h
  split at h <;> omega

theorem readi_withinAt {c : Fs.Ip} {off n : UInt32} (hdev : Covers P p n.toInt32.toInt.toNat)
    (hfile : (s.rest.now.fs.inode c).din.type ≠ T_DEV →
      off.toNat ≤ (s.rest.now.fs.inode c).din.size.toNat → off.toNat + n.toNat < 2 ^ 32 →
      Covers P p (min n.toNat ((s.rest.now.fs.inode c).din.size.toNat - off.toNat))) :
    WithinAt P (readi c p off n) s := by
  refine withinAt_now_bind ?_
  dsimp only
  split
  · split
    · exact consoleread_within hdev s
    · exact within_pure _ s
  · next htype =>
    split
    · exact within_pure _ s
    · next hok =>
      rw [not_or, UInt32.not_lt, Fs.add_lt_left_iff, Nat.not_le, UInt32.le_iff_toNat_le] at hok
      refine ((readLoop_within c _ _ ?_).bind fun _ => within_pure _) s
      rw [Fs.toNat_clamp hok.1 hok.2]
      exact hfile htype hok.1 hok.2

theorem writei_within {c : Fs.Ip} {off n : UInt32} (h : Covers P p n.toNat) :
    Within P (writei c p off n) := by
  refine now_within.bind fun k => .ite (fun _ => ?_) fun _ => ?_
  · exact .ite (fun _ => consolewrite_within (h.take (toInt_toInt32_le n))) fun _ => within_pure _
  · refine .ite (fun _ => within_pure _) fun _ => .ite (fun _ => within_pure _) fun _ => ?_
    exact (writeLoop_within c _ _ h).bind fun _ => (onFs_within _).bind fun _ => within_pure _

theorem filestat_within (h : Covers P p 32) (f : File) : Within P (filestat f p) :=
  .ite (fun _ => lock_within.bind fun _ => (stati_within h _).bind fun _ => within_pure _)
    fun _ => within_pure _

theorem advance_within (r : Int32) : Within P (advance r) := by
  unfold advance modifyNow
  exact within_modifyRest _

/-- `fileread` stays in a block that has room for the count as a signed number, if
`readi` does so on the inode that it finds. -/
theorem fileread_withinAt {f : File} {n : Int32} (h : Covers P p n.toInt.toNat)
    (hfile : ∀ k ks, s.rest.later = k :: ks → f.readable = true → f.type = .FD_INODE →
      (k.fs.inode f.ip).din.type ≠ T_DEV → k.off.toNat ≤ (k.fs.inode f.ip).din.size.toNat →
      k.off.toNat + n.toUInt32.toNat < 2 ^ 32 →
      Covers P p (min n.toUInt32.toNat ((k.fs.inode f.ip).din.size.toNat - k.off.toNat))) :
    WithinAt P (fileread f p n) s := by
  unfold fileread
  split
  · exact within_pure _ s
  · next hr =>
    rw [Bool.not_eq_true', Bool.not_eq_false] at hr
    split
    · exact piperead_within h s
    · next ht =>
      refine withinAt_lock_bind fun k ks hl => withinAt_now_bind ?_
      refine WithinAt.bind (readi_withinAt ?_ (hfile k ks hl hr ht)) fun r s' _ => ?_
      · rw [Int32.toInt32_toUInt32]
        exact h
      · exact ((advance_within r).bind fun _ => within_pure _) s'
    · exact within_stop _ s

theorem filewriteLoop_within (f : File) {n : Nat} (h : Covers P p n) (fuel i : Nat) :
    Within P (filewriteLoop f p n fuel i) := by
  induction fuel generalizing i with
  | zero => exact within_pure _
  | succ fuel ih =>
      refine .ite (fun hi => ?_) fun _ => within_pure _
      have hcov : Covers P (p + UInt32.ofNat i) (UInt32.ofNat (min (n - i) maxWrite)).toNat := by
        refine h.sub ?_
        have hle : (UInt32.ofNat (min (n - i) maxWrite)).toNat ≤ min (n - i) maxWrite := by
          rw [UInt32.toNat_ofNat']
          exact Nat.mod_le _ _
        omega
      refine lock_within.bind fun _ => now_within.bind fun k => (writei_within hcov).bind fun r => ?_
      refine (advance_within r).bind fun _ => .ite (fun _ => within_pure _) fun _ => ?_
      exact .ite (fun _ => within_stop _) fun _ => ih _

theorem filewrite_within (f : File) {n : Int32} (h : Covers P p n.toInt.toNat) :
    Within P (filewrite f p n) := by
  unfold filewrite
  refine .ite (fun _ => within_pure _) fun _ => ?_
  cases f.type with
  | FD_PIPE => exact pipewrite_within h
  | FD_INODE => exact (filewriteLoop_within f h _ _).bind fun _ => within_pure _
  | FD_NONE => exact within_stop _

/-! ## the bytes that are read -/

variable {c : Fs.Ip}

/-- The loop stores the bytes that the loop on the file system delivers. -/
theorem readLoop_refines {fuel off : Nat} {R : List UInt8 → Fs.State → Prop}
    (h : wp (Fs.readLoop c fuel off n) s.rest.now.fs R) :
    wp (readLoop c fuel p off n) s fun _ s' => ∃ bytes, R bytes s'.rest.now.fs ∧
      s'.touched = s.touched ++ block p bytes.length := by
  induction fuel generalizing s p off n R with
  | zero => exact wp_pure.mpr ⟨[], wp_pure.mp h, by simp [block]⟩
  | succ fuel ih =>
      rw [Fs.readLoop] at h
      rw [readLoop]
      split at h
      · next hn =>
        rw [if_pos hn]
        exact wp_pure.mpr ⟨[], wp_pure.mp h, by simp [block]⟩
      · next hn =>
        rw [if_neg hn]
        simp only [wp_bind] at h ⊢
        refine wp_onRest (h.mono fun b fs₁ h => wp_onRest (h.mono fun data fs₂ h => ?_))
        refine (wp_copyTo ?_).mono ?_
        · simp only [List.length_map, List.length_range, BSIZE]
          omega
        rintro _ s' ⟨hrest, -, ht⟩
        have hfs : s'.rest.now.fs = fs₂ := by rw [hrest]
        refine (ih (hfs ▸ h)).mono ?_
        rintro _ s'' ⟨rest, hR, ht'⟩
        refine ⟨_, wp_pure.mp hR, ?_⟩
        rw [ht', ht, List.append_assoc, List.length_append, List.length_map, List.length_range,
          block_add]

theorem readi_refines {off m : UInt32} {R : Int32 × List UInt8 → Fs.State → Prop}
    (hdev : (s.rest.now.fs.inode c).din.type ≠ T_DEV)
    (h : wp (Fs.readi c off m) s.rest.now.fs R) :
    wp (readi c p off m) s fun r s' => ∃ bytes, R (r, bytes) s'.rest.now.fs ∧
      s'.touched = s.touched ++ block p bytes.length := by
  simp only [Fs.readi, wp_bind, wp_get] at h
  rw [if_neg hdev] at h
  rw [readi, wp_now_bind]
  dsimp only
  rw [if_neg hdev]
  split at h
  · next hbad =>
    rw [if_pos hbad]
    exact wp_pure.mpr ⟨[], wp_pure.mp h, by simp [block]⟩
  · next hok =>
    rw [if_neg hok]
    refine wp_bind_of (readLoop_refines (wp_bind.mp h)) ?_
    rintro _ s' ⟨bytes, hR, ht⟩
    exact wp_pure.mpr ⟨bytes, wp_pure.mp hR, ht⟩

/-! ## the system calls -/

inductive Call
  | read
  | write
  | fstat
  | pipe (files : Option (File × File))

def Call.code : Call → M Found Int32
  | .read => sysRead
  | .write => sysWrite
  | .fstat => sysFstat
  | .pipe files => sysPipe files

/-- `sys_read` on a file takes a negative count for a large one, and there is more
in the file than has room between the pointer and the end of the process. -/
def Overruns (s : State Found) : Prop :=
  ∃ f n p k, argfd s 0 = some f ∧ argint s 2 = some n ∧ argptr s 1 n = some p ∧
    f.readable = true ∧ f.type = .FD_INODE ∧ s.rest.later.head? = some k ∧
    (k.fs.inode f.ip).din.type ≠ T_DEV ∧ n.toInt < 0 ∧
    (k.off.toNat : Int) < -n.toInt ∧
    s.rest.proc.sz.toNat + k.off.toNat < p.toNat + (k.fs.inode f.ip).din.size.toNat

theorem sysRead_withinAt (h : ¬ Overruns s) : WithinAt (Inside s) sysRead s := by
  refine withinAt_get_bind ?_
  split
  · next f n hf hn =>
    split
    · next p hp =>
      refine fileread_withinAt (argptr_covers hp) fun k ks hl hr ht hdev hle hlt => ?_
      have hcheck := argptr_eq_some hp
      have hint := toInt_cond n
      have hover : n.toInt < 0 → p.toNat + (k.fs.inode f.ip).din.size.toNat ≤
          s.rest.proc.sz.toNat + k.off.toNat := fun hneg => by
        refine Nat.le_of_not_lt fun hgt => h ⟨f, n, p, k, hf, hn, hp, hr, ht, ?_, hdev, hneg, ?_, hgt⟩
        · rw [hl, List.head?_cons]
        · split at hint <;> omega
      refine covers_inside ?_
      split at hint <;> omega
    · exact within_pure _ s
  · exact within_pure _ s

theorem sysWrite_withinAt : WithinAt (Inside s) sysWrite s := by
  refine withinAt_get_bind ?_
  split
  · split
    · next p hp => exact filewrite_within _ (argptr_covers hp) s
    · exact within_pure _ s
  · exact within_pure _ s

theorem sysFstat_withinAt : WithinAt (Inside s) sysFstat s := by
  refine withinAt_get_bind ?_
  split
  · next f st hf hst => exact filestat_within (argptr_covers hst) f s
  · exact within_pure _ s

theorem fdalloc_within (f : File) : Within P (fdalloc f) := by
  refine within_rest.bind fun r => ?_
  dsimp only
  split
  · exact within_pure _
  · exact (within_modifyRest _).bind fun _ => within_pure _

theorem sysPipe_withinAt (files : Option (File × File)) :
    WithinAt (Inside s) (sysPipe files) s := by
  refine withinAt_get_bind ?_
  dsimp only
  split
  · next fd rf wf hfd =>
    refine ((fdalloc_within rf).bind fun fd0 => ?_) s
    cases fd0 with
    | none => exact within_pure _
    | some fd0 =>
        refine (fdalloc_within wf).bind fun fd1 => ?_
        cases fd1 with
        | none => exact (within_modifyRest _).bind fun _ => within_pure _
        | some fd1 =>
            exact (setFields_within (argptr_covers hfd) (by simp)).bind fun _ => within_pure _
  · exact within_pure _ s

theorem sysRead_eq {f : File} {n : Int32} (hf : argfd s 0 = some f) (hn : argint s 2 = some n)
    (hp : argptr s 1 n = some p) : sysRead s = fileread f p n s := by
  rw [sysRead, get_bind, hf, hn]
  dsimp only
  rw [hp]

/-- `fileread` of a regular file stores all the bytes that `readi` delivers. -/
theorem wp_fileread {f : File} {n : Int32} {k : Found} {ks : List Found}
    (hl : s.rest.later = k :: ks) (hr : f.readable = true) (ht : f.type = .FD_INODE)
    (hheld : Fs.Held k.fs f.ip) (hdev : (k.fs.inode f.ip).din.type ≠ T_DEV)
    (hle : k.off.toNat ≤ (k.fs.inode f.ip).din.size.toNat)
    (hlt : k.off.toNat + n.toUInt32.toNat < 2 ^ 32) :
    wp (fileread f p n) s fun _ s' => s'.touched = s.touched ++
      block p (min n.toUInt32.toNat ((k.fs.inode f.ip).din.size.toNat - k.off.toNat)) := by
  have hspec : wp (Fs.readi f.ip k.off n.toUInt32) k.fs _ :=
    (Fs.readi_spec hheld hdev (E := fun _ => False)).returns fun _ he => he
  rw [fileread, hr, ht]
  refine wp_lock_bind hl (wp_now_bind.mpr (wp_bind_of (readi_refines hdev hspec) ?_))
  rintro r s' ⟨bytes, ⟨-, hbytes⟩, htouched⟩
  rw [if_neg (by omega)] at hbytes
  have hlen : bytes.length =
      min n.toUInt32.toNat ((k.fs.inode f.ip).din.size.toNat - k.off.toNat) := by
    have hsnd : bytes = _ := hbytes.2
    rw [hsnd]
    simp [Fs.content]
  refine wp_bind_of (wp_modify.mpr ?_) fun _ _ ht => wp_pure.mpr ht
  rw [htouched, hlen]
  rfl

theorem Overruns.accesses (h : Overruns s)
    (hsound : ∀ f, argfd s 0 = some f → f.type = .FD_INODE → ∀ k ∈ s.rest.later,
      Fs.Sound k.fs ∧ Fs.Locked k.fs f.ip) : s.rest.proc.sz ∈ accesses sysRead s := by
  obtain ⟨f, n, p, k, hf, hn, hp, hr, ht, hk, hdev, hneg, hoff, hover⟩ := h
  obtain ⟨ks, hl⟩ := List.head?_eq_some_iff.mp hk
  obtain ⟨hsnd, hlock⟩ := hsound f hf ht k (by rw [hl]; exact List.mem_cons_self)
  have hheld := hsnd.held hlock.ref hlock.valid
  have hmax : (k.fs.inode f.ip).din.size.toNat ≤ MAXFILE * BSIZE := by
    have := hheld.cons.size_le hheld.inum_lt hheld.type_ino
    rwa [k.fs.ino_self] at this
  have hsmall : MAXFILE * BSIZE < 2 ^ 31 := by decide
  have hcheck := argptr_eq_some hp
  have hint := toInt_cond n
  have hbig : 2 ^ 31 ≤ n.toUInt32.toNat := by split at hint <;> omega
  rw [if_neg (by omega)] at hint
  have hwp := wp_fileread (s := { s with touched := [] }) (p := p) (n := n) hl hr ht hheld hdev
    (by omega) (by omega)
  have hacc : MemProg.accesses sysRead s = _ := accesses_of_wp (by
    obtain ⟨r, s', hs, ht⟩ := hwp
    exact ⟨r, s', (sysRead_eq (s := { s with touched := [] }) hf hn hp).trans hs, ht⟩)
  rw [hacc, List.nil_append, block, List.mem_map]
  refine ⟨s.rest.proc.sz.toNat - p.toNat, List.mem_range.mpr (by omega), ?_⟩
  refine UInt32.toNat_inj.mp ?_
  have hsz := s.rest.proc.sz_lt
  unfold KERNBASE at hsz
  rw [UInt32.toNat_add, UInt32.toNat_ofNat']
  omega

/-- **User buffers stay inside the process**, unless the call overruns as said above;
and `argptr` lets a block through that is not inside the process only if its size is
negative. -/
theorem buffers_inside (call : Call)
    (hsound : ∀ f, argfd s 0 = some f → f.type = .FD_INODE → ∀ k ∈ s.rest.later,
      Fs.Sound k.fs ∧ Fs.Locked k.fs f.ip) :
    ((∀ a ∈ accesses call.code s, a < s.rest.proc.sz) ↔ ¬ (call = .read ∧ Overruns s)) ∧
      ∀ i size p, argptr s i size = some p →
        ((0 ≤ size.toInt ∧ p.toNat + size.toInt ≤ s.rest.proc.sz.toNat) ↔ 0 ≤ size.toInt) := by
  refine ⟨⟨?_, ?_⟩, ?_⟩
  · rintro hall ⟨rfl, hover⟩
    exact absurd (hall _ (hover.accesses hsound)) (UInt32.lt_irrefl _)
  · intro hno
    cases call with
    | read =>
        have hov : ¬ Overruns { s with touched := [] } := fun h => hno ⟨rfl, h⟩
        exact fun a ha => UInt32.lt_iff_toNat_lt.mpr ((sysRead_withinAt hov).of_accesses a ha)
    | write => exact fun a ha => UInt32.lt_iff_toNat_lt.mpr (sysWrite_withinAt.of_accesses a ha)
    | fstat => exact fun a ha => UInt32.lt_iff_toNat_lt.mpr (sysFstat_withinAt.of_accesses a ha)
    | pipe files =>
        exact fun a ha => UInt32.lt_iff_toNat_lt.mpr ((sysPipe_withinAt files).of_accesses a ha)
  · intro i size p hp
    have := argptr_eq_some hp
    omega

/-! ### on a small disk -/

/-- A process of one page calls `read(0, p, n)` or `fstat(0, p)`, and finds `fs` when it
has locked the inode of its file. -/
def caller (p n : UInt32) (fs : Fs.State) : State Found where
  mem := fun a => UInt8.ofNat (([0, 0, p.toNat, n.toNat].getD (a.toNat / 4) 0) / 256 ^ (a.toNat % 4))
  touched := []
  rest :=
    { proc := ⟨4096, page_lt_KERNBASE, 0, fun fd =>
        if fd.val = 0 then some ⟨.FD_INODE, true, true, Fs.first⟩ else none⟩
      now := ⟨false, ⟨fun _ => 0, 0, 0, true, true⟩, 0, fs, ⟨fun _ => 0, 0, 0⟩⟩
      later := [⟨false, ⟨fun _ => 0, 0, 0, true, true⟩, 0, fs, ⟨fun _ => 0, 0, 0⟩⟩] }

theorem buffers_inside_small : (accesses (Call.code .fstat) (caller 100 0 Fs.small)).length = 28 ∧
    ∀ a ∈ accesses (Call.code .fstat) (caller 100 0 Fs.small), a < 4096 := by
  have hlock : Fs.Locked Fs.small Fs.first := ⟨by decide, rfl, rfl⟩
  refine ⟨by decide +kernel, (buffers_inside .fstat fun f hf _ k hk => ?_).1.mpr (by simp)⟩
  obtain rfl := List.mem_singleton.mp hk
  have hfd : argfd (caller 100 0 Fs.small) 0 = some ⟨.FD_INODE, true, true, Fs.first⟩ := by
    decide +kernel
  obtain rfl := Option.some.inj (hfd.symm.trans hf)
  exact ⟨Fs.small_sound, hlock⟩

/-- The small disk when four bytes are written to its file. -/
def fourBytes : Fs.State :=
  match Fs.writei Fs.first (fun k => UInt8.ofNat k) 0 4 Fs.small with
  | .ok (_, fs) => fs
  | .error _ => Fs.small

/-- **A read outside the process**: `read(0, 4095, -1)` stores four bytes. -/
theorem negative_count_overruns : argint (caller 4095 (-1) fourBytes) 2 = some (-1) ∧
    argptr (caller 4095 (-1) fourBytes) 1 (-1) = some 4095 ∧
    (caller 4095 (-1) fourBytes).rest.proc.sz = 4096 ∧
    accesses (Call.code .read) (caller 4095 (-1) fourBytes) = [4095, 4096, 4097, 4098] := by
  decide +kernel

end Xv6.Syscall
