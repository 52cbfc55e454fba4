import Xv6.Fs.Tx
import Xv6.Sysfile.Shared

/-!
# Xv6.Sysfile.Budget

How many blocks one section of `filewrite` logs, from `begin_op` to `end_op`.

`begin_op` reserves `MAXOPBLOCKS` blocks of the log for a section, but `filewrite` cuts its
sections to size with `LOGSIZE`.  `cost` counts the blocks in the state before the
section; `filewrite_budget_iff` says that a section keeps to its reservation exactly if
the count does.
-/

namespace Xv6
namespace Fs

open Words

/-! ## counting -/

/-- The first `k` free blocks. -/
def State.firstFree (s : State) (k : Nat) : Finset Nat :=
  {b ∈ Finset.range s.sb.size | busy s.sb s.disk b = false ∧
    {e ∈ Finset.range b | busy s.sb s.disk e = false}.card < k}

/-- The blocks that a write of `n` bytes at offset `off` logs: the blocks of the file, the
bitmap blocks of those that it lacks, the indirect block if that gets an entry, and the
inode if the file grows. -/
def State.cost (s : State) (c : Ip) (off n : Nat) : Nat :=
  (spanned off n).card +
    ((s.firstFree (lacking (needed (s.inode c).inum (spanned off n)) (s.ref c))).image
      fun b => BBLOCK b s.sb).card +
    (if ∃ bn ∈ spanned off n, NDIRECT ≤ bn ∧ s.slot c (.block bn) = 0 then 1 else 0) +
    if (s.inode c).din.size.toNat < off + n then 1 else 0

section Count

variable {x x' : Tx} {c : Ip} {off n : Nat} {sp : Finset Nat}

/-- The blocks that are taken from `s` to `s'`. -/
def State.taken (s s' : State) : Finset Nat :=
  {b ∈ Finset.range s.sb.size | busy s.sb s.disk b = false ∧ busy s.sb s'.disk b = true}

theorem mem_taken {s s' : State} {b : Nat} : b ∈ s.taken s' ↔
    b < s.sb.size ∧ busy s.sb s.disk b = false ∧ busy s.sb s'.disk b = true := by
  rw [State.taken, Finset.mem_filter, Finset.mem_range]

theorem mem_firstFree {s : State} {k b : Nat} : b ∈ s.firstFree k ↔
    b < s.sb.size ∧ busy s.sb s.disk b = false ∧
      {e ∈ Finset.range b | busy s.sb s.disk e = false}.card < k := by
  rw [State.firstFree, Finset.mem_filter, Finset.mem_range]

theorem Traced.ref_isSome (h : Traced c sp x x') {y : Nat × Slot}
    (hy : y ∈ needed (x.fs.inode c).inum sp) : (x'.fs.ref c y).isSome = true := by
  have hfull {t : Slot} (ht : x'.fs.slot c t ≠ 0) :
      (x'.fs.ref c ((x.fs.inode c).inum, t)).isSome = true := by
    have href : x'.fs.ref c ((x'.fs.inode c).inum, t) = some (x'.fs.slot c t) := by
      refine ref_eq_some.mpr ⟨h.held.inum_lt, h.held.type_ino, ?_, ht⟩
      rw [State.ino_self]
      rfl
    rw [← h.inum, href]
    rfl
  rcases Finset.mem_union.mp hy with hy | hy
  · obtain ⟨bn, hbn, rfl⟩ := Finset.mem_image.mp hy
    exact hfull (h.filled bn hbn)
  · split at hy
    · next hex =>
      obtain ⟨bn, hbn, hge⟩ := hex
      rw [Finset.mem_singleton.mp hy]
      exact hfull (slot_indirect_ne_zero hge (h.filled bn hbn))
    · exact absurd hy (Finset.notMem_empty _)

theorem Traced.idle_eq (h : Traced c sp x x') :
    idle (Finset.range x.fs.sb.size) (Fs.busy x.fs.sb x.fs.disk) = (x.fs.taken x'.fs).card +
      idle (Finset.range x.fs.sb.size) (Fs.busy x.fs.sb x'.fs.disk) := by
  unfold idle State.taken
  rw [← Finset.card_union_of_disjoint]
  · congr 1
    ext b
    have hbusy := h.busy b
    simp only [Finset.mem_union, Finset.mem_filter, Finset.mem_range]
    grind
  · rw [Finset.disjoint_filter]
    intro b _ hb
    simp [hb.2]

/-- As many blocks are taken as are lacking, and there are so many. -/
theorem Traced.card_taken (h : Traced c sp x x')
    (hg : Grown c (needed (x.fs.inode c).inum sp) x.fs x'.fs) :
    (x.fs.taken x'.fs).card = lacking (needed (x.fs.inode c).inum sp) (x.fs.ref c) ∧
      0 ≤ x.fs.slack c (needed (x.fs.inode c).inum sp) := by
  have hslack := hg.slack
  have hidle := h.idle_eq
  have hfull := lacking_eq_zero fun y hy => h.ref_isSome hy
  unfold State.slack slack at *
  rw [h.sb, hfull] at hslack
  omega

theorem Traced.taken_eq (h : Traced c sp x x')
    (hg : Grown c (needed (x.fs.inode c).inum sp) x.fs x'.fs) :
    x.fs.taken x'.fs =
      x.fs.firstFree (lacking (needed (x.fs.inode c).inum sp) (x.fs.ref c)) := by
  rw [← (h.card_taken hg).1]
  ext b
  rw [mem_taken, mem_firstFree]
  constructor
  · rintro ⟨hb, hfree, hbusy⟩
    refine ⟨hb, hfree, Finset.card_lt_card ?_⟩
    -- the free blocks below `b` are all taken, and so is `b`
    rw [Finset.ssubset_iff_of_subset]
    · exact ⟨b, mem_taken.mpr ⟨hb, hfree, hbusy⟩, by simp⟩
    · intro e he
      rw [Finset.mem_filter, Finset.mem_range] at he
      exact mem_taken.mpr ⟨he.1.trans hb, he.2, h.first b hb hfree hbusy e he.1⟩
  · rintro ⟨hb, hfree, hlt⟩
    refine ⟨hb, hfree, ?_⟩
    by_contra hbusy
    -- otherwise the blocks that are taken are all below `b`
    refine absurd (Finset.card_le_card fun d hd => ?_) (Nat.not_le.mpr hlt)
    rw [mem_taken] at hd
    rw [Finset.mem_filter, Finset.mem_range]
    refine ⟨?_, hd.2.1⟩
    by_contra hle
    have hne : b ≠ d := by
      rintro rfl
      exact hbusy hd.2.2
    exact hbusy (h.first d hd.1 hd.2.1 hd.2.2 b (by omega))

/-- A block in a slot. -/
theorem Traced.ref_eq (h : Traced c sp x x') {t : Slot} (ht : x'.fs.slot c t ≠ 0) :
    x'.fs.ref c ((x'.fs.inode c).inum, t) = some (x'.fs.slot c t) := by
  refine ref_eq_some.mpr ⟨h.held.inum_lt, h.held.type_ino, ?_, ht⟩
  rw [State.ino_self]
  rfl

theorem Traced.slot_inj (h : Traced c sp x x') {t u : Slot} (ht : x'.fs.slot c t ≠ 0)
    (he : x'.fs.slot c t = x'.fs.slot c u) : t = u := by
  have href := h.ref_eq ht
  rw [he] at ht href
  exact (Prod.mk.inj (h.held.cons.own.inj href (h.ref_eq ht))).2

theorem Traced.slot_not_isMeta (h : Traced c sp x x') {t : Slot} (ht : x'.fs.slot c t ≠ 0) :
    ¬ isMeta x.fs.sb (x'.fs.slot c t) := by
  rw [← h.sb]
  exact h.held.cons.not_isMeta (h.ref_eq ht)

/-- **What is logged**, counted. -/
theorem Traced.card_logged (h : Traced c (spanned off n) x x')
    (hg : Grown c (needed (x.fs.inode c).inum (spanned off n)) x.fs x'.fs) (hnil : x.blocks = [])
    {bs : List Nat} (hbs : bs = x'.blocks ++
      if (x.fs.inode c).din.size.toNat < off + n then [IBLOCK (x.fs.inode c).inum x.fs.sb] else []) :
    bs.toFinset.card = x.fs.cost c off n := by
  have hlayout : x.fs.sb.Layout := h.sb ▸ h.held.cons.layout
  have hlt : (x.fs.inode c).inum < x.fs.sb.ninodes := by
    rw [← h.inum, ← h.sb]
    exact h.held.inum_lt
  -- the four kinds of blocks
  have hset : bs.toFinset =
      (((spanned off n).image fun bn => x'.fs.slot c (.block bn)) ∪
        ((x.fs.taken x'.fs).image fun b => BBLOCK b x.fs.sb)) ∪
      (if ∃ bn ∈ spanned off n, NDIRECT ≤ bn ∧ x.fs.slot c (.block bn) = 0 then
        {x'.fs.slot c .indirect} else ∅) ∪
      (if (x.fs.inode c).din.size.toNat < off + n then {IBLOCK (x.fs.inode c).inum x.fs.sb}
        else ∅) := by
    ext e
    have hlog := h.logged e
    have hentry : (∃ bn ∈ spanned off n, NDIRECT ≤ bn ∧ x.fs.slot c (.block bn) = 0 ∧
        x'.fs.slot c .indirect = e) ↔ e ∈ (if ∃ bn ∈ spanned off n, NDIRECT ≤ bn ∧
          x.fs.slot c (.block bn) = 0 then {x'.fs.slot c .indirect} else ∅ : Finset Nat) := by
      split
      · next hex =>
        obtain ⟨bn, hbn, hge, h0⟩ := hex
        rw [Finset.mem_singleton]
        exact ⟨fun ⟨_, _, _, _, he⟩ => he.symm, fun he => ⟨bn, hbn, hge, h0, he.symm⟩⟩
      · next hnone =>
        refine ⟨fun ⟨bn, hbn, hge, h0, _⟩ => absurd ⟨bn, hbn, hge, h0⟩ hnone, fun he => ?_⟩
        exact absurd he (Finset.notMem_empty _)
    have hgrow : e ∈ (if (x.fs.inode c).din.size.toNat < off + n then
        [IBLOCK (x.fs.inode c).inum x.fs.sb] else []) ↔
        e ∈ (if (x.fs.inode c).din.size.toNat < off + n then
          {IBLOCK (x.fs.inode c).inum x.fs.sb} else ∅ : Finset Nat) := by
      split <;> simp
    rw [hnil] at hlog
    simp only [hbs, List.mem_toFinset, List.mem_append, hlog, Logs, hentry, hgrow,
      Finset.mem_union, Finset.mem_image, mem_taken, List.not_mem_nil, false_or, and_assoc,
      or_assoc]
  have hindirect {bn : Nat} (hbn : bn ∈ spanned off n) (hge : NDIRECT ≤ bn) :=
    slot_indirect_ne_zero hge (h.filled bn hbn)
  rw [hset, Finset.card_union_of_disjoint, Finset.card_union_of_disjoint,
    Finset.card_union_of_disjoint, Finset.card_image_of_injOn, h.taken_eq hg, State.cost]
  · split <;> split <;> rfl
  · intro bn hbn bn' _ he
    simpa using h.slot_inj (h.filled bn hbn) he
  · rw [Finset.disjoint_left]
    intro e he he'
    obtain ⟨bn, hbn, rfl⟩ := Finset.mem_image.mp he
    obtain ⟨b, hb, heq⟩ := Finset.mem_image.mp he'
    exact h.slot_not_isMeta (h.filled bn hbn) (heq ▸ hlayout.isMeta_BBLOCK (mem_taken.mp hb).1)
  · rw [Finset.disjoint_right]
    intro e he he'
    split at he
    · next hex =>
      obtain ⟨bn, hbn, hge, -⟩ := hex
      rw [Finset.mem_singleton] at he
      subst he
      rcases Finset.mem_union.mp he' with he' | he'
      · obtain ⟨bn', hbn', heq⟩ := Finset.mem_image.mp he'
        exact absurd (h.slot_inj (h.filled bn' hbn') heq) (by simp)
      · obtain ⟨b, hb, heq⟩ := Finset.mem_image.mp he'
        exact h.slot_not_isMeta (hindirect hbn hge)
          (heq ▸ hlayout.isMeta_BBLOCK (mem_taken.mp hb).1)
    · exact absurd he (Finset.notMem_empty _)
  · rw [Finset.disjoint_right]
    intro e he he'
    split at he
    · rw [Finset.mem_singleton] at he
      subst he
      have hmeta := hlayout.isMeta_IBLOCK hlt
      rcases Finset.mem_union.mp he' with he' | he'
      · rcases Finset.mem_union.mp he' with he' | he'
        · obtain ⟨bn, hbn, heq⟩ := Finset.mem_image.mp he'
          exact h.slot_not_isMeta (h.filled bn hbn) (heq ▸ hmeta)
        · obtain ⟨b, -, heq⟩ := Finset.mem_image.mp he'
          exact hlayout.IBLOCK_ne_BBLOCK hlt b heq.symm
      · split at he'
        · next hex =>
          obtain ⟨bn, hbn, hge, -⟩ := hex
          rw [Finset.mem_singleton] at he'
          exact h.slot_not_isMeta (hindirect hbn hge) (he' ▸ hmeta)
        · exact absurd he' (Finset.notMem_empty _)
    · exact absurd he (Finset.notMem_empty _)

end Count

end Fs

namespace Sysfile

open Fs

/-! ## the sections of `filewrite` -/

/-- `n1`, when `i` bytes of `n` are written. -/
def chunk (i n : Int32) : Int32 := if writeMax < n - i then writeMax else n - i

/-- What a pass of the loop of `filewrite` does, between `begin_op` and `end_op`; the offset in `f` is
not part of the file system. -/
def filewriteSection (f : File) (addr : Nat → UInt8) (i n : Int32) : TxM Int32 := do
  inTx (ilock f.ip)
  let r ← Tx.writei f.ip (fun j => addr (i.toInt.toNat + j)) f.off (chunk i n).toUInt32
  inTx (iunlock f.ip)
  return r

/-- It is the code of the file system. -/
theorem forgets_filewriteSection (f : File) (addr : Nat → UInt8) (i n : Int32) :
    Forgets Tx.fs (filewriteSection f addr i n) (do
      ilock f.ip
      let r ← writei f.ip (fun j => addr (i.toInt.toNat + j)) f.off (chunk i n).toUInt32
      iunlock f.ip
      return r) :=
  (forgets_inTx _).bind fun _ => (forgets_writei _ _ _).bind fun _ =>
    (forgets_inTx _).bind fun _ => forgets_pure _

/-- A section that ends has logged no more blocks than `begin_op` has reserved. -/
def WithinBudget (m : TxM Int32) (s : Fs.State) : Prop :=
  ∀ r x', m ⟨s, []⟩ = .ok (r, x') → x'.blocks.toFinset.card ≤ MAXOPBLOCKS

section Budget

variable {s : Fs.State} {f : File} {i n : Int32}

theorem chunk_pos (hi : 0 ≤ i) (hn : i < n) : (chunk i n).toUInt32.toNat ≠ 0 := by
  have hne : chunk i n ≠ 0 := by
    unfold chunk
    split
    · decide
    · grind
  intro h0
  refine hne ?_
  cases hc : chunk i n with
  | ofUInt32 w =>
      rw [hc] at h0
      rw [show w = 0 from UInt32.toNat_inj.mp h0]
      rfl

theorem ilock_valid {c : Ip} (href : 0 < (s.inode c).ref) (hvalid : (s.inode c).valid = true)
    (hbusy : (s.inode c).busy = false) {E : Panic → Prop} :
    wpE (ilock c) s (fun _ s' => s' = s.set c { s.inode c with busy := true }) E := by
  simp only [ilock, wpE_bind, wpE_get]
  rw [if_neg (by omega), if_neg (by simp [hbusy])]
  simp only [loadInode, wpE_bind, wpE_setInode, wpE_get, State.set_inode, Function.update_self]
  rw [if_pos hvalid]
  exact wpE_pure.mpr rfl

/-- The lock does not matter for the slots. -/
theorem set_busy_ino (c : Ip) (v : Bool) :
    (s.set c { s.inode c with busy := v }).ino c = s.ino c := by
  unfold State.ino
  rw [State.set_self]
  rfl

theorem set_busy_cost (c : Ip) (v : Bool) (off n : Nat) :
    (s.set c { s.inode c with busy := v }).cost c off n = s.cost c off n := by
  unfold State.cost State.firstFree State.slot State.ref
  rw [set_busy_ino, State.set_self]
  rfl

theorem set_busy_slack (c : Ip) (v : Bool) (need : Finset (Nat × Slot)) :
    (s.set c { s.inode c with busy := v }).slack c need = s.slack c need := by
  unfold State.slack State.ref
  rw [set_busy_ino]
  rfl

theorem inTx_blocks {α : Type} (m : M α) (x : Tx) :
    wpE (inTx m) x (fun _ x' => x'.blocks = x.blocks) fun _ => True := by
  unfold wpE inTx focus
  cases m x.fs with
  | error e => trivial
  | ok r => rfl

theorem tx_iunlock_blocks {c : Ip} {x : Tx} (href : 0 < (x.fs.inode c).ref)
    (hbusy : (x.fs.inode c).busy = true) {E : Panic → Prop} :
    wpE (inTx (iunlock c)) x (fun _ x' => x'.blocks = x.blocks) E := by
  simp only [iunlock, wpE_inTx, wpE_bind, wpE_get]
  rw [if_neg (by simp [hbusy]; omega)]
  exact wpE_setInode.mpr trivial

/-- A section that logs nothing. -/
theorem filewriteSection_refused (href : 0 < (s.inode f.ip).ref)
    (hvalid : (s.inode f.ip).valid = true) (hbusy : (s.inode f.ip).busy = false)
    (addr : Nat → UInt8) (hbad : (s.inode f.ip).din.type = T_DEV ∨
      WriteRefused (s.inode f.ip).din.size.toNat f.off (chunk i n).toUInt32) :
    WithinBudget (filewriteSection f addr i n) s := by
  have hspec : wpE (filewriteSection f addr i n) ⟨s, []⟩ (fun _ x' => x'.blocks = [])
      fun _ => True := by
    unfold filewriteSection
    refine wpE_bind.mpr (wpE_inTx.mpr ((ilock_valid href hvalid hbusy).mono ?_ fun _ he => he))
    rintro _ _ rfl
    refine wpE_bind_of (tx_writei_refused ?_) fun r x hx => ?_
    · rw [State.set_self]
      exact hbad
    · refine wpE_bind_of (inTx_blocks _ x) fun _ x' hx' => wpE_pure.mpr ?_
      rw [hx', hx]
  intro r x' hr
  rw [hspec.of_ok hr]
  exact Nat.zero_le _

/-- What a section logs. -/
theorem filewriteSection_spec (h : Sound s) (href : 0 < (s.inode f.ip).ref)
    (hvalid : (s.inode f.ip).valid = true) (hbusy : (s.inode f.ip).busy = false) (hi : 0 ≤ i)
    (hn : i < n) (addr : Nat → UInt8) (hdev : (s.inode f.ip).din.type ≠ T_DEV)
    (hok : ¬ WriteRefused (s.inode f.ip).din.size.toNat f.off (chunk i n).toUInt32) :
    wpE (filewriteSection f addr i n) ⟨s, []⟩
      (fun _ x' => 0 ≤ s.slack f.ip (needed (s.inode f.ip).inum
          (spanned f.off.toNat (chunk i n).toUInt32.toNat)) ∧
        x'.blocks.toFinset.card = s.cost f.ip f.off.toNat (chunk i n).toUInt32.toNat)
      fun _ => s.slack f.ip (needed (s.inode f.ip).inum
        (spanned f.off.toNat (chunk i n).toUInt32.toNat)) < 0 := by
  set s₁ := s.set f.ip { s.inode f.ip with busy := true } with hs₁
  have hinode : s₁.inode f.ip = { s.inode f.ip with busy := true } := Function.update_self _ _ _
  have hheld : Held s₁ f.ip := by
    have hsound : Sound s₁ := h.set_same href rfl rfl fun hv => hv
    refine hsound.held ?_ ?_
    · rw [hinode]
      exact href
    · rw [hinode]
      exact hvalid
  unfold filewriteSection
  refine wpE_bind.mpr (wpE_inTx.mpr ((ilock_valid href hvalid hbusy).mono ?_ fun _ he => he))
  rintro _ _ rfl
  rw [← hs₁]
  have hsize : (s₁.inode f.ip).din.size = (s.inode f.ip).din.size := by rw [hinode]
  have hinum : (s₁.inode f.ip).inum = (s.inode f.ip).inum := by rw [hinode]
  refine wpE_bind.mpr ((tx_writei_spec hheld ?_ ?_ (chunk_pos hi hn)).mono ?_ fun e he => ?_)
  · rw [hinode]
    exact hdev
  · rw [hsize]
    exact hok
  · rintro r x' ⟨x₁, htraced, hgrown, ⟨d, hd⟩, hblocks⟩
    have hcard := htraced.card_logged hgrown rfl hblocks
    have hslack := (htraced.card_taken hgrown).2
    rw [hinum, hs₁, set_busy_slack] at hslack
    rw [hs₁, set_busy_cost] at hcard
    refine wpE_bind_of (tx_iunlock_blocks ?_ ?_) fun _ x₂ hx₂ => ?_
    · rw [hd, hinode]
      exact href
    · rw [hd, hinode]
    · refine wpE_pure.mpr ⟨hslack, ?_⟩
      rw [hx₂]
      exact hcard
  · rw [hinum, hs₁, set_busy_slack] at he
    exact he

end Budget

/-! ### on a roomy disk -/

/-- A disk like the small one, with nineteen free blocks. -/
def roomyDisk : Nat → Block
  | 1 => Words.store (fun _ => 0) 0 (Words.image fun k => [24, 19, 4, 1, 2, 3, 4].getD k 0) 28
  | 3 => putDinode (fun _ => 0) 1 emptyFile
  | 4 => fun k => if k.val = 0 then 0x1f else 0
  | _ => fun _ => 0

/-- Its file is in the cache, and not locked. -/
def roomy : Fs.State where
  sb := ⟨24, 19, 4, 1, 2, 3, 4⟩
  disk := roomyDisk
  inode := fun c => ⟨1, if c.val = 0 then 1 else 0, false, true, emptyFile⟩
  devsw := ⟨fun _ => none, fun _ => none⟩

theorem roomy_sound : Sound roomy :=
  .of_empty_file ⟨by decide, by decide, by decide, by decide, by decide⟩ (by decide +kernel)
    (by decide +kernel) (by decide +kernel) (getDinode_putDinode _ (by decide) _) (by decide)
    (by decide) fun _ => ⟨rfl, rfl⟩

end Sysfile
end Xv6
