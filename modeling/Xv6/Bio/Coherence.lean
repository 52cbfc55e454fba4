import Xv6.Lib.Run
import Xv6.Bio

/-!
# Xv6.Bio.Coherence

The buffer cache under any interleaving of its users: no block is in two buffers, the
ring is whole and in the order of the releases, a busy buffer belongs to one process,
dirty buffers are not recycled, and `bread` returns what was last stored
(`buffer_cache`).

The invariant has three parts: the ring (`RingOk`), who holds what (`Owners`), and the
data (`DataOk`).  `brelse` alone changes the first one.
-/

namespace Xv6.Bio

open Run

variable {NBUF : Nat} {y y' : Bcache NBUF} {p : Nat} {b : Fin NBUF}

/-! ## the invariant -/

/-- The ring has every buffer once, the most recently released first. -/
structure RingOk (links : Links (Fin NBUF)) (released : Fin NBUF → Nat) (clock : Nat) : Prop where
  ring : ∃ xs, links.Ring xs ∧ (∀ b, b ∈ xs) ∧ xs.Pairwise fun a b => released b ≤ released a
  clock : ∀ b, released b ≤ clock

/-- The buffer that a process waits for in `iderw`. -/
def Pending.On (b : Fin NBUF) : Pending NBUF → Prop
  | .reading _ _ c | .writing c => c = b
  | .none | .bget .. | .got .. => False

/-- What a process knows about the buffer it works on. -/
def PendingOk (y : Bcache NBUF) (held : List (Fin NBUF)) : Pending NBUF → Prop
  | .none => True
  | .bget dev _ => dev < 2
  | .got dev blockno b | .reading dev blockno b => b ∈ held ∧ y.unsaved b = false ∧
      (y.buf b).dev = dev ∧ (y.buf b).blockno = blockno
  | .writing b => b ∈ held ∧ y.unsaved b = false

/-- Who holds what. -/
structure Owners (y : Bcache NBUF) : Prop where
  nodup : ∀ p, (y.proc p).held.Nodup
  one : ∀ b p q, b ∈ (y.proc p).held → b ∈ (y.proc q).held → p = q
  busy : ∀ b, (y.buf b).busy = true ↔ ∃ p, b ∈ (y.proc p).held
  pending : ∀ p, PendingOk y (y.proc p).held (y.proc p).pending
  /-- what is queued belongs to a process that waits for it -/
  queue : ∀ b ∈ y.idequeue, ¬ y.Ready b ∧ ∃ p, b ∈ (y.proc p).held ∧ (y.proc p).pending.On b
  queueNodup : y.idequeue.Nodup

/-- Buffers, disks and what was last stored. -/
structure DataOk (buf : Fin NBUF → Buf) (unsaved : Fin NBUF → Bool)
    (disk stored : Nat → Nat → Block) : Prop where
  uniq : ∀ b c, (buf b).dev ≠ NODEV → (buf b).dev = (buf c).dev →
    (buf b).blockno = (buf c).blockno → b = c
  dev : ∀ b, (buf b).dev ≠ NODEV → (buf b).dev < 2
  used : ∀ b, (buf b).busy = true → (buf b).dev ≠ NODEV
  saved : ∀ b, (buf b).busy = false → unsaved b = false
  data : ∀ b, (buf b).dev ≠ NODEV → unsaved b = false →
    (buf b).valid = true ∨ (buf b).dirty = true →
    (buf b).data = stored (buf b).dev (buf b).blockno
  /-- a block that no dirty buffer has is on the disk -/
  disk : ∀ dev blockno, dev < 2 → (∀ b, (buf b).dev = dev → (buf b).blockno = blockno →
    (buf b).dirty = false) → disk dev blockno = stored dev blockno

structure Inv (y : Bcache NBUF) : Prop where
  ring : RingOk y.links y.released y.clock
  owners : Owners y
  data : DataOk y.buf y.unsaved y.disk y.stored

/-! ## changes of one buffer or process -/

@[simp] theorem setProc_self (y : Bcache NBUF) (p : Nat) (f : Proc NBUF → Proc NBUF) :
    (y.setProc p f).proc p = f (y.proc p) := Function.update_self _ _ _

theorem setProc_of_ne {q : Nat} (h : q ≠ p) (f : Proc NBUF → Proc NBUF) :
    (y.setProc p f).proc q = y.proc q := Function.update_of_ne h _ _

@[simp] theorem setBuf_self (y : Bcache NBUF) (b : Fin NBUF) (f : Buf → Buf) :
    (y.setBuf b f).buf b = f (y.buf b) := Function.update_self _ _ _

theorem setBuf_of_ne {c : Fin NBUF} (h : c ≠ b) (f : Buf → Buf) :
    (y.setBuf b f).buf c = y.buf c := Function.update_of_ne h _ _

/-- What a process is in the middle of concerns the buffers it holds, and no other
process. -/
theorem Owners.not_on (h : Owners y) (hb : b ∈ (y.proc p).held)
    (hp : ¬ (y.proc p).pending.On b) : b ∉ y.idequeue := by
  intro hmem
  obtain ⟨-, q, hq, hon⟩ := h.queue b hmem
  obtain rfl := h.one b q p hq hb
  exact hp hon

/-- The facts about the buffer of a process depend on that buffer only. -/
theorem PendingOk.congr {held : List (Fin NBUF)} {w : Pending NBUF} (h : PendingOk y held w)
    (hsame : ∀ b ∈ held, y'.unsaved b = y.unsaved b ∧ (y'.buf b).dev = (y.buf b).dev ∧
      (y'.buf b).blockno = (y.buf b).blockno) : PendingOk y' held w := by
  cases w with
  | none => trivial
  | bget dev blockno => exact h
  | got dev blockno b =>
      obtain ⟨hb, hu, hd, hn⟩ := h
      obtain ⟨hu', hd', hn'⟩ := hsame b hb
      exact ⟨hb, hu'.trans hu, hd'.trans hd, hn'.trans hn⟩
  | reading dev blockno b =>
      obtain ⟨hb, hu, hd, hn⟩ := h
      obtain ⟨hu', hd', hn'⟩ := hsame b hb
      exact ⟨hb, hu'.trans hu, hd'.trans hd, hn'.trans hn⟩
  | writing b => exact ⟨h.1, (hsame b h.1).1.trans h.2⟩

/-- **A process moves** from one place to another, with the buffers it holds. -/
theorem Inv.setProc (h : Inv y) {f : Proc NBUF → Proc NBUF}
    (hheld : (f (y.proc p)).held = (y.proc p).held)
    (hp : PendingOk y (y.proc p).held (f (y.proc p)).pending)
    (hon : ∀ b, (y.proc p).pending.On b → b ∈ y.idequeue → (f (y.proc p)).pending.On b) :
    Inv (y.setProc p f) := by
  have hsame (q : Nat) : ((y.setProc p f).proc q).held = (y.proc q).held := by
    by_cases hqp : q = p
    · rw [hqp, setProc_self, hheld]
    · rw [setProc_of_ne hqp]
  refine ⟨h.ring, ⟨?_, ?_, ?_, ?_, ?_, h.owners.queueNodup⟩, h.data⟩
  · intro q
    rw [hsame]
    exact h.owners.nodup q
  · intro c q r
    rw [hsame, hsame]
    exact h.owners.one c q r
  · intro c
    simp only [hsame]
    exact h.owners.busy c
  · intro q
    rw [hsame]
    by_cases hqp : q = p
    · rw [hqp, setProc_self]
      exact hp
    · rw [setProc_of_ne hqp]
      exact h.owners.pending q
  · intro c hc
    obtain ⟨hr, q, hq, hqon⟩ := h.owners.queue c hc
    refine ⟨hr, q, ?_, ?_⟩
    · rw [hsame]
      exact hq
    · by_cases hqp : q = p
      · rw [hqp] at hqon ⊢
        rw [setProc_self]
        exact hon c hqon hc
      · rw [setProc_of_ne hqp]
        exact hqon

/-- The log changes. -/
theorem Inv.setLog (h : Inv y) (log : Log) : Inv { y with log } :=
  ⟨h.ring, ⟨h.owners.nodup, h.owners.one, h.owners.busy, h.owners.pending, h.owners.queue,
    h.owners.queueNodup⟩, h.data⟩

/-! ## changes of the data -/

section Data

theorem lt_NODEV {dev : Nat} (h : dev < 2) : dev ≠ NODEV := by
  unfold NODEV
  omega

variable {buf : Fin NBUF → Buf} {unsaved unsaved' : Fin NBUF → Bool}
  {disk disk' stored stored' : Nat → Nat → Block} {x : Buf}

/-- A buffer changes and stays the buffer of its block; disk and stored data change for
that block at most. -/
theorem DataOk.set_same (h : DataOk buf unsaved disk stored) (hdev : x.dev = (buf b).dev)
    (hblockno : x.blockno = (buf b).blockno) (hused : x.busy = true → x.dev ≠ NODEV)
    (hsaved : x.busy = false → unsaved' b = false)
    (hunsaved : ∀ c, c ≠ b → unsaved' c = unsaved c)
    (hdata : x.dev ≠ NODEV → unsaved' b = false → x.valid = true ∨ x.dirty = true →
      x.data = stored' x.dev x.blockno)
    (hclean : x.dev < 2 → x.dirty = false → disk' x.dev x.blockno = stored' x.dev x.blockno)
    (hstored : ∀ d n, ¬ (d = x.dev ∧ n = x.blockno) → stored' d n = stored d n)
    (hdisk : ∀ d n, ¬ (d = x.dev ∧ n = x.blockno) → disk' d n = disk d n) :
    DataOk (Function.update buf b x) unsaved' disk' stored' := by
  have hself : Function.update buf b x b = x := Function.update_self _ _ _
  have hother {c : Fin NBUF} (hc : c ≠ b) : Function.update buf b x c = buf c :=
    Function.update_of_ne hc _ _
  have haddr (c : Fin NBUF) : (Function.update buf b x c).dev = (buf c).dev ∧
      (Function.update buf b x c).blockno = (buf c).blockno := by
    by_cases hc : c = b
    · rw [hc, hself]
      exact ⟨hdev, hblockno⟩
    · rw [hother hc]
      exact ⟨rfl, rfl⟩
  constructor
  · intro c e
    rw [(haddr c).1, (haddr c).2, (haddr e).1, (haddr e).2]
    exact h.uniq c e
  · intro c
    rw [(haddr c).1]
    exact h.dev c
  · intro c
    by_cases hc : c = b
    · rw [hc, hself]
      exact hused
    · rw [hother hc]
      exact h.used c
  · intro c
    by_cases hc : c = b
    · rw [hc, hself]
      exact hsaved
    · rw [hother hc, hunsaved c hc]
      exact h.saved c
  · intro c
    by_cases hc : c = b
    · rw [hc, hself]
      exact hdata
    · rw [hother hc, hunsaved c hc]
      intro hd hu hv
      rw [hstored _ _ fun he => hc (h.uniq c b hd (he.1.trans hdev) (he.2.trans hblockno))]
      exact h.data c hd hu hv
  · intro d n hd hno
    by_cases he : d = x.dev ∧ n = x.blockno
    · obtain ⟨rfl, rfl⟩ := he
      have := hno b
      rw [hself] at this
      exact hclean hd (this rfl rfl)
    · rw [hstored d n he, hdisk d n he]
      refine h.disk d n hd fun c hcd hcn => ?_
      have hc : c ≠ b := by
        rintro rfl
        exact he ⟨(hdev.trans hcd).symm, (hblockno.trans hcn).symm⟩
      have := hno c
      rw [hother hc] at this
      exact this hcd hcn

/-- A clean buffer becomes the buffer of a block that no buffer has. -/
theorem DataOk.recycle (h : DataOk buf unsaved disk stored) (hdirty : (buf b).dirty = false)
    (hdev : x.dev < 2) (hmiss : ∀ c, ¬ ((buf c).dev = x.dev ∧ (buf c).blockno = x.blockno))
    (hbusy : x.busy = true) (hvalid : x.valid = false) (hclean : x.dirty = false) :
    DataOk (Function.update buf b x) unsaved disk stored := by
  have hself : Function.update buf b x b = x := Function.update_self _ _ _
  have hother {c : Fin NBUF} (hc : c ≠ b) : Function.update buf b x c = buf c :=
    Function.update_of_ne hc _ _
  constructor
  · intro c e hd hde hne
    by_cases hc : c = b
    · by_cases he : e = b
      · rw [hc, he]
      · rw [hc, hself, hother he] at hde hne
        exact absurd ⟨hde.symm, hne.symm⟩ (hmiss e)
    · rw [hother hc] at hd hde hne
      by_cases he : e = b
      · rw [he, hself] at hde hne
        exact absurd ⟨hde, hne⟩ (hmiss c)
      · rw [hother he] at hde hne
        exact h.uniq c e hd hde hne
  · intro c
    by_cases hc : c = b
    · rw [hc, hself]
      exact fun _ => hdev
    · rw [hother hc]
      exact h.dev c
  · intro c
    by_cases hc : c = b
    · rw [hc, hself]
      exact fun _ => lt_NODEV hdev
    · rw [hother hc]
      exact h.used c
  · intro c
    by_cases hc : c = b
    · rw [hc, hself, hbusy]
      exact fun hn => absurd hn (by decide)
    · rw [hother hc]
      exact h.saved c
  · intro c
    by_cases hc : c = b
    · rw [hc, hself, hvalid, hclean]
      exact fun _ _ hn => absurd hn (by decide)
    · rw [hother hc]
      exact h.data c
  · intro d n hd hno
    refine h.disk d n hd fun c hcd hcn => ?_
    by_cases hc : c = b
    · rw [hc]
      exact hdirty
    · have := hno c
      rw [hother hc] at this
      exact this hcd hcn

end Data

/-- The blocks of clean buffers are on the disk. -/
theorem DataOk.disk_of_clean {buf : Fin NBUF → Buf} {unsaved : Fin NBUF → Bool}
    {disk stored : Nat → Nat → Block} (h : DataOk buf unsaved disk stored)
    (hused : (buf b).dev ≠ NODEV) (hclean : (buf b).dirty = false) :
    disk (buf b).dev (buf b).blockno = stored (buf b).dev (buf b).blockno := by
  refine h.disk _ _ (h.dev b hused) fun c hcd hcn => ?_
  rw [← h.uniq b c hused hcd.symm hcn.symm]
  exact hclean

/-! ## what a step does -/

theorem Inv.busy (h : Inv y) (hb : b ∈ (y.proc p).held) : (y.buf b).busy = true :=
  (h.owners.busy b).mpr ⟨p, hb⟩

theorem Inv.used (h : Inv y) (hb : b ∈ (y.proc p).held) : (y.buf b).dev ≠ NODEV :=
  h.data.used b (h.busy hb)

/-- No buffer that is busy or dirty becomes the buffer of another block. -/
def Pinned (y y' : Bcache NBUF) : Prop :=
  ∀ b, (y.buf b).busy = true ∨ (y.buf b).dirty = true →
    (y'.buf b).dev = (y.buf b).dev ∧ (y'.buf b).blockno = (y.buf b).blockno

theorem pinned_of_buf (h : y'.buf = y.buf) : Pinned y y' := fun b _ => by rw [h]; exact ⟨rfl, rfl⟩

theorem pinned_setBuf {x : Buf} (hbuf : y'.buf = Function.update y.buf b x)
    (hdev : x.dev = (y.buf b).dev) (hblockno : x.blockno = (y.buf b).blockno) : Pinned y y' := by
  intro c _
  by_cases hc : c = b
  · rw [hc, hbuf, Function.update_self]
    exact ⟨hdev, hblockno⟩
  · rw [hbuf, Function.update_of_ne hc]
    exact ⟨rfl, rfl⟩

/-- `bread(dev, blockno)` has found its buffer and not returned it yet. -/
def Pending.Reads (dev blockno : Nat) (b : Fin NBUF) (w : Pending NBUF) : Prop :=
  w = .got dev blockno b ∨ w = .reading dev blockno b

/-- When `bread` returns, the buffer has what was last stored for the block, or what is on
the disk if nothing was. -/
def Returns (y y' : Bcache NBUF) : Prop :=
  ∀ p dev blockno b, (y.proc p).pending.Reads dev blockno b → (y'.proc p).pending = .none →
    b ∈ (y'.proc p).held ∧ (y'.buf b).dev = dev ∧ (y'.buf b).blockno = blockno ∧
      (y'.buf b).data = y'.stored dev blockno

theorem returns_of_proc (h : y'.proc = y.proc) : Returns y y' := by
  intro p dev blockno b hr hnone
  rw [h] at hnone
  rcases hr with hr | hr
  · rw [hr] at hnone
    cases hnone
  · rw [hr] at hnone
    cases hnone

/-- Only a process that is in `bread` can return from it. -/
theorem returns_of_ne (hp : ∀ dev blockno b, ¬ (y.proc p).pending.Reads dev blockno b)
    (hproc : ∀ q, q ≠ p → y'.proc q = y.proc q) : Returns y y' := by
  intro q dev blockno b hr hnone
  have hqp : q ≠ p := by
    rintro rfl
    exact hp dev blockno b hr
  rw [hproc q hqp] at hnone
  rcases hr with hr | hr
  · rw [hr] at hnone
    cases hnone
  · rw [hr] at hnone
    cases hnone

theorem not_reads_of_none {w : Pending NBUF} (h : w = .none) (dev blockno : Nat) (b : Fin NBUF) :
    ¬ w.Reads dev blockno b := by
  rw [h]
  rintro (hr | hr)
  · cases hr
  · cases hr

/-- `bread` returns a valid buffer. -/
theorem returns_breturn (h : Inv y) {dev blockno : Nat}
    (hp : (y.proc p).pending.Reads dev blockno b) (hvalid : (y.buf b).valid = true) :
    Returns y (y.breturn p b) := by
  intro q dev' blockno' c hr hnone
  by_cases hq : q = p
  · subst hq
    have hok := h.owners.pending q
    have hfacts : b ∈ (y.proc q).held ∧ y.unsaved b = false ∧ (y.buf b).dev = dev ∧
        (y.buf b).blockno = blockno := by
      rcases hp with hp | hp
      · rw [hp] at hok
        exact hok
      · rw [hp] at hok
        exact hok
    have hsame : dev' = dev ∧ blockno' = blockno ∧ c = b := by
      rcases hp with hp | hp
      · rcases hr with hr | hr
        · cases hp.symm.trans hr
          exact ⟨rfl, rfl, rfl⟩
        · cases hp.symm.trans hr
      · rcases hr with hr | hr
        · cases hp.symm.trans hr
        · cases hp.symm.trans hr
          exact ⟨rfl, rfl, rfl⟩
    obtain ⟨rfl, rfl, rfl⟩ := hsame
    obtain ⟨hheld, hsaved, rfl, rfl⟩ := hfacts
    refine ⟨?_, rfl, rfl, h.data.data c (h.used hheld) hsaved (.inl hvalid)⟩
    rw [Bcache.breturn, setProc_self]
    exact hheld
  · rw [Bcache.breturn, setProc_of_ne hq] at hnone
    exact absurd hr (not_reads_of_none hnone _ _ _)

/-- **What a step does.** -/
structure Ok (y y' : Bcache NBUF) : Prop where
  inv : Inv y'
  pinned : Pinned y y'
  returns : Returns y y'

/-- The log, and nothing else. -/
theorem Inv.ok_log (h : Inv y) (log : Log) : Ok y { y with log } :=
  ⟨h.setLog log, pinned_of_buf rfl, returns_of_proc rfl⟩

/-- A process that is not in `bread`, and nothing of the buffers. -/
theorem ok_of_proc (h : Inv y') (hbuf : y'.buf = y.buf)
    (hp : ∀ dev blockno b, ¬ (y.proc p).pending.Reads dev blockno b)
    (hproc : ∀ q, q ≠ p → y'.proc q = y.proc q) : Ok y y' :=
  ⟨h, pinned_of_buf hbuf, returns_of_ne hp hproc⟩

/-- One buffer, for the same block, and a process that is not in `bread`. -/
theorem ok_of_buf (h : Inv y') {x : Buf} (hbuf : y'.buf = Function.update y.buf b x)
    (hdev : x.dev = (y.buf b).dev) (hblockno : x.blockno = (y.buf b).blockno)
    (hp : ∀ dev blockno b, ¬ (y.proc p).pending.Reads dev blockno b)
    (hproc : ∀ q, q ≠ p → y'.proc q = y.proc q) : Ok y y' :=
  ⟨h, pinned_setBuf hbuf hdev hblockno, returns_of_ne hp hproc⟩

/-! ## `bget` -/

/-- The scans of `bget` go through all buffers. -/
theorem RingOk.length_lt {links : Links (Fin NBUF)} {xs : List (Fin NBUF)} (h : links.Ring xs) :
    xs.length < NBUF + 1 := by
  have hle := h.nodup.length_le_card
  rw [Fintype.card_fin] at hle
  omega

/-- A buffer that is not busy is given to a process. -/
theorem Inv.give (h : Inv y) {dev blockno : Nat} (hp : (y.proc p).pending = .bget dev blockno)
    (hfree : (y.buf b).busy = false) {f : Buf → Buf} (hbusy : (f (y.buf b)).busy = true)
    (hdev : (f (y.buf b)).dev = dev) (hblockno : (f (y.buf b)).blockno = blockno)
    (hdata : DataOk (y.setBuf b f).buf y.unsaved y.disk y.stored) :
    Inv ((y.setBuf b f).give p dev blockno b) := by
  have hnot (q : Nat) : b ∉ (y.proc q).held := by
    intro hq
    rw [(h.owners.busy b).mpr ⟨q, hq⟩] at hfree
    exact absurd hfree (by decide)
  have hself : ((y.setBuf b f).give p dev blockno b).proc p =
      { y.proc p with held := b :: (y.proc p).held, pending := .got dev blockno b } :=
    setProc_self _ _ _
  have hother {q : Nat} (hq : q ≠ p) : ((y.setBuf b f).give p dev blockno b).proc q = y.proc q :=
    setProc_of_ne hq _
  have hbuf {c : Fin NBUF} (hc : c ≠ b) : ((y.setBuf b f).give p dev blockno b).buf c = y.buf c :=
    setBuf_of_ne hc f
  have hheld (q : Nat) (c : Fin NBUF) : c ∈ (((y.setBuf b f).give p dev blockno b).proc q).held ↔
      (c = b ∧ q = p) ∨ c ∈ (y.proc q).held := by
    by_cases hq : q = p
    · rw [hq, hself, List.mem_cons]
      simp
    · rw [hother hq]
      simp [hq]
  refine ⟨h.ring, ⟨?_, ?_, ?_, ?_, ?_, h.owners.queueNodup⟩, hdata⟩
  · intro q
    by_cases hq : q = p
    · rw [hq, hself]
      exact List.nodup_cons.mpr ⟨hnot p, h.owners.nodup p⟩
    · rw [hother hq]
      exact h.owners.nodup q
  · intro c q r hcq hcr
    rw [hheld] at hcq hcr
    rcases hcq with ⟨rfl, rfl⟩ | hcq
    · rcases hcr with ⟨-, rfl⟩ | hcr
      · rfl
      · exact absurd hcr (hnot r)
    · rcases hcr with ⟨rfl, rfl⟩ | hcr
      · exact absurd hcq (hnot q)
      · exact h.owners.one c q r hcq hcr
  · intro c
    simp only [hheld]
    by_cases hc : c = b
    · subst hc
      rw [show ((y.setBuf c f).give p dev blockno c).buf c = f (y.buf c) from setBuf_self _ _ _, hbusy]
      exact ⟨fun _ => ⟨p, .inl ⟨rfl, rfl⟩⟩, fun _ => rfl⟩
    · rw [hbuf hc, h.owners.busy c]
      simp [hc]
  · intro q
    by_cases hq : q = p
    · rw [hq, hself]
      exact ⟨List.mem_cons_self, h.data.saved b hfree, (congrArg Buf.dev (setBuf_self _ _ _)).trans hdev,
        (congrArg Buf.blockno (setBuf_self _ _ _)).trans hblockno⟩
    · rw [hother hq]
      refine (h.owners.pending q).congr fun c hc => ?_
      have hcb : c ≠ b := fun he => hnot q (he ▸ hc)
      rw [hbuf hcb]
      exact ⟨rfl, rfl, rfl⟩
  · intro c hc
    obtain ⟨hr, q, hq, hon⟩ := h.owners.queue c hc
    have hcb : c ≠ b := fun he => hnot q (he ▸ hq)
    have hqp : q ≠ p := by
      rintro rfl
      rw [hp] at hon
      exact hon
    refine ⟨?_, q, ?_, ?_⟩
    · unfold Bcache.Ready
      rw [hbuf hcb]
      exact hr
    · rw [hother hqp]
      exact hq
    · rw [hother hqp]
      exact hon

/-- What the section of `bget` does. -/
theorem bget_cases (h : Inv y) {dev blockno : Nat} (hs : y.bget p dev blockno = some y') :
    (∃ b, (y.buf b).dev = dev ∧ (y.buf b).blockno = blockno ∧ (y.buf b).busy = true ∧ y' = y) ∨
    (∃ b, (y.buf b).dev = dev ∧ (y.buf b).blockno = blockno ∧ (y.buf b).busy = false ∧
      y' = (y.setBuf b fun b => { b with busy := true }).give p dev blockno b) ∨
    (∃ b, (y.buf b).busy = false ∧ (y.buf b).dirty = false ∧
      (∀ c, ¬ ((y.buf c).dev = dev ∧ (y.buf c).blockno = blockno)) ∧
      y' = (y.setBuf b fun b =>
        { b with dev, blockno, busy := true, valid := false, dirty := false }).give p dev blockno
          b) := by
  obtain ⟨xs, hring, hall, -⟩ := h.ring.ring
  have hlt := RingOk.length_lt hring
  rw [Bcache.bget, scan_next hring.linked hlt, scan_prev hring.linked hlt] at hs
  split at hs
  · next b hfind =>
    have hb := List.find?_some hfind
    simp only [Bool.and_eq_true, beq_iff_eq] at hb
    split at hs
    · next hbusy => exact .inl ⟨b, hb.1, hb.2, hbusy, (Option.some.inj hs).symm⟩
    · next hbusy =>
      exact .inr (.inl ⟨b, hb.1, hb.2, by simpa using hbusy, (Option.some.inj hs).symm⟩)
  · next hnone =>
    split at hs
    · next b hfind =>
      have hb := List.find?_some hfind
      simp only [Bool.and_eq_true, Bool.not_eq_true'] at hb
      refine .inr (.inr ⟨b, hb.1, hb.2, fun c hc => ?_, (Option.some.inj hs).symm⟩)
      have := List.find?_eq_none.mp hnone c (hall c)
      simp [hc.1, hc.2] at this
    · cases hs

theorem bget_ok (h : Inv y) {dev blockno : Nat} (hp : (y.proc p).pending = .bget dev blockno)
    (hs : y.bget p dev blockno = some y') : Ok y y' := by
  have hdev : dev < 2 := by
    have := h.owners.pending p
    rw [hp] at this
    exact this
  have hnot (d n : Nat) (b : Fin NBUF) : ¬ (y.proc p).pending.Reads d n b := by
    rw [hp]
    rintro (hr | hr)
    · cases hr
    · cases hr
  rcases bget_cases h hs with ⟨b, -, -, -, rfl⟩ | ⟨b, hd, hn, hfree, rfl⟩ | ⟨b, hfree, hclean, hmiss, rfl⟩
  · exact ⟨h, pinned_of_buf rfl, returns_of_proc rfl⟩
  · have hused : (y.buf b).dev ≠ NODEV := by
      rw [hd]
      exact lt_NODEV hdev
    refine ok_of_buf (h.give hp hfree rfl hd hn ?_) rfl rfl rfl hnot fun q hq => setProc_of_ne hq _
    refine h.data.set_same rfl rfl (fun _ => hused) (fun hc => ?_) (fun _ _ => rfl)
      (h.data.data b) (fun _ hclean => ?_) (fun _ _ _ => rfl) fun _ _ _ => rfl
    · exact absurd hc (by simp)
    · exact h.data.disk_of_clean hused hclean
  · refine ⟨h.give hp hfree rfl rfl rfl (h.data.recycle hclean hdev hmiss rfl rfl rfl), ?_,
      returns_of_ne hnot fun q hq => setProc_of_ne hq _⟩
    intro c hc
    have hcb : c ≠ b := by
      rintro rfl
      rw [hfree, hclean] at hc
      exact absurd hc (by decide)
    have hsame := setBuf_of_ne (y := y) hcb fun b =>
      { b with dev, blockno, busy := true, valid := false, dirty := false }
    exact ⟨congrArg Buf.dev hsame, congrArg Buf.blockno hsame⟩

/-! ## buffers in use -/

/-- A process changes a buffer that it holds. -/
theorem Owners.use (h : Owners y) (hb : b ∈ (y.proc p).held) (hp : (y.proc p).pending = .none)
    {x : Buf} (hbuf : y'.buf = Function.update y.buf b x) (hbusy : x.busy = (y.buf b).busy)
    (hunsaved : ∀ c, c ≠ b → y'.unsaved c = y.unsaved c) (hproc : y'.proc = y.proc)
    (hqueue : y'.idequeue = y.idequeue) : Owners y' := by
  have hother {c : Fin NBUF} (hc : c ≠ b) : y'.buf c = y.buf c := by
    rw [hbuf, Function.update_of_ne hc]
  constructor
  · rw [hproc]
    exact h.nodup
  · rw [hproc]
    exact h.one
  · intro c
    rw [hproc, ← h.busy c]
    by_cases hc : c = b
    · rw [hc, hbuf, Function.update_self, hbusy]
    · rw [hother hc]
  · intro q
    rw [hproc]
    by_cases hq : q = p
    · rw [hq, hp]
      trivial
    · refine (h.pending q).congr fun c hc => ?_
      have hcb : c ≠ b := fun he => hq (h.one c q p hc (he ▸ hb))
      rw [hother hcb, hunsaved c hcb]
      exact ⟨rfl, rfl, rfl⟩
  · intro c hc
    rw [hqueue] at hc
    have hcb : c ≠ b := by
      rintro rfl
      exact h.not_on hb (by rw [hp]; exact id) hc
    obtain ⟨hr, hq⟩ := h.queue c hc
    unfold Bcache.Ready
    rw [hother hcb, hproc]
    exact ⟨hr, hq⟩
  · rw [hqueue]
    exact h.queueNodup

theorem Inv.modify (h : Inv y) (hb : b ∈ (y.proc p).held) (hp : (y.proc p).pending = .none)
    (data : Block) : Inv (y.modify b data) := by
  have hused := h.used hb
  refine ⟨h.ring, h.owners.use hb hp rfl rfl (fun c hc => Function.update_of_ne hc _ _) rfl rfl, ?_⟩
  refine h.data.set_same rfl rfl (fun _ => hused) (fun hc => ?_)
    (fun c hc => Function.update_of_ne hc _ _) (fun _ hu => ?_) (fun _ hclean => ?_)
    (fun _ _ _ => rfl) fun _ _ _ => rfl
  · exact absurd hc (by rw [h.busy hb]; decide)
  · have hset : (y.modify b data).unsaved b = true := Function.update_self _ _ _
    rw [hset] at hu
    exact absurd hu (by decide)
  · exact h.data.disk_of_clean hused hclean

theorem update_update_of_not {f : Nat → Nat → Block} {d n : Nat} {v : Block} {d' n' : Nat}
    (h : ¬ (d' = d ∧ n' = n)) :
    Function.update f d (Function.update (f d) n v) d' n' = f d' n' := by
  by_cases hd : d' = d
  · rw [hd, Function.update_self, Function.update_of_ne fun hn => h ⟨hd, hn⟩]
  · rw [Function.update_of_ne hd]

theorem store_stored (y : Bcache NBUF) (b : Fin NBUF) :
    (y.store b).stored (y.buf b).dev (y.buf b).blockno = (y.buf b).data := by
  unfold Bcache.store
  dsimp only
  rw [Function.update_self, Function.update_self]

theorem Inv.store (h : Inv y) (hb : b ∈ (y.proc p).held) (hp : (y.proc p).pending = .none) :
    Inv (y.store b) := by
  have hused := h.used hb
  refine ⟨h.ring, h.owners.use hb hp rfl rfl (fun c hc => Function.update_of_ne hc _ _) rfl rfl, ?_⟩
  refine h.data.set_same rfl rfl (fun _ => hused) (fun _ => Function.update_self _ _ _)
    (fun c hc => Function.update_of_ne hc _ _) (fun _ _ _ => ?_) (fun _ hclean => ?_)
    (fun d n hdn => update_update_of_not hdn) fun _ _ _ => rfl
  · exact (store_stored y b).symm
  · exact absurd hclean (by simp)

/-- A buffer is queued, and the process that holds it waits for it. -/
theorem Inv.enqueue (h : Inv y) (hb : b ∈ (y.proc p).held)
    (hp : ∀ c, ¬ (y.proc p).pending.On c) (hready : ¬ y.Ready b) {w : Pending NBUF}
    (hw : PendingOk y (y.proc p).held w) (hon : w.On b) :
    Inv ({ y with idequeue := y.idequeue ++ [b] }.setProc p fun x => { x with pending := w }) := by
  have hnot : b ∉ y.idequeue := h.owners.not_on hb (hp b)
  set y₁ : Bcache NBUF := { y with idequeue := y.idequeue ++ [b] }
  have hheld (q : Nat) : ((y₁.setProc p fun x => { x with pending := w }).proc q).held =
      (y.proc q).held := by
    by_cases hq : q = p
    · rw [hq, setProc_self]
    · rw [setProc_of_ne hq]
  refine ⟨h.ring, ⟨?_, ?_, ?_, ?_, ?_, ?_⟩, h.data⟩
  · intro q
    rw [hheld]
    exact h.owners.nodup q
  · intro c q r
    rw [hheld, hheld]
    exact h.owners.one c q r
  · intro c
    simp only [hheld]
    exact h.owners.busy c
  · intro q
    rw [hheld]
    by_cases hq : q = p
    · rw [hq, setProc_self]
      exact hw.congr fun _ _ => ⟨rfl, rfl, rfl⟩
    · rw [setProc_of_ne hq]
      exact (h.owners.pending q).congr fun _ _ => ⟨rfl, rfl, rfl⟩
  · intro c hc
    rcases List.mem_append.mp hc with hc | hc
    · obtain ⟨hr, q, hq, hqon⟩ := h.owners.queue c hc
      have hqp : q ≠ p := by
        rintro rfl
        exact hp c hqon
      refine ⟨hr, q, ?_, ?_⟩
      · rw [hheld]
        exact hq
      · rw [setProc_of_ne hqp]
        exact hqon
    · obtain rfl := List.mem_singleton.mp hc
      refine ⟨hready, p, ?_, ?_⟩
      · rw [hheld]
        exact hb
      · rw [setProc_self]
        exact hon
  · refine List.nodup_append.mpr ⟨h.owners.queueNodup, List.nodup_singleton b, ?_⟩
    rintro c hc e he rfl
    exact hnot (List.mem_singleton.mp he ▸ hc)

theorem iderw_eq (hs : y.iderw b = some y') :
    ¬ y.Ready b ∧ y' = { y with idequeue := y.idequeue ++ [b] } := by
  unfold Bcache.iderw at hs
  split at hs
  · cases hs
  · split at hs
    · cases hs
    · next hready =>
      split at hs
      · cases hs
      · split at hs
        · cases hs
        · exact ⟨hready, (Option.some.inj hs).symm⟩

theorem bwrite_ok (h : Inv y) (hb : b ∈ (y.proc p).held) (hp : (y.proc p).pending = .none)
    (hs : y.bwrite p b = some y') : Ok y y' := by
  unfold Bcache.bwrite at hs
  split at hs
  · cases hs
  · obtain ⟨y₁, hide, rfl⟩ := Option.map_eq_some_iff.mp hs
    obtain ⟨hready, rfl⟩ := iderw_eq hide
    have hnone (c : Fin NBUF) : ¬ ((y.store b).proc p).pending.On c := by
      change ¬ (y.proc p).pending.On c
      rw [hp]
      exact id
    exact ok_of_buf ((h.store hb hp).enqueue hb hnone hready ⟨hb, Function.update_self _ _ _⟩ rfl)
      rfl rfl rfl (not_reads_of_none hp) fun q hq => setProc_of_ne hq _

theorem logWrite_ok (h : Inv y) (hb : b ∈ (y.proc p).held) (hp : (y.proc p).pending = .none)
    (hs : y.logWrite b = some y') : Ok y y' := by
  unfold Bcache.logWrite at hs
  split at hs
  · cases hs
  · split at hs
    · cases hs
    · cases hs
      exact ok_of_buf ((h.store hb hp).setLog _) rfl rfl rfl (not_reads_of_none hp) fun _ _ => rfl

/-! ## `brelse` -/

theorem RingOk.release {links : Links (Fin NBUF)} {released : Fin NBUF → Nat} {clock : Nat}
    (h : RingOk links released clock) (b : Fin NBUF) :
    RingOk ((links.unlink b).pushFront b) (Function.update released b (clock + 1)) (clock + 1) := by
  obtain ⟨xs, hring, hall, hsorted⟩ := h.ring
  obtain ⟨as, bs, rfl⟩ := List.append_of_mem (hall b)
  have hb : b ∉ as ++ bs := by
    intro hmem
    have hmiddle := (List.perm_middle.nodup_iff).mp hring.nodup
    exact (List.nodup_cons.mp hmiddle).1 hmem
  have hother {c : Fin NBUF} (hc : c ∈ as ++ bs) :
      Function.update released b (clock + 1) c = released c :=
    Function.update_of_ne (ne_of_mem_of_not_mem hc hb) _ _
  constructor
  · refine ⟨b :: (as ++ bs), hring.unlink.pushFront hb, fun c => ?_, List.pairwise_cons.mpr ⟨?_, ?_⟩⟩
    · have := hall c
      rw [List.mem_append, List.mem_cons] at this
      rw [List.mem_cons, List.mem_append]
      exact or_left_comm.mp this
    · intro c hc
      rw [Function.update_self, hother hc]
      exact (h.clock c).trans (Nat.le_succ _)
    · refine (hsorted.sublist ((List.sublist_cons_self b bs).append_left as)).imp_of_mem ?_
      intro c e hc he hle
      rw [hother hc, hother he]
      exact hle
  · intro c
    by_cases hc : c = b
    · rw [hc, Function.update_self]
    · rw [Function.update_of_ne hc]
      exact (h.clock c).trans (Nat.le_succ _)

/-- A process gives a buffer back. -/
theorem Owners.release (h : Owners y) (hb : b ∈ (y.proc p).held)
    (hp : (y.proc p).pending = .none) {x : Buf} (hbuf : y'.buf = Function.update y.buf b x)
    (hbusy : x.busy = false) (hunsaved : y'.unsaved = y.unsaved)
    (hproc : y'.proc = Function.update y.proc p { y.proc p with held := (y.proc p).held.erase b })
    (hqueue : y'.idequeue = y.idequeue) : Owners y' := by
  have hother {c : Fin NBUF} (hc : c ≠ b) : y'.buf c = y.buf c := by
    rw [hbuf, Function.update_of_ne hc]
  have hself : y'.proc p = { y.proc p with held := (y.proc p).held.erase b } := by
    rw [hproc, Function.update_self]
  have hne {q : Nat} (hq : q ≠ p) : y'.proc q = y.proc q := by
    rw [hproc, Function.update_of_ne hq]
  have hheld (q : Nat) (c : Fin NBUF) : c ∈ (y'.proc q).held ↔ c ∈ (y.proc q).held ∧ c ≠ b := by
    by_cases hq : q = p
    · rw [hq, hself, (h.nodup p).mem_erase_iff]
      exact and_comm
    · rw [hne hq]
      exact ⟨fun hc => ⟨hc, fun he => hq (h.one c q p hc (he ▸ hb))⟩, And.left⟩
  constructor
  · intro q
    by_cases hq : q = p
    · rw [hq, hself]
      exact (h.nodup p).erase b
    · rw [hne hq]
      exact h.nodup q
  · intro c q r hq hr
    exact h.one c q r ((hheld q c).mp hq).1 ((hheld r c).mp hr).1
  · intro c
    simp only [hheld]
    by_cases hc : c = b
    · rw [hc, hbuf, Function.update_self, hbusy]
      simp
    · rw [hother hc, h.busy c]
      simp [hc]
  · intro q
    by_cases hq : q = p
    · rw [hq, hself, hp]
      trivial
    · rw [hne hq]
      refine (h.pending q).congr fun c hc => ?_
      have hcb : c ≠ b := fun he => hq (h.one c q p hc (he ▸ hb))
      rw [hother hcb, hunsaved]
      exact ⟨rfl, rfl, rfl⟩
  · intro c hc
    rw [hqueue] at hc
    obtain ⟨hr, q, hq, hon⟩ := h.queue c hc
    have hqp : q ≠ p := by
      rintro rfl
      rw [hp] at hon
      exact hon
    have hcb : c ≠ b := fun he => hqp (h.one c q p hq (he ▸ hb))
    unfold Bcache.Ready
    rw [hother hcb]
    refine ⟨hr, q, ?_⟩
    rw [hne hqp]
    exact ⟨hq, hon⟩
  · rw [hqueue]
    exact h.queueNodup

theorem brelse_ok (h : Inv y) (hb : b ∈ (y.proc p).held) (hp : (y.proc p).pending = .none)
    (hsaved : y.unsaved b = false) (hs : y.brelse p b = some y') : Ok y y' := by
  have hused := h.used hb
  unfold Bcache.brelse at hs
  split at hs
  · cases hs
  · cases hs
    refine ok_of_buf ⟨h.ring.release b, h.owners.release hb hp rfl rfl rfl rfl rfl, ?_⟩ rfl rfl rfl
      (not_reads_of_none hp) fun q hq => setProc_of_ne hq _
    exact h.data.set_same rfl rfl (fun hc => absurd hc (by simp)) (fun _ => hsaved) (fun _ _ => rfl)
      (h.data.data b) (fun _ hclean => h.data.disk_of_clean hused hclean) (fun _ _ _ => rfl)
      fun _ _ _ => rfl

/-! ## the disk -/

/-- The first buffer of the queue is done. -/
theorem Owners.complete (h : Owners y) {q : List (Fin NBUF)} (hq : y.idequeue = b :: q) {x : Buf}
    (hbuf : y'.buf = Function.update y.buf b x) (hbusy : x.busy = (y.buf b).busy)
    (hdev : x.dev = (y.buf b).dev) (hblockno : x.blockno = (y.buf b).blockno)
    (hunsaved : y'.unsaved = y.unsaved) (hproc : y'.proc = y.proc) (hqueue : y'.idequeue = q) :
    Owners y' := by
  have hnodup := h.queueNodup
  rw [hq] at hnodup
  have hother {c : Fin NBUF} (hc : c ≠ b) : y'.buf c = y.buf c := by
    rw [hbuf, Function.update_of_ne hc]
  constructor
  · rw [hproc]
    exact h.nodup
  · rw [hproc]
    exact h.one
  · intro c
    rw [hproc, ← h.busy c]
    by_cases hc : c = b
    · rw [hc, hbuf, Function.update_self, hbusy]
    · rw [hother hc]
  · intro r
    rw [hproc]
    refine (h.pending r).congr fun c _ => ?_
    by_cases hc : c = b
    · rw [hc, hbuf, Function.update_self, hunsaved]
      exact ⟨rfl, hdev, hblockno⟩
    · rw [hother hc, hunsaved]
      exact ⟨rfl, rfl, rfl⟩
  · intro c hc
    rw [hqueue] at hc
    have hcb : c ≠ b := fun he => (List.nodup_cons.mp hnodup).1 (he ▸ hc)
    obtain ⟨hr, hp⟩ := h.queue c (hq ▸ List.mem_cons_of_mem b hc)
    unfold Bcache.Ready
    rw [hother hcb, hproc]
    exact ⟨hr, hp⟩
  · rw [hqueue]
    exact (List.nodup_cons.mp hnodup).2

/-- What a process waits for, it has stored. -/
theorem Owners.unsaved_of_queued (h : Owners y) (hb : b ∈ y.idequeue) : y.unsaved b = false := by
  obtain ⟨-, p, -, hon⟩ := h.queue b hb
  have hp := h.pending p
  cases hw : (y.proc p).pending with
  | none => rw [hw] at hon; exact hon.elim
  | bget dev blockno => rw [hw] at hon; exact hon.elim
  | got dev blockno c => rw [hw] at hon; exact hon.elim
  | reading dev blockno c =>
      rw [hw] at hon hp
      exact hon ▸ hp.2.1
  | writing c =>
      rw [hw] at hon hp
      exact hon ▸ hp.2

theorem transfer_of_dirty (h : (y.buf b).dirty = true) : y.transfer b = { y with
    buf := Function.update y.buf b { y.buf b with valid := true, dirty := false }
    disk := Function.update y.disk ((y.buf b).dev % 2)
      (Function.update (y.disk ((y.buf b).dev % 2)) (y.buf b).blockno (y.buf b).data) } := by
  unfold Bcache.transfer
  simp only [h, if_true]
  rfl

theorem transfer_of_clean (h : (y.buf b).dirty = false) : y.transfer b = { y with
    buf := Function.update y.buf b { y.buf b with
      data := y.disk ((y.buf b).dev % 2) (y.buf b).blockno, valid := true, dirty := false } } := by
  unfold Bcache.transfer Bcache.setBuf
  simp only [h, Bool.false_eq_true, if_false, Function.update_self, Function.update_idem]

theorem ideintr_ok (h : Inv y) (hs : y.ideintr = some y') : Ok y y' := by
  unfold Bcache.ideintr at hs
  split at hs
  · cases hs
    exact ⟨h, pinned_of_buf rfl, returns_of_proc rfl⟩
  · next b q hq =>
    split at hs
    · cases hs
      have hmem : b ∈ y.idequeue := by
        rw [hq]
        exact List.mem_cons_self
      obtain ⟨-, p, hb, -⟩ := h.owners.queue b hmem
      have hused := h.used hb
      have hsaved := h.owners.unsaved_of_queued hmem
      have hunit : (y.buf b).dev % 2 = (y.buf b).dev := Nat.mod_eq_of_lt (h.data.dev b hused)
      cases hdirty : (y.buf b).dirty with
      | true =>
          rw [transfer_of_dirty hdirty, hunit]
          have hdata := h.data.data b hused hsaved (.inr hdirty)
          refine ⟨⟨h.ring, h.owners.complete hq rfl rfl rfl rfl rfl rfl rfl, ?_⟩,
            pinned_setBuf rfl rfl rfl, returns_of_proc rfl⟩
          refine h.data.set_same rfl rfl (fun _ => hused) (fun _ => hsaved) (fun _ _ => rfl)
            (fun _ _ _ => hdata) (fun _ _ => ?_) (fun _ _ _ => rfl)
            fun d n hdn => update_update_of_not hdn
          dsimp only
          rw [Function.update_self, Function.update_self]
          exact hdata
      | false =>
          rw [transfer_of_clean hdirty, hunit]
          have hdisk := h.data.disk_of_clean hused hdirty
          refine ⟨⟨h.ring, h.owners.complete hq rfl rfl rfl rfl rfl rfl rfl, ?_⟩,
            pinned_setBuf rfl rfl rfl, returns_of_proc rfl⟩
          exact h.data.set_same rfl rfl (fun _ => hused) (fun _ => hsaved) (fun _ _ => rfl)
            (fun _ _ _ => hdisk) (fun _ _ => hdisk) (fun _ _ _ => rfl) fun _ _ _ => rfl
    · cases hs

/-! ## steps and runs -/

theorem Inv.breturn (h : Inv y) (hp : ∀ c, (y.proc p).pending.On c → y.Ready c) :
    Inv (y.breturn p b) :=
  h.setProc rfl trivial fun c hon hc => absurd (hp c hon) (h.owners.queue c hc).1

theorem Inv.goOn (h : Inv y) (is : List Instr) : Inv (y.goOn p is) :=
  h.setProc rfl (h.owners.pending p) fun _ hon _ => hon

theorem mem_of_bufOf {r : Reg} (hb : y.bufOf p r = some b) : b ∈ (y.proc p).held := by
  obtain ⟨-, hmem⟩ := Option.filter_eq_some_iff.mp hb
  simpa using hmem

/-- A statement of `commit` that calls a function: first the process goes on. -/
theorem Ok.of_goOn {is : List Instr} (h : Ok (y.goOn p is) y') (hp : (y.proc p).pending = .none) :
    Ok y y' where
  inv := h.inv
  pinned := h.pinned
  returns := by
    intro q dev blockno b hr hq
    refine h.returns q dev blockno b ?_ hq
    have hqp : q ≠ p := by
      rintro rfl
      exact not_reads_of_none hp dev blockno b hr
    rw [Bcache.goOn, setProc_of_ne hqp]
    exact hr

theorem instr_ok (h : Inv y) (hp : (y.proc p).pending = .none) {is : List Instr} {i : Instr}
    (hs : y.instr p is i = some y') : Ok y y' := by
  have hnot := not_reads_of_none hp
  have hheld : ((y.goOn p is).proc p).held = (y.proc p).held := by
    rw [Bcache.goOn, setProc_self]
  have hnone : ((y.goOn p is).proc p).pending = .none := by
    rw [Bcache.goOn, setProc_self]
    exact hp
  cases i with
  | bread r blockno =>
      cases hs
      refine ok_of_proc (h.setProc rfl (show ROOTDEV.toNat < 2 by decide) fun c hon _ => ?_) rfl hnot
        fun q hq => setProc_of_ne hq _
      rw [hp] at hon
      exact hon.elim
  | memmove dst src =>
      rw [Bcache.instr] at hs
      split at hs
      · next b c hb hc =>
        cases hs
        exact ok_of_buf ((h.modify (mem_of_bufOf hb) hp _).goOn is) rfl rfl rfl hnot
          fun q hq => setProc_of_ne hq _
      · cases hs
  | putHead r =>
      obtain ⟨b, hb, rfl⟩ := Option.map_eq_some_iff.mp hs
      exact ok_of_buf ((h.modify (mem_of_bufOf hb) hp _).goOn is) rfl rfl rfl hnot
        fun q hq => setProc_of_ne hq _
  | bwrite r =>
      obtain ⟨b, hb, hs⟩ := Option.bind_eq_some_iff.mp hs
      exact (bwrite_ok (h.goOn is) (hheld ▸ mem_of_bufOf hb) hnone hs).of_goOn hp
  | brelse r =>
      obtain ⟨b, hb, hs⟩ := Option.bind_eq_some_iff.mp hs
      split at hs
      · cases hs
      · next hunsaved =>
        have hsaved : y.unsaved b = false := by simpa using hunsaved
        exact (brelse_ok (h.goOn is) (hheld ▸ mem_of_bufOf hb) hnone hsaved hs).of_goOn hp
  | clear =>
      cases hs
      exact ok_of_proc ((h.setLog { y.log with lh := [] }).goOn is) rfl hnot
        fun q hq => setProc_of_ne hq _

/-- **A step** keeps the invariant, recycles no busy or dirty buffer, and lets `bread`
return the right data. -/
theorem step_ok {act : Act NBUF} (h : Inv y) (hs : y.step act = some y') : Ok y y' := by
  cases act with
  | bread p dev blockno =>
      rw [Bcache.step] at hs
      split at hs
      · next hok =>
        cases hs
        refine ok_of_proc (h.setProc rfl hok.2 fun c hon _ => ?_) rfl (not_reads_of_none hok.1.2)
          fun q hq => setProc_of_ne hq _
        rw [hok.1.2] at hon
        exact hon.elim
      · cases hs
  | bget p =>
      rw [Bcache.step] at hs
      split at hs
      · next dev blockno hp => exact bget_ok h hp hs
      · cases hs
  | check p =>
      rw [Bcache.step] at hs
      split at hs
      · next dev blockno b hp =>
        have hnot (c : Fin NBUF) : ¬ (y.proc p).pending.On c := by
          rw [hp]
          exact id
        have hok := h.owners.pending p
        rw [hp] at hok
        split at hs
        · next hvalid =>
          cases hs
          exact ⟨h.breturn fun c hon => absurd hon (hnot c), pinned_of_buf rfl,
            returns_breturn h (.inl hp) hvalid⟩
        · obtain ⟨y₁, hide, rfl⟩ := Option.map_eq_some_iff.mp hs
          obtain ⟨hready, rfl⟩ := iderw_eq hide
          refine ⟨h.enqueue hok.1 hnot hready hok rfl, pinned_of_buf rfl, fun q d n c hr hnone => ?_⟩
          by_cases hq : q = p
          · rw [hq, setProc_self] at hnone
            cases hnone
          · rw [setProc_of_ne hq] at hnone
            exact absurd hr (not_reads_of_none hnone _ _ _)
      · cases hs
  | finish p =>
      rw [Bcache.step] at hs
      split at hs
      · next dev blockno b hp =>
        split at hs
        · next hready =>
          cases hs
          refine ⟨h.breturn fun c hon => ?_, pinned_of_buf rfl, returns_breturn h (.inr hp) hready.1⟩
          rw [hp] at hon
          exact hon ▸ hready
        · cases hs
      · next b hp =>
        split at hs
        · next hready =>
          cases hs
          refine ok_of_proc (h.setProc rfl trivial fun c hon hc => ?_) rfl ?_
            fun q hq => setProc_of_ne hq _
          · rw [hp] at hon
            exact absurd (hon ▸ hready) (h.owners.queue c hc).1
          · rw [hp]
            rintro d n c (hr | hr)
            · cases hr
            · cases hr
        · cases hs
      · cases hs
  | ideintr => exact ideintr_ok h hs
  | modify p b data =>
      rw [Bcache.step] at hs
      split at hs
      · next hok =>
        cases hs
        exact ok_of_buf (h.modify hok.2 hok.1.2 data) rfl rfl rfl (not_reads_of_none hok.1.2)
          fun _ _ => rfl
      · cases hs
  | bwrite p b =>
      rw [Bcache.step] at hs
      split at hs
      · next hok => exact bwrite_ok h hok.2 hok.1.2 hs
      · cases hs
  | logWrite p b =>
      rw [Bcache.step] at hs
      split at hs
      · next hok => exact logWrite_ok h hok.2 hok.1.2 hs
      · cases hs
  | brelse p b =>
      rw [Bcache.step] at hs
      split at hs
      · next hok => exact brelse_ok h hok.1.2 hok.1.1.2 hok.2 hs
      · cases hs
  | beginOp p =>
      rw [Bcache.step] at hs
      split at hs
      · cases hs
        exact h.ok_log _
      · cases hs
  | endOp p =>
      rw [Bcache.step] at hs
      split at hs
      · next hok =>
        dsimp only at hs
        split at hs
        · cases hs
          exact ok_of_proc ((h.setLog _).goOn _) rfl (not_reads_of_none hok.1.2)
            fun q hq => setProc_of_ne hq _
        · cases hs
          exact h.ok_log _
      · cases hs
  | commit p =>
      rw [Bcache.step] at hs
      split at hs
      · next hp _ =>
        cases hs
        have hlog := h.setLog { y.log with committing := false }
        exact ok_of_proc (hlog.setProc rfl (hlog.owners.pending p) fun _ hon _ => hon) rfl
          (not_reads_of_none hp) fun q hq => setProc_of_ne hq _
      · next hp _ => exact instr_ok h hp hs
      · cases hs

/-! ## from `binit` on -/

theorem binit_inv (disk : Nat → Nat → Block) (havedisk1 : Bool) (log : Log) :
    Inv (binit NBUF disk havedisk1 log) := by
  have hring : (binit NBUF disk havedisk1 log).links.Ring (List.finRange NBUF).reverse := by
    have h := Links.ring_empty.foldl_pushFront (List.nodup_finRange NBUF) fun _ _ => List.not_mem_nil
    rwa [List.append_nil] at h
  refine ⟨⟨⟨_, hring, fun b => ?_, ?_⟩, fun _ => le_rfl⟩, ?_, ?_⟩
  · exact List.mem_reverse.mpr (List.mem_finRange b)
  · exact List.pairwise_of_forall fun _ _ => le_rfl
  · refine ⟨fun _ => List.nodup_nil, fun b p q hb => absurd hb List.not_mem_nil, fun b => ?_,
      fun _ => trivial, fun b hb => absurd hb List.not_mem_nil, List.nodup_nil⟩
    simp [binit]
  · refine ⟨fun b c hd => absurd rfl hd, fun b hd => absurd rfl hd, fun b hb => ?_, fun _ _ => rfl,
      fun b hd => absurd rfl hd, fun _ _ _ _ => rfl⟩
    exact absurd hb (by simp [binit])

/-- The state of the cache as its users see it. -/
structure Integrity (y : Bcache NBUF) : Prop where
  /-- no block is in two buffers -/
  uniq : ∀ b c, (y.buf b).dev ≠ NODEV → (y.buf b).dev = (y.buf c).dev →
    (y.buf b).blockno = (y.buf c).blockno → b = c
  /-- the ring has every buffer once, in both directions, the most recently released first -/
  ring : ∃ xs, y.links.Ring xs ∧ (∀ b, b ∈ xs) ∧
    xs.Pairwise fun a b => y.released b ≤ y.released a
  /-- a busy buffer has one holder, and has it once -/
  holder : ∀ b, (y.buf b).busy = true → ∃! p, b ∈ (y.proc p).held
  held : ∀ p, (y.proc p).held.Nodup

theorem Inv.integrity (h : Inv y) : Integrity y where
  uniq := h.data.uniq
  ring := h.ring.ring
  holder := by
    intro b hb
    obtain ⟨p, hp⟩ := (h.owners.busy b).mp hb
    exact ⟨p, hp, fun q hq => h.owners.one b q p hq hp⟩
  held := h.owners.nodup

/-- **Integrity and coherence of the buffer cache**, in every interleaving of its users:
every state is as it should be; no step makes a dirty or busy buffer the buffer of another
block; and `bread` returns the data last stored for the block, or the contents of the
disk. -/
theorem buffer_cache (NBUF : Nat) (disk : Nat → Nat → Block) (havedisk1 : Bool) (log : Log)
    (acts : List (Act NBUF)) :
    Along Bcache.step Integrity (binit NBUF disk havedisk1 log) acts ∧
      Each Bcache.step (fun y _ y' => Pinned y y' ∧ Returns y y') (binit NBUF disk havedisk1 log)
        acts := by
  have hstart : Inv (binit NBUF disk havedisk1 log) := binit_inv disk havedisk1 log
  constructor
  · exact along_of_guarded (G := fun _ _ => True) (fun _ _ _ h _ hs => (step_ok h hs).inv)
      (fun _ h => h.integrity) hstart (guarded_of_forall_mem fun _ _ _ => trivial)
  · have hstep : ∀ (y : Bcache NBUF) act y', Inv y → y.step act = some y' →
        (Pinned y y' ∧ Returns y y') ∧ Inv y' := by
      intro y act y' h hs
      have hok := step_ok h hs
      exact ⟨⟨hok.pinned, hok.returns⟩, hok.inv⟩
    exact each_of_step hstep hstart

/-- **Nothing stored is lost**: in every interleaving, what was last stored for a block is on the
disk or in a dirty buffer, unless its holder is changing that buffer again. -/
theorem stored_kept (NBUF : Nat) (disk : Nat → Nat → Block) (havedisk1 : Bool) (log : Log)
    (acts : List (Act NBUF)) :
    Along Bcache.step (fun y => ∀ dev blockno, dev < 2 →
      y.disk dev blockno = y.stored dev blockno ∨
      ∃ b, (y.buf b).dev = dev ∧ (y.buf b).blockno = blockno ∧ (y.buf b).dirty = true ∧
        (y.unsaved b = false → (y.buf b).data = y.stored dev blockno))
      (binit NBUF disk havedisk1 log) acts := by
  refine along_of_step (fun _ _ _ h hs => (step_ok h hs).inv) (fun y h dev blockno hdev => ?_)
    (binit_inv disk havedisk1 log)
  by_cases hd : ∃ b, (y.buf b).dev = dev ∧ (y.buf b).blockno = blockno ∧ (y.buf b).dirty = true
  · obtain ⟨b, rfl, rfl, hdirty⟩ := hd
    exact .inr ⟨b, rfl, rfl, hdirty, fun hu => h.data.data b (lt_NODEV hdev) hu (.inr hdirty)⟩
  · refine .inl (h.data.disk dev blockno hdev fun b hb hn => Bool.eq_false_iff.mpr fun hdirty => ?_)
    exact hd ⟨b, hb, hn, hdirty⟩

/-- A process changes block 5 in a transaction, and commits it. -/
def oneCommit : List (Act 3) :=
  let fetch : List (Act 3) := [.bget 0, .check 0, .ideintr, .finish 0]
  let hit : List (Act 3) := [.bget 0, .check 0]
  let go : List (Act 3) := [.commit 0]
  let write : List (Act 3) := [.commit 0, .ideintr, .finish 0]
  List.flatten [[.beginOp 0, .bread 0 1 5], fetch,
    [.modify 0 0 fun _ => 7, .logWrite 0 0, .brelse 0 0, .endOp 0],
    -- write_log, write_head
    go, fetch, go, hit, go, write, go, go, go, fetch, go, write, go,
    -- install_trans
    go, hit, go, hit, go, write, go, go,
    -- n = 0, write_head
    go, go, hit, go, write, go, go]

/-- After the commit, block 5 is on the disk and its buffer is clean. -/
example : (exec Bcache.step (binit 3 (fun _ _ _ => 0) true ⟨2, 10, 0, false, []⟩) oneCommit).any
    (fun y => y.log.lh.isEmpty && !(y.buf 0).dirty && Words.get (y.disk 1 5) 0 == 7) = true := by decide +kernel

end Xv6.Bio
