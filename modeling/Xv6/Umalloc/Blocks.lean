import Mathlib.Order.Interval.Set.Disjoint
import Xv6.Umalloc

/-!
# Xv6.Umalloc.Blocks

The blocks of the heap.

A block is an address and a number of units, and owns the bytes from its header
on.  `Tiled` says that a list of blocks, of which the free list and the allocated
blocks are parts, tiles the memory from `sbrk`.  It does not depend on the order of
the list, so a block that is allocated or freed only changes its place in it; two
blocks are joined with `Tiled.join_mid` and one is cut with `Tiled.cut_mid`.
-/

namespace Xv6.Umalloc

/-! ## blocks -/

structure Block where
  addr : Nat
  units : Nat

namespace Block

/-- The address after the block. -/
def stop (b : Block) : Nat := b.addr + 8 * b.units

/-- The bytes of a block, with its header. -/
def bytes (b : Block) : Set Nat := Set.Ico b.addr b.stop

theorem mem_bytes {b : Block} {x : Nat} : x ∈ b.bytes ↔ b.addr ≤ x ∧ x < b.stop := Set.mem_Ico

end Block

/-- The static header. -/
def root (base : Nat) : Block := ⟨base, 0⟩

def bytes (l : List Block) : Set Nat := {x | ∃ b ∈ l, x ∈ b.bytes}

/-- The blocks lie in the order of the list and do not touch. -/
def Apart (l : List Block) : Prop := l.Pairwise fun a b => a.stop < b.addr

/-- Where a block lies, from another one of the list. -/
theorem Apart.cases {x f : Block} {pre post : List Block} (h : Apart (pre ++ x :: post))
    (hf : f ∈ pre ++ x :: post) :
    (f ∈ pre ∧ f.stop < x.addr) ∨ f = x ∨ (f ∈ post ∧ x.stop < f.addr) := by
  obtain ⟨-, hpost, hcross⟩ := List.pairwise_append.mp h
  rcases List.mem_append.mp hf with hin | hin
  · exact .inl ⟨hin, hcross f hin x List.mem_cons_self⟩
  · rcases List.mem_cons.mp hin with rfl | hin
    · exact .inr (.inl rfl)
    · exact .inr (.inr ⟨hin, (List.pairwise_cons.mp hpost).1 f hin⟩)

theorem Apart.shrink {b b' : Block} {pre post : List Block} (h : Apart (pre ++ b :: post))
    (haddr : b'.addr = b.addr) (hstop : b'.stop ≤ b.stop) : Apart (pre ++ b' :: post) := by
  obtain ⟨hpre, hpost, hcross⟩ := List.pairwise_append.mp h
  have hb := List.pairwise_cons.mp hpost
  refine List.pairwise_append.mpr ⟨hpre, List.pairwise_cons.mpr ⟨fun f hf => ?_, hb.2⟩, ?_⟩
  · exact Nat.lt_of_le_of_lt hstop (hb.1 f hf)
  · intro e he f hf
    rcases List.mem_cons.mp hf with rfl | hf
    · exact haddr ▸ hcross e he b List.mem_cons_self
    · exact hcross e he f (List.mem_cons_of_mem _ hf)

theorem Block.addr_le_stop (b : Block) : b.addr ≤ b.stop := Nat.le_add_right _ _

@[simp] theorem bytes_nil : bytes [] = ∅ := by simp [bytes]

@[simp] theorem bytes_cons (b : Block) (l : List Block) : bytes (b :: l) = b.bytes ∪ bytes l := by
  ext x
  simp [bytes]

@[simp] theorem bytes_root (base : Nat) : (root base).bytes = ∅ := by
  simp [Block.bytes, Block.stop, root]

/-- Two blocks that touch are one. -/
theorem bytes_join (a n m : Nat) :
    (⟨a, n⟩ : Block).bytes ∪ (⟨a + 8 * n, m⟩ : Block).bytes = (⟨a, n + m⟩ : Block).bytes := by
  unfold Block.bytes Block.stop
  rw [Set.Ico_union_Ico_eq_Ico (by simp) (by simp), Nat.mul_add, Nat.add_assoc]

theorem Block.subset_bytes {b : Block} {l : List Block} (h : b ∈ l) : b.bytes ⊆ Umalloc.bytes l :=
  fun _ hx => ⟨b, h, hx⟩

/-- The memory that `sbrk` gave. -/
def memory (mem : List (Nat × Nat)) : Set Nat := {x | ∃ r ∈ mem, r.1 ≤ x ∧ x < r.2}

/-! ## the invariant -/

/-- Two blocks that do not overlap, with their headers at different addresses. -/
def Separate (a b : Block) : Prop := (a.stop ≤ b.addr ∨ b.stop ≤ a.addr) ∧ a.addr ≠ b.addr

theorem Separate.symm {a b : Block} (h : Separate a b) : Separate b a := ⟨h.1.symm, h.2.symm⟩

/-- The blocks, of which one is the static header, tile the memory from `sbrk`. -/
structure Tiled (base : Nat) (h : Heap) (B : List Block) : Prop where
  size : ∀ b ∈ B, h.size b.addr = b.units
  units : ∀ b ∈ B, b = root base ∨ 0 < b.units
  separate : B.Pairwise Separate
  tile : bytes B = memory h.mem
  mem : ∀ x ∈ memory h.mem, base + 8 ≤ x ∧ x < h.brk
  brk : h.brk < 2 ^ 32
  base_le : base + 8 ≤ h.brk
  base_pos : 0 < base

namespace Tiled

variable {base : Nat} {h : Heap} {B B' pre post : List Block} {a b : Block}

theorem perm (ht : Tiled base h B) (hp : B.Perm B') : Tiled base h B' where
  size b hb := ht.size b (hp.mem_iff.mpr hb)
  units b hb := ht.units b (hp.mem_iff.mpr hb)
  separate := (hp.pairwise_iff fun h => h.symm).mp ht.separate
  tile := by
    rw [← ht.tile]
    ext x
    simp only [bytes, hp.mem_iff]
  mem := ht.mem
  brk := ht.brk
  base_le := ht.base_le
  base_pos := ht.base_pos

theorem setPtr (ht : Tiled base h B) (c v : Nat) : Tiled base (h.setPtr c v) B :=
  ⟨ht.size, ht.units, ht.separate, ht.tile, ht.mem, ht.brk, ht.base_le, ht.base_pos⟩

theorem setFreep (ht : Tiled base h B) (c : Nat) : Tiled base { h with freep := c } B :=
  ⟨ht.size, ht.units, ht.separate, ht.tile, ht.mem, ht.brk, ht.base_le, ht.base_pos⟩

/-- A block with units lies in the heap. -/
theorem bounds (ht : Tiled base h B) (hb : b ∈ B) (hu : 0 < b.units) :
    base + 8 ≤ b.addr ∧ b.stop ≤ h.brk := by
  have hmem {x : Nat} (hx : x ∈ b.bytes) : base + 8 ≤ x ∧ x < h.brk := by
    apply ht.mem
    rw [← ht.tile]
    exact ⟨b, hb, hx⟩
  have hfirst := hmem (Block.mem_bytes.mpr ⟨Nat.le_refl _, by unfold Block.stop; omega⟩)
  have hlast := hmem (x := b.stop - 1)
    (Block.mem_bytes.mpr ⟨by unfold Block.stop; omega, by unfold Block.stop; omega⟩)
  omega

theorem bounds' (ht : Tiled base h B) (hb : b ∈ B) : base ≤ b.addr ∧ b.stop ≤ h.brk := by
  rcases ht.units b hb with rfl | hu
  · have := ht.base_le
    simp only [root, Block.stop]
    omega
  · have := ht.bounds hb hu
    omega

/-- `a + a.size` does not overflow. -/
theorem plus_eq (ht : Tiled base h B) (hb : b ∈ B) : plus b.addr b.units = b.stop := by
  have := (ht.bounds' hb).2
  have := ht.brk
  unfold Block.stop at *
  exact Nat.mod_eq_of_lt (by omega)

theorem separate_of_mem (ht : Tiled base h (pre ++ a :: post)) (hb : b ∈ pre ++ post) :
    Separate a b := by
  have := (List.perm_middle.pairwise_iff fun h => Separate.symm h).mp ht.separate
  exact (List.pairwise_cons.mp this).1 b hb

/-- **Two blocks that touch** become one. -/
theorem join (ht : Tiled base h (a :: b :: B)) (htouch : a.stop = b.addr) (hu : 0 < a.units) :
    Tiled base (h.setSize a.addr (a.units + b.units)) (⟨a.addr, a.units + b.units⟩ :: B) := by
  have hsep := List.pairwise_cons.mp ht.separate
  have hsep' := List.pairwise_cons.mp hsep.2
  refine ⟨?_, ?_, ?_, ?_, ht.mem, ht.brk, ht.base_le, ht.base_pos⟩
  · intro e he
    rcases List.mem_cons.mp he with rfl | he
    · exact Function.update_self ..
    · rw [Heap.setSize_size,
        Function.update_of_ne (hsep.1 e (List.mem_cons_of_mem _ he)).2.symm]
      exact ht.size e (List.mem_cons_of_mem _ (List.mem_cons_of_mem _ he))
  · intro e he
    rcases List.mem_cons.mp he with rfl | he
    · exact .inr (Nat.add_pos_left hu _)
    · exact ht.units e (List.mem_cons_of_mem _ (List.mem_cons_of_mem _ he))
  · refine List.pairwise_cons.mpr ⟨fun e he => ?_, hsep'.2⟩
    have ha := hsep.1 e (List.mem_cons_of_mem _ he)
    have hb := hsep'.1 e he
    unfold Separate Block.stop at *
    dsimp only
    omega
  · have hjoin := bytes_join a.addr a.units b.units
    rw [show a.addr + 8 * a.units = b.addr from htouch] at hjoin
    have := ht.tile
    rw [bytes_cons, bytes_cons, ← Set.union_assoc] at this
    rw [bytes_cons, ← hjoin]
    exact this

/-- The same in the middle of a list. -/
theorem join_mid (ht : Tiled base h (pre ++ a :: b :: post)) (htouch : a.stop = b.addr)
    (hu : 0 < a.units) :
    Tiled base (h.setSize a.addr (a.units + b.units))
      (pre ++ ⟨a.addr, a.units + b.units⟩ :: post) := by
  have hfront : Tiled base h (a :: b :: (pre ++ post)) :=
    ht.perm (List.perm_append_comm_assoc pre [a, b] post)
  exact (hfront.join htouch hu).perm List.perm_middle.symm

/-- **A block is cut** into two. -/
theorem cut (ht : Tiled base h (a :: B)) {n : Nat} (hn : 0 < n) (hlt : n < a.units) :
    Tiled base ((h.setSize a.addr (a.units - n)).setSize (a.addr + 8 * (a.units - n)) n)
      (⟨a.addr, a.units - n⟩ :: ⟨a.addr + 8 * (a.units - n), n⟩ :: B) := by
  have hsep := List.pairwise_cons.mp ht.separate
  have hne : a.addr ≠ a.addr + 8 * (a.units - n) := by omega
  have hother (e : Block) (he : e ∈ B) :
      e.addr ≠ a.addr + 8 * (a.units - n) ∧ Separate ⟨a.addr, a.units - n⟩ e ∧
        Separate ⟨a.addr + 8 * (a.units - n), n⟩ e := by
    have ha := hsep.1 e he
    have hab := ht.bounds List.mem_cons_self (by omega)
    rcases ht.units e (List.mem_cons_of_mem _ he) with rfl | hu
    · simp only [Separate, Block.stop, root] at ha ⊢
      omega
    · simp only [Separate, Block.stop] at ha ⊢
      omega
  refine ⟨?_, ?_, ?_, ?_, ht.mem, ht.brk, ht.base_le, ht.base_pos⟩
  · intro e he
    simp only [Heap.setSize_size]
    rcases List.mem_cons.mp he with rfl | he
    · rw [Function.update_of_ne hne, Function.update_self]
    · rcases List.mem_cons.mp he with rfl | he
      · rw [Function.update_self]
      · rw [Function.update_of_ne (hother e he).1, Function.update_of_ne (hsep.1 e he).2.symm]
        exact ht.size e (List.mem_cons_of_mem _ he)
  · intro e he
    rcases List.mem_cons.mp he with rfl | he
    · exact .inr (Nat.sub_pos_of_lt hlt)
    · rcases List.mem_cons.mp he with rfl | he
      · exact .inr hn
      · exact ht.units e (List.mem_cons_of_mem _ he)
  · refine List.pairwise_cons.mpr ⟨fun e he => ?_,
      List.pairwise_cons.mpr ⟨fun e he => (hother e he).2.2, hsep.2⟩⟩
    rcases List.mem_cons.mp he with rfl | he
    · exact ⟨.inl (Nat.le_refl _), hne⟩
    · exact (hother e he).2.1
  · have hjoin := bytes_join a.addr (a.units - n) n
    rw [Nat.sub_add_cancel hlt.le] at hjoin
    rw [bytes_cons, bytes_cons, ← Set.union_assoc, hjoin, ← bytes_cons]
    exact ht.tile

theorem cut_mid (ht : Tiled base h (pre ++ a :: post)) {n : Nat} (hn : 0 < n) (hlt : n < a.units) :
    Tiled base ((h.setSize a.addr (a.units - n)).setSize (a.addr + 8 * (a.units - n)) n)
      (⟨a.addr + 8 * (a.units - n), n⟩ :: (pre ++ ⟨a.addr, a.units - n⟩ :: post)) :=
  ((ht.perm List.perm_middle).cut hn hlt).perm
    ((List.Perm.swap _ _ _).trans (List.perm_middle.symm.cons _))

end Tiled

end Xv6.Umalloc
