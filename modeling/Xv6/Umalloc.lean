import Xv6.Lib.Run
import Xv6.Lib.Circle
import Xv6.Param

/-!
# Xv6.Umalloc

The user memory allocator, `umalloc.c`, with `sbrk` under it.

Addresses and sizes are 32-bit words, kept as numbers with the reduction written
out (`word`).  The headers are a store by address: `ptr` and `size` of the header
at `a`.  `sbrk` is a parameter of `malloc`: it maps the end of the heap and the
argument to the result and the new end.  `sysSbrk` is the system call, where the
only choice left is whether `kalloc` finds enough pages; a program that calls
`sbrk` itself makes gaps.

The loops have no bound in the source.  A loop that only reads the store visits an
address twice if it goes on for more than `2 ^ 32` rounds, and so never ends;
`none` is what a call that does not end gives.
-/

namespace Xv6.Umalloc

/-- A 32-bit word. -/
def word (n : Nat) : Nat := n % 2 ^ 32

/-- `(char*)-1` -/
def nowhere : Nat := 2 ^ 32 - 1

/-- The headers and the statics of the allocator, and what `sbrk` gave it. -/
structure Heap where
  /-- `s.ptr` of the header at an address -/
  ptr : Nat → Nat
  /-- `s.size` of the header at an address -/
  size : Nat → Nat
  /-- NULL before the first `malloc` -/
  freep : Nat
  /-- the end of the heap -/
  brk : Nat
  /-- the first byte and the byte after the last one of each region from `sbrk` -/
  mem : List (Nat × Nat)

namespace Heap

def setPtr (h : Heap) (a v : Nat) : Heap := { h with ptr := Function.update h.ptr a v }

def setSize (h : Heap) (a v : Nat) : Heap := { h with size := Function.update h.size a v }

variable (h : Heap) (a v : Nat)

@[simp] theorem setPtr_ptr : (h.setPtr a v).ptr = Function.update h.ptr a v := rfl
@[simp] theorem setPtr_size : (h.setPtr a v).size = h.size := rfl
@[simp] theorem setPtr_brk : (h.setPtr a v).brk = h.brk := rfl
@[simp] theorem setPtr_mem : (h.setPtr a v).mem = h.mem := rfl
@[simp] theorem setPtr_freep : (h.setPtr a v).freep = h.freep := rfl
@[simp] theorem setSize_ptr : (h.setSize a v).ptr = h.ptr := rfl
@[simp] theorem setSize_size : (h.setSize a v).size = Function.update h.size a v := rfl
@[simp] theorem setSize_brk : (h.setSize a v).brk = h.brk := rfl
@[simp] theorem setSize_mem : (h.setSize a v).mem = h.mem := rfl
@[simp] theorem setSize_freep : (h.setSize a v).freep = h.freep := rfl

end Heap

/-- `a + n` for a pointer to headers. -/
def plus (a n : Nat) : Nat := word (a + 8 * n)

/-! ## free -/

/-- Does the block at `bp` belong between `p` and the block after it?  The loop of
`free` ends there, by its condition or by the `break`. -/
def fits (h : Heap) (bp p : Nat) : Bool :=
  (p < bp && bp < h.ptr p) || (h.ptr p ≤ p && (p < bp || bp < h.ptr p))

/-- Link the block at `bp` to the block after `p`, or join the two. -/
def joinNext (h : Heap) (bp p : Nat) : Heap :=
  if plus bp (h.size bp) = h.ptr p then
    let h := h.setSize bp (word (h.size bp + h.size (h.ptr p)))
    h.setPtr bp (h.ptr (h.ptr p))
  else h.setPtr bp (h.ptr p)

/-- Link `p` to the block at `bp`, or join the two. -/
def joinPrev (h : Heap) (bp p : Nat) : Heap :=
  if plus p (h.size p) = bp then
    let h := h.setSize p (word (h.size p + h.size bp))
    h.setPtr p (h.ptr bp)
  else h.setPtr p bp

def free (h : Heap) (ap : Nat) : Option Heap := do
  let bp := word (ap + (2 ^ 32 - 8))
  let p ← seek h.ptr (fits h bp) (2 ^ 32) h.freep
  return { joinPrev (joinNext h bp p) bp p with freep := p }

/-! ## malloc -/

/-- The end of the heap and the argument, to the result and the new end. -/
abbrev Sbrk : Type := Nat → Nat → Nat × Nat

/-- A NULL result is `some (0, _)`. -/
def morecore (sbrk : Sbrk) (nu : Nat) (h : Heap) : Option (Nat × Heap) :=
  let nu := if nu < 4096 then 4096 else nu
  let (p, brk) := sbrk h.brk (word (nu * 8))
  let h := { h with brk }
  if p = nowhere then some (0, h)
  else do
    let h := { h with mem := (p, brk) :: h.mem }
    let h ← free (h.setSize p nu) (plus p 1)
    return (h.freep, h)

/-- Take `nunits` units from the block at `p`, which follows `prevp`. -/
def carve (nunits prevp p : Nat) (h : Heap) : Nat × Heap :=
  if h.size p = nunits then
    (plus p 1, { h.setPtr prevp (h.ptr p) with freep := prevp })
  else
    let h := h.setSize p (h.size p - nunits)
    let q := plus p (h.size p)
    (plus q 1, { h.setSize q nunits with freep := prevp })

/-- The loop of `malloc`. -/
def mallocLoop (sbrk : Sbrk) (nunits : Nat) : Nat → Nat → Nat → Heap → Option (Nat × Heap)
  | 0, _, _, _ => none
  | n + 1, prevp, p, h =>
      if nunits ≤ h.size p then some (carve nunits prevp p h)
      else if p = h.freep then do
        let (p, h) ← morecore sbrk nunits h
        if p = 0 then return (0, h) else mallocLoop sbrk nunits n p (h.ptr p) h
      else mallocLoop sbrk nunits n p (h.ptr p) h

/-- `(nbytes + sizeof(Header) - 1)/sizeof(Header) + 1` -/
def units (nbytes : UInt32) : Nat := word (nbytes.toNat + 7) / 8 + 1

/-- `base` is the address of the static header. -/
def malloc (base : Nat) (sbrk : Sbrk) (nbytes : UInt32) (h : Heap) : Option (Nat × Heap) :=
  let h := if h.freep = 0 then { (h.setPtr base base).setSize base 0 with freep := base } else h
  -- one round of the list before `morecore` and one after it
  mallocLoop sbrk (units nbytes) (2 ^ 33) h.freep (h.ptr h.freep) h

/-! ## sbrk -/

/-- The size that `allocuvm` returns; `ok` if `kalloc` has enough pages. -/
def allocuvm (ok : Bool) (oldsz newsz : Nat) : Nat :=
  if KERNBASE ≤ newsz then 0
  else if newsz < oldsz then oldsz
  else if ok then newsz
  else 0

def deallocuvm (oldsz newsz : Nat) : Nat := if oldsz ≤ newsz then oldsz else newsz

/-- `sys_sbrk` and `growproc`; the argument is a word that is read as an `int`. -/
def sysSbrk (ok : Bool) : Sbrk := fun sz n =>
  if n = 0 then (sz, sz)
  else
    let newsz := if n < 2 ^ 31 then allocuvm ok sz (word (sz + n)) else deallocuvm sz (word (sz + n))
    if newsz = 0 then (nowhere, sz) else (sz, newsz)

/-! ## runs -/

/-- A call of the program. -/
inductive Call
  | malloc (nbytes : UInt32) (sbrk : Sbrk)
  | free (ap : Nat)

/-- The heap, with the results of `malloc` that are not yet freed and their sizes. -/
structure State extends Heap where
  live : List (Nat × UInt32)

def step (base : Nat) (s : State) : Call → Option State
  | .malloc nbytes sbrk => do
      let (p, h) ← malloc base sbrk nbytes s.toHeap
      return { h with live := if p = 0 then s.live else (p, nbytes) :: s.live }
  | .free ap => do
      let h ← free s.toHeap ap
      return { h with live := s.live.filter fun a => a.1 ≠ ap }

/-- The state in which `main` begins. -/
structure Start (base : Nat) (s : State) : Prop where
  freep : s.freep = 0
  live : s.live = []
  mem : s.mem = []
  /-- the static header is in the program's image, below the heap -/
  base_pos : 0 < base
  base_lt : base + 8 ≤ s.brk
  brk_lt : s.brk < KERNBASE

end Xv6.Umalloc
