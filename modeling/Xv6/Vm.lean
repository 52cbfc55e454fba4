import Xv6.Lib.Prog
import Xv6.Lib.Words

/-!
# Xv6.Vm

Page tables: `vm.c`.

Memory is what the kernel sees of it, in pages of `PGSIZE` bytes; a page is given by its
number, an address divided by `PGSIZE`.  The kernel sees the physical page `p` at
`p2v p`, and a page table entry has the number of a physical page and flags.
-/

namespace Xv6.Vm

open Words

def PGSIZE : Nat := 4096

def NPTENTRIES : Nat := 1024

/-- The pages below `KERNBASE`. -/
def KERNPAGE : Nat := 0x80000

/-- The contents of a page. -/
abbrev Page : Type := Fin PGSIZE → UInt8

/-- The pages of the kernel's address space. -/
abbrev Mem : Type := Nat → Page

/-- The page at which the kernel sees a physical page. -/
def p2v (p : Nat) : Nat := (p + KERNPAGE) % 0x100000

/-- Page directory index. -/
def PDX (va : UInt32) : Nat := va.toNat / PGSIZE / NPTENTRIES

/-- Page table index. -/
def PTX (va : UInt32) : Nat := va.toNat / PGSIZE % NPTENTRIES

def PGROUNDDOWN (va : UInt32) : UInt32 := va - UInt32.ofNat (va.toNat % PGSIZE)

/-- `*pte & PTE_P` -/
def present (pte : Nat) : Bool := pte.testBit 0

/-- `*pte & PTE_U` -/
def user (pte : Nat) : Bool := pte.testBit 2

/-- `p2v(PTE_ADDR(*pte))` -/
def frame (pte : Nat) : Nat := p2v (pte / PGSIZE)

/-- Entry `i` of a page directory or a page table. -/
def word (m : Mem) (page i : Nat) : Nat := le32 (m page) (4 * i)

/-- `walkpgdir(pgdir, va, 0)`: where the entry for `va` is, if there is a page table. -/
def walkpgdir (m : Mem) (pgdir : Nat) (va : UInt32) : Option (Nat × Nat) :=
  let pde := word m pgdir (PDX va)
  if present pde then some (frame pde, PTX va) else none

/-- Why the kernel does not go on. -/
inductive Fault
  /-- the entry at address 0 is read -/
  | nullPte
deriving DecidableEq

/-- Code of the kernel. -/
abbrev M (α : Type) := Prog Fault Mem α

/-- Map user virtual address to kernel address: the page, 0 if there is none. -/
def uva2ka (pgdir : Nat) (uva : UInt32) : M Nat := do
  match walkpgdir (← get) pgdir uva with
  | none => throw .nullPte
  | some (table, i) =>
      let pte := word (← get) table i
      if present pte = false then return 0
      else if user pte = false then return 0
      else return frame pte

/-- `memmove` to a part of a page. -/
def memmove (page off : Nat) (src : Nat → UInt8) (n : Nat) : M Unit :=
  modify fun m => Function.update m page (store (m page) off src n)

/-- The loop of `copyout`: a pass copies at least one byte. -/
def copyoutLoop (pgdir : Nat) : Nat → UInt32 → (Nat → UInt8) → Nat → M Int32
  | 0, _, _, _ => return 0
  | fuel + 1, va, buf, len =>
      if len = 0 then return 0
      else do
        let va0 := PGROUNDDOWN va
        let pa0 ← uva2ka pgdir va0
        if pa0 = 0 then return -1
        else do
          let n := min (PGSIZE - (va - va0).toNat) len
          memmove pa0 (va - va0).toNat buf n
          copyoutLoop pgdir fuel (va0 + UInt32.ofNat PGSIZE) (fun j => buf (n + j)) (len - n)

/-- Copy `len` bytes from `p` to user address `va` in page table `pgdir`. -/
def copyout (pgdir : Nat) (va : UInt32) (p : Nat → UInt8) (len : UInt32) : M Int32 :=
  copyoutLoop pgdir len.toNat va p len.toNat

end Xv6.Vm
