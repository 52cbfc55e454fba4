import Xv6.Param
import Xv6.Lib.Words
import Xv6.Lib.Writes

/-!
# Xv6.Log

The redo log of `log.c` on a disk of blocks.

The on-disk log is a header block at `log.start`, holding a count and the
home block numbers, followed by the logged blocks:

```
log.start      int n; int block[LOGSIZE];
log.start + 1  contents of block[0]
log.start + 2  contents of block[1]
...
```

`Machine` is the disk together with what memory holds of it: the contents of
the buffers that are ahead of the disk (a block marked `B_DIRTY` by
`log_write` stays in the cache until `bwrite`), and the in-memory header.  A
header is the list of its first `n` entries: nothing reads `block[]` beyond
`n`.  `bwrite` is the only operation that changes the disk, and it also
appends to `trace`, so the disks a crash can leave behind are the ones
after a prefix of the trace.
-/

namespace Xv6

namespace Log

open Words

/-! ## the header block -/

/-- The value of a 32-bit word read as an `int`. -/
def toInt (w : Nat) : Int := if w < 2 ^ 31 then w else (w : Int) - 2 ^ 32

/-- Byte offset of `block[i]` in `struct logheader`. -/
def entryOff (i : Nat) : Nat := 4 + 4 * i

/-- The header that `read_head` loads from the header block. -/
def readHead (b : Block) : List Nat :=
  (List.range (toInt (le32 b 0)).toNat).map fun i => le32 b (entryOff i)

/-- Store `block[i..]` of the header. -/
def putEntries (b : Block) : Nat → List Nat → Block
  | _, [] => b
  | i, x :: xs => putEntries (putLe32 b (entryOff i) x) (i + 1) xs

/-- The header block that `write_head` writes: the old one with `n` and the
first `n` entries stored. -/
def putHead (b : Block) (lh : List Nat) : Block :=
  putEntries (putLe32 b 0 lh.length) 0 lh

/-! ## the machine -/

structure Machine where
  disk : Nat → Block
  cache : Nat → Option Block
  lh : List Nat
  trace : List (Nat × Block)

/-- Nothing in memory. -/
def boot (disk : Nat → Block) : Machine := ⟨disk, fun _ => none, [], []⟩

/-- `bread`: the buffer of a block holds its newest contents. -/
def bread (m : Machine) (b : Nat) : Block := (m.cache b).getD (m.disk b)

/-- `bwrite`: one atomic block write; the buffer is clean afterwards. -/
def bwrite (m : Machine) (b : Nat) (data : Block) : Machine :=
  { m with
    disk := Function.update m.disk b data
    cache := Function.update m.cache b none
    trace := m.trace ++ [(b, data)] }

/-- The search loop of `log_write` and the assignments after it:
`block[i] = b->blockno; if (i == n) n++`. -/
def absorb (lh : List Nat) (b : Nat) : List Nat :=
  let i := lh.idxOf b
  if i = lh.length then lh ++ [b] else lh.set i b

/-- `log_write` of a buffer whose contents the caller has set to `data`. -/
def logWrite (m : Machine) (b : Nat) (data : Block) : Machine :=
  { m with cache := Function.update m.cache b (some data), lh := absorb m.lh b }

/-- The loop of `write_log` from index `tail` on. -/
def writeLogFrom (start : Nat) : Nat → List Nat → Machine → Machine
  | _, [], m => m
  | tail, b :: bs, m => writeLogFrom start (tail + 1) bs (bwrite m (start + tail + 1) (bread m b))

/-- `write_log`: copy modified blocks from the cache to the log. -/
def writeLog (start : Nat) (m : Machine) : Machine := writeLogFrom start 0 m.lh m

/-- `write_head`: write the in-memory header to disk. -/
def writeHead (start : Nat) (m : Machine) : Machine :=
  bwrite m start (putHead (bread m start) m.lh)

/-- The loop of `install_trans` from index `tail` on. -/
def installFrom (start : Nat) : Nat → List Nat → Machine → Machine
  | _, [], m => m
  | tail, b :: bs, m => installFrom start (tail + 1) bs (bwrite m b (bread m (start + tail + 1)))

/-- `install_trans`: copy committed blocks from the log to their home. -/
def installTrans (start : Nat) (m : Machine) : Machine := installFrom start 0 m.lh m

/-- `commit`. -/
def commit (start : Nat) (m : Machine) : Machine :=
  if 0 < m.lh.length then
    let m := writeLog start m
    let m := writeHead start m
    let m := installTrans start m
    writeHead start { m with lh := [] }
  else m

/-- `recover_from_log`. -/
def recoverFromLog (start : Nat) (m : Machine) : Machine :=
  let m := { m with lh := readHead (bread m start) }
  let m := installTrans start m
  writeHead start { m with lh := [] }

/-! ## headers -/

theorem putEntries_le32_of_lt (b : Block) (lh : List Nat) {i off : Nat}
    (h : off + 4 ≤ entryOff i) : le32 (putEntries b i lh) off = le32 b off := by
  induction lh generalizing b i with
  | nil => rfl
  | cons x xs ih =>
      rw [putEntries, ih _ (by unfold entryOff at *; omega), le32_putLe32_of_disjoint _ (Or.inl h)]

theorem putEntries_le32 (b : Block) (lh : List Nat) (i : Nat)
    (hfit : entryOff (i + lh.length) ≤ BSIZE) (j : Nat) (hj : j < lh.length) :
    le32 (putEntries b i lh) (entryOff (i + j)) = lh[j] % 2 ^ 32 := by
  induction lh generalizing b i j with
  | nil => simp at hj
  | cons x xs ih =>
      rw [List.length_cons] at hfit hj
      cases j with
      | zero =>
          rw [putEntries, putEntries_le32_of_lt _ _ (by unfold entryOff; omega)]
          exact le32_putLe32 _ (by unfold entryOff at *; omega) _
      | succ j =>
          have hfit' : entryOff (i + 1 + xs.length) ≤ BSIZE := by
            rwa [Nat.add_right_comm, Nat.add_assoc]
          rw [putEntries, show i + (j + 1) = i + 1 + j by omega]
          exact ih _ (i + 1) hfit' j (by omega)

/-- **Header round trip**: what `write_head` stores, `read_head` loads. -/
theorem readHead_putHead (b : Block) (lh : List Nat) (hfit : entryOff lh.length ≤ BSIZE)
    (huint : ∀ x ∈ lh, x < 2 ^ 32) : readHead (putHead b lh) = lh := by
  have hlen : lh.length < 2 ^ 31 := by unfold entryOff BSIZE at hfit; omega
  have hn : le32 (putHead b lh) 0 = lh.length := by
    rw [putHead, putEntries_le32_of_lt _ _ (by unfold entryOff; omega),
      le32_putLe32 _ (by unfold BSIZE; omega)]
    omega
  have hcount : (toInt (le32 (putHead b lh) 0)).toNat = lh.length := by
    rw [hn, toInt, if_pos hlen]; simp
  unfold readHead
  rw [hcount]
  refine List.ext_getElem (by simp) fun j h1 h2 => ?_
  have hj := putEntries_le32 (putLe32 b 0 lh.length) lh 0 (by simpa using hfit) j h2
  rw [Nat.zero_add] at hj
  rw [List.getElem_map, List.getElem_range, putHead, hj]
  exact Nat.mod_eq_of_lt (huint _ (List.getElem_mem h2))

/-! ## log_write -/

theorem absorb_of_mem {lh : List Nat} {b : Nat} (h : b ∈ lh) : absorb lh b = lh := by
  have hlt := List.idxOf_lt_length_of_mem h
  unfold absorb
  rw [if_neg (by omega)]
  conv_rhs => rw [← List.set_getElem_self hlt]
  rw [List.getElem_idxOf hlt]

theorem absorb_of_not_mem {lh : List Nat} {b : Nat} (h : b ∉ lh) : absorb lh b = lh ++ [b] := by
  unfold absorb
  rw [if_pos (List.idxOf_eq_length h)]

end Log
end Xv6
