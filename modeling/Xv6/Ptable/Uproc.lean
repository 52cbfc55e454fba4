import Xv6.Ptable

/-!
# Xv6.Ptable.Uproc

`struct uproc` and `getprocs`: the active processes as `ps` gets to see them.
-/

namespace Xv6.Ptable

variable {NPROC MAX NCPU : Nat}

/-! ## uproc.h -/

/-- Bytes of a string in a `struct uproc`. -/
def STRMAX : Nat := 32

/-- `struct uproc`, the strings without their final 0. -/
structure Uproc where
  pid : UInt32
  uid : UInt32
  gid : UInt32
  ppid : UInt32
  elapsedTicks : UInt32
  cpuTotalTicks : UInt32
  state : List UInt8
  size : UInt32
  name : List UInt8
  priority : Nat
  deriving DecidableEq

/-- What `safestrcpy(s, t, n)` leaves in `s`, up to the final 0. -/
def safestrcpy (t : List UInt8) (n : Nat) : List UInt8 := (t.takeWhile (· ≠ 0)).take (n - 1)

/-- The table `states`. -/
def states : ProcState → List UInt8
  | .UNUSED => "unused".toUTF8.toList
  | .EMBRYO => "embryo".toUTF8.toList
  | .SLEEPING => "sleep ".toUTF8.toList
  | .RUNNABLE => "runble".toUTF8.toList
  | .RUNNING => "run   ".toUTF8.toList
  | .ZOMBIE => "zombie".toUTF8.toList

/-- The processes that `getprocs` reports. -/
def ProcState.Active (st : ProcState) : Prop := st = .RUNNABLE ∨ st = .RUNNING ∨ st = .SLEEPING

instance : DecidablePred ProcState.Active := fun st =>
  inferInstanceAs (Decidable (st = .RUNNABLE ∨ st = .RUNNING ∨ st = .SLEEPING))

end Xv6.Ptable
