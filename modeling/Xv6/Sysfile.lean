import Xv6.Fs

/-!
# Xv6.Sysfile

Open files: `file.c` and the system calls of `sysfile.c`.
-/

namespace Xv6.Sysfile

open Fs

/-- `type` of `struct file`. -/
inductive FdType
  | FD_NONE
  | FD_PIPE
  | FD_INODE
deriving DecidableEq

/-- `struct file`.  A pipe is given by its page. -/
structure File where
  type : FdType
  ref : Nat
  readable : Bool
  writable : Bool
  pipe : Nat
  ip : Ip
  off : UInt32

end Xv6.Sysfile
