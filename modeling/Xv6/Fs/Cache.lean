import Xv6.Fs.Content

/-!
# Xv6.Fs.Cache

The inode cache between operations: no inode is in two entries, and an entry
that was read from the disk has the inode that is on the disk (`Coherent`).
Together with the consistency of the disk that is the invariant `Sound`.
-/

namespace Xv6.Fs

open Words

/-- The entries in use agree with the disk. -/
structure Coherent (s : State) : Prop where
  /-- an inode is in one entry -/
  uniq : ∀ c e, 0 < (s.inode c).ref → 0 < (s.inode e).ref → (s.inode c).inum = (s.inode e).inum →
    c = e
  /-- a valid copy is the allocated inode on the disk -/
  lt : ∀ c, 0 < (s.inode c).ref → (s.inode c).valid = true → (s.inode c).inum < s.sb.ninodes
  type : ∀ c, 0 < (s.inode c).ref → (s.inode c).valid = true → (s.inode c).din.type ≠ 0
  copy : ∀ c, 0 < (s.inode c).ref → (s.inode c).valid = true →
    dinode s.sb s.disk (s.inode c).inum = (s.inode c).din

/-- **The invariant between operations.** -/
structure Sound (s : State) : Prop where
  cons : Consistent s.sb s.disk (dinode s.sb s.disk)
  cache : Coherent s

/-- The inode in entry `c` is locked, as `ilock` leaves it. -/
structure Locked (s : State) (c : Ip) : Prop where
  ref : 0 < (s.inode c).ref
  busy : (s.inode c).busy = true
  valid : (s.inode c).valid = true

variable {s s' : State} {c : Ip}

theorem ino_eq_dinode (h : dinode s.sb s.disk (s.inode c).inum = (s.inode c).din) :
    s.ino c = dinode s.sb s.disk := by
  rw [State.ino, ← h, Function.update_eq_self]

/-- An operation on a valid entry starts from the invariant. -/
theorem Sound.held (h : Sound s) (href : 0 < (s.inode c).ref) (hvalid : (s.inode c).valid = true) :
    Held s c where
  cons := by
    rw [ino_eq_dinode (h.cache.copy c href hvalid)]
    exact h.cons
  inum_lt := h.cache.lt c href hvalid
  type_ne := h.cache.type c href hvalid

end Xv6.Fs
