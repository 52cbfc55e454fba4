import Xv6.Fs.Cache
import Xv6.Fs.Path

/-!
# Xv6.Fs.Handle

What the functions of the inode cache do to one entry, and how they stop, without any
assumption on the state.
-/

namespace Xv6.Fs

variable {s : State} {c : Ip}

theorem State.set_set (s : State) (c : Ip) (ip ip' : Inode) : (s.set c ip).set c ip' = s.set c ip' := by
  simp [State.set]

/-- No entry in use has inode `inum`. -/
def State.Misses (s : State) (inum : Nat) : Prop :=
  ∀ e, 0 < (s.inode e).ref → (s.inode e).inum ≠ inum

/-- **`iget`**: an entry in use gets one more reference, or an unused one its first. -/
theorem iget_cases (s : State) (inum : Nat) :
    wpE (iget inum) s (fun c s' =>
      (0 < (s.inode c).ref ∧ (s.inode c).inum = inum ∧
        s' = s.set c { s.inode c with ref := (s.inode c).ref + 1 }) ∨
      (s.Misses inum ∧ (s.inode c).ref = 0 ∧ s' = s.set c { s.inode c with
        inum := inum, ref := 1, busy := false, valid := false }))
      fun e => e = .igetNoInodes ∧ s.Misses inum ∧ ∀ c, 0 < (s.inode c).ref := by
  simp only [iget, wpE_bind, wpE_get]
  split
  · next c hfind =>
    have hp := List.find?_some hfind
    simp only [Bool.and_eq_true, decide_eq_true_eq, beq_iff_eq] at hp
    exact .inl ⟨hp.1, hp.2, rfl⟩
  · next hnone =>
    have hmiss : s.Misses inum := by
      intro e he
      have := List.find?_eq_none.mp hnone e (List.mem_finRange e)
      simpa [he] using this
    split
    · next hfull =>
      refine ⟨rfl, hmiss, fun c => ?_⟩
      have := List.find?_eq_none.mp hfull c (List.mem_finRange c)
      simp only [beq_iff_eq] at this
      omega
    · next c hfind =>
      have hp := List.find?_some hfind
      exact .inr ⟨hmiss, by simpa using hp, rfl⟩

/-- The inode that `ilock` finds. -/
def State.fetched (s : State) (c : Ip) : Dinode :=
  if (s.inode c).valid then (s.inode c).din else dinode s.sb s.disk (s.inode c).inum

theorem loadInode_cases (s : State) (c : Ip) :
    wpE (loadInode c) s (fun _ s' => ((s.inode c).valid = false → (s.fetched c).type ≠ 0) ∧
        s' = s.set c { s.inode c with valid := true, din := s.fetched c })
      fun e => e = .ilockNoType ∧ (s.inode c).valid = false ∧ (s.fetched c).type = 0 := by
  simp only [loadInode, wpE_bind, wpE_get]
  by_cases hv : (s.inode c).valid = true
  · rw [if_pos hv]
    refine wpE_pure.mpr ⟨fun hf => ?_, ?_⟩
    · rw [hv] at hf
      cases hf
    · rw [State.fetched, if_pos hv, ← hv]
      exact (congrArg (State.mk s.sb s.disk · s.devsw) (Function.update_eq_self c s.inode)).symm
  · have hfetch : s.fetched c = dinode s.sb s.disk (s.inode c).inum := if_neg hv
    have hfalse : (s.inode c).valid = false := by simpa using hv
    rw [if_neg hv]
    simp only [wpE_bind, wpE_bread, wpE_setInode]
    rw [hfetch]
    split
    · next htype => exact ⟨rfl, hfalse, htype⟩
    · next htype => exact wpE_pure.mpr ⟨fun _ => htype, rfl⟩

/-- **`ilock`** marks the entry and reads the inode if it has to. -/
theorem ilock_cases (s : State) (c : Ip) :
    wpE (ilock c) s (fun _ s' => 0 < (s.inode c).ref ∧ (s.inode c).busy = false ∧
        ((s.inode c).valid = false → (s.fetched c).type ≠ 0) ∧
        s' = s.set c { s.inode c with busy := true, valid := true, din := s.fetched c })
      fun e => (e = .ilock ∧ (s.inode c).ref = 0) ∨ (e = .sleep ∧ (s.inode c).busy = true) ∨
        (e = .ilockNoType ∧ (s.inode c).valid = false ∧ (s.fetched c).type = 0) := by
  simp only [ilock, wpE_bind, wpE_get]
  split
  · next href => exact .inl ⟨rfl, by omega⟩
  · next href =>
    split
    · next hbusy => exact .inr (.inl ⟨rfl, hbusy⟩)
    · next hbusy =>
      have hbusy : (s.inode c).busy = false := by simpa using hbusy
      simp only [wpE_bind, wpE_setInode]
      have hfetch : (s.set c { s.inode c with busy := true }).fetched c = s.fetched c := by
        unfold State.fetched
        rw [State.set_self]
        rfl
      refine (loadInode_cases _ c).mono ?_ ?_
      · rintro _ s' ⟨htype, rfl⟩
        rw [hfetch] at htype ⊢
        rw [State.set_self] at htype ⊢
        rw [State.set_set]
        exact ⟨by omega, hbusy, htype, rfl⟩
      · rintro e ⟨rfl, hv, htype⟩
        rw [hfetch] at htype
        rw [State.set_self] at hv
        exact .inr (.inr ⟨rfl, hv, htype⟩)

theorem iunlock_cases (s : State) (c : Ip) :
    wpE (iunlock c) s (fun _ s' => 0 < (s.inode c).ref ∧ (s.inode c).busy = true ∧
        s' = s.set c { s.inode c with busy := false })
      fun e => e = .iunlock ∧ ((s.inode c).ref = 0 ∨ (s.inode c).busy = false) := by
  simp only [iunlock, wpE_bind, wpE_get]
  split
  · next hc => exact ⟨rfl, hc.symm.imp (by omega) (by simp)⟩
  · next hc =>
    rw [not_or, Nat.not_lt] at hc
    exact ⟨hc.2, by simpa using hc.1, rfl⟩

/-- **`iput`** of an inode that has links or more references. -/
theorem iput_keeps (h : ¬ ((s.inode c).ref = 1 ∧ (s.inode c).valid = true ∧
    (s.inode c).din.nlink = 0)) :
    wp (iput c) s fun _ s' => s' = s.set c { s.inode c with ref := (s.inode c).ref - 1 } := by
  simp only [iput, reap, wp_bind, wp_get]
  rw [if_neg h, wp_pure, setInode, wp_modify]
  rfl

end Xv6.Fs
