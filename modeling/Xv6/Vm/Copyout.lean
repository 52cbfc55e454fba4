import Xv6.Vm

/-!
# Xv6.Vm.Copyout

What `copyout` writes, byte by byte.

`uva2ka` reads the entry that `walkpgdir` returns without asking whether there is one.
`copyout_confined_iff` says when that goes well: the first page of the range that is not a
user page has a page table.
-/

namespace Xv6.Vm

open Words

/-! ## the user pages of a page table -/

section Pages

variable (m : Mem) (pgdir : Nat) (va : UInt32)

/-- There is a page table for `va`. -/
def HasTable : Prop := present (word m pgdir (PDX va)) = true

/-- The page table for `va`. -/
def table : Nat := frame (word m pgdir (PDX va))

/-- The entry for `va`, if there is a page table. -/
def pte : Nat := word m (table m pgdir va) (PTX va)

/-- `va` is in a page that the user may access. -/
def UserPage : Prop :=
  HasTable m pgdir va ∧ present (pte m pgdir va) = true ∧ user (pte m pgdir va) = true

/-- The page that `va` is in, as the kernel sees it. -/
def target : Nat := frame (pte m pgdir va)

/-- A user page that the kernel does not see at address 0, which stands for none. -/
def Usable : Prop := UserPage m pgdir va ∧ target m pgdir va ≠ 0

instance : Decidable (HasTable m pgdir va) := inferInstanceAs (Decidable (_ = _))

instance : Decidable (UserPage m pgdir va) := inferInstanceAs (Decidable (_ ∧ _))

instance : Decidable (Usable m pgdir va) := inferInstanceAs (Decidable (_ ∧ _))

/-- No user page is the page directory or a page table. -/
def Separate : Prop :=
  ∀ va, UserPage m pgdir va →
    target m pgdir va ≠ pgdir ∧ ∀ va', HasTable m pgdir va' → target m pgdir va ≠ table m pgdir va'

/-- The first `n` bytes at `src`, stored at `va` and the following addresses in turn. -/
def deposit (src : Nat → UInt8) : Nat → Mem
  | 0 => m
  | n + 1 =>
      let a := va + UInt32.ofNat n
      Function.update (deposit src n) (target m pgdir a)
        (put (deposit src n (target m pgdir a)) (a.toNat % PGSIZE) (src n))

/-- A call has stored the first `n` bytes in user pages: all of them, or those before the
first page that it cannot use. -/
def Confined (src : Nat → UInt8) (len : Nat) (r : Int32) (m' : Mem) : Prop :=
  ∃ n ≤ len, (∀ k < n, Usable m pgdir (va + UInt32.ofNat k)) ∧ m' = deposit m pgdir va src n ∧
    ((r = 0 ∧ n = len) ∨ (r = -1 ∧ n < len ∧ ¬ Usable m pgdir (va + UInt32.ofNat n)))

/-- The first page of the range that is not usable has a page table. -/
def Mapped (len : Nat) : Prop :=
  ∀ n < len, (∀ k < n, Usable m pgdir (va + UInt32.ofNat k)) →
    HasTable m pgdir (va + UInt32.ofNat n)

end Pages

/-! ## addresses in one page -/

section Addresses

variable {m : Mem} {pgdir : Nat} {a b va : UInt32}

theorem toNat_add_ofNat (va : UInt32) (k : Nat) :
    (va + UInt32.ofNat k).toNat = (va.toNat + k) % 2 ^ 32 := by
  simp [UInt32.toNat_add]

/-- Addresses in one page have one entry. -/
theorem index_congr (h : a.toNat / PGSIZE = b.toNat / PGSIZE) : PDX a = PDX b ∧ PTX a = PTX b := by
  simp only [PDX, PTX, h, and_self]

/-- The following addresses, up to the end of the page. -/
theorem toNat_add_of_page {d k : Nat} (hk : (va + UInt32.ofNat d).toNat % PGSIZE + k < PGSIZE) :
    (va + UInt32.ofNat (d + k)).toNat = (va + UInt32.ofNat d).toNat + k := by
  have := va.toNat_lt
  rw [toNat_add_ofNat, toNat_add_ofNat] at *
  simp only [PGSIZE] at *
  omega

theorem index_add_of_page {d k : Nat} (hk : (va + UInt32.ofNat d).toNat % PGSIZE + k < PGSIZE) :
    PDX (va + UInt32.ofNat (d + k)) = PDX (va + UInt32.ofNat d) ∧
      PTX (va + UInt32.ofNat (d + k)) = PTX (va + UInt32.ofNat d) := by
  refine index_congr ?_
  rw [toNat_add_of_page hk]
  simp only [PGSIZE] at *
  omega

theorem toNat_PGROUNDDOWN (va : UInt32) :
    (PGROUNDDOWN va).toNat = va.toNat - va.toNat % PGSIZE := by
  have hlt := va.toNat_lt
  have hmod : (UInt32.ofNat (va.toNat % PGSIZE)).toNat = va.toNat % PGSIZE :=
    UInt32.toNat_ofNat_of_lt' (show _ < 2 ^ 32 by simp only [PGSIZE]; omega)
  rw [PGROUNDDOWN, UInt32.toNat_sub_of_le, hmod]
  rw [UInt32.le_iff_toNat_le, hmod]
  exact Nat.mod_le _ _

theorem toNat_sub_PGROUNDDOWN (va : UInt32) :
    (va - PGROUNDDOWN va).toNat = va.toNat % PGSIZE := by
  have hle := Nat.mod_le va.toNat PGSIZE
  rw [UInt32.toNat_sub_of_le, toNat_PGROUNDDOWN]
  · omega
  · rw [UInt32.le_iff_toNat_le, toNat_PGROUNDDOWN]
    omega

/-- The end of the page is the start of the next one. -/
theorem next_page {d n : Nat} (hn : (va + UInt32.ofNat d).toNat % PGSIZE + n = PGSIZE) :
    PGROUNDDOWN (va + UInt32.ofNat d) + UInt32.ofNat PGSIZE = va + UInt32.ofNat (d + n) := by
  have hsize : (UInt32.ofNat PGSIZE).toNat = PGSIZE := rfl
  apply UInt32.toNat_inj.mp
  rw [UInt32.toNat_add, toNat_PGROUNDDOWN, hsize, toNat_add_ofNat va (d + n)]
  rw [toNat_add_ofNat] at *
  simp only [PGSIZE] at *
  omega

/-- Bytes that are stored in one page, all at once. -/
theorem deposit_page (src : Nat → UInt8) {d n : Nat}
    (hn : (va + UInt32.ofNat d).toNat % PGSIZE + n ≤ PGSIZE) :
    deposit m pgdir va src (d + n) =
      Function.update (deposit m pgdir va src d) (target m pgdir (va + UInt32.ofNat d))
        (store (deposit m pgdir va src d (target m pgdir (va + UInt32.ofNat d)))
          ((va + UInt32.ofNat d).toNat % PGSIZE) (fun j => src (d + j)) n) := by
  induction n with
  | zero =>
      have hnone (b : Page) (off : Nat) (f : Nat → UInt8) : store b off f 0 = b := by
        funext j
        exact if_neg (by omega)
      rw [hnone, Function.update_eq_self]
      rfl
  | succ n ih =>
      have hput (b : Page) (off : Nat) (f : Nat → UInt8) :
          put (store b off f n) (off + n) (f n) = store b off f (n + 1) := by
        funext j
        simp only [put, store]
        grind
      have hoff : (va + UInt32.ofNat (d + n)).toNat % PGSIZE =
          (va + UInt32.ofNat d).toNat % PGSIZE + n := by
        rw [toNat_add_of_page (by omega)]
        simp only [PGSIZE] at *
        omega
      have htarget : target m pgdir (va + UInt32.ofNat (d + n)) =
          target m pgdir (va + UInt32.ofNat d) := by
        obtain ⟨hd, ht⟩ := index_add_of_page 
          (by omega : (va + UInt32.ofNat d).toNat % PGSIZE + n < PGSIZE)
        simp only [target, pte, table, hd, ht]
      rw [← Nat.add_assoc, deposit, htarget, hoff, ih (by omega), Function.update_self,
        Function.update_idem, hput _ _ fun j => src (d + j)]

end Addresses

/-! ## the loop -/

section Loop

variable {m m₁ : Mem} {pgdir : Nat} {va : UInt32}

/-- Storing in user pages does not change the page table. -/
theorem deposit_tables (h : Separate m pgdir) (src : Nat → UInt8) {n : Nat}
    (hn : ∀ k < n, Usable m pgdir (va + UInt32.ofNat k)) :
    deposit m pgdir va src n pgdir = m pgdir ∧
      ∀ a, HasTable m pgdir a → deposit m pgdir va src n (table m pgdir a) =
        m (table m pgdir a) := by
  induction n with
  | zero => exact ⟨rfl, fun _ _ => rfl⟩
  | succ n ih =>
      obtain ⟨hdir, htables⟩ := ih fun k hk => hn k (by omega)
      obtain ⟨hne, hnes⟩ := h _ (hn n (by omega)).1
      refine ⟨?_, fun a ha => ?_⟩
      · rw [deposit, Function.update_of_ne hne.symm, hdir]
      · rw [deposit, Function.update_of_ne (hnes a ha).symm, htables a ha]

/-- **`uva2ka`** finds the page of an address, or reads an entry that does not exist. -/
theorem uva2ka_spec (hdir : m₁ pgdir = m pgdir)
    (htables : HasTable m pgdir va → m₁ (table m pgdir va) = m (table m pgdir va)) :
    wpE (uva2ka pgdir (PGROUNDDOWN va)) m₁
      (fun ka m₂ => m₂ = m₁ ∧ HasTable m pgdir va ∧
        ka = if UserPage m pgdir va then target m pgdir va else 0)
      fun _ => ¬ HasTable m pgdir va := by
  have hpage : (PGROUNDDOWN va).toNat / PGSIZE = va.toNat / PGSIZE := by
    rw [toNat_PGROUNDDOWN]
    simp only [PGSIZE]
    omega
  obtain ⟨hd, ht⟩ := index_congr hpage
  have hpde : word m₁ pgdir (PDX va) = word m pgdir (PDX va) := by rw [word, hdir, word]
  have hwalk : walkpgdir m₁ pgdir (PGROUNDDOWN va) =
      if HasTable m pgdir va then some (table m pgdir va, PTX va) else none := by
    simp only [walkpgdir, hd, ht, hpde]
    rfl
  simp only [uva2ka, wpE_bind, wpE_get, hwalk]
  by_cases hhas : HasTable m pgdir va
  · have hpte : word m₁ (table m pgdir va) (PTX va) = pte m pgdir va := by
      rw [word, htables hhas, pte, word]
    simp only [if_pos hhas, wpE_bind, wpE_get, hpte]
    split
    · next hp => exact wpE_pure.mpr ⟨rfl, hhas, by simp [UserPage, hp]⟩
    · next hp =>
      split
      · next hu => exact wpE_pure.mpr ⟨rfl, hhas, by simp [UserPage, hu]⟩
      · next hu =>
        rw [Bool.not_eq_false] at hp hu
        exact wpE_pure.mpr ⟨rfl, hhas, by simp [UserPage, hhas, hp, hu, target]⟩
  · simp only [if_neg hhas]
    exact wpE_throw.mpr hhas

theorem copyoutLoop_zero (fuel : Nat) (a : UInt32) (buf : Nat → UInt8) :
    copyoutLoop pgdir fuel a buf 0 = pure 0 := by
  cases fuel <;> simp [copyoutLoop]

/-- **The loop**, when `d` bytes are stored. -/
theorem copyoutLoop_spec (h : Separate m pgdir) (va : UInt32) (src : Nat → UInt8) (len fuel : Nat) :
    ∀ d ≤ len, len - d ≤ fuel →
    (∀ k < d, Usable m pgdir (va + UInt32.ofNat k)) →
    wpE (copyoutLoop pgdir fuel (va + UInt32.ofNat d) (fun j => src (d + j)) (len - d))
      (deposit m pgdir va src d)
      (fun r m' => ∃ n ≤ len, (∀ k < n, Usable m pgdir (va + UInt32.ofNat k)) ∧
        m' = deposit m pgdir va src n ∧ ((r = 0 ∧ n = len) ∨ (r = -1 ∧ n < len ∧
          ¬ Usable m pgdir (va + UInt32.ofNat n) ∧ HasTable m pgdir (va + UInt32.ofNat n))))
      fun _ => ¬ Mapped m pgdir va len := by
  induction fuel with
  | zero =>
      intro d hd hfuel hused
      exact wpE_pure.mpr ⟨d, hd, hused, rfl, .inl ⟨rfl, by omega⟩⟩
  | succ fuel ih =>
      intro d hd hfuel hused
      rw [copyoutLoop]
      split
      · exact wpE_pure.mpr ⟨d, hd, hused, rfl, .inl ⟨rfl, by omega⟩⟩
      · next hlen =>
        obtain ⟨hdir, htables⟩ := deposit_tables h src hused
        refine wpE_bind.mpr ((uva2ka_spec hdir (htables _)).mono ?_ fun _ hnone hmapped =>
          hnone (hmapped d (by omega) hused))
        rintro ka m₂ ⟨hm₂, hhas, hka⟩
        obtain rfl := hm₂.symm
        have husable : ka ≠ 0 ↔ Usable m pgdir (va + UInt32.ofNat d) := by
          rw [hka, Usable]
          split
          · next hu => simp [hu]
          · next hu => simp [hu]
        split
        · next hzero =>
          exact wpE_pure.mpr ⟨d, hd, hused, rfl, .inr ⟨rfl, by omega, fun hu =>
            husable.mpr hu hzero, hhas⟩⟩
        · next hne =>
          have hu := husable.mp hne
          rw [if_pos hu.1] at hka
          set a := va + UInt32.ofNat d with ha
          have hoff : a.toNat % PGSIZE < PGSIZE := Nat.mod_lt _ (by decide)
          rw [toNat_sub_PGROUNDDOWN]
          generalize hn : min (PGSIZE - a.toNat % PGSIZE) (len - d) = n
          have hfits : a.toNat % PGSIZE + n ≤ PGSIZE := by omega
          -- the bytes of the pass are in the page of the first of them
          have hpass (k : Nat) (hk : k < n) : Usable m pgdir (va + UInt32.ofNat (d + k)) := by
            obtain ⟨hd', ht'⟩ := index_add_of_page (by omega : a.toNat % PGSIZE + k < PGSIZE)
            simpa only [Usable, UserPage, HasTable, target, pte, table, hd', ht'] using hu
          have hused' (k : Nat) (hk : k < d + n) : Usable m pgdir (va + UInt32.ofNat k) := by
            by_cases hkd : k < d
            · exact hused k hkd
            · simpa only [Nat.add_sub_of_le (Nat.not_lt.mp hkd)] using hpass (k - d) (by omega)
          refine wpE_bind.mpr (wpE_modify.mpr ?_)
          rw [hka, ← deposit_page src hfits, Nat.sub_sub]
          simp only [← Nat.add_assoc]
          by_cases hlast : len - (d + n) = 0
          · rw [hlast, copyoutLoop_zero]
            exact wpE_pure.mpr ⟨d + n, by omega, hused', rfl, .inl ⟨rfl, by omega⟩⟩
          · rw [next_page (by omega : a.toNat % PGSIZE + n = PGSIZE)]
            exact ih (d + n) (by omega) (by omega) hused'

end Loop

/-- **`copyout` is confined** to the user pages of the range exactly if the first page that
it cannot use has a page table: otherwise it reads an entry that does not exist. -/
theorem copyout_confined_iff {m : Mem} {pgdir : Nat} (h : Separate m pgdir) (va : UInt32)
    (src : Nat → UInt8) (len : UInt32) :
    wp (copyout pgdir va src len) m (Confined m pgdir va src len.toNat) ↔
      Mapped m pgdir va len.toNat := by
  have hspec := copyoutLoop_spec h va src len.toNat len.toNat 0 (Nat.zero_le _)
    (Nat.sub_le _ _) fun k hk => absurd hk (Nat.not_lt_zero k)
  have hstart : (fun j => src (0 + j)) = src := funext fun j => by rw [Nat.zero_add]
  have hva : va + UInt32.ofNat 0 = va := UInt32.add_zero va
  rw [hstart, hva, Nat.sub_zero] at hspec
  constructor
  · rintro ⟨r, m', hr, -⟩ n hn hused
    obtain ⟨n₀, hn₀, hall, -, ⟨-, rfl⟩ | ⟨-, -, hbad, hhas⟩⟩ := hspec.of_ok hr
    · exact (hall n hn).1.1
    · rcases Nat.lt_trichotomy n n₀ with hlt | rfl | hgt
      · exact (hall n hlt).1.1
      · exact hhas
      · exact absurd (hused n₀ hgt) hbad
  · intro hmapped
    refine (hspec.returns fun e he => he hmapped).mono ?_
    rintro r m' ⟨n, hn, hall, hm', hr⟩
    exact ⟨n, hn, hall, hm', hr.imp_right fun hr => ⟨hr.1, hr.2.1, hr.2.2.1⟩⟩

/-! ### a page table -/

/-- A page directory in page 1 with one page table, which has one user page. -/
def someMem : Mem := fun page =>
  if page = 1 then putLe32 (fun _ => 0) 0 (2 * PGSIZE + 7)
  else if page = p2v 2 then putLe32 (fun _ => 0) 0 (3 * PGSIZE + 7)
  else fun _ => 0

/-- The first entry of a page is the only one. -/
theorem present_first {v i : Nat} (hi : 4 * i + 4 ≤ PGSIZE)
    (h : present (le32 (putLe32 (fun _ => 0 : Page) 0 v) (4 * i)) = true) :
    le32 (putLe32 (fun _ => 0 : Page) 0 v) (4 * i) = v % 2 ^ 32 := by
  by_cases h0 : i = 0
  · subst h0
    exact le32_putLe32 _ hi v
  · have hzero : le32 (fun _ => 0 : Page) (4 * i) = 0 := by simp [le32, Words.get]
    rw [le32_putLe32_of_disjoint _ (by omega), hzero] at h
    exact absurd h (by decide)

theorem someMem_table {va : UInt32} (h : HasTable someMem 1 va) :
    table someMem 1 va = p2v 2 := by
  have hlt : 4 * PDX va + 4 ≤ PGSIZE := by
    have := va.toNat_lt
    simp only [PDX, PGSIZE, NPTENTRIES]
    omega
  unfold HasTable table word at *
  rw [someMem, if_pos rfl] at *
  rw [present_first hlt h]
  rfl

theorem someMem_target {va : UInt32} (h : UserPage someMem 1 va) :
    target someMem 1 va = p2v 3 := by
  have hlt : 4 * PTX va + 4 ≤ PGSIZE := by
    simp only [PTX, PGSIZE, NPTENTRIES]
    omega
  have hpage : someMem (p2v 2) = putLe32 (fun _ => 0) 0 (3 * PGSIZE + 7) := by
    rw [someMem, if_neg (by decide), if_pos rfl]
  obtain ⟨htable, hp, -⟩ := h
  rw [pte, someMem_table htable, word, hpage] at hp
  rw [target, pte, someMem_table htable, word, hpage, present_first hlt hp]
  rfl

theorem someMem_separate : Separate someMem 1 := by
  intro va hu
  rw [someMem_target hu]
  exact ⟨by decide, fun va' ht => by rw [someMem_table ht]; decide⟩

theorem copyout_confined_someMem : Separate someMem 1 ∧
    wp (copyout 1 100 (fun _ => 7) 3) someMem (Confined someMem 1 100 (fun _ => 7) 3) :=
  ⟨someMem_separate, (copyout_confined_iff someMem_separate 100 _ 3).mpr fun n (hn : n < 3) _ => by
    decide +revert⟩

/-- There is no page table for the second four megabytes. -/
theorem copyout_reads_null : Separate someMem 1 ∧
    copyout 1 0x400000 (fun _ => 7) 1 someMem = .error .nullPte :=
  ⟨someMem_separate, by rfl⟩

end Xv6.Vm
