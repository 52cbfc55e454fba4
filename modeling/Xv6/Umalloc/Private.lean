import Mathlib.Order.CompletePartialOrder
import Xv6.Umalloc.FreeList

/-!
# Xv6.Umalloc.Private

What a program gets from `malloc`.

Over `sys_sbrk`, every result of `malloc` points to the bytes that were asked for,
and no other block and no header of the free list is in them, as long as no request
is for more than `2 ^ 31 - 16` bytes.  Above that the argument of `sbrk` overflows
or becomes negative, and above `2 ^ 32 - 8` already the number of units does:
`malloc_overflow` gets a block without a single byte.
-/

namespace Xv6.Umalloc

/-- A call over `sys_sbrk`, with what `kalloc` says. -/
inductive Request
  | malloc (nbytes : UInt32) (ok : Bool)
  | free (ap : Nat)

def Request.call : Request → Call
  | .malloc nbytes ok => .malloc nbytes (sysSbrk ok)
  | .free ap => .free ap

def request (base : Nat) (s : State) (r : Request) : Option State := step base s r.call

/-- Only allocated blocks are freed. -/
def FreesLive (s : State) : Request → Prop
  | .malloc _ _ => True
  | .free ap => ∃ n, (ap, n) ∈ s.live

/-- No request is for more than `2 ^ 31 - 16` bytes. -/
def Small (_ : State) : Request → Prop
  | .malloc nbytes _ => nbytes.toNat ≤ 2 ^ 31 - 16
  | .free _ => True

/-- The bytes that a program asked for. -/
def payload (a : Nat × UInt32) : Set Nat := Set.Ico a.1 (a.1 + a.2.toNat)

def header (c : Nat) : Set Nat := Set.Ico c (c + 8)

/-- Every block that a program has is its own. -/
structure Private (s : State) : Prop where
  inside : ∀ a ∈ s.live, payload a ⊆ memory s.mem
  disjoint : s.live.Pairwise fun a b => Disjoint (payload a) (payload b)
  headers : s.freep ≠ 0 → ∀ a ∈ s.live, ∀ k, Disjoint (payload a) (header (s.ptr^[k] s.freep))

/-! ## sbrk -/

theorem sysSbrk_cases (ok : Bool) {sz n : Nat} (hsz : sz < KERNBASE) (hn : 0 < n)
    (hlt : n < 2 ^ 31) :
    sysSbrk ok sz n = (nowhere, sz) ∨ sysSbrk ok sz n = (sz, sz + n) ∧ sz + n < KERNBASE := by
  have hword : word (sz + n) = sz + n := by
    unfold word KERNBASE at *
    omega
  have hne : n ≠ 0 := Nat.pos_iff_ne_zero.mp hn
  simp only [sysSbrk, hne, hlt, hword, if_true, if_false]
  unfold allocuvm
  by_cases hbig : KERNBASE ≤ sz + n
  · simp only [hbig, if_true]
    exact .inl trivial
  · have hge : ¬ sz + n < sz := by omega
    simp only [hbig, hge, if_false]
    cases ok with
    | false => exact .inl rfl
    | true =>
        simp only [if_true]
        rw [if_neg (by omega)]
        exact .inr ⟨rfl, by omega⟩

theorem sysSbrk_extends (ok : Bool) {sz : Nat} (hsz : sz < KERNBASE) : Extends (sysSbrk ok) sz := by
  intro n hn hlt
  rcases sysSbrk_cases ok hsz hn hlt with h | ⟨h, hk⟩
  · exact .inl h
  · unfold KERNBASE at hk
    exact .inr ⟨sz, h, Nat.le_refl _, by omega⟩

theorem Grown.lt_KERNBASE {ok : Bool} {brk brk' : Nat} (hg : Grown (sysSbrk ok) brk brk')
    (hbrk : brk < KERNBASE) : brk' < KERNBASE := by
  rcases hg with rfl | ⟨n, hn, hlt, rfl⟩
  · exact hbrk
  · rcases sysSbrk_cases ok hbrk hn hlt with h | ⟨h, hk⟩
    · rw [h]
      exact hbrk
    · rw [h]
      exact hk

/-! ## blocks -/

variable {base : Nat} {s : State}

/-- The bytes that were asked for are in the block, after its header. -/
theorem Good.payload_subset (hg : Good base s) {a : Nat × UInt32} (ha : a ∈ s.live) :
    payload a ⊆ (⟨a.1 - 8, s.size (a.1 - 8)⟩ : Block).bytes := by
  have := hg.big a ha
  intro x hx
  have := Set.mem_Ico.mp hx
  rw [Block.mem_bytes]
  unfold Block.stop
  dsimp only
  omega

theorem State.block_mem {a : Nat × UInt32} (ha : a ∈ s.live) :
    ⟨a.1 - 8, s.size (a.1 - 8)⟩ ∈ s.allocated := List.mem_map_of_mem ha

theorem Separate.disjoint {a b : Block} (h : Separate a b) : Disjoint a.bytes b.bytes := by
  rw [Set.disjoint_left]
  intro x hx hy
  rw [Block.mem_bytes] at hx hy
  have := h.1
  omega

/-- The list is closed under its pointers. -/
theorem Inv.iterate_mem {h : Heap} {R live : List Block} (hi : Inv base h R live) (k : Nat) :
    ∃ e ∈ R, e.addr = h.ptr^[k] h.freep := by
  induction k with
  | zero => exact List.mem_map.mp hi.freep
  | succ k ih =>
      obtain ⟨e, he, heq⟩ := ih
      rw [Function.iterate_succ_apply', ← heq]
      obtain ⟨pre, post, hR⟩ := List.append_of_mem he
      rw [hi.ptr_eq hR]
      cases post with
      | nil => exact ⟨root base, List.mem_of_mem_head? hi.head, rfl⟩
      | cons f post => exact ⟨f, by simp [hR], rfl⟩

theorem Good.isPrivate (hg : Good base s) : Private s := by
  rcases hg.heap with hf | ⟨R, hi⟩
  · have hlive : s.live = [] := List.map_eq_nil_iff.mp hf.2.2.1
    exact ⟨by simp [hlive], by simp [hlive], fun h => absurd hf.1 h⟩
  · have hmem : ∀ a ∈ s.live, payload a ⊆ memory s.mem := by
      intro a ha
      rw [← hi.tiled.tile]
      exact (hg.payload_subset ha).trans
        (Block.subset_bytes (List.mem_append_right R (State.block_mem ha)))
    refine ⟨hmem, ?_, fun _ a ha k => ?_⟩
    · have hsep := (List.pairwise_append.mp hi.tiled.separate).2.1
      rw [State.allocated, List.pairwise_map] at hsep
      refine hsep.imp_of_mem fun {a b} ha hb h => ?_
      exact h.disjoint.mono (hg.payload_subset ha) (hg.payload_subset hb)
    · obtain ⟨e, he, heq⟩ := hi.iterate_mem k
      rw [← heq]
      rcases hi.tiled.units e (List.mem_append_left _ he) with rfl | hu
      · -- the static header is below the memory from `sbrk`
        rw [Set.disjoint_left]
        intro x hx hy
        have := (hi.tiled.mem x (hmem a ha hx)).1
        have := Set.mem_Ico.mp hy
        simp only [root] at this
        omega
      · have hsub : header e.addr ⊆ e.bytes := by
          intro x hx
          have := Set.mem_Ico.mp hx
          rw [Block.mem_bytes]
          unfold Block.stop
          omega
        have hsep := (List.pairwise_append.mp hi.tiled.separate).2.2 e he _
          (List.mem_map_of_mem ha)
        exact (hsep.disjoint.mono hsub (hg.payload_subset ha)).symm

/-! ## runs -/

theorem request_good (hg : Good base s) (hbrk : s.brk < KERNBASE) {r : Request}
    (hlive : FreesLive s r) (hsmall : Small s r) {s' : State} (h : request base s r = some s') :
    Good base s' ∧ s.brk ≤ s'.brk ∧ s'.brk < KERNBASE := by
  cases r with
  | malloc nbytes ok =>
      obtain ⟨t, heq, hg', hgrown⟩ := malloc_good hg ⟨hsmall, sysSbrk_extends ok hbrk⟩
      obtain rfl : s' = t := Option.some.inj (h.symm.trans heq)
      exact ⟨hg', hgrown.le (sysSbrk_extends ok hbrk), hgrown.lt_KERNBASE hbrk⟩
  | free ap =>
      obtain ⟨t, heq, hg', hb⟩ := free_good hg hlive
      obtain rfl : s' = t := Option.some.inj (h.symm.trans heq)
      exact ⟨hg', hb.ge, hb ▸ hbrk⟩

/-- **Every block is big enough and private**, and the heap never shrinks, in every
run that frees only allocated blocks and asks for at most `2 ^ 31 - 16` bytes at a
time. -/
theorem private_of_small (hs : Start base s) (rs : List Request)
    (hlive : Run.Guarded (request base) FreesLive s rs)
    (hsmall : Run.Guarded (request base) Small s rs) :
    Run.Along (request base) Private s rs ∧
    Run.Each (request base) (fun s _ s' => s.brk ≤ s'.brk) s rs := by
  have hstep (s : State) (r : Request) (s' : State) (hg : Good base s ∧ s.brk < KERNBASE)
      (hok : FreesLive s r ∧ Small s r) (h : request base s r = some s') :
      s.brk ≤ s'.brk ∧ Good base s' ∧ s'.brk < KERNBASE := by
    obtain ⟨hg', hle, hlt⟩ := request_good hg.1 hg.2 hok.1 hok.2 h
    exact ⟨hle, hg', hlt⟩
  have hinit : Good base s ∧ s.brk < KERNBASE := ⟨hs.good, hs.brk_lt⟩
  have hok := hlive.and hsmall
  refine ⟨Run.along_of_guarded (fun s r s' hg hok h => (hstep s r s' hg hok h).2)
    (fun s hg => hg.1.isPrivate) hinit hok, Run.each_of_guarded hstep hinit hok⟩

/-- Two requests and a free. -/
theorem private_of_small_run :
    ∃ rs, rs.length = 3 ∧ Run.Along (request 0x1000) Private first rs := by
  have hlive : Run.Guarded (request 0x1000) FreesLive first
      [.malloc 100 true, .malloc 40000 true, .free (0x3000 + 8 * 4082 + 8)] := by
    refine ⟨trivial, fun s h => ⟨trivial, fun t h' => ⟨⟨100, ?_⟩, fun _ _ => trivial⟩⟩⟩
    have hrun : ((request 0x1000 first (.malloc 100 true)).bind fun s =>
        request 0x1000 s (.malloc 40000 true)).any
          (fun t => t.live.contains (0x3000 + 8 * 4082 + 8, 100)) = true := by
      decide +kernel
    rw [h, Option.bind_some, h'] at hrun
    simpa using hrun
  have hsmall : Run.Guarded (request 0x1000) Small first
      [.malloc 100 true, .malloc 40000 true, .free (0x3000 + 8 * 4082 + 8)] :=
    ⟨by simp [Small], fun _ _ => ⟨by simp [Small], fun _ _ => ⟨trivial, fun _ _ => trivial⟩⟩⟩
  exact ⟨_, rfl, (private_of_small first_start _ hlive hsmall).1⟩

/-- **A request that overflows**: `malloc(0xffffffff)` gives a block of one unit, which
is its header. -/
theorem malloc_overflow :
    ∃ s', request 0x1000 first (.malloc 0xffffffff true) = some s' ∧ ¬ Private s' := by
  obtain ⟨s', h, hlive⟩ := Run.exists_of_exec_any (request 0x1000) first [.malloc 0xffffffff true]
    (fun s => s.live == [(0x3000 + 8 * 4095 + 8, 0xffffffff)] && s.mem == [(0x3000, 0xb000)])
    (by decide +kernel)
  simp only [Bool.and_eq_true, beq_iff_eq] at hlive
  obtain ⟨t, ht, hlast⟩ := Run.exec_cons_eq_some.mp h
  obtain rfl : t = s' := Option.some.inj hlast
  refine ⟨t, ht, fun hp => ?_⟩
  have hsub := hp.inside _ (hlive.1 ▸ List.mem_cons_self)
  have hin : 0xb000 ∈ memory t.mem := hsub (Set.mem_Ico.mpr (by decide))
  rw [hlive.2] at hin
  simp [memory] at hin

end Xv6.Umalloc
