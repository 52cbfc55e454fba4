import Mathlib.Data.Finset.Card
import Xv6.Umalloc.Blocks

/-!
# Xv6.Umalloc.FreeList

The free list of the allocator.

`Inv` relates a heap to the blocks of its free list, in the order of their
addresses and with `base` in front, and to the allocated blocks: the list is the
circle of the `ptr` pointers, no two blocks of it touch, and all the blocks together
tile the memory from `sbrk`.

* `free_spec`: `free` finds the place of a block and joins it on both sides.
* `carve_spec`: what `malloc` does with the block it found.
* `mallocLoop_lap` is one round of the search, `morecore_spec` what happens between
  two rounds, and `malloc_spec` puts them together.
* `freeList_invariant`: the invariant in every run, and that every call ends.
-/

namespace Xv6.Umalloc

/-- `R` is the free list from `base` on, and `live` are the allocated blocks. -/
structure Inv (base : Nat) (h : Heap) (R live : List Block) : Prop where
  tiled : Tiled base h (R ++ live)
  head : R.head? = some (root base)
  path : Path h.ptr (R.map Block.addr) base
  apart : Apart R
  freep : h.freep ∈ R.map Block.addr

/-- What follows a block of the list. -/
theorem Inv.ptr_eq {base : Nat} {h : Heap} {R live : List Block} {b : Block}
    (hi : Inv base h R live) {pre post : List Block} (he : R = pre ++ b :: post) :
    h.ptr b.addr = (post.map Block.addr).headD base := by
  have hp := hi.path
  rw [he, List.map_append, path_append] at hp
  exact hp.2.1

/-! ## the place of a block -/

/-- A block that overlaps no block of the list, and comes after the first one, has a
place in it. -/
theorem Apart.exists_place {r b : Block} {l : List Block} (h : Apart (r :: l))
    (hsep : ∀ e ∈ r :: l, Separate e b)
    (hr : r.addr < b.addr) :
    ∃ pre p post, r :: l = pre ++ p :: post ∧ (∀ e ∈ pre ++ [p], e.addr < b.addr) ∧
      p.stop ≤ b.addr ∧ ∀ e ∈ post, b.stop ≤ e.addr ∧ b.addr < e.addr := by
  have hstop : r.stop ≤ b.addr := by
    rcases (hsep r List.mem_cons_self).1 with h | h
    · exact h
    · unfold Block.stop at h
      omega
  induction l generalizing r with
  | nil => exact ⟨[], r, [], rfl, by simpa using hr, hstop, by simp⟩
  | cons e l ih =>
      have hsep' : ∀ e' ∈ e :: l, Separate e' b := fun e' he' => hsep e' (List.mem_cons_of_mem _ he')
      have hapart := List.pairwise_cons.mp h
      have he := hsep' e List.mem_cons_self
      by_cases hlt : e.addr < b.addr
      · have hestop : e.stop ≤ b.addr := by
          rcases he.1 with h | h
          · exact h
          · unfold Block.stop at h
            omega
        obtain ⟨pre, p, post, heq, hpre, hp, hpost⟩ := ih hapart.2 hsep' hlt hestop
        refine ⟨r :: pre, p, post, by rw [heq]; rfl, ?_, hp, hpost⟩
        intro e' he'
        rcases List.mem_cons.mp he' with rfl | he'
        · exact hr
        · exact hpre e' he'
      · refine ⟨[], r, e :: l, rfl, by simpa using hr, hstop, ?_⟩
        intro e' he'
        have hge : e.addr ≤ e'.addr := by
          rcases List.mem_cons.mp he' with rfl | hin
          · exact Nat.le_refl _
          · have := (List.pairwise_cons.mp hapart.2).1 e' hin
            unfold Block.stop at this
            omega
        have := hsep' e' he'
        unfold Separate Block.stop at *
        omega

variable {base : Nat} {h : Heap} {R live : List Block} {b p : Block} {pre post : List Block}

/-- The loop of `free` ends at the block before the place, and nowhere else. -/
theorem fits_iff (hi : Inv base h R live) (hb : base < b.addr) (he : R = pre ++ p :: post)
    (hpre : ∀ e ∈ pre ++ [p], e.addr < b.addr) (hpost : ∀ e ∈ post, b.addr < e.addr) {e : Block}
    (hin : e ∈ R) : fits h b.addr e.addr = true ↔ e.addr = p.addr := by
  obtain ⟨pre', post', he'⟩ := List.append_of_mem hin
  have hnext := hi.ptr_eq he'
  have hbase := (hi.tiled.bounds' (List.mem_append_left _ hin)).1
  have hpb : p.addr < b.addr := hpre p (by simp)
  have hpin : p ∈ R := by simp [he]
  -- every block lies up to `p`, or after `b`
  have hside (f : Block) (hf : f ∈ R) : f.addr ≤ p.addr ∨ b.addr < f.addr := by
    have hapart := hi.apart
    rw [he] at hapart hf
    have := f.addr_le_stop
    rcases hapart.cases hf with ⟨-, hlt⟩ | rfl | ⟨hin, -⟩
    · exact .inl (by omega)
    · exact .inl (Nat.le_refl _)
    · exact .inr (hpost f hin)
  have hapart := hi.apart
  rw [he'] at hapart
  have hp := hapart.cases (he' ▸ hpin)
  have hple := p.addr_le_stop
  have hele := e.addr_le_stop
  have heside := hside e hin
  unfold fits
  cases post' with
  | nil =>
      simp only [List.map_nil, List.headD_nil] at hnext
      have hpe : p.addr ≤ e.addr := by
        rcases hp with ⟨-, hlt⟩ | rfl | ⟨hnil, -⟩
        · omega
        · exact Nat.le_refl _
        · simp at hnil
      simp only [hnext, Bool.or_eq_true, Bool.and_eq_true, decide_eq_true_eq]
      omega
  | cons e₂ post' =>
      simp only [List.map_cons, List.headD_cons] at hnext
      have he₂ : e.stop < e₂.addr := by
        have := (List.pairwise_append.mp hapart).2.1
        exact (List.pairwise_cons.mp this).1 e₂ List.mem_cons_self
      have hpe : p.addr ≤ e.addr ∨ e₂.addr ≤ p.addr := by
        rcases hp with ⟨-, hlt⟩ | rfl | ⟨hin', -⟩
        · omega
        · exact .inl (Nat.le_refl _)
        · rcases List.mem_cons.mp hin' with rfl | hin'
          · exact .inr (Nat.le_refl _)
          · have := (List.pairwise_append.mp hapart).2.1
            have := (List.pairwise_cons.mp (List.pairwise_cons.mp this).2).1 p hin'
            have := e₂.addr_le_stop
            omega
      have hside₂ := hside e₂ (by simp [he'])
      simp only [hnext, Bool.or_eq_true, Bool.and_eq_true, decide_eq_true_eq]
      omega

/-! ## free -/

/-- Between the two joins of `free`: the block `b` is linked to what follows its
place, and `p` is the block before it. -/
structure Hole (base : Nat) (h : Heap) (pre : List Block) (p b : Block)
    (post live : List Block) : Prop where
  tiled : Tiled base h (pre ++ p :: b :: (post ++ live))
  head : (pre ++ [p]).head? = some (root base)
  before : Path h.ptr (pre.map Block.addr) p.addr
  after : Path h.ptr ((b :: post).map Block.addr) base
  apart_pre : Apart (pre ++ [p])
  apart_post : Apart (b :: post)
  stop_le : p.stop ≤ b.addr
  units : 0 < b.units

/-- **The block after.**  The block takes over the pointer, and the units if the two
touch. -/
theorem joinNext_spec (hi : Inv base h R (b :: live)) (hu : 0 < b.units)
    (he : R = pre ++ p :: post) (hp : p.stop ≤ b.addr) (hpost : ∀ e ∈ post, b.stop ≤ e.addr) :
    ∃ u post', Hole base (joinNext h b.addr p.addr) pre p ⟨b.addr, u⟩ post' live ∧ b.units ≤ u := by
  have ht : Tiled base h (pre ++ p :: b :: (post ++ live)) := by
    refine hi.tiled.perm ?_
    rw [he]
    simp only [List.append_assoc, List.cons_append]
    exact (List.perm_middle.cons p).append_left pre
  have hbin : b ∈ R ++ b :: live := by simp
  have hnext := hi.ptr_eq he
  have hne : ∀ e ∈ pre ++ p :: post, e.addr ≠ b.addr := by
    intro e hin
    have := hi.tiled.separate_of_mem (b := e) (by rw [he]; exact List.mem_append_left _ hin)
    exact this.2.symm
  have hnotin {l : List Block} (hl : ∀ e ∈ l, e ∈ pre ++ p :: post) :
      b.addr ∉ l.map Block.addr := by
    rintro hin
    obtain ⟨e, hin, heq⟩ := List.mem_map.mp hin
    exact hne e (hl e hin) heq
  have hhead : (pre ++ [p]).head? = some (root base) := by
    have := hi.head
    rw [he] at this
    cases pre <;> simpa using this
  have hpath := hi.path
  have hapart := hi.apart
  rw [he, List.map_append, path_append, List.map_cons, path_cons] at hpath
  rw [he] at hapart
  obtain ⟨hapre, hapost, hcross⟩ := List.pairwise_append.mp hapart
  have hapart_pre : Apart (pre ++ [p]) :=
    List.pairwise_append.mpr ⟨hapre, List.pairwise_singleton _ _,
      fun e hin f hf => hcross e hin f (List.mem_singleton.mp hf ▸ List.mem_cons_self)⟩
  have hapost := (List.pairwise_cons.mp hapost).2
  have hbefore := hpath.1.update (hnotin (l := pre) (by simp +contextual))
  -- no join
  have hkeep (hlt : ∀ e ∈ post, b.stop < e.addr) :
      Hole base (h.setPtr b.addr (h.ptr p.addr)) pre p b post live :=
    { tiled := ht.setPtr _ _
      head := hhead
      before := hbefore _
      after := by
        rw [Heap.setPtr_ptr, List.map_cons, path_cons, Function.update_self]
        exact ⟨hnext, hpath.2.2.update (hnotin (by simp +contextual)) _⟩
      apart_pre := hapart_pre
      apart_post := List.pairwise_cons.mpr ⟨hlt, hapost⟩
      stop_le := hp
      units := hu }
  unfold joinNext
  rw [hi.tiled.size b hbin, hi.tiled.plus_eq hbin]
  cases post with
  | nil =>
      have hbb := hi.tiled.bounds hbin hu
      have hstop : b.stop ≠ h.ptr p.addr := by
        have := b.addr_le_stop
        rw [hnext, List.map_nil, List.headD_nil]
        omega
      rw [if_neg hstop]
      exact ⟨b.units, [], hkeep (by simp), Nat.le_refl _⟩
  | cons e post =>
      rw [List.map_cons, List.headD_cons] at hnext
      have hle := hpost e List.mem_cons_self
      split
      next htouch =>
        rw [hnext] at htouch
        have hein : e ∈ R ++ b :: live := by simp [he]
        have hnext' := hi.ptr_eq (show R = (pre ++ [p]) ++ e :: post by simp [he])
        have htiled : Tiled base (h.setSize b.addr (b.units + e.units))
            (pre ++ [p] ++ ⟨b.addr, b.units + e.units⟩ :: (post ++ live)) :=
          Tiled.join_mid (by simpa using ht) htouch hu
        have hword : word (b.units + e.units) = b.units + e.units := by
          have := (hi.tiled.bounds' hein).2
          have := hi.tiled.brk
          unfold Block.stop at *
          exact Nat.mod_eq_of_lt (by omega)
        simp only [Heap.setSize_ptr, hnext, hi.tiled.size e hein, hword]
        refine ⟨b.units + e.units, post, ?_, Nat.le_add_right _ _⟩
        exact {
          tiled := by simpa using htiled.setPtr b.addr (h.ptr e.addr)
          head := hhead
          before := hbefore _
          after := by
            rw [Heap.setPtr_ptr, List.map_cons, path_cons, Function.update_self]
            exact ⟨hnext', hpath.2.2.2.update (hnotin (by simp +contextual)) _⟩
          apart_pre := hapart_pre
          apart_post := by
            have := List.pairwise_cons.mp hapost
            refine List.pairwise_cons.mpr ⟨fun f hf => ?_, this.2⟩
            have := this.1 f hf
            unfold Block.stop at *
            dsimp only
            omega
          stop_le := hp
          units := Nat.add_pos_left hu _ }
      next htouch =>
        refine ⟨b.units, e :: post, hkeep ?_, Nat.le_refl _⟩
        intro f hf
        rcases List.mem_cons.mp hf with rfl | hf
        · rw [hnext] at htouch
          omega
        · have := (List.pairwise_cons.mp hapost).1 f hf
          have := e.addr_le_stop
          omega

/-- **The block before.**  It takes over the pointer and the units if the two touch,
and points to the block otherwise. -/
theorem joinPrev_spec (hh : Hole base h pre p b post live) :
    ∃ R', Inv base { joinPrev h b.addr p.addr with freep := p.addr } R' live ∧
      ∃ e ∈ R', b.units ≤ e.units := by
  have hpin : p ∈ pre ++ p :: b :: (post ++ live) := by simp
  have hbin : b ∈ pre ++ p :: b :: (post ++ live) := by simp
  have hne : ∀ e ∈ pre ++ b :: post, e.addr ≠ p.addr := by
    intro e hin
    refine (hh.tiled.separate_of_mem (b := e) ?_).2.symm
    simp only [List.mem_append, List.mem_cons] at hin ⊢
    tauto
  have hnotin {l : List Block} (hl : ∀ e ∈ l, e ∈ pre ++ b :: post) :
      p.addr ∉ l.map Block.addr := by
    rintro hin
    obtain ⟨e, hin, heq⟩ := List.mem_map.mp hin
    exact hne e (hl e hin) heq
  have hbefore := hh.before.update (hnotin (l := pre) (by simp +contextual))
  obtain ⟨hapre, -, hcross⟩ := List.pairwise_append.mp hh.apart_pre
  have hapost := List.pairwise_cons.mp hh.apart_post
  have hple := p.addr_le_stop
  have hble := b.addr_le_stop
  have hafter := path_cons.mp hh.after
  unfold joinPrev
  rw [hh.tiled.size p hpin, hh.tiled.plus_eq hpin, hh.tiled.size b hbin]
  split
  next htouch =>
    have hu : 0 < p.units := by
      rcases hh.tiled.units p hpin with rfl | hu
      · have := (hh.tiled.bounds hbin hh.units).1
        simp only [root, Block.stop] at htouch
        omega
      · exact hu
    have hword : word (p.units + b.units) = p.units + b.units := by
      have := (hh.tiled.bounds' hbin).2
      have := hh.tiled.brk
      unfold Block.stop at *
      exact Nat.mod_eq_of_lt (by omega)
    rw [hword]
    refine ⟨pre ++ ⟨p.addr, p.units + b.units⟩ :: post, ?_, ⟨p.addr, p.units + b.units⟩,
      by simp, Nat.le_add_left _ _⟩
    exact {
      tiled := by simpa using ((hh.tiled.join_mid htouch hu).setPtr _ _).setFreep _
      head := by
        have := hh.head
        cases pre with
        | nil =>
            obtain rfl : p = root base := by simpa using this
            exact absurd hu (Nat.lt_irrefl 0)
        | cons e pre => simpa using this
      path := by
        rw [Heap.setPtr_ptr, List.map_append, path_append, List.map_cons, path_cons,
          Function.update_self]
        exact ⟨hbefore _, hafter.1, hafter.2.update (hnotin (by simp +contextual)) _⟩
      apart := by
        refine List.pairwise_append.mpr ⟨hapre, List.pairwise_cons.mpr ⟨?_, hapost.2⟩, ?_⟩
        · intro f hf
          have := hapost.1 f hf
          unfold Block.stop at *
          dsimp only
          omega
        · intro e hein f hf
          have hlt := hcross e hein p (by simp)
          rcases List.mem_cons.mp hf with rfl | hf
          · exact hlt
          · have := hapost.1 f hf
            omega
      freep := by simp }
  next htouch =>
    refine ⟨pre ++ p :: b :: post, ?_, b, by simp, Nat.le_refl _⟩
    exact {
      tiled := by simpa using (hh.tiled.setPtr _ _).setFreep _
      head := by
        have := hh.head
        cases pre <;> simpa using this
      path := by
        rw [Heap.setPtr_ptr, List.map_append, path_append, List.map_cons, path_cons,
          Function.update_self]
        exact ⟨hbefore _, rfl, hh.after.update (hnotin (by simp +contextual)) _⟩
      apart := by
        refine List.pairwise_append.mpr ⟨hapre, List.pairwise_cons.mpr ⟨?_, hh.apart_post⟩, ?_⟩
        · intro f hf
          have hlt := Nat.lt_of_le_of_ne hh.stop_le htouch
          rcases List.mem_cons.mp hf with rfl | hf
          · exact hlt
          · have := hapost.1 f hf
            omega
        · intro e hein f hf
          have hlt := hcross e hein p (by simp)
          have hle := hh.stop_le
          rcases List.mem_cons.mp hf with rfl | hf
          · exact hlt
          · rcases List.mem_cons.mp hf with rfl | hf
            · omega
            · have := hapost.1 f hf
              omega
      freep := by simp }

/-- There are fewer blocks than addresses. -/
theorem Inv.length_le (hi : Inv base h R live) : (R.map Block.addr).length ≤ 2 ^ 32 := by
  have hnodup : (R.map Block.addr).Nodup := by
    rw [List.nodup_iff_pairwise_ne, List.pairwise_map]
    refine hi.apart.imp fun {a b} h => ?_
    have := a.addr_le_stop
    omega
  rw [← List.toFinset_card_of_nodup hnodup]
  calc (R.map Block.addr).toFinset.card
      ≤ (Finset.range (2 ^ 32)).card := by
        refine Finset.card_le_card fun x hx => ?_
        obtain ⟨b, hb, rfl⟩ := List.mem_map.mp (List.mem_toFinset.mp hx)
        have := hi.tiled.bounds' (List.mem_append_left _ hb)
        have := hi.tiled.brk
        have := b.addr_le_stop
        exact Finset.mem_range.mpr (by omega)
    _ = 2 ^ 32 := Finset.card_range _

/-- **`free`** ends, and gives a block back to the list. -/
theorem free_spec (hi : Inv base h R (b :: live)) :
    ∃ h' R', free h (b.addr + 8) = some h' ∧ Inv base h' R' live ∧
      (∃ e ∈ R', b.units ≤ e.units) ∧ h'.brk = h.brk ∧ h'.mem = h.mem := by
  have hbin : b ∈ R ++ b :: live := by simp
  obtain ⟨l, hR⟩ : ∃ l, R = root base :: l := by
    cases R with
    | nil => simpa using hi.head
    | cons e l =>
        obtain rfl : e = root base := by simpa using hi.head
        exact ⟨l, rfl⟩
  have hsep : ∀ e ∈ R, Separate e b := fun e he =>
    (hi.tiled.separate_of_mem (List.mem_append_left _ he)).symm
  have hu : 0 < b.units := by
    rcases hi.tiled.units b hbin with rfl | hu
    · exact absurd rfl (hsep (root base) (by simp [hR])).2
    · exact hu
  have hb := hi.tiled.bounds hbin hu
  have hbrk := hi.tiled.brk
  have hbp : word (b.addr + 8 + (2 ^ 32 - 8)) = b.addr := by
    unfold word Block.stop at *
    omega
  obtain ⟨pre, p, post, he, hpre, hp, hpost⟩ := Apart.exists_place (hR ▸ hi.apart)
    (hR ▸ hsep) (show (root base).addr < b.addr by simp only [root]; omega)
  rw [← hR] at he
  have hseek : seek h.ptr (fits h b.addr) (2 ^ 32) h.freep = some p.addr := by
    have hpath := hi.path
    have hfreep := hi.freep
    have hlen := hi.length_le
    rw [hR, List.map_cons] at hpath hfreep hlen
    have hmem : ∀ x, x ∈ base :: l.map Block.addr ↔ ∃ e ∈ R, e.addr = x := by
      intro x
      rw [hR, ← List.mem_map]
      rfl
    refine hpath.seek_circle hfreep ((hmem _).mpr ⟨p, by simp [he], rfl⟩) ?_ hlen
    intro y hy
    obtain ⟨e, hin, rfl⟩ := (hmem y).mp hy
    exact fits_iff hi (by omega) he hpre (fun e he => (hpost e he).2) hin
  obtain ⟨u, post', hhole, hle⟩ := joinNext_spec hi hu he hp fun e he => (hpost e he).1
  obtain ⟨R', hinv, e, hein, hue⟩ := joinPrev_spec hhole
  refine ⟨_, R', ?_, hinv, ⟨e, hein, hle.trans hue⟩, ?_, ?_⟩
  · unfold free
    rw [hbp]
    dsimp only
    rw [hseek]
    rfl
  · unfold joinPrev joinNext
    split <;> split <;> rfl
  · unfold joinPrev joinNext
    split <;> split <;> rfl

/-! ## malloc -/

/-- **`carve`** takes a whole block out of the list, or its last units. -/
theorem carve_spec (hi : Inv base h R live) {a : Block} (he : R = pre ++ a :: b :: post) {n : Nat}
    (hn : 0 < n) (hle : n ≤ b.units) :
    ∃ c h' R', carve n a.addr b.addr h = (c.addr + 8, h') ∧ c.units = n ∧
      Inv base h' R' (c :: live) ∧ h'.brk = h.brk ∧ h'.mem = h.mem := by
  have hbin : b ∈ R ++ live := by simp [he]
  have hbounds := hi.tiled.bounds hbin (by omega)
  have hbrk := hi.tiled.brk
  have hstop : b.addr + 8 * b.units ≤ h.brk := hbounds.2
  have hhead {l : List Block} : (pre ++ a :: l).head? = some (root base) := by
    have := hi.head
    rw [he] at this
    cases pre <;> simpa using this
  unfold carve
  rw [hi.tiled.size b hbin]
  split
  next hexact =>
    have hplus : plus b.addr 1 = b.addr + 8 := Nat.mod_eq_of_lt (by omega)
    rw [hplus]
    refine ⟨b, _, pre ++ a :: post, rfl, hexact, ?_, rfl, rfl⟩
    have hnext := hi.ptr_eq (show R = (pre ++ [a]) ++ b :: post by simp [he])
    have hsep : ∀ e ∈ pre ++ b :: post, e.addr ≠ a.addr := by
      intro e hin
      have ht := hi.tiled
      rw [he, List.append_assoc, List.cons_append] at ht
      refine (ht.separate_of_mem (b := e) ?_).2.symm
      simp only [List.mem_append, List.mem_cons] at hin ⊢
      tauto
    have hnotin {l : List Block} (hl : ∀ e ∈ l, e ∈ pre ++ b :: post) :
        a.addr ∉ l.map Block.addr := by
      rintro hin
      obtain ⟨e, hin, heq⟩ := List.mem_map.mp hin
      exact hsep e (hl e hin) heq
    exact {
      tiled := by
        refine ((hi.tiled.setPtr _ _).setFreep _).perm ?_
        rw [he]
        simp only [List.append_assoc, List.cons_append]
        exact (List.perm_middle.symm.cons a).append_left pre
      head := hhead
      path := by
        have := hi.path
        simp only [he, List.map_append, List.map_cons, path_append, path_cons, List.headD_cons] at this
        rw [Heap.setPtr_ptr, List.map_append, path_append, List.map_cons, path_cons,
          Function.update_self]
        exact ⟨this.1.update (hnotin (by simp +contextual)) _, hnext,
          this.2.2.2.update (hnotin (by simp +contextual)) _⟩
      apart := by
        have := hi.apart
        rw [he] at this
        exact this.sublist
          (List.Sublist.append_left (List.Sublist.cons_cons a (List.sublist_cons_self b post)) pre)
      freep := by simp }
  next hmore =>
    have hq : plus b.addr (b.units - n) = b.addr + 8 * (b.units - n) :=
      Nat.mod_eq_of_lt (by omega)
    have hplus : plus (b.addr + 8 * (b.units - n)) 1 = b.addr + 8 * (b.units - n) + 8 :=
      Nat.mod_eq_of_lt (by omega)
    simp only [Heap.setSize_size, Function.update_self, hq, hplus]
    refine ⟨⟨b.addr + 8 * (b.units - n), n⟩, _, pre ++ a :: ⟨b.addr, b.units - n⟩ :: post, rfl,
      rfl, ?_, rfl, rfl⟩
    exact {
      tiled := by
        have ht := hi.tiled
        rw [he, show pre ++ a :: b :: post ++ live = (pre ++ [a]) ++ b :: (post ++ live) by simp] at ht
        refine ((ht.cut_mid hn (by omega)).setFreep _).perm ?_
        rw [show pre ++ [a] ++ ⟨b.addr, b.units - n⟩ :: (post ++ live) =
          (pre ++ a :: ⟨b.addr, b.units - n⟩ :: post) ++ live by simp]
        exact List.perm_middle.symm
      head := hhead
      path := by
        have := hi.path
        rw [he] at this
        simpa using this
      apart := by
        have := hi.apart
        rw [he, show pre ++ a :: b :: post = (pre ++ [a]) ++ b :: post by simp] at this
        have hstop : (⟨b.addr, b.units - n⟩ : Block).stop ≤ b.stop := by
          simp only [Block.stop]
          omega
        have := Apart.shrink this (show (⟨b.addr, b.units - n⟩ : Block).addr = b.addr from rfl) hstop
        simpa using this
      freep := by simp }

/-- **One round of the search.**  From `prevp`, over `as` up to `freep`: the first
block that is large enough is carved, or `morecore` is called after the round. -/
theorem mallocLoop_lap (sbrk : Sbrk) (n fuel : Nat) (as : List Nat) (prevp : Nat)
    (hpath : Path h.ptr (prevp :: as) h.freep) (has : h.freep ∉ as) :
    (∃ q ∈ prevp :: as, n ≤ h.size (h.ptr q) ∧
      mallocLoop sbrk n (as.length + 1 + fuel) prevp (h.ptr prevp) h =
        some (carve n q (h.ptr q) h)) ∨
    ((∀ c ∈ as ++ [h.freep], h.size c < n) ∧
      mallocLoop sbrk n (as.length + 1 + fuel) prevp (h.ptr prevp) h = do
        let (p, h) ← morecore sbrk n h
        if p = 0 then return (0, h) else mallocLoop sbrk n fuel p (h.ptr p) h) := by
  induction as generalizing prevp with
  | nil =>
      have hnext : h.ptr prevp = h.freep := hpath.1
      rw [show ([] : List Nat).length + 1 + fuel = fuel + 1 by simp; omega, mallocLoop]
      split
      next hfit => exact .inl ⟨prevp, List.mem_cons_self, hfit, rfl⟩
      next hfit =>
        refine .inr ⟨?_, rfl⟩
        intro c hc
        obtain rfl : c = h.freep := by simpa using hc
        rw [← hnext]
        omega
  | cons a as ih =>
      obtain ⟨hnext, hrest⟩ := path_cons.mp hpath
      rw [List.headD_cons] at hnext
      have hne : a ≠ h.freep := fun h => has (h ▸ List.mem_cons_self)
      rw [show (a :: as).length + 1 + fuel = as.length + 1 + fuel + 1 by simp; omega, mallocLoop]
      split
      next hfit => exact .inl ⟨prevp, List.mem_cons_self, hfit, rfl⟩
      next hfit =>
        rw [hnext] at hfit ⊢
        rw [if_neg hne]
        rcases ih a hrest (fun h => has (List.mem_cons_of_mem _ h)) with
          ⟨q, hq, hle, heq⟩ | ⟨hall, heq⟩
        · exact .inl ⟨q, List.mem_cons_of_mem _ hq, hle, heq⟩
        · refine .inr ⟨?_, heq⟩
          intro c hc
          rcases List.mem_cons.mp hc with rfl | hc
          · omega
          · exact hall c hc

/-- The round from `freep` back to it. -/
theorem Inv.exists_round (hi : Inv base h R live) :
    ∃ as, Path h.ptr (h.freep :: as) h.freep ∧ h.freep ∉ as ∧ as.length + 1 = R.length ∧
      ∀ c, c ∈ h.freep :: as ↔ ∃ e ∈ R, e.addr = c := by
  obtain ⟨pre, post, he⟩ := List.append_of_mem hi.freep
  have hnodup : (R.map Block.addr).Nodup := by
    rw [List.nodup_iff_pairwise_ne, List.pairwise_map]
    refine hi.apart.imp fun {a b} h => ?_
    have := a.addr_le_stop
    omega
  have hhead : base = (pre ++ [h.freep]).headD h.freep := by
    have := congrArg List.head? he
    rw [List.head?_map, hi.head] at this
    cases pre with
    | nil => simpa [root] using this
    | cons a pre => simpa [root] using this
  have hpath := hi.path
  rw [he, hhead] at hpath
  refine ⟨post ++ pre, hpath.rotate, ?_, ?_, ?_⟩
  · rw [he] at hnodup
    have := List.perm_middle.nodup_iff.mp hnodup
    simp only [List.nodup_cons, List.mem_append] at this ⊢
    tauto
  · have := congrArg List.length he
    simp only [List.length_map, List.length_append, List.length_cons] at this ⊢
    omega
  · intro c
    rw [← List.mem_map, he]
    simp only [List.mem_cons, List.mem_append]
    tauto

/-- `sbrk` fails, or gives memory above what it gave before. -/
def Extends (sbrk : Sbrk) (brk : Nat) : Prop :=
  ∀ n, 0 < n → n < 2 ^ 31 →
    sbrk brk n = (nowhere, brk) ∨ ∃ a, sbrk brk n = (a, a + n) ∧ brk ≤ a ∧ a + n < 2 ^ 32

/-- The end of the heap is as before, or where `sbrk` put it. -/
def Grown (sbrk : Sbrk) (brk brk' : Nat) : Prop :=
  brk' = brk ∨ ∃ n, 0 < n ∧ n < 2 ^ 31 ∧ brk' = (sbrk brk n).2

theorem Grown.le {sbrk : Sbrk} {brk brk' : Nat} (hg : Grown sbrk brk brk')
    (hsbrk : Extends sbrk brk) : brk ≤ brk' := by
  rcases hg with rfl | ⟨n, hn, hlt, rfl⟩
  · exact Nat.le_refl _
  · rcases hsbrk n hn hlt with h | ⟨a, h, hle, -⟩
    · rw [h]
    · rw [h]
      dsimp only
      omega

/-- Memory from `sbrk`, with a header in it, is one more allocated block. -/
theorem Inv.grow (hi : Inv base h R live) {a n : Nat} (ha : h.brk ≤ a) (hn : 0 < n)
    (hlt : a + 8 * n < 2 ^ 32) :
    Inv base ({ h with brk := a + 8 * n, mem := (a, a + 8 * n) :: h.mem }.setSize a n) R
      (⟨a, n⟩ :: live) := by
  have hbase := hi.tiled.base_le
  have hlow : ∀ e ∈ R ++ live, e.stop ≤ a ∧ e.addr ≠ a := by
    intro e he
    have := (hi.tiled.bounds' he).2
    refine ⟨by omega, ?_⟩
    rcases hi.tiled.units e he with rfl | hu
    · simp only [root]
      omega
    · unfold Block.stop at this
      omega
  have hmem : memory ((a, a + 8 * n) :: h.mem) = (⟨a, n⟩ : Block).bytes ∪ memory h.mem := by
    ext x
    simp [memory, Block.mem_bytes, Block.stop]
  have ht : Tiled base ({ h with brk := a + 8 * n, mem := (a, a + 8 * n) :: h.mem }.setSize a n)
      (⟨a, n⟩ :: (R ++ live)) := by
    refine ⟨?_, ?_, ?_, ?_, ?_, hlt, ?_, hi.tiled.base_pos⟩
    · intro e he
      rw [Heap.setSize_size]
      rcases List.mem_cons.mp he with rfl | he
      · exact Function.update_self ..
      · rw [Function.update_of_ne (hlow e he).2]
        exact hi.tiled.size e he
    · intro e he
      rcases List.mem_cons.mp he with rfl | he
      · exact .inr hn
      · exact hi.tiled.units e he
    · refine List.pairwise_cons.mpr ⟨fun e he => ?_, hi.tiled.separate⟩
      exact ⟨.inr (hlow e he).1, (hlow e he).2.symm⟩
    · rw [bytes_cons, hi.tiled.tile]
      exact hmem.symm
    · intro x hx
      rw [Heap.setSize_mem, hmem] at hx
      rw [Heap.setSize_brk]
      rcases hx with hx | hx
      · have := Block.mem_bytes.mp hx
        unfold Block.stop at this
        dsimp only at *
        omega
      · have := hi.tiled.mem x hx
        dsimp only
        omega
    · rw [Heap.setSize_brk]
      dsimp only
      omega
  exact {
    tiled := ht.perm List.perm_middle.symm
    head := hi.head
    path := hi.path
    apart := hi.apart
    freep := hi.freep }

/-- **`morecore`** ends; it gives NULL, or the list has a block that is large
enough. -/
theorem morecore_spec (hi : Inv base h R live) {sbrk : Sbrk} (hsbrk : Extends sbrk h.brk) {n : Nat}
    (hn : n < 2 ^ 28) :
    morecore sbrk n h = some (0, h) ∨
    ∃ h' R', morecore sbrk n h = some (h'.freep, h') ∧ Inv base h' R' live ∧
      (∃ e ∈ R', n ≤ e.units) ∧ Grown sbrk h.brk h'.brk := by
  set nu := if n < 4096 then 4096 else n with hnu
  have hbounds : 4096 ≤ nu ∧ n ≤ nu ∧ nu < 2 ^ 28 := by
    rw [hnu]
    split <;> omega
  have hword : word (nu * 8) = 8 * nu := by
    unfold word
    omega
  unfold morecore
  rw [← hnu]
  dsimp only
  rw [hword]
  rcases hsbrk (8 * nu) (by omega) (by omega) with hfail | ⟨a, hok, hle, hlt⟩
  · rw [hfail]
    exact .inl rfl
  · have hgrow := hi.grow hle (by omega : 0 < nu) hlt
    obtain ⟨h', R', hfree, hinv, ⟨e, he, hu⟩, hbrk, -⟩ := free_spec hgrow
    have hplus : plus a 1 = a + 8 := Nat.mod_eq_of_lt (by omega)
    have hne : a ≠ nowhere := by
      unfold nowhere
      omega
    refine .inr ⟨h', R', ?_, hinv, ⟨e, he, hbounds.2.1.trans hu⟩, ?_⟩
    · rw [hok]
      dsimp only
      rw [if_neg hne, hplus, hfree]
      rfl
    · exact .inr ⟨8 * nu, by omega, by omega, by rw [hbrk, hok]; rfl⟩

theorem units_bounds {nbytes : UInt32} (h : nbytes.toNat ≤ 2 ^ 31 - 16) :
    0 < units nbytes ∧ units nbytes < 2 ^ 28 ∧ nbytes.toNat + 8 ≤ 8 * units nbytes := by
  unfold units word
  omega

/-- A block that the search found, with the block before it. -/
theorem Inv.carve_of_fit (hi : Inv base h R live) {n q : Nat} (hn : 0 < n)
    (hq : ∃ e ∈ R, e.addr = q) (hfit : n ≤ h.size (h.ptr q)) :
    ∃ c h' R', carve n q (h.ptr q) h = (c.addr + 8, h') ∧ c.units = n ∧
      Inv base h' R' (c :: live) ∧ h'.brk = h.brk ∧ h'.mem = h.mem := by
  obtain ⟨a, ha, rfl⟩ := hq
  obtain ⟨pre, post, he⟩ := List.append_of_mem ha
  have hnext := hi.ptr_eq he
  cases post with
  | nil =>
      -- the last block points to `base`, which has no units
      have hroot : root base ∈ R := List.mem_of_mem_head? hi.head
      have := hi.tiled.size (root base) (List.mem_append_left _ hroot)
      rw [hnext] at hfit
      simp only [root, List.map_nil, List.headD_nil] at this hfit
      omega
  | cons b post =>
      rw [List.map_cons, List.headD_cons] at hnext
      rw [hnext] at hfit ⊢
      rw [hi.tiled.size b (by simp [he])] at hfit
      exact carve_spec hi he hn hfit

theorem Inv.freep_ne_zero (hi : Inv base h R live) : h.freep ≠ 0 := by
  obtain ⟨b, hb, he⟩ := List.mem_map.mp hi.freep
  have := (hi.tiled.bounds' (List.mem_append_left _ hb)).1
  have := hi.tiled.base_pos
  omega

/-- **`malloc`**, once the list exists: it ends, and gives NULL or a block. -/
theorem mallocLoop_spec (hi : Inv base h R live) {sbrk : Sbrk} (hsbrk : Extends sbrk h.brk)
    {n : Nat} (h0 : 0 < n) (hn : n < 2 ^ 28) :
    ∃ p h' R' live', mallocLoop sbrk n (2 ^ 33) h.freep (h.ptr h.freep) h = some (p, h') ∧
      Inv base h' R' live' ∧ Grown sbrk h.brk h'.brk ∧
      (p = 0 ∧ live' = live ∨ ∃ c, p = c.addr + 8 ∧ c.units = n ∧ live' = c :: live) := by
  obtain ⟨as, hpath, has, hlen, hmem⟩ := hi.exists_round
  have hle := hi.length_le
  rw [List.length_map] at hle
  rcases mallocLoop_lap sbrk n (2 ^ 33 - R.length) as h.freep hpath has with
    ⟨q, hq, hfit, heq⟩ | ⟨-, heq⟩
  · rw [hlen, show R.length + (2 ^ 33 - R.length) = 2 ^ 33 by omega] at heq
    obtain ⟨c, h', R', hcarve, hc, hinv, hbrk, -⟩ := hi.carve_of_fit h0 ((hmem q).mp hq) hfit
    exact ⟨c.addr + 8, h', R', c :: live, by rw [heq, hcarve], hinv, .inl hbrk,
      .inr ⟨c, rfl, hc, rfl⟩⟩
  · rw [hlen, show R.length + (2 ^ 33 - R.length) = 2 ^ 33 by omega] at heq
    rw [heq]
    rcases morecore_spec hi hsbrk hn with hfail | ⟨h', R', hmore, hinv, ⟨e, he, hu⟩, hbrk⟩
    · rw [hfail]
      exact ⟨0, h, R, live, rfl, hi, .inl rfl, .inl ⟨rfl, rfl⟩⟩
    · obtain ⟨as', hpath', has', hlen', hmem'⟩ := hinv.exists_round
      have hle' := hinv.length_le
      rw [List.length_map] at hle'
      have hne := hinv.freep_ne_zero
      rcases mallocLoop_lap sbrk n (2 ^ 33 - R.length - R'.length) as' h'.freep hpath' has' with
        ⟨q, hq, hfit, heq'⟩ | ⟨hall, -⟩
      · rw [hlen', show R'.length + (2 ^ 33 - R.length - R'.length) = 2 ^ 33 - R.length by omega]
          at heq'
        obtain ⟨c, h'', R'', hcarve, hc, hinv', hbrk', -⟩ :=
          hinv.carve_of_fit h0 ((hmem' q).mp hq) hfit
        refine ⟨c.addr + 8, h'', R'', c :: live, ?_, hinv', hbrk'.symm ▸ hbrk,
          .inr ⟨c, rfl, hc, rfl⟩⟩
        rw [hmore]
        change (if h'.freep = 0 then _ else _) = _
        rw [if_neg hne, heq', hcarve]
      · -- the new block is in the list
        have hin := (hmem' e.addr).mpr ⟨e, he, rfl⟩
        have hlt := hall e.addr (by simp only [List.mem_cons, List.mem_append] at hin ⊢; tauto)
        rw [hinv.tiled.size e (List.mem_append_left _ he)] at hlt
        omega

/-- Before the first call there is no list. -/
def Fresh (base : Nat) (h : Heap) (live : List Block) : Prop :=
  h.freep = 0 ∧ h.mem = [] ∧ live = [] ∧ 0 < base ∧ base + 8 ≤ h.brk ∧ h.brk < 2 ^ 32

/-- The list of the static header alone. -/
theorem Fresh.inv (hf : Fresh base h live) :
    Inv base { (h.setPtr base base).setSize base 0 with freep := base } [root base] live := by
  obtain ⟨-, hmem, rfl, hpos, hle, hlt⟩ := hf
  have hempty : memory h.mem = ∅ := by
    rw [hmem]
    simp [memory]
  exact {
    tiled := {
      size := by simp [root]
      units := by simp
      separate := List.pairwise_singleton _ _
      tile := by simpa using hempty.symm
      mem := by
        intro x hx
        have hx : x ∈ memory h.mem := hx
        rw [hempty] at hx
        exact absurd hx (Set.notMem_empty x)
      brk := hlt
      base_le := hle
      base_pos := hpos }
    head := rfl
    path := by simp [root]
    apart := List.pairwise_singleton _ _
    freep := by simp [root] }

/-- **`malloc`** ends, and gives NULL or a block of its own. -/
theorem malloc_spec (hi : Fresh base h live ∨ Inv base h R live) {sbrk : Sbrk}
    (hsbrk : Extends sbrk h.brk) {nbytes : UInt32} (hn : nbytes.toNat ≤ 2 ^ 31 - 16) :
    ∃ p h' R' live', malloc base sbrk nbytes h = some (p, h') ∧
      Inv base h' R' live' ∧ Grown sbrk h.brk h'.brk ∧
      (p = 0 ∧ live' = live ∨
        ∃ c, p = c.addr + 8 ∧ c.units = units nbytes ∧ live' = c :: live) := by
  obtain ⟨h0, hlt, -⟩ := units_bounds hn
  unfold malloc
  rcases hi with hf | hi
  · simp only [hf.1, if_true]
    exact mallocLoop_spec hf.inv hsbrk h0 hlt
  · simp only [hi.freep_ne_zero, if_false]
    exact mallocLoop_spec hi hsbrk h0 hlt

/-! ## runs -/

/-- The allocated blocks, as their headers have them. -/
def State.allocated (s : State) : List Block := s.live.map fun a => ⟨a.1 - 8, s.size (a.1 - 8)⟩

/-- The free list exists and has its invariant, or `malloc` was not yet called. -/
def Listed (base : Nat) (s : State) : Prop :=
  s.freep = 0 ∧ s.live = [] ∧ s.mem = [] ∨ ∃ R, Inv base s.toHeap R s.allocated

/-- A call with a size that does not overflow and with an `sbrk` that fails or gives
memory above what it gave before, or of `free` with an allocated block. -/
def Proper (s : State) : Call → Prop
  | .malloc nbytes sbrk => nbytes.toNat ≤ 2 ^ 31 - 16 ∧ Extends sbrk s.brk
  | .free ap => ∃ n, (ap, n) ∈ s.live

/-- The heap of a state, and every allocated block has the bytes that were asked for. -/
structure Good (base : Nat) (s : State) : Prop where
  heap : Fresh base s.toHeap s.allocated ∨ ∃ R, Inv base s.toHeap R s.allocated
  big : ∀ a ∈ s.live, 8 ≤ a.1 ∧ a.2.toNat + 8 ≤ 8 * s.size (a.1 - 8)

theorem Good.listed {s : State} (hg : Good base s) : Listed base s := by
  rcases hg.heap with hf | hi
  · exact .inl ⟨hf.1, List.map_eq_nil_iff.mp hf.2.2.1, hf.2.1⟩
  · exact .inr hi

theorem Start.good {s : State} (hs : Start base s) : Good base s where
  heap := by
    have := hs.brk_lt
    unfold KERNBASE at this
    exact .inl ⟨hs.freep, hs.mem, by simp [State.allocated, hs.live], hs.base_pos, hs.base_lt,
      by omega⟩
  big := by simp [hs.live]

theorem Inv.perm_live {live' : List Block} (hi : Inv base h R live) (hp : live.Perm live') :
    Inv base h R live' :=
  ⟨hi.tiled.perm (hp.append_left R), hi.head, hi.path, hi.apart, hi.freep⟩

/-- The headers of the allocated blocks are as before. -/
theorem Good.size_eq {s : State} {h' : Heap} {R' live' : List Block} (hi : Inv base h' R' live')
    (hsub : ∀ b ∈ s.allocated, b ∈ live') : ∀ a ∈ s.live, h'.size (a.1 - 8) = s.size (a.1 - 8) := by
  intro a ha
  exact hi.tiled.size ⟨a.1 - 8, s.size (a.1 - 8)⟩
    (List.mem_append_right _ (hsub _ (List.mem_map_of_mem ha)))

theorem malloc_good {s : State} (hg : Good base s) {nbytes : UInt32} {sbrk : Sbrk}
    (hok : Proper s (.malloc nbytes sbrk)) :
    ∃ s', step base s (.malloc nbytes sbrk) = some s' ∧ Good base s' ∧
      Grown sbrk s.brk s'.brk := by
  obtain ⟨hn, hsbrk⟩ := hok
  have hheap : ∃ R, Fresh base s.toHeap s.allocated ∨ Inv base s.toHeap R s.allocated := by
    rcases hg.heap with hf | ⟨R, hi⟩
    · exact ⟨[], .inl hf⟩
    · exact ⟨R, .inr hi⟩
  obtain ⟨R, hheap⟩ := hheap
  obtain ⟨p, h', R', live', heq, hi, hbrk, hcase⟩ := malloc_spec hheap hsbrk hn
  refine ⟨{ h' with live := if p = 0 then s.live else (p, nbytes) :: s.live }, ?_, ?_, hbrk⟩
  · simp only [step, heq]
    rfl
  rcases hcase with ⟨rfl, rfl⟩ | ⟨c, rfl, hc, rfl⟩
  · have hsize := Good.size_eq hi fun _ hb => hb
    rw [if_pos rfl]
    refine ⟨.inr ⟨R', ?_⟩, fun a ha => ?_⟩
    · rwa [State.allocated, List.map_congr_left fun a ha => by rw [hsize a ha]]
    · dsimp only
      rw [hsize a ha]
      exact hg.big a ha
  · have hsize := Good.size_eq hi fun _ hb => List.mem_cons_of_mem c hb
    have hcsize : h'.size c.addr = units nbytes := by
      rw [hi.tiled.size c (by simp), hc]
    rw [if_neg (Nat.succ_ne_zero _)]
    refine ⟨.inr ⟨R', ?_⟩, fun a ha => ?_⟩
    · rw [State.allocated, List.map_cons, List.map_congr_left fun a ha => by rw [hsize a ha]]
      dsimp only
      rw [Nat.add_sub_cancel, hcsize, ← hc]
      exact hi
    · dsimp only
      rcases List.mem_cons.mp ha with rfl | ha
      · dsimp only
        rw [Nat.add_sub_cancel, hcsize]
        exact ⟨Nat.le_add_left _ _, (units_bounds hn).2.2⟩
      · rw [hsize a ha]
        exact hg.big a ha

theorem free_good {s : State} (hg : Good base s) {ap : Nat} (hok : Proper s (.free ap)) :
    ∃ s', step base s (.free ap) = some s' ∧ Good base s' ∧ s'.brk = s.brk := by
  obtain ⟨n, hin⟩ := hok
  have hbig := (hg.big (ap, n) hin).1
  obtain ⟨pre, post, he⟩ := List.append_of_mem hin
  obtain ⟨R, hi⟩ : ∃ R, Inv base s.toHeap R s.allocated := by
    rcases hg.heap with hf | hi
    · have := List.map_eq_nil_iff.mp hf.2.2.1
      simp [this] at hin
    · exact hi
  set rest := (pre ++ post).map fun a => (⟨a.1 - 8, s.size (a.1 - 8)⟩ : Block) with hrest
  have hperm : s.allocated.Perm (⟨ap - 8, s.size (ap - 8)⟩ :: rest) := by
    rw [State.allocated, he, hrest, List.map_append, List.map_append, List.map_cons]
    exact List.perm_middle
  have hi' := hi.perm_live hperm
  obtain ⟨h', R', hfree, hinv, -, hbrk, -⟩ := free_spec hi'
  have hap : ap - 8 + 8 = ap := Nat.sub_add_cancel hbig
  -- no other allocated block has the address
  have hfilter : (s.live.filter fun a => a.1 ≠ ap) = pre ++ post := by
    have hne : ∀ a ∈ pre ++ post, a.1 ≠ ap := by
      intro a ha heq
      have := hi'.tiled.separate_of_mem (b := ⟨a.1 - 8, s.size (a.1 - 8)⟩)
        (List.mem_append_right _ (List.mem_map_of_mem ha))
      exact this.2 (by rw [heq])
    rw [he, List.filter_append, List.filter_cons_of_neg (by simp), ← List.filter_append,
      List.filter_eq_self]
    intro a ha
    simpa using hne a ha
  have hsize : ∀ a ∈ pre ++ post, h'.size (a.1 - 8) = s.size (a.1 - 8) := by
    intro a ha
    exact hinv.tiled.size ⟨a.1 - 8, s.size (a.1 - 8)⟩
      (List.mem_append_right _ (List.mem_map_of_mem ha))
  refine ⟨{ h' with live := s.live.filter fun a => a.1 ≠ ap }, ?_, ?_, hbrk⟩
  · rw [hap] at hfree
    simp only [step, hfree]
    rfl
  · rw [hfilter]
    refine ⟨.inr ⟨R', ?_⟩, fun a ha => ?_⟩
    · rwa [State.allocated, List.map_congr_left fun a ha => by rw [hsize a ha]]
    · have ha : a ∈ pre ++ post := ha
      change 8 ≤ a.1 ∧ a.2.toNat + 8 ≤ 8 * h'.size (a.1 - 8)
      rw [hsize a ha]
      refine hg.big a ?_
      rw [he]
      rcases List.mem_append.mp ha with ha | ha
      · exact List.mem_append_left _ ha
      · exact List.mem_append_right _ (List.mem_cons_of_mem _ ha)

theorem step_good {s : State} {c : Call} (hg : Good base s) (hok : Proper s c) :
    ∃ s', step base s c = some s' ∧ Good base s' := by
  cases c with
  | malloc nbytes sbrk =>
      obtain ⟨s', heq, hg', -⟩ := malloc_good hg hok
      exact ⟨s', heq, hg'⟩
  | free ap =>
      obtain ⟨s', heq, hg', -⟩ := free_good hg hok
      exact ⟨s', heq, hg'⟩

/-- **The free list**: in every run of proper calls, every call ends, and the list
keeps its invariant. -/
theorem freeList_invariant {s : State} (hs : Start base s) (calls : List Call)
    (hok : Run.Guarded (step base) Proper s calls) :
    (∃ s', Run.exec (step base) s calls = some s') ∧
    Run.Along (step base) (Listed base) s calls := by
  refine ⟨Run.exec_total (fun _ _ => step_good) hs.good hok,
    Run.along_of_guarded ?_ (fun _ => Good.listed) hs.good hok⟩
  intro s c s' hg hok heq
  obtain ⟨t, heq', hg'⟩ := step_good hg hok
  obtain rfl : s' = t := Option.some.inj (heq.symm.trans heq')
  exact hg'

/-- A heap that begins at `0x3000`, with the static header at `0x1000`. -/
def first : State where
  ptr _ := 0
  size _ := 0
  freep := 0
  brk := 0x3000
  mem := []
  live := []

theorem first_start : Start 0x1000 first := by
  refine ⟨rfl, rfl, rfl, ?_, ?_, ?_⟩ <;> decide

/-- Another 64 bytes are taken before each call. -/
def gapSbrk : Sbrk := fun brk n =>
  if brk + 64 + n < 2 ^ 32 then (brk + 64, brk + 64 + n) else (nowhere, brk)

theorem gapSbrk_extends (brk : Nat) : Extends gapSbrk brk := by
  intro n _ _
  unfold gapSbrk
  split
  next h => exact .inr ⟨brk + 64, rfl, Nat.le_add_right _ _, h⟩
  next => exact .inl rfl

/-- Two blocks, of which the second one is too large for the first region, and the
first one is freed. -/
theorem freeList_invariant_gap :
    ∃ calls, calls.length = 3 ∧ Run.Along (step 0x1000) (Listed 0x1000) first calls := by
  have hok : Run.Guarded (step 0x1000) Proper first
      [.malloc 100 gapSbrk, .malloc 40000 gapSbrk, .free (0x3040 + 8 * 4082 + 8)] := by
    refine ⟨⟨by decide, gapSbrk_extends _⟩, fun s h => ?_⟩
    refine ⟨⟨by decide, gapSbrk_extends _⟩, fun t h' => ⟨⟨100, ?_⟩, fun _ _ => trivial⟩⟩
    have hrun : ((step 0x1000 first (.malloc 100 gapSbrk)).bind fun s =>
        step 0x1000 s (.malloc 40000 gapSbrk)).any
          (fun t => t.live.contains (0x3040 + 8 * 4082 + 8, 100)) = true := by
      decide +kernel
    rw [h, Option.bind_some, h'] at hrun
    simpa using hrun
  exact ⟨_, rfl, (freeList_invariant first_start _ hok).2⟩

end Xv6.Umalloc
