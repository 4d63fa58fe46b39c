import Fizzos.Kernel.Buddy
import Fizzos.Proofs.Bitmap
import Fizzos.Proofs.List

/-!
# `Fizzos.Proofs.Buddy`: the page allocator keeps its pools tiled

`BuddyInv b fr out` connects the pointers and bitmaps of a `Buddy` with a picture of its
pools. `fr P o` is the free list of the order `o` as a sequence of page indices
(`Represents`). The free blocks and the blocks `out P` that somebody holds tile the pool, and
no two buddies are both free.

The one bit of a pair of buddies says if exactly one of the two is on the free list
(`PairBits`). So a bit flips exactly when one of its two blocks enters or leaves the list
(`PairBits.toggle`). That is all that the loops need. The split loop gives the upper half of
the block it holds back to a list. The merge loop holds a block too: it flips the bit of its
pair, and the new value says if the buddy is free and can be taken off the list.
-/

set_option autoImplicit false

namespace Fizzos.Proofs

open Fizzos.Kernel
open Fizzos.LibKernel
open Fizzos.Support

/-! ### The bit of a pair -/

/-- The bits of an order say for each pair of the range if exactly one buddy is in the
list. -/
def PairBits (lo hi o : Nat) (bit : Nat → Bool) (xs : List Nat) : Prop :=
  ∀ i, 2 ^ (o + 1) ∣ i → lo ≤ i → i < hi →
    bit (i >>> (o + 1)) = (decide (i ∈ xs) ^^ decide (i + 2 ^ o ∈ xs))

/-- A block enters or leaves the list, and the bit of its pair flips. -/
theorem PairBits.toggle {lo hi o idx : Nat} {bit bit' : Nat → Bool} {xs ys : List Nat}
    (h : PairBits lo hi o bit xs) (hidx : 2 ^ o ∣ idx)
    (hbit : ∀ k, bit' k = if k = idx >>> (o + 1) then !bit k else bit k)
    (hself : idx ∈ ys ↔ idx ∉ xs) (hother : ∀ j, j ≠ idx → (j ∈ ys ↔ j ∈ xs)) :
    PairBits lo hi o bit' ys := by
  intro i hi hlo hhi
  have hpow : 0 < 2 ^ o := Nat.two_pow_pos o
  have hsucc : 2 ^ (o + 1) = 2 ^ o + 2 ^ o := by rw [Nat.pow_succ]; omega
  rw [hbit, h i hi hlo hhi]
  -- `base` is the lower buddy of the pair of `idx`
  obtain ⟨base, hbase, hpair⟩ : ∃ base, 2 ^ (o + 1) ∣ base ∧
      (idx = base ∨ idx = base + 2 ^ o) := by
    rcases half_cases hidx with hlower | ⟨base, hbase, heq⟩
    · exact ⟨idx, hlower, .inl rfl⟩
    · exact ⟨base, hbase, .inr heq⟩
  have hnumber : idx >>> (o + 1) = base >>> (o + 1) := by
    rcases hpair with rfl | rfl
    · rfl
    · exact add_shiftRight_of_dvd hbase
  by_cases hib : i = base
  · subst hib
    rw [hnumber, if_pos rfl]
    rcases hpair with rfl | rfl
    · have hne : idx + 2 ^ o ≠ idx := by omega
      by_cases h₁ : idx ∈ xs <;> by_cases h₂ : idx + 2 ^ o ∈ xs <;>
        simp [hself, hother _ hne, h₁, h₂]
    · have hne : i ≠ i + 2 ^ o := by omega
      by_cases h₁ : i ∈ xs <;> by_cases h₂ : i + 2 ^ o ∈ xs <;>
        simp [hself, hother _ hne, h₁, h₂]
  · have hk : i >>> (o + 1) ≠ idx >>> (o + 1) := by
      intro heq
      rw [hnumber] at heq
      exact hib (by rw [← shiftRight_mul_of_dvd hi, heq, shiftRight_mul_of_dvd hbase])
    -- both indices of another pair differ from `idx`
    have hfar : i + 2 ^ (o + 1) ≤ base ∨ base + 2 ^ (o + 1) ≤ i := by
      rcases Nat.lt_or_gt_of_ne hib with hlt | hgt
      · refine .inl (Tiles.le_of_dvd_of_lt_add ?_ hbase (by omega))
        exact (Nat.dvd_add_right hi).mpr (Nat.dvd_refl _)
      · refine .inr (Tiles.le_of_dvd_of_lt_add ?_ hi (by omega))
        exact (Nat.dvd_add_right hbase).mpr (Nat.dvd_refl _)
    have h₁ : i ≠ idx := by rcases hpair with rfl | rfl <;> omega
    have h₂ : i + 2 ^ o ≠ idx := by rcases hpair with rfl | rfl <;> omega
    rw [if_neg hk]
    simp [hother _ h₁, hother _ h₂]

/-! ### The free blocks -/

/-- The free lists of a pool. -/
abbrev FreeLists := Pool → Nat → List Nat

/-- One list is replaced. -/
def setFree (fr : FreeLists) (P : Pool) (o : Nat) (xs : List Nat) : FreeLists :=
  Function.update fr P (Function.update (fr P) o xs)

@[simp] theorem setFree_self (fr : FreeLists) (P : Pool) (o : Nat) (xs : List Nat) :
    setFree fr P o xs P o = xs := by simp [setFree]

theorem setFree_of_ne (fr : FreeLists) {P Q : Pool} {o q : Nat} (xs : List Nat)
    (hne : ¬(Q = P ∧ q = o)) : setFree fr P o xs Q q = fr Q q := by
  by_cases hQ : Q = P
  · have hq : q ≠ o := fun hq => hne ⟨hQ, hq⟩
    subst hQ
    simp [setFree, hq]
  · simp [setFree, hQ]

/-- The blocks on the lists of the orders below `n`. -/
def freeBlocks (f : Nat → List Nat) : Nat → Multiset Block
  | 0 => 0
  | n + 1 => freeBlocks f n + (f n : Multiset Nat).map (Block.mk · n)

theorem mem_freeBlocks {f : Nat → List Nat} {n : Nat} {b : Block} :
    b ∈ freeBlocks f n ↔ b.order < n ∧ b.idx ∈ f b.order := by
  induction n with
  | zero => simp [freeBlocks]
  | succ n ih =>
      simp only [freeBlocks, Multiset.mem_add, ih, Multiset.mem_map, Multiset.mem_coe]
      constructor
      · rintro (⟨hlt, hmem⟩ | ⟨i, hi, rfl⟩)
        · exact ⟨by omega, hmem⟩
        · exact ⟨Nat.lt_succ_self n, hi⟩
      · rintro ⟨hlt, hmem⟩
        rcases Nat.lt_succ_iff_lt_or_eq.mp hlt with hlt | heq
        · exact .inl ⟨hlt, hmem⟩
        · subst heq
          exact .inr ⟨b.idx, hmem, rfl⟩

/-- A list at or above the bound does not count. -/
theorem freeBlocks_update_of_le (f : Nat → List Nat) {n o : Nat} (xs : List Nat) (h : n ≤ o) :
    freeBlocks (Function.update f o xs) n = freeBlocks f n := by
  induction n with
  | zero => rfl
  | succ n ih =>
      have hne : n ≠ o := by omega
      simp only [freeBlocks, ih (by omega), Function.update_of_ne hne]

/-- One more block on a list. -/
theorem freeBlocks_update_cons (f : Nat → List Nat) {n o x : Nat} {xs : List Nat} (h : o < n)
    (hxs : (xs : Multiset Nat) = x ::ₘ (f o : Multiset Nat)) :
    freeBlocks (Function.update f o xs) n = ⟨x, o⟩ ::ₘ freeBlocks f n := by
  induction n with
  | zero => omega
  | succ n ih =>
      rcases Nat.lt_succ_iff_lt_or_eq.mp h with hlt | rfl
      · have hne : n ≠ o := by omega
        simp only [freeBlocks, ih hlt, Function.update_of_ne hne, Multiset.cons_add]
      · simp only [freeBlocks, freeBlocks_update_of_le f xs (Nat.le_refl _),
          Function.update_self, hxs, Multiset.map_cons, Multiset.add_cons]

/-- A block leaves a list. -/
theorem cons_freeBlocks_update (f : Nat → List Nat) {n o x : Nat} {xs : List Nat} (h : o < n)
    (hxs : (f o : Multiset Nat) = x ::ₘ (xs : Multiset Nat)) :
    ⟨x, o⟩ ::ₘ freeBlocks (Function.update f o xs) n = freeBlocks f n := by
  have hback : freeBlocks (Function.update (Function.update f o xs) o (f o)) n
      = ⟨x, o⟩ ::ₘ freeBlocks (Function.update f o xs) n :=
    freeBlocks_update_cons _ h (by rw [Function.update_self, hxs])
  rw [← hback, Function.update_idem, Function.update_eq_self]

/-! ### What the pointers and bitmaps represent -/

/-- The ranges of the two pools: aligned, one behind the other, and with fewer pages than a
list walk has steps. -/
structure PoolRanges (lo hi : Pool → Nat) : Prop where
  lo_dvd : ∀ P, 2 ^ MAX_ORDER ∣ lo P
  hi_dvd : ∀ P, 2 ^ MAX_ORDER ∣ hi P
  kernel_le : hi .kernel ≤ lo .user
  hi_le : ∀ P, hi P ≤ LIST_WALK

/-- The free lists of `b` are `fr`, and its counters and bitmaps agree with them. -/
structure Represents (lo hi : Pool → Nat) (b : Buddy) (fr : FreeLists) : Prop where
  memMap : KERNEL_VADDR_START ≤ b.memMap
  userStart : b.userStartIdx = lo .user
  list : ∀ P o, o ≤ MAX_ORDER → IsList b.lru (b.area P o).pgList (fr P o)
  nrFree : ∀ P o, o ≤ MAX_ORDER → (b.area P o).nrFree = (fr P o).length
  lock : ∀ P o, o ≤ MAX_ORDER → (b.area P o).bmap.lock = mutexLockInit
  bits : ∀ P o, o < MAX_ORDER → PairBits (lo P) (hi P) o (b.area P o).bmap.bit (fr P o)

/-- The links of the page descriptors lie in kernel memory. -/
theorem inKernel_lruAddr {b : Buddy} (h : KERNEL_VADDR_START ≤ b.memMap) (xs : List Nat) :
    InKernel b.lruAddr xs := by
  intro x _
  unfold Buddy.lruAddr
  omega

/-- The state that differs from `b` in one area, in links, and in page descriptors. -/
structure AreaStep (b b' : Buddy) (P : Pool) (o : Nat) : Prop where
  memMap : b'.memMap = b.memMap
  userStart : b'.userStartIdx = b.userStartIdx
  area : ∀ Q q, ¬(Q = P ∧ q = o) → b'.area Q q = b.area Q q

/-- One list changes, with its counter and bitmap. The links of the other lists stay. -/
theorem Represents.step {lo hi : Pool → Nat} {b b' : Buddy} {fr : FreeLists}
    (h : Represents lo hi b fr) {P : Pool} {o : Nat} (xs : List Nat)
    (hstep : AreaStep b b' P o) (hlist : IsList b'.lru (b'.area P o).pgList xs)
    (hframe : ∀ Q q, q ≤ MAX_ORDER → ¬(Q = P ∧ q = o) → ∀ x ∈ fr Q q, b'.lru x = b.lru x)
    (hnr : (b'.area P o).nrFree = xs.length)
    (hlock : (b'.area P o).bmap.lock = mutexLockInit)
    (hbits : o < MAX_ORDER → PairBits (lo P) (hi P) o (b'.area P o).bmap.bit xs) :
    Represents lo hi b' (setFree fr P o xs) := by
  -- Each field is shown for the list that changes, and copied for the others.
  have hcase : ∀ (Q : Pool) (q : Nat) (C : FreeArea → List Nat → Prop), C (b'.area P o) xs →
      (¬(Q = P ∧ q = o) → C (b.area Q q) (fr Q q)) →
      C (b'.area Q q) (setFree fr P o xs Q q) := by
    intro Q q C hself helse
    by_cases hne : Q = P ∧ q = o
    · obtain ⟨rfl, rfl⟩ := hne
      rwa [setFree_self]
    · rw [setFree_of_ne fr xs hne, hstep.area Q q hne]
      exact helse hne
  refine
    { memMap := hstep.memMap ▸ h.memMap
      userStart := hstep.userStart.trans h.userStart
      list := fun Q q hq => hcase Q q (fun a l => IsList b'.lru a.pgList l) hlist fun hne =>
        (h.list Q q hq).congr (hframe Q q hq hne)
      nrFree := fun Q q hq => hcase Q q (fun a l => a.nrFree = l.length) hnr fun _ =>
        h.nrFree Q q hq
      lock := fun Q q hq => hcase Q q (fun a _ => a.bmap.lock = mutexLockInit) hlock fun _ =>
        h.lock Q q hq
      bits := fun Q q hq => ?_ }
  by_cases hne : Q = P ∧ q = o
  · obtain ⟨rfl, rfl⟩ := hne
    rw [setFree_self]
    exact hbits hq
  · rw [setFree_of_ne fr xs hne, hstep.area Q q hne]
    exact h.bits Q q hq

/-- `bitmap_reverse` of an area. -/
theorem reverse_eq {b : Buddy} {P : Pool} {o : Nat}
    (hlock : (b.area P o).bmap.lock = mutexLockInit) (k : Nat) (current : Tid) :
    b.reverse P o k current
      = .ok (if (b.area P o).bmap.bit k then 0 else 1,
          b.setArea P o { b.area P o with
            bmap := Bitmap.set (b.area P o).bmap k (!(b.area P o).bmap.bit k) }) := by
  simp [Buddy.reverse, bitmapReverse_eq hlock]

/-- The bits after `bitmap_reverse`. -/
theorem bit_reverse (m : Bitmap) (k k' : Nat) :
    (Bitmap.set m k (!m.bit k)).bit k' = if k' = k then !m.bit k' else m.bit k' := by
  rw [Bitmap.bit_set]
  by_cases hk : k' = k <;> simp [hk]

/-! ### The invariant -/

/-- The free lists `fr` and the blocks `out` that are not free tile the pools, and no two
buddies are both free. -/
structure BuddyInv (lo hi : Pool → Nat) (b : Buddy) (fr : FreeLists)
    (out : Pool → Multiset Block) : Prop where
  rep : Represents lo hi b fr
  tiles : ∀ P, Tiles (lo P) (hi P) MAX_ORDER (freeBlocks (fr P) (MAX_ORDER + 1) + out P)
  coalesced : ∀ P o i, o < MAX_ORDER → 2 ^ (o + 1) ∣ i → ¬(i ∈ fr P o ∧ i + 2 ^ o ∈ fr P o)

namespace BuddyInv

variable {lo hi : Pool → Nat} {b : Buddy} {fr : FreeLists} {out : Pool → Multiset Block}
  {P : Pool} {o i : Nat}

theorem mem_free (hmem : i ∈ fr P o) (ho : o ≤ MAX_ORDER) (M : Multiset Block) :
    ⟨i, o⟩ ∈ freeBlocks (fr P) (MAX_ORDER + 1) + M :=
  Multiset.mem_add.mpr (.inl (mem_freeBlocks.mpr ⟨Nat.lt_succ_of_le ho, hmem⟩))

/-- A free block is aligned and in its pool. -/
theorem free_range (h : BuddyInv lo hi b fr out) (hmem : i ∈ fr P o) (ho : o ≤ MAX_ORDER) :
    2 ^ o ∣ i ∧ lo P ≤ i ∧ i < hi P := by
  have hb := mem_free hmem ho (out P)
  exact ⟨(h.tiles P).aligned _ hb, (h.tiles P).covers_range hb (Block.covers_idx _)⟩

/-- A block that is not free is aligned and in its pool. -/
theorem out_range (h : BuddyInv lo hi b fr out) {blk : Block} (hmem : blk ∈ out P) :
    2 ^ blk.order ∣ blk.idx ∧ lo P ≤ blk.idx ∧ blk.idx < hi P := by
  have hb : blk ∈ freeBlocks (fr P) (MAX_ORDER + 1) + out P := Multiset.mem_add.mpr (.inr hmem)
  exact ⟨(h.tiles P).aligned _ hb, (h.tiles P).covers_range hb (Block.covers_idx _)⟩

/-- The pools have no page in common. -/
theorem pool_unique (hr : PoolRanges lo hi) {Q : Pool} (hP : lo P ≤ i ∧ i < hi P)
    (hQ : lo Q ≤ i ∧ i < hi Q) : P = Q := by
  have hle := hr.kernel_le
  cases P <;> cases Q <;> first | rfl | omega

/-- A page is on at most one free list. -/
theorem free_unique (h : BuddyInv lo hi b fr out) (hr : PoolRanges lo hi) {Q : Pool} {q : Nat}
    (ho : o ≤ MAX_ORDER) (hq : q ≤ MAX_ORDER) (hP : i ∈ fr P o) (hQ : i ∈ fr Q q) :
    Q = P ∧ q = o := by
  obtain rfl := pool_unique hr (h.free_range hP ho).2 (h.free_range hQ hq).2
  have heq := (h.tiles P).eq_of_idx (mem_free hP ho _) (mem_free hQ hq _) rfl
  exact ⟨rfl, (congrArg Block.order heq).symm⟩

/-- The first page of a block that is not free is on no free list. -/
theorem out_not_free (h : BuddyInv lo hi b fr out) (hr : PoolRanges lo hi) {Q : Pool} {q : Nat}
    {blk : Block} (hq : q ≤ MAX_ORDER) (hP : blk ∈ out P) : blk.idx ∉ fr Q q := by
  intro hQ
  obtain rfl := pool_unique hr (h.out_range hP).2 (h.free_range hQ hq).2
  obtain ⟨t, ht⟩ := Multiset.exists_cons_of_mem hP
  have htiles := h.tiles P
  rw [ht, Multiset.add_cons] at htiles
  exact htiles.not_covers_of_cons (mem_free hQ hq t) (Block.covers_idx blk)
    (Block.covers_idx (Block.mk blk.idx q))

/-- No list is longer than a pool. -/
theorem length_le (h : BuddyInv lo hi b fr out) (hr : PoolRanges lo hi) (ho : o ≤ MAX_ORDER) :
    (fr P o).length ≤ LIST_WALK := by
  have hnodup : (fr P o).Nodup := (h.rep.list P o ho).linked.nodup
  have hsub : fr P o ⊆ List.range (hi P) := fun x hx =>
    List.mem_range.mpr (h.free_range hx ho).2.2
  have hlen := (hnodup.subperm hsub).length_le
  rw [List.length_range] at hlen
  exact hlen.trans (hr.hi_le P)

/-! ### Blocks that move between the lists and their holders -/

/-- The blocks `out`, and one block that a call holds on its way from a list or to a list. -/
def hold (out : Pool → Multiset Block) (P : Pool) (blk : Block) : Pool → Multiset Block :=
  Function.update out P (blk ::ₘ out P)

theorem mem_hold_iff {Q : Pool} {blk blk' : Block} :
    blk' ∈ hold out P blk Q ↔ (Q = P ∧ blk' = blk) ∨ blk' ∈ out Q := by
  by_cases hQ : Q = P
  · subst hQ
    simp [hold]
  · simp [hold, hQ]

theorem mem_hold (out : Pool → Multiset Block) (P : Pool) (blk : Block) :
    blk ∈ hold out P blk P := mem_hold_iff.mpr (.inl ⟨rfl, rfl⟩)

theorem hold_add (out out' : Pool → Multiset Block) (P : Pool) (blk : Block) :
    hold out P blk + out' = hold (out + out') P blk := by
  funext Q
  by_cases hQ : Q = P
  · subst hQ
    simp [hold, Multiset.cons_add]
  · simp [hold, hQ]

/-- A block that is not free is held. -/
theorem hold_erase {blk : Block} (hmem : blk ∈ out P) :
    hold (Function.update out P ((out P).erase blk)) P blk = out := by
  simp [hold, Multiset.cons_erase hmem]

/-- A block leaves its free list. -/
theorem tiles_remove (h : BuddyInv lo hi b fr out) (ho : o ≤ MAX_ORDER) {xs : List Nat}
    (hxs : (fr P o : Multiset Nat) = i ::ₘ (xs : Multiset Nat)) (Q : Pool) :
    Tiles (lo Q) (hi Q) MAX_ORDER
      (freeBlocks (setFree fr P o xs Q) (MAX_ORDER + 1) + hold out P ⟨i, o⟩ Q) := by
  by_cases hQ : Q = P
  · subst hQ
    have hsame := cons_freeBlocks_update (fr Q) (Nat.lt_succ_of_le ho) hxs
    simp only [setFree, hold, Function.update_self]
    rw [Multiset.add_cons, ← Multiset.cons_add, hsame]
    exact h.tiles Q
  · simp only [setFree, hold, Function.update_of_ne hQ]
    exact h.tiles Q

/-- A held block goes to a free list. -/
theorem tiles_insert (h : BuddyInv lo hi b fr (hold out P ⟨i, o⟩)) (ho : o ≤ MAX_ORDER)
    {xs : List Nat} (hxs : (xs : Multiset Nat) = i ::ₘ (fr P o : Multiset Nat)) (Q : Pool) :
    Tiles (lo Q) (hi Q) MAX_ORDER
      (freeBlocks (setFree fr P o xs Q) (MAX_ORDER + 1) + out Q) := by
  have htiles := h.tiles Q
  by_cases hQ : Q = P
  · subst hQ
    have hmore := freeBlocks_update_cons (fr Q) (Nat.lt_succ_of_le ho) hxs
    simp only [setFree, hold, Function.update_self] at htiles ⊢
    rw [hmore, Multiset.cons_add, ← Multiset.add_cons]
    exact htiles
  · simp only [setFree, hold, Function.update_of_ne hQ] at htiles ⊢
    exact htiles

/-- Fewer free blocks have no new buddies. -/
theorem coalesced_remove (h : BuddyInv lo hi b fr out) {xs : List Nat}
    (hxs : ∀ j ∈ xs, j ∈ fr P o) (Q : Pool) (q j : Nat) (hq : q < MAX_ORDER)
    (hj : 2 ^ (q + 1) ∣ j) :
    ¬(j ∈ setFree fr P o xs Q q ∧ j + 2 ^ q ∈ setFree fr P o xs Q q) := by
  by_cases hne : Q = P ∧ q = o
  · obtain ⟨rfl, rfl⟩ := hne
    rw [setFree_self]
    exact fun hboth => h.coalesced Q q j hq hj ⟨hxs _ hboth.1, hxs _ hboth.2⟩
  · rw [setFree_of_ne fr xs hne]
    exact h.coalesced Q q j hq hj

/-- A block whose buddy is not free does not make a pair of free buddies. -/
theorem coalesced_insert (h : BuddyInv lo hi b fr out) {xs : List Nat}
    (hxs : ∀ j ∈ xs, j = i ∨ j ∈ fr P o) (hbuddy : o < MAX_ORDER → i ^^^ 2 ^ o ∉ fr P o)
    (Q : Pool) (q j : Nat) (hq : q < MAX_ORDER) (hj : 2 ^ (q + 1) ∣ j) :
    ¬(j ∈ setFree fr P o xs Q q ∧ j + 2 ^ q ∈ setFree fr P o xs Q q) := by
  by_cases hne : Q = P ∧ q = o
  · obtain ⟨rfl, rfl⟩ := hne
    rw [setFree_self]
    rintro ⟨hlower, hupper⟩
    have hpos := Nat.two_pow_pos q
    have hnot := hbuddy hq
    rcases hxs _ hlower with rfl | hlower
    · rcases hxs _ hupper with heq | hupper
      · omega
      · rw [xor_two_pow_of_dvd hj] at hnot
        exact hnot hupper
    · rcases hxs _ hupper with rfl | hupper
      · rw [add_xor_two_pow_of_dvd hj] at hnot
        exact hnot hlower
      · exact h.coalesced Q q j hq hj ⟨hlower, hupper⟩
  · rw [setFree_of_ne fr xs hne]
    exact h.coalesced Q q j hq hj

/-- The bit of a pair flips, when the order has buddies. -/
def Flips (a a' : FreeArea) (o i : Nat) : Prop :=
  o < MAX_ORDER → ∀ k, a'.bmap.bit k = if k = i >>> (o + 1) then !a.bmap.bit k else a.bmap.bit k

/-- A block leaves its free list, and the call that takes it holds it. -/
theorem remove (h : BuddyInv lo hi b fr out) (hr : PoolRanges lo hi) (ho : o ≤ MAX_ORDER)
    {b' : Buddy} {xs : List Nat} (hstep : AreaStep b b' P o)
    (hxs : (fr P o : Multiset Nat) = i ::ₘ (xs : Multiset Nat))
    (hlist : IsList b'.lru (b'.area P o).pgList xs)
    (hlru : ∀ y, y ∉ fr P o → b'.lru y = b.lru y)
    (hnr : (b'.area P o).nrFree = (b.area P o).nrFree - 1)
    (hlock : (b'.area P o).bmap.lock = mutexLockInit)
    (hflip : Flips (b.area P o) (b'.area P o) o i) :
    BuddyInv lo hi b' (setFree fr P o xs) (hold out P ⟨i, o⟩) := by
  have hmem : ∀ j, j ∈ fr P o ↔ j = i ∨ j ∈ xs := fun j => by
    rw [← Multiset.mem_coe, hxs, Multiset.mem_cons, Multiset.mem_coe]
  have hnot : i ∉ xs := by
    have hnodup := Multiset.coe_nodup.mpr (h.rep.list P o ho).linked.nodup
    rw [hxs] at hnodup
    exact (Multiset.nodup_cons.mp hnodup).1
  have hlen : (fr P o).length = xs.length + 1 := by
    simpa using congrArg Multiset.card hxs
  refine ⟨h.rep.step xs hstep hlist ?_ ?_ hlock fun hlt => ?_, h.tiles_remove ho hxs,
    h.coalesced_remove fun j hj => (hmem j).mpr (.inr hj)⟩
  · intro Q q hq hne x hx
    exact hlru x fun hx' => hne (h.free_unique hr ho hq hx' hx)
  · rw [hnr, h.rep.nrFree P o ho, hlen]
    omega
  · have hi := (h.free_range ((hmem i).mpr (.inl rfl)) ho).1
    refine (h.rep.bits P o hlt).toggle hi (hflip hlt) ?_ fun j hj => ?_
    · simp [hmem, hnot]
    · simp [hmem, hj]

/-- A held block whose buddy is not free goes to its free list. -/
theorem insert (h : BuddyInv lo hi b fr (hold out P ⟨i, o⟩)) (hr : PoolRanges lo hi)
    (ho : o ≤ MAX_ORDER) (hbuddy : o < MAX_ORDER → i ^^^ 2 ^ o ∉ fr P o) {b' : Buddy}
    {xs : List Nat} (hstep : AreaStep b b' P o)
    (hxs : (xs : Multiset Nat) = i ::ₘ (fr P o : Multiset Nat))
    (hlist : IsList b'.lru (b'.area P o).pgList xs)
    (hlru : ∀ y, y ≠ i → y ∉ fr P o → b'.lru y = b.lru y)
    (hnr : (b'.area P o).nrFree = (b.area P o).nrFree + 1)
    (hlock : (b'.area P o).bmap.lock = mutexLockInit)
    (hflip : Flips (b.area P o) (b'.area P o) o i) :
    BuddyInv lo hi b' (setFree fr P o xs) out := by
  have hmem : ∀ j, j ∈ xs ↔ j = i ∨ j ∈ fr P o := fun j => by
    rw [← Multiset.mem_coe, hxs, Multiset.mem_cons, Multiset.mem_coe]
  have hout := mem_hold out P ⟨i, o⟩
  have hlen : xs.length = (fr P o).length + 1 := by
    simpa using congrArg Multiset.card hxs
  refine ⟨h.rep.step xs hstep hlist ?_ ?_ hlock fun hlt => ?_, h.tiles_insert ho hxs,
    h.coalesced_insert (fun j hj => (hmem j).mp hj) hbuddy⟩
  · intro Q q hq hne x hx
    have hxi : x ≠ i := fun heq => h.out_not_free hr hq hout (heq ▸ hx)
    exact hlru x hxi fun hx' => hne (h.free_unique hr ho hq hx' hx)
  · rw [hnr, h.rep.nrFree P o ho, hlen]
    omega
  · refine (h.rep.bits P o hlt).toggle (h.out_range hout).1 (hflip hlt) ?_ fun j hj => ?_
    · simp [hmem, h.out_not_free hr ho hout]
    · simp [hmem, hj]

/-- The halves of a held block are held. -/
theorem split_held (h : BuddyInv lo hi b fr (hold out P ⟨i, o + 1⟩)) :
    BuddyInv lo hi b fr (hold (hold out P ⟨i, o⟩) P ⟨i + 2 ^ o, o⟩) where
  rep := h.rep
  coalesced := h.coalesced
  tiles Q := by
    have htiles := h.tiles Q
    by_cases hQ : Q = P
    · subst hQ
      simp only [hold, Function.update_self, Multiset.add_cons] at htiles ⊢
      rw [Multiset.cons_swap]
      exact htiles.split
    · simp only [hold, Function.update_of_ne hQ] at htiles ⊢
      exact htiles

/-- Two buddies that are held are one block. -/
theorem merge_held (h : BuddyInv lo hi b fr (hold (hold out P ⟨i, o⟩) P ⟨i ^^^ 2 ^ o, o⟩))
    (ho : o < MAX_ORDER) :
    BuddyInv lo hi b fr (hold out P ⟨Nat.ldiff i (2 ^ o), o + 1⟩) where
  rep := h.rep
  coalesced := h.coalesced
  tiles Q := by
    have htiles := h.tiles Q
    by_cases hQ : Q = P
    · subst hQ
      simp only [hold, Function.update_self, Multiset.add_cons] at htiles ⊢
      have hdvd : 2 ^ o ∣ i := htiles.aligned ⟨i, o⟩ (by simp)
      rcases half_cases hdvd with hlower | ⟨base, hbase, rfl⟩
      · rw [xor_two_pow_of_dvd hlower, Multiset.cons_swap] at htiles
        rw [ldiff_two_pow_of_dvd hlower]
        exact htiles.merge hlower ho
      · rw [add_xor_two_pow_of_dvd hbase] at htiles
        rw [add_ldiff_two_pow_of_dvd hbase]
        exact htiles.merge hbase ho
    · simp only [hold, Function.update_of_ne hQ] at htiles ⊢
      exact htiles

/-- The bit of the pair of a held block says if its buddy is free. -/
theorem bit_eq (h : BuddyInv lo hi b fr out) (hr : PoolRanges lo hi) (ho : o < MAX_ORDER)
    (hout : ⟨i, o⟩ ∈ out P) :
    (b.area P o).bmap.bit (i >>> (o + 1)) = decide (i ^^^ 2 ^ o ∈ fr P o) := by
  have hnot : i ∉ fr P o := h.out_not_free hr ho.le hout
  have hdvd : 2 ^ o ∣ i := (h.out_range hout).1
  have hrange : lo P ≤ i ∧ i < hi P := (h.out_range hout).2
  have hbits := h.rep.bits P o ho
  rcases half_cases hdvd with hlower | ⟨base, hbase, rfl⟩
  · rw [hbits i hlower hrange.1 hrange.2, xor_two_pow_of_dvd hlower]
    simp [hnot]
  · have hpow : 2 ^ (o + 1) ∣ 2 ^ MAX_ORDER := Nat.pow_dvd_pow 2 ho
    have hsucc : 2 ^ (o + 1) = 2 ^ o + 2 ^ o := by rw [Nat.pow_succ]; omega
    have hpos := Nat.two_pow_pos o
    have hpair := Tiles.range_of_covers (hpow.trans (hr.lo_dvd P)) (hpow.trans (hr.hi_dvd P))
      hbase hrange ⟨by omega, by omega⟩
    rw [add_shiftRight_of_dvd hbase, hbits base hbase hpair.1 (by omega),
      add_xor_two_pow_of_dvd hbase]
    simp [hnot]

/-- The invariant does not depend on the counts and orders in the page descriptors. -/
theorem setPage (h : BuddyInv lo hi b fr out) (idx : Nat) (pg : Page) :
    BuddyInv lo hi (b.setPage idx pg) fr out :=
  ⟨⟨h.rep.memMap, h.rep.userStart, h.rep.list, h.rep.nrFree, h.rep.lock, h.rep.bits⟩, h.tiles,
    h.coalesced⟩

/-- A held block shares no page with another block that is not free. -/
theorem not_covers {blk blk' : Block} (h : BuddyInv lo hi b fr (hold out P blk))
    (hr : PoolRanges lo hi) {Q : Pool} (hmem : blk' ∈ out Q) {p : Nat} (hp : blk.Covers p) :
    ¬blk'.Covers p := by
  intro hp'
  have hblk' : blk' ∈ hold out P blk Q := mem_hold_iff.mpr (.inr hmem)
  obtain rfl := pool_unique hr
    ((h.tiles P).covers_range (Multiset.mem_add.mpr (.inr (mem_hold out P blk))) hp)
    ((h.tiles Q).covers_range (Multiset.mem_add.mpr (.inr hblk')) hp')
  have htiles := h.tiles P
  rw [hold, Function.update_self, Multiset.add_cons] at htiles
  exact htiles.not_covers_of_cons (Multiset.mem_add.mpr (.inr hmem)) hp hp'

/-- A held block shares its first page with no other block. -/
theorem idx_ne_of_mem {blk blk' : Block} (h : BuddyInv lo hi b fr (hold out P blk))
    (hr : PoolRanges lo hi) {Q : Pool} (hmem : blk' ∈ out Q) : blk'.idx ≠ blk.idx :=
  fun heq => h.not_covers hr hmem blk.covers_idx (heq ▸ blk'.covers_idx)

/-! ### The steps of the loops -/

/-- A free block is popped, and the bit of its pair flips. -/
theorem pop (h : BuddyInv lo hi b fr out) (hr : PoolRanges lo hi) (ho : o ≤ MAX_ORDER)
    {rest : List Nat} (hfr : fr P o = i :: rest) (current : Tid) :
    ∃ b₁, (b.addFree P o (-1)).popFront P o = .ok (i, b₁) ∧ b₁.page = b.page ∧
      ∀ pg, ∃ v b', (b₁.setPage i pg).reverse P o (i >>> (o + 1)) current = .ok (v, b') ∧
        b'.page = Function.update b.page i pg ∧
        BuddyInv lo hi b' (setFree fr P o rest) (hold out P ⟨i, o⟩) := by
  have hlist := h.rep.list P o ho
  have hlock := h.rep.lock P o ho
  rw [hfr] at hlist
  obtain ⟨pgList, lru, hpop, hrest, hframe⟩ :=
    listPopFront_spec hlist (inKernel_lruAddr h.rep.memMap _)
  rw [← Buddy.lruAddr_congr (Buddy.addFree_memMap b P o (-1))] at hpop
  refine ⟨(b.addFree P o (-1)).setList P o pgList lru, by simp [Buddy.popFront, hpop], rfl,
    fun pg => ⟨_, _, reverse_eq (by simpa using hlock) _ current, rfl, ?_⟩⟩
  refine h.remove hr ho ⟨rfl, rfl, fun Q q hne => ?_⟩ (by rw [hfr]; rfl) (by simpa using hrest)
    (fun y hy => ?_) ?_ (by simpa using hlock) fun _ k => ?_
  · simp [Buddy.setArea_of_ne _ _ hne, Buddy.setList_of_ne _ _ _ hne,
      Buddy.addFree_of_ne _ _ hne]
  · rw [hfr, List.mem_cons, not_or] at hy
    exact hframe y hy.1
  · simp only [Buddy.setArea_self, Buddy.setPage_area, Buddy.setList_self, Buddy.addFree_self]
    omega
  · simpa using bit_reverse (b.area P o).bmap _ k

/-- A held block goes to the back of its list, and the bit of its pair flips. -/
theorem pushBack (h : BuddyInv lo hi b fr (hold out P ⟨i, o⟩)) (hr : PoolRanges lo hi)
    (ho : o ≤ MAX_ORDER) (hbuddy : o < MAX_ORDER → i ^^^ 2 ^ o ∉ fr P o) (current : Tid) :
    ∃ b₁, b.pushBack P o i = .ok b₁ ∧
      ∃ v b', (b₁.addFree P o 1).reverse P o (i >>> (o + 1)) current = .ok (v, b') ∧
        b'.page = b.page ∧ BuddyInv lo hi b' (setFree fr P o (fr P o ++ [i])) out := by
  have hnot : i ∉ fr P o := h.out_not_free hr ho (mem_hold out P ⟨i, o⟩)
  have hlock := h.rep.lock P o ho
  obtain ⟨pgList, lru, hpush, hlist, hframe⟩ := listPushBack_spec (h.rep.list P o ho) hnot
    (inKernel_lruAddr h.rep.memMap _)
  refine ⟨b.setList P o pgList lru, by simp [Buddy.pushBack, hpush], _, _,
    reverse_eq (by simpa using hlock) _ current, rfl, ?_⟩
  refine h.insert hr ho hbuddy ⟨rfl, rfl, fun Q q hne => ?_⟩ ?_ (by simpa using hlist) hframe
    (by simp) (by simpa using hlock) fun _ k => ?_
  · simp [Buddy.setArea_of_ne _ _ hne, Buddy.setList_of_ne _ _ _ hne,
      Buddy.addFree_of_ne _ _ hne]
  · rw [← Multiset.coe_add, Multiset.add_comm]
    rfl
  · simpa using bit_reverse (b.area P o).bmap _ k

/-- `__free_pages` finds the buddy not free: the block goes to the front of its list. -/
theorem pushFront (h : BuddyInv lo hi b fr (hold out P ⟨i, o⟩)) (hr : PoolRanges lo hi)
    (ho : o < MAX_ORDER) (hbuddy : i ^^^ 2 ^ o ∉ fr P o) (current : Tid) :
    ∃ b₁ b₂, b.reverse P o (i >>> (o + 1)) current = .ok (1, b₁) ∧
      b₁.pushFront P o i = .ok b₂ ∧ b₂.page = b.page ∧
      BuddyInv lo hi (b₂.addFree P o 1) (setFree fr P o (i :: fr P o)) out := by
  have hout := mem_hold out P ⟨i, o⟩
  have hlock := h.rep.lock P o ho.le
  have hbit := h.bit_eq hr ho hout
  rw [decide_eq_false hbuddy] at hbit
  have hnot : i ∉ fr P o := h.out_not_free hr ho.le hout
  obtain ⟨pgList, lru, hpush, hlist, hframe⟩ := listPushFront_spec (h.rep.list P o ho.le) hnot
  have hrev := reverse_eq hlock (i >>> (o + 1)) current
  rw [hbit] at hrev
  refine ⟨_, ((b.setArea P o { b.area P o with
    bmap := Bitmap.set (b.area P o).bmap (i >>> (o + 1)) true }).setList P o pgList lru), hrev,
    by simp [Buddy.pushFront, hpush], rfl, ?_⟩
  refine h.insert hr ho.le (fun _ => hbuddy) ⟨rfl, rfl, fun Q q hne => ?_⟩ rfl
    (by simpa using hlist) hframe (by simp) (by simpa using hlock) fun _ k => ?_
  · simp [Buddy.setArea_of_ne _ _ hne, Buddy.setList_of_ne _ _ _ hne,
      Buddy.addFree_of_ne _ _ hne]
  · simpa [hbit] using bit_reverse (b.area P o).bmap (i >>> (o + 1)) k

/-- A block of the maximal order has no buddy. -/
theorem pushFront_top (h : BuddyInv lo hi b fr (hold out P ⟨i, MAX_ORDER⟩))
    (hr : PoolRanges lo hi) :
    ∃ b', b.pushFront P MAX_ORDER i = .ok b' ∧ b'.page = b.page ∧
      BuddyInv lo hi (b'.addFree P MAX_ORDER 1)
        (setFree fr P MAX_ORDER (i :: fr P MAX_ORDER)) out := by
  have hle := Nat.le_refl MAX_ORDER
  have hlock := h.rep.lock P MAX_ORDER hle
  have hnot : i ∉ fr P MAX_ORDER := h.out_not_free hr hle (mem_hold out P ⟨i, MAX_ORDER⟩)
  obtain ⟨pgList, lru, hpush, hlist, hframe⟩ := listPushFront_spec (h.rep.list P _ hle) hnot
  refine ⟨b.setList P MAX_ORDER pgList lru, by simp [Buddy.pushFront, hpush], rfl, ?_⟩
  refine h.insert hr hle (fun hlt => absurd hlt (Nat.lt_irrefl _))
    ⟨rfl, rfl, fun Q q hne => ?_⟩ rfl (by simpa using hlist) hframe (by simp)
    (by simpa using hlock) fun hlt => absurd hlt (Nat.lt_irrefl _)
  simp [Buddy.setList_of_ne _ _ _ hne, Buddy.addFree_of_ne _ _ hne]

/-- `__free_pages` finds the buddy free: it leaves its list, and the two are one block. -/
theorem delete (h : BuddyInv lo hi b fr (hold out P ⟨i, o⟩)) (hr : PoolRanges lo hi)
    (ho : o < MAX_ORDER) (hbuddy : i ^^^ 2 ^ o ∈ fr P o) (current : Tid) :
    ∃ b₁ b₂, b.reverse P o (i >>> (o + 1)) current = .ok (0, b₁) ∧
      b₁.delete P o (i ^^^ 2 ^ o) = .ok b₂ ∧ b₂.page = b.page ∧
      BuddyInv lo hi (b₂.addFree P o (-1)) (setFree fr P o ((fr P o).erase (i ^^^ 2 ^ o)))
        (hold out P ⟨Nat.ldiff i (2 ^ o), o + 1⟩) := by
  have hout := mem_hold out P ⟨i, o⟩
  have hlock := h.rep.lock P o ho.le
  have hbit := h.bit_eq hr ho hout
  rw [decide_eq_true hbuddy] at hbit
  obtain ⟨pgList, lru, hdel, hlist, hframe⟩ := listDelete_spec (h.rep.list P o ho.le) hbuddy
    (h.length_le hr ho.le)
  have hrev := reverse_eq hlock (i >>> (o + 1)) current
  rw [hbit] at hrev
  refine ⟨_, ((b.setArea P o { b.area P o with
    bmap := Bitmap.set (b.area P o).bmap (i >>> (o + 1)) false }).setList P o pgList lru), hrev,
    by simp [Buddy.delete, hdel], rfl, merge_held ?_ ho⟩
  -- both buddies have the same pair bit
  have hpair : (i ^^^ 2 ^ o) >>> (o + 1) = i >>> (o + 1) := by
    rcases half_cases (h.out_range hout).1 with hlower | ⟨base, hbase, hi'⟩
    · rw [xor_two_pow_of_dvd hlower, add_shiftRight_of_dvd hlower]
    · simp only at hi'
      rw [hi', add_xor_two_pow_of_dvd hbase, add_shiftRight_of_dvd hbase]
  refine h.remove hr ho.le ⟨rfl, rfl, fun Q q hne => ?_⟩ ?_ (by simpa using hlist) hframe ?_
    (by simpa using hlock) fun _ k => ?_
  · simp [Buddy.setArea_of_ne _ _ hne, Buddy.setList_of_ne _ _ _ hne,
      Buddy.addFree_of_ne _ _ hne]
  · rw [← Multiset.coe_erase, Multiset.cons_erase (Multiset.mem_coe.mpr hbuddy)]
  · simp only [Buddy.addFree_self, Buddy.setList_self, Buddy.setArea_self]
    omega
  · rw [hpair]
    simpa [hbit] using bit_reverse (b.area P o).bmap (i >>> (o + 1)) k

/-! ### `alloc_pages` -/

/-- The split loop holds the lowest part of the block, and gives the rest to the lists. -/
theorem split (hr : PoolRanges lo hi) (order idx : Nat) (current : Tid) (n : Nat) :
    ∀ (size : Nat) {b : Buddy} {fr : FreeLists}, size = 2 ^ (order + n) / 2 →
      order + n ≤ MAX_ORDER → BuddyInv lo hi b fr (hold out P ⟨idx, order + n⟩) →
      ∃ b' fr', Buddy.split P order idx current n size b = .ok b' ∧ b'.page = b.page ∧
        BuddyInv lo hi b' fr' (hold out P ⟨idx, order⟩) := by
  induction n with
  | zero => exact fun size b fr _ _ h => ⟨b, fr, rfl, rfl, h⟩
  | succ n ih =>
      intro size b fr hsize hle h
      have hsize : size = 2 ^ (order + n) := by
        rw [hsize, ← Nat.add_assoc, Nat.pow_succ, Nat.mul_div_cancel _ (by decide)]
      subst hsize
      have ho : order + n < MAX_ORDER := hle
      have hdvd : 2 ^ (order + n + 1) ∣ idx := (h.out_range (mem_hold out P _)).1
      have hheld := split_held (o := order + n) h
      -- the lower half is held, so it is not the free buddy of the upper half
      have hbuddy : (idx + 2 ^ (order + n)) ^^^ 2 ^ (order + n) ∉ fr P (order + n) := by
        have hlower : ⟨idx, order + n⟩ ∈ hold (hold out P ⟨idx, order + n⟩) P
            ⟨idx + 2 ^ (order + n), order + n⟩ P := by simp [hold]
        rw [add_xor_two_pow_of_dvd hdvd]
        exact hheld.out_not_free hr ho.le hlower
      obtain ⟨b₁, hpush, v, b₂, hrev, hpage, h₂⟩ :=
        hheld.pushBack hr ho.le (fun _ => hbuddy) current
      rw [add_shiftRight_of_dvd hdvd] at hrev
      obtain ⟨b', fr', hloop, hpage', h'⟩ := ih (2 ^ (order + n) / 2) rfl ho.le h₂
      refine ⟨b', fr', ?_, hpage'.trans hpage, h'⟩
      simp [Buddy.split, hpush, hrev, hloop]

/-- An order with a free block: the block is taken, and split down to the order. -/
theorem take (h : BuddyInv lo hi b fr out) (hr : PoolRanges lo hi) {order : Nat}
    (hle : order ≤ o) (ho : o ≤ MAX_ORDER) {rest : List Nat} (hfr : fr P o = i :: rest)
    (current : Tid) :
    ∃ b' fr', b.take P order o current = .ok (i, b') ∧
      b'.page = Function.update b.page i { count := 1, «private» := order } ∧
      BuddyInv lo hi b' fr' (hold out P ⟨i, order⟩) := by
  obtain ⟨b₁, hpop, hpage₁, hrev⟩ := h.pop hr ho hfr current
  obtain ⟨v, b₂, hrev, hpage₂, h₂⟩ := hrev { b₁.page i with «private» := order }
  obtain ⟨n, rfl⟩ := Nat.exists_eq_add_of_le hle
  obtain ⟨b₃, fr', hsplit, hpage₃, h₃⟩ := split hr order i current n
    (1 <<< (order + n) / 2) (by rw [Nat.one_shiftLeft]) ho h₂
  refine ⟨b₃.setPage i { b₃.page i with count := 1 }, fr', ?_, ?_, h₃.setPage i _⟩
  · simp [Buddy.take, hpop, hrev, hsplit]
  · simp [hpage₃, hpage₂, hpage₁]

/-- The search from the order `o` on takes a block of the first order that has one. It
stops when no order has one. -/
theorem allocFrom (h : BuddyInv lo hi b fr out) (hr : PoolRanges lo hi) {order : Nat}
    (current : Tid) (n : Nat) :
    ∀ o, order ≤ o → o + n = MAX_ORDER + 1 →
      (b.allocFrom P order current n o = .error .panic ∧
        ∀ q, o ≤ q → q ≤ MAX_ORDER → fr P q = []) ∨
      ∃ idx b' fr', b.allocFrom P order current n o = .ok (idx, b') ∧
        b'.page = Function.update b.page idx { count := 1, «private» := order } ∧
        BuddyInv lo hi b' fr' (hold out P ⟨idx, order⟩) := by
  induction n with
  | zero => exact fun o _ hend => .inl ⟨rfl, fun q _ _ => by omega⟩
  | succ n ih =>
      intro o hle hend
      have ho : o ≤ MAX_ORDER := by omega
      have hnr := h.rep.nrFree P o ho
      cases hfr : fr P o with
      | nil =>
          -- an empty list: the counter is zero and the search goes on
          have hzero : ¬(b.area P o).nrFree > 0 := by simp [hnr, hfr]
          simp only [Buddy.allocFrom, if_neg hzero]
          refine (ih (o + 1) (by omega) (by omega)).imp_left fun hpanic => ⟨hpanic.1, ?_⟩
          intro q hq hqle
          rcases Nat.eq_or_lt_of_le hq with rfl | hlt
          · exact hfr
          · exact hpanic.2 q hlt hqle
      | cons i rest =>
          have hpos : (b.area P o).nrFree > 0 := by
            rw [hnr, hfr, List.length_cons]
            omega
          obtain ⟨b', fr', htake, hpage, h'⟩ := h.take hr hle ho hfr current
          refine .inr ⟨i, b', fr', ?_, hpage, h'⟩
          simp only [Buddy.allocFrom, if_pos hpos, htake]

/-- `alloc_pages` returns a block that was free, or stops because no block of the pool is
large enough. -/
theorem allocPages (h : BuddyInv lo hi b fr out) (hr : PoolRanges lo hi) (flag : Nat)
    {order : Nat} (ho : order ≤ MAX_ORDER) (current : Tid) :
    (b.allocPages flag order current = .error .panic ∧
      ∀ q, order ≤ q → q ≤ MAX_ORDER → fr (poolOfFlag flag) q = []) ∨
    ∃ idx b' fr', b.allocPages flag order current = .ok (idx, b') ∧
      b'.page = Function.update b.page idx { count := 1, «private» := order } ∧
      BuddyInv lo hi b' fr' (hold out (poolOfFlag flag) ⟨idx, order⟩) := by
  simp only [Buddy.allocPages, ASSERT_true ho, ok_bind]
  exact h.allocFrom hr current _ order (Nat.le_refl _) (by omega)

/-! ### `__free_pages` -/

/-- The merge loop brings the block that it holds to a list, with its free buddies. -/
theorem merge (hr : PoolRanges lo hi) (current : Tid) (n : Nat) :
    ∀ (order idx : Nat) {b : Buddy} {fr : FreeLists}, n + order = MAX_ORDER →
      BuddyInv lo hi b fr (hold out P ⟨idx, order⟩) →
      ∃ b' fr', Buddy.merge P current n order idx b = .ok b' ∧ b'.page = b.page ∧
        BuddyInv lo hi b' fr' out := by
  induction n with
  | zero =>
      intro order idx b fr hend h
      rw [Nat.zero_add] at hend
      subst hend
      obtain ⟨b', hpush, hpage, h'⟩ := h.pushFront_top hr
      exact ⟨b'.addFree P MAX_ORDER 1, _, by simp [Buddy.merge, hpush], hpage, h'⟩
  | succ n ih =>
      intro order idx b fr hend h
      have ho : order < MAX_ORDER := by omega
      by_cases hbuddy : idx ^^^ 2 ^ order ∈ fr P order
      · obtain ⟨b₁, b₂, hrev, hdel, hpage, h₂⟩ := h.delete hr ho hbuddy current
        obtain ⟨b', fr', hloop, hpage', h'⟩ := ih (order + 1) _ (by omega) h₂
        refine ⟨b', fr', ?_, hpage'.trans hpage, h'⟩
        simp [Buddy.merge, hrev, Nat.one_shiftLeft, hdel, hloop]
      · obtain ⟨b₁, b₂, hrev, hpush, hpage, h'⟩ := h.pushFront hr ho hbuddy current
        exact ⟨b₂.addFree P order 1, _, by simp [Buddy.merge, hrev, hpush], hpage, h'⟩

/-- `__free_pages` finds the pool of a block. -/
theorem poolOfPage_eq (h : BuddyInv lo hi b fr out) (hr : PoolRanges lo hi) {blk : Block}
    (hout : blk ∈ out P) : b.poolOfPage blk.idx = P := by
  obtain ⟨-, hlo, hhi⟩ := h.out_range hout
  have hle := hr.kernel_le
  simp only [Buddy.poolOfPage, h.rep.userStart]
  cases P with
  | kernel => rw [if_neg (by omega)]
  | user => rw [if_pos hlo]

/-- The last reference goes: the block is free again. -/
theorem freePages_last {blk : Block} (h : BuddyInv lo hi b fr (hold out P blk))
    (hr : PoolRanges lo hi) (horder : (b.page blk.idx).private = blk.order)
    (hcount : (b.page blk.idx).count = 1) (current : Tid) :
    ∃ b' fr', b.freePages blk.idx blk.order current = .ok b' ∧
      b'.page = Function.update b.page blk.idx { count := 0, «private» := blk.order } ∧
      BuddyInv lo hi b' fr' out := by
  have hout := mem_hold out P blk
  have ho : blk.order ≤ MAX_ORDER :=
    ((h.tiles P).inside blk (Multiset.mem_add.mpr (.inr hout))).1
  have h₁ := h.setPage blk.idx { count := 0, «private» := blk.order }
  obtain ⟨b', fr', hmerge, hpage, h'⟩ := merge hr current (MAX_ORDER - blk.order) blk.order
    blk.idx (by omega) h₁
  refine ⟨b', fr', ?_, hpage, h'⟩
  have hwrap : wrap32 0 = 0 := wrap32_eq (by decide) (by decide)
  have hpool := h₁.poolOfPage_eq hr hout
  simp [Buddy.freePages, atomicDecAndSetg, hcount, horder, hwrap, hpool, hmerge]

/-- Another reference is left: only the count changes. -/
theorem freePages_shared {blk : Block} (hcount : 1 < (b.page blk.idx).count) (current : Tid) :
    b.freePages blk.idx blk.order current
      = .ok (b.setPage blk.idx { b.page blk.idx with
          count := wrap32 ((b.page blk.idx).count - 1) }) := by
  simp [Buddy.freePages, atomicDecAndSetg, hcount]

end BuddyInv

end Fizzos.Proofs
