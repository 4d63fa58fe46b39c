import Fizzos.Proofs.BuddySystem

/-!
# `Fizzos.Proofs.BuddyLayout`: where the page allocator keeps its data

`buddy_init` lays out `mem_map`, the bitmaps of the kernel pool and those of the user pool, one
behind the other. In each pool the maximal order comes first, and each further order gets twice as
many bits (`BitmapLayout`).

The code takes the bit `idx >> (o + 1)` for the page `idx`, which counts from the start of
memory and not from the start of the pool. The user pool has at least half of the blocks, so its
bitmaps are long enough all the same (`buddyInit_index`).
-/

set_option autoImplicit false

namespace Fizzos.Proofs

open Fizzos.Kernel
open Fizzos.LibKernel

/-! ### The bitmaps -/

/-- The bytes of the bitmaps of `n` orders, with `nr` bits for the highest of them. -/
def bitmapBytes : Nat → Nat → Nat
  | 0, _ => 0
  | n + 1, nr => DIV_ROUND_UP nr 8 + bitmapBytes n (nr * 2)

/-- The bitmaps of the orders below `n`, with `nr` bits for the highest of them, in the physical
memory from `lo` up to `hi`. -/
structure BitmapLayout (area : Nat → FreeArea) (n nr lo hi : Nat) : Prop where
  bits : ∀ q < n, ∃ m, bitmapInit m (nr * 2 ^ (n - 1 - q)) = .ok (area q).bmap
  lo_le : ∀ q < n, lo + KERNEL_VADDR_START ≤ (area q).bmap.addr
  le_hi : ∀ q < n, (area q).bmap.addr + (area q).bmap.byteSize ≤ hi + KERNEL_VADDR_START
  order : ∀ q r, q < r → r < n →
    (area r).bmap.addr + (area r).bmap.byteSize ≤ (area q).bmap.addr

theorem bitmapInit_ok {m m' : Bitmap} {size : Nat} (h : bitmapInit m size = .ok m') :
    0 < size ∧ m'.addr = m.addr ∧ m'.byteSize = DIV_ROUND_UP size 8 ∧
      ∀ i < size, m'.bit i = false := by
  have hsize : 0 < size := by
    simp only [bitmapInit, bind_eq_ok, ASSERT_eq_ok] at h
    obtain ⟨_, hpos, -⟩ := h
    exact hpos
  obtain ⟨m₁, hok, haddr, -, hbytes, hbits⟩ := bitmapInit_spec m hsize
  obtain rfl := Except.ok.inj (hok.symm.trans h)
  exact ⟨hsize, haddr, hbytes, hbits⟩

/-- The loop that lays out the bitmaps. -/
theorem initBitmaps_layout (P : Pool) (n : Nat) :
    ∀ (nr saddr : Nat) (b : Buddy) {saddr' : Nat} {b' : Buddy},
      Buddy.initBitmaps P n nr saddr b = .ok (saddr', b') →
      saddr' = saddr + bitmapBytes n nr ∧ b'.memMap = b.memMap ∧
      (∀ Q q, ¬(Q = P ∧ q < n) → b'.area Q q = b.area Q q) ∧
      BitmapLayout (b'.area P) n nr saddr saddr' := by
  induction n with
  | zero =>
      intro nr saddr b saddr' b' h
      simp only [Buddy.initBitmaps, pure_eq_ok, Except.ok.injEq, Prod.mk.injEq] at h
      obtain ⟨rfl, rfl⟩ := h
      refine ⟨rfl, rfl, fun _ _ _ => rfl, ⟨?_, ?_, ?_, ?_⟩⟩ <;> intro q <;> omega
  | succ n ih =>
      intro nr saddr b saddr' b' h
      simp only [Buddy.initBitmaps, bind_eq_ok] at h
      obtain ⟨bmap, hinit, hloop⟩ := h
      obtain ⟨-, haddr, hbytes, -⟩ := bitmapInit_ok hinit
      obtain ⟨hsaddr, hmem, hother, hlayout⟩ := ih _ _ _ hloop
      -- the loop below leaves the new bitmap alone
      have hself : (b'.area P n).bmap = bmap := by
        rw [hother P n fun hlt => Nat.lt_irrefl _ hlt.2, Buddy.setArea_self]
      refine ⟨?_, hmem, fun Q q hne => ?_,
        ⟨fun q hq => ?_, fun q hq => ?_, fun q hq => ?_, ?_⟩⟩
      · rw [hsaddr, bitmapBytes, Nat.add_assoc]
      · rw [hother Q q fun hlt => hne ⟨hlt.1, Nat.lt_succ_of_lt hlt.2⟩]
        exact Buddy.setArea_of_ne _ _ fun heq => hne ⟨heq.1, by omega⟩
      · rcases Nat.lt_succ_iff_lt_or_eq.mp hq with hlt | rfl
        · have hpow : nr * 2 ^ (n + 1 - 1 - q) = nr * 2 * 2 ^ (n - 1 - q) := by
            rw [Nat.mul_assoc, ← Nat.pow_succ', show (n - 1 - q).succ = n + 1 - 1 - q by omega]
          rw [hpow]
          exact hlayout.bits q hlt
        · rw [hself, Nat.add_sub_cancel, Nat.sub_self, Nat.pow_zero, Nat.mul_one]
          exact ⟨_, hinit⟩
      · rcases Nat.lt_succ_iff_lt_or_eq.mp hq with hlt | rfl
        · have hlo := hlayout.lo_le q hlt
          omega
        · rw [hself, haddr]
      · rcases Nat.lt_succ_iff_lt_or_eq.mp hq with hlt | rfl
        · exact hlayout.le_hi q hlt
        · rw [hself, haddr, hbytes]
          show saddr + KERNEL_VADDR_START + DIV_ROUND_UP nr 8 ≤ _
          omega
      · intro q r hqr hr
        rcases Nat.lt_succ_iff_lt_or_eq.mp hr with hlt | rfl
        · exact hlayout.order q r hqr hlt
        · have hlo := hlayout.lo_le q hqr
          rw [hself, haddr, hbytes]
          show saddr + KERNEL_VADDR_START + DIV_ROUND_UP nr 8 ≤ _
          omega

/-- The loop that fills a list leaves the bitmaps alone. -/
theorem initList_bmap (P : Pool) (n : Nat) :
    ∀ (i : Nat) (b : Buddy) {b' : Buddy}, Buddy.initList P n i b = .ok b' →
      b'.memMap = b.memMap ∧ ∀ Q q, (b'.area Q q).bmap = (b.area Q q).bmap := by
  induction n with
  | zero =>
      intro i b b' h
      obtain rfl := Except.ok.inj h
      exact ⟨rfl, fun Q q => rfl⟩
  | succ n ih =>
      intro i b b' h
      simp only [Buddy.initList, Buddy.pushBack, bind_eq_ok, pure_eq_ok, Except.ok.injEq] at h
      obtain ⟨b₁, ⟨⟨pgList, lru⟩, -, rfl⟩, hloop⟩ := h
      obtain ⟨hmem, hsame⟩ := ih _ _ hloop
      refine ⟨hmem, fun Q q => ?_⟩
      rw [hsame Q q]
      by_cases hne : Q = P ∧ q = MAX_ORDER
      · obtain ⟨rfl, rfl⟩ := hne
        rw [Buddy.setList_self]
      · rw [Buddy.setList_of_ne _ _ _ hne]

/-- The part of `buddy_init` for one pool. -/
theorem initPool_layout {b b' : Buddy} {P : Pool} {start nr saddr saddr' : Nat}
    (h : b.initPool P start nr saddr = .ok (saddr', b')) :
    saddr' = saddr + bitmapBytes (MAX_ORDER + 1) nr ∧ b'.memMap = b.memMap ∧
    (∀ Q, Q ≠ P → ∀ q, (b'.area Q q).bmap = (b.area Q q).bmap) ∧
    BitmapLayout (b'.area P) (MAX_ORDER + 1) nr saddr saddr' := by
  simp only [Buddy.initPool, bind_eq_ok] at h
  obtain ⟨b₁, hlist, hloop⟩ := h
  obtain ⟨hsaddr, hmem, hother, hlayout⟩ := initBitmaps_layout P _ _ _ _ hloop
  obtain ⟨hmem', hsame⟩ := initList_bmap P nr start _ hlist
  refine ⟨hsaddr, hmem.trans hmem', fun Q hQ q => ?_, hlayout⟩
  rw [hother Q q fun heq => hQ heq.1, hsame Q q,
    Buddy.setArea_of_ne _ _ fun heq => hQ heq.1]

/-- The bitmaps of a pool depend on its areas only. -/
theorem BitmapLayout.congr {area area' : Nat → FreeArea} {n nr lo hi : Nat}
    (h : BitmapLayout area n nr lo hi) (heq : ∀ q, (area' q).bmap = (area q).bmap) :
    BitmapLayout area' n nr lo hi where
  bits q hq := by
    rw [heq q]
    exact h.bits q hq
  lo_le q hq := by
    rw [heq q]
    exact h.lo_le q hq
  le_hi q hq := by
    rw [heq q]
    exact h.le_hi q hq
  order q r hqr hr := by
    rw [heq q, heq r]
    exact h.order q r hqr hr

/-- The bitmaps in memory: the kernel pool behind `mem_map`, and the user pool behind it. -/
structure BuddyLayout (totalMemSize saddr saddr' : Nat) (b : Buddy) : Prop where
  memMap : b.memMap = saddr + KERNEL_VADDR_START
  end_eq : saddr' = saddr + totalMemSize / PG_SIZE * SIZEOF_PAGE
    + bitmapBytes (MAX_ORDER + 1) (poolBlocks totalMemSize .kernel)
    + bitmapBytes (MAX_ORDER + 1) (poolBlocks totalMemSize .user)
  kernel : BitmapLayout (b.area .kernel) (MAX_ORDER + 1) (poolBlocks totalMemSize .kernel)
    (saddr + totalMemSize / PG_SIZE * SIZEOF_PAGE)
    (saddr + totalMemSize / PG_SIZE * SIZEOF_PAGE
      + bitmapBytes (MAX_ORDER + 1) (poolBlocks totalMemSize .kernel))
  user : BitmapLayout (b.area .user) (MAX_ORDER + 1) (poolBlocks totalMemSize .user)
    (saddr + totalMemSize / PG_SIZE * SIZEOF_PAGE
      + bitmapBytes (MAX_ORDER + 1) (poolBlocks totalMemSize .kernel)) saddr'

/-- `buddy_init` lays out its data. -/
theorem buddyInit_layout {b b' : Buddy} {totalMemSize saddr saddr' : Nat}
    (h : b.buddyInit saddr totalMemSize = .ok (saddr', b')) :
    BuddyLayout totalMemSize saddr saddr' b' := by
  simp only [Buddy.buddyInit, bind_eq_ok] at h
  obtain ⟨⟨mid, b₁⟩, hkernel, huser⟩ := h
  obtain ⟨hmid, hmem₁, -, hlayout₁⟩ := initPool_layout hkernel
  obtain ⟨hend, hmem₂, hother, hlayout₂⟩ := initPool_layout huser
  have hne : Pool.kernel ≠ Pool.user := by decide
  refine ⟨hmem₂.trans hmem₁, ?_, hmid ▸ hlayout₁.congr (hother .kernel hne), hmid ▸ hlayout₂⟩
  rw [hend, hmid]
  rfl

namespace BuddyLayout

variable {totalMemSize saddr saddr' : Nat} {b : Buddy}

/-- The bits of a bitmap. -/
theorem bits (h : BuddyLayout totalMemSize saddr saddr' b) (P : Pool) {o : Nat}
    (ho : o ≤ MAX_ORDER) :
    ∃ m, bitmapInit m (poolBlocks totalMemSize P * 2 ^ (MAX_ORDER - o))
      = .ok (b.area P o).bmap := by
  cases P with
  | kernel => exact h.kernel.bits o (Nat.lt_succ_of_le ho)
  | user => exact h.user.bits o (Nat.lt_succ_of_le ho)

/-- Two bitmaps share no byte. -/
theorem apart (h : BuddyLayout totalMemSize saddr saddr' b) {P Q : Pool} {o q : Nat}
    (ho : o ≤ MAX_ORDER) (hq : q ≤ MAX_ORDER) (hne : ¬(Q = P ∧ q = o)) :
    (b.area P o).bmap.addr + (b.area P o).bmap.byteSize ≤ (b.area Q q).bmap.addr ∨
    (b.area Q q).bmap.addr + (b.area Q q).bmap.byteSize ≤ (b.area P o).bmap.addr := by
  have ho' := Nat.lt_succ_of_le ho
  have hq' := Nat.lt_succ_of_le hq
  -- in one pool the lower order lies behind the higher one
  have hsame : ∀ {n nr lo hi : Nat} {area : Nat → FreeArea}, BitmapLayout area n nr lo hi →
      o < n → q < n → q ≠ o →
      (area o).bmap.addr + (area o).bmap.byteSize ≤ (area q).bmap.addr ∨
      (area q).bmap.addr + (area q).bmap.byteSize ≤ (area o).bmap.addr := by
    intro n nr lo hi area hlayout hon hqn hqo
    rcases Nat.lt_or_gt_of_ne hqo with hlt | hgt
    · exact .inl (hlayout.order q o hlt hon)
    · exact .inr (hlayout.order o q hgt hqn)
  cases P <;> cases Q
  · exact hsame h.kernel ho' hq' fun heq => hne ⟨rfl, heq⟩
  · exact .inl ((h.kernel.le_hi o ho').trans (h.user.lo_le q hq'))
  · exact .inr ((h.kernel.le_hi q hq').trans (h.user.lo_le o ho'))
  · exact hsame h.user ho' hq' fun heq => hne ⟨rfl, heq⟩

end BuddyLayout

/-! ### The indices -/

/-- The bit `k` is one of the `nr` bits that `buddy_init` gave to a bitmap: it starts clear, which
the padding behind the bits does not, and its byte belongs to no other bitmap. -/
structure IndexOk (b : Buddy) (P : Pool) (o nr k : Nat) : Prop where
  given : ∃ m, bitmapInit m nr = .ok (b.area P o).bmap
  lt : k < nr
  clear : (b.area P o).bmap.bit k = false
  byte : k / 8 < (b.area P o).bmap.byteSize
  own : ∀ Q q, q ≤ MAX_ORDER → ¬(Q = P ∧ q = o) →
    (b.area P o).bmap.addr + k / 8 < (b.area Q q).bmap.addr ∨
    (b.area Q q).bmap.addr + (b.area Q q).bmap.byteSize ≤ (b.area P o).bmap.addr + k / 8

theorem BuddyLayout.indexOk {totalMemSize saddr saddr' : Nat} {b : Buddy}
    (h : BuddyLayout totalMemSize saddr saddr' b) {P : Pool} {o k : Nat} (ho : o ≤ MAX_ORDER)
    (hk : k < poolBlocks totalMemSize P * 2 ^ (MAX_ORDER - o)) :
    IndexOk b P o (poolBlocks totalMemSize P * 2 ^ (MAX_ORDER - o)) k := by
  obtain ⟨m, hinit⟩ := h.bits P ho
  obtain ⟨-, -, hbytes, hclear⟩ := bitmapInit_ok hinit
  have hbyte : k / 8 < (b.area P o).bmap.byteSize := by
    rw [hbytes, DIV_ROUND_UP]
    omega
  refine ⟨⟨m, hinit⟩, hk, hclear k hk, hbyte, fun Q q hq hne => ?_⟩
  rcases h.apart ho hq hne with hbefore | hbehind
  · exact .inl (by omega)
  · exact .inr (by omega)

/-- Every page of a pool has its bit, in the bitmap of every order. The index is counted from the
start of memory and not of the pool, as `buddy.c` does, so a bitmap has more bits than its pool
needs. -/
theorem buddyInit_index {totalMemSize : Nat} (hkernel : 0 < poolBlocks totalMemSize .kernel)
    {b : Buddy} (hzero : b.Zeroed) (saddr : Nat) :
    ∃ saddr' b', b.buddyInit saddr totalMemSize = .ok (saddr', b') ∧
      ∀ P o idx, o ≤ MAX_ORDER → poolLo totalMemSize P ≤ idx → idx < poolHi totalMemSize P →
        IndexOk b' P o (poolBlocks totalMemSize P * 2 ^ (MAX_ORDER - o)) (idx >>> (o + 1)) := by
  have hpool : ∀ P, 0 < poolBlocks totalMemSize P := by
    intro P
    cases P with
    | kernel => exact hkernel
    | user => exact hkernel.trans_le poolBlocks_kernel_le
  obtain ⟨saddr', b', hinit, -⟩ := buddyInit_spec hpool hzero saddr
  refine ⟨saddr', b', hinit, fun P o idx ho _ hhi => ?_⟩
  exact (buddyInit_layout hinit).indexOk ho (pair_lt_of_lt_poolHi ho hhi)

/-- With 16 MiB, the last page takes the last bit of order 9 that is in use. -/
theorem buddyInit_index_16M : ∃ saddr' b',
    zeroedBuddy.buddyInit POOL_START 0x1000000 = .ok (saddr', b') ∧
      IndexOk b' .user 9 6 3 := by
  obtain ⟨saddr', b', hinit, hindex⟩ :=
    @buddyInit_index 0x1000000 (by decide) zeroedBuddy zeroedBuddy_zeroed POOL_START
  exact ⟨saddr', b', hinit, hindex .user 9 4095 (by decide) (by decide) (by decide)⟩

end Fizzos.Proofs
