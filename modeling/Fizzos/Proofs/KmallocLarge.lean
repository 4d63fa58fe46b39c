import Fizzos.Kernel.Kmalloc
import Fizzos.Proofs.BuddySystem

/-!
# `Fizzos.Proofs.KmallocLarge`: large allocations

A request of more than `MAX_BLOCK_SIZE` bytes gets a block of pages, with the descriptor in its
first 32 bytes. The loop of `kmalloc` halves the number of pages and rounds down each time, so the
order is that of the largest power of two that is not above it (`two_pow_pageOrder_le`). The block
is large enough only for a number of pages that is a power of two (`kmalloc_large_fits_iff`).
-/

set_option autoImplicit false

namespace Fizzos.Proofs

open Fizzos.Kernel
open Fizzos.LibKernel

/-! ### The order -/

theorem two_pow_pageOrder_le {cnt : Nat} (h : 0 < cnt) : 2 ^ pageOrder cnt ≤ cnt := by
  induction cnt using pageOrder.induct with
  | case1 cnt hcnt ih =>
      have hhalf := ih (by omega)
      rw [pageOrder, if_pos hcnt, Nat.pow_succ]
      omega
  | case2 cnt hcnt =>
      rw [pageOrder, if_neg hcnt]
      exact h

theorem pageOrder_two_pow (k : Nat) : pageOrder (2 ^ k) = k := by
  induction k with
  | zero =>
      rw [pageOrder]
      rfl
  | succ k ih =>
      have hpos := Nat.two_pow_pos k
      rw [pageOrder, if_pos (by omega), Nat.pow_succ, Nat.mul_div_cancel _ (by decide), ih]

/-- The descriptor and the request need a number of pages that is a power of two, and
`DIV_ROUND_UP` does not wrap around. -/
def WholeBlock (size : Nat) : Prop :=
  size + 32 + PG_SIZE - 1 < 2 ^ 32 ∧ ∃ k, DIV_ROUND_UP (size + 32) PG_SIZE = 2 ^ k

/-- The order is large enough for the request. -/
theorem largeOrder_fits_iff {size : Nat} (hsize : size < 2 ^ 32) (hlarge : size > MAX_BLOCK_SIZE) :
    size + 32 ≤ 2 ^ largeOrder size * PG_SIZE ↔ WholeBlock size := by
  have hmin : 2032 < size := hlarge
  obtain ⟨cnt, hcnt⟩ : ∃ cnt, cnt = (size + 32 + 4096 - 1) % 2 ^ 32 / 4096 := ⟨_, rfl⟩
  have horder : largeOrder size = pageOrder cnt := hcnt ▸ rfl
  have hpages : DIV_ROUND_UP (size + 32) PG_SIZE = (size + 32 + 4096 - 1) / 4096 := rfl
  rw [WholeBlock, horder, hpages]
  change _ ≤ _ * 4096 ↔ size + 32 + 4096 - 1 < 2 ^ 32 ∧ _
  constructor
  · intro hfits
    have hnowrap : size + 32 + 4096 - 1 < 2 ^ 32 := by
      -- behind the wrap at most one page is left, and its order is zero
      refine Nat.lt_of_not_le fun hwrap => ?_
      have hone : ¬cnt > 1 := by omega
      rw [pageOrder, if_neg hone] at hfits
      omega
    have hle : 2 ^ pageOrder cnt ≤ cnt := two_pow_pageOrder_le (by omega)
    exact ⟨hnowrap, pageOrder cnt, by omega⟩
  · rintro ⟨hnowrap, k, hk⟩
    have hpow : cnt = 2 ^ k := by omega
    rw [hpow, pageOrder_two_pow]
    omega

/-! ### `kmalloc` -/

/-- The block that `kmalloc` has taken from the page allocator, with its order in the descriptor,
holds the descriptor and the request. -/
def BlockFits (b : Buddy) (size : Nat) (current : Tid) (p : Option Nat) (b' : Buddy) (m' : KMem) :
    Prop :=
  ∃ idx order, b.allocPages KERNEL_POOL order current = .ok (idx, b') ∧
    p = some (pageAddr idx + 32) ∧ (m'.desc (pageAddr idx)).count = order ∧
    size + 32 ≤ 2 ^ order * PG_SIZE

/-- What a large `kmalloc` does. -/
theorem kmalloc_large {b b' : Buddy} {m m' : KMem} {size : Nat} {current : Tid} {p : Option Nat}
    (hlarge : size > MAX_BLOCK_SIZE) (h : kmalloc b m size current = .ok (p, b', m')) :
    ∃ idx, b.allocPages KERNEL_POOL (largeOrder size) current = .ok (idx, b') ∧
      p = some (pageAddr idx + 32) ∧ (m'.desc (pageAddr idx)).count = largeOrder size := by
  rw [kmalloc, if_pos hlarge] at h
  simp only [Buddy.getFreePages, bind_eq_ok, pure_eq_ok, Except.ok.injEq, Prod.mk.injEq] at h
  obtain ⟨_, ⟨⟨idx, b₁⟩, halloc, rfl⟩, rfl, rfl, rfl⟩ := h
  refine ⟨idx, halloc, rfl, ?_⟩
  simp only [KMem.setDesc, Function.update_self]

/-- A large `kmalloc` that returns has taken a block with room for the request exactly when the
number of pages is a power of two. -/
theorem kmalloc_large_fits_iff {b b' : Buddy} {m m' : KMem} {size : Nat} {current : Tid}
    {p : Option Nat} (hsize : size < 2 ^ 32) (hlarge : size > MAX_BLOCK_SIZE)
    (h : kmalloc b m size current = .ok (p, b', m')) :
    BlockFits b size current p b' m' ↔ WholeBlock size := by
  obtain ⟨idx, halloc, hp, hdesc⟩ := kmalloc_large hlarge h
  rw [← largeOrder_fits_iff hsize hlarge]
  constructor
  · rintro ⟨idx', order, -, hp', hdesc', hfits⟩
    -- the descriptor tells the order
    have haddr : pageAddr idx' = pageAddr idx := by
      have hsome := Option.some.inj (hp'.symm.trans hp)
      omega
    rw [haddr, hdesc] at hdesc'
    rwa [Int.ofNat.inj hdesc']
  · intro hfits
    exact ⟨idx, _, halloc, hp, hdesc, hfits⟩

/-- Behind `pool_init` on a machine with 32 MiB, `kmalloc` has a block of any order. -/
theorem exists_kmalloc_32M {size : Nat} (hlarge : size > MAX_BLOCK_SIZE)
    (horder : largeOrder size ≤ MAX_ORDER) (m : KMem) (current : Tid) :
    ∃ b p b' m', (buddySystem 0x2000000).Reachable ⟨b, bootLive⟩ ∧
      kmalloc b m size current = .ok (p, b', m') := by
  obtain ⟨b, hboot, halloc⟩ := exists_boot_32M
  obtain ⟨idx, b', halloc⟩ := halloc KERNEL_POOL _ current horder
  have hcall : ∃ m', kmalloc b m size current = .ok (some (pageAddr idx + 32), b', m') := by
    rw [kmalloc, if_pos hlarge]
    simp only [Buddy.getFreePages, halloc, ok_bind, pure_eq_ok]
    exact ⟨_, rfl⟩
  obtain ⟨m', hcall⟩ := hcall
  exact ⟨b, _, b', m', hboot, hcall⟩

/-- The allocator with empty lists. -/
def emptyKMem : KMem where
  list := fun _ => listInit
  desc := fun _ => ⟨0, 0, 0, false⟩
  links := fun _ => ⟨none, none⟩

/-- One page is enough for 4064 bytes. -/
theorem kmalloc_large_fits_iff_4064 : ∃ b p b' m',
    (buddySystem 0x2000000).Reachable ⟨b, bootLive⟩ ∧
      kmalloc b emptyKMem 4064 0 = .ok (p, b', m') ∧ BlockFits b 4064 0 p b' m' := by
  obtain ⟨b, p, b', m', hinit, hcall⟩ :=
    @exists_kmalloc_32M 4064 (by decide) (by decide +kernel) emptyKMem 0
  exact ⟨b, p, b', m', hinit, hcall,
    (kmalloc_large_fits_iff (by decide) (by decide) hcall).mpr ⟨by decide, 0, by decide⟩⟩

/-- `pid_init` asks for 8192 bytes, and gets a block of two pages: its last 32 bytes belong to
somebody else. -/
theorem kmalloc_pid_bitmap_too_small : ∃ b p b' m',
    (buddySystem 0x2000000).Reachable ⟨b, bootLive⟩ ∧
      kmalloc b emptyKMem 8192 0 = .ok (p, b', m') ∧ ¬BlockFits b 8192 0 p b' m' := by
  obtain ⟨b, p, b', m', hinit, hcall⟩ :=
    @exists_kmalloc_32M 8192 (by decide) (by decide +kernel) emptyKMem 0
  refine ⟨b, p, b', m', hinit, hcall, ?_⟩
  rintro ⟨idx, order, -, hp, hdesc, hfits⟩
  obtain ⟨idx', -, hp', hdesc'⟩ := kmalloc_large (by decide) hcall
  have haddr : pageAddr idx = pageAddr idx' := by
    have hsome := Option.some.inj (hp.symm.trans hp')
    omega
  have hone : largeOrder 8192 = 1 := by decide +kernel
  rw [haddr, hdesc', hone] at hdesc
  rw [← Int.ofNat.inj hdesc] at hfits
  exact absurd hfits (by decide)

end Fizzos.Proofs
