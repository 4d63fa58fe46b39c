import Fizzos.Proofs.BuddySystem

/-!
# `Fizzos.Proofs.Pages`: single pages and their addresses

The callers of the page allocator know a page by its address in the direct mapping. On a
machine with at most 1 GiB every page of the pools has such an address (`PageBase`), and it
leads back to the page. `get_free_page` and `free_page` keep the invariant of the allocator
(`RunInv.getFreePage`, `RunInv.freePageAt_last`, `RunInv.freePageAt_shared`).
-/

set_option autoImplicit false

namespace Fizzos.Proofs

open Fizzos.Kernel
open Fizzos.LibKernel
open Fizzos.Support
open BuddyInv (hold)

/-! ### Addresses -/

/-- The number of pages of the largest machine. -/
def MAX_PAGES : Nat := 2 ^ 18

/-- `addr & 0xfffff000` rounds a 32-bit address down to its page. -/
theorem and_pageMask {addr : Nat} (h : addr < 2 ^ 32) :
    addr &&& 0xfffff000 = addr / PG_SIZE * PG_SIZE := by
  have hmask : 0xfffff000 = (2 ^ 20 - 1) * 2 ^ 12 := by decide
  have hpage : PG_SIZE = 2 ^ 12 := by decide
  refine Nat.eq_of_testBit_eq fun i => ?_
  rw [hmask, hpage, Nat.testBit_and, Nat.testBit_mul_two_pow, Nat.testBit_mul_two_pow,
    Nat.testBit_div_two_pow, Nat.testBit_two_pow_sub_one]
  by_cases hlow : 12 ≤ i
  · by_cases hhigh : i < 32
    · have hlt : i - 12 < 20 := by omega
      simp [hlow, hlt, Nat.sub_add_cancel hlow]
    · have hbit : addr.testBit i = false :=
        Nat.testBit_lt_two_pow (h.trans_le (Nat.pow_le_pow_right (by decide) (by omega)))
      simp [hbit, hlow, Nat.sub_add_cancel hlow]
  · simp [hlow]

/-- The base of a page in kernel memory. -/
structure PageBase (desc : Nat) : Prop where
  dvd : PG_SIZE ∣ desc
  kernel : KERNEL_VADDR_START ≤ desc
  fits : desc + PG_SIZE ≤ 2 ^ 32

namespace PageBase

variable {desc : Nat}

/-- `free_pages` accepts the address. -/
theorem and_eq_zero (h : PageBase desc) : desc &&& 0x00000fff = 0 := by
  have hmask : 0x00000fff = 2 ^ 12 - 1 := by decide
  rw [hmask, Nat.and_two_pow_sub_one_eq_mod]
  exact Nat.mod_eq_zero_of_dvd h.dvd

end PageBase

/-- The page of an index in the direct mapping. -/
theorem paddr2pg_pageAddr (idx : Nat) : paddr2pg (getPaddr (pageAddr idx)) = idx := by
  rw [pageAddr, paddr2pg, getPaddr, Nat.add_sub_cancel, Nat.mul_div_cancel _ (by decide)]

/-- Different pages have different addresses. -/
theorem pageAddr_inj {i j : Nat} (h : pageAddr i = pageAddr j) : i = j := by
  rw [← paddr2pg_pageAddr i, h, paddr2pg_pageAddr]

/-- Physical memory of at most 1 GiB lies in the direct mapping. -/
theorem pageBase_pageAddr {idx : Nat} (hidx : idx < MAX_PAGES) : PageBase (pageAddr idx) where
  dvd := by
    have hkernel : PG_SIZE ∣ KERNEL_VADDR_START := by decide
    exact (Nat.dvd_add_right (Nat.dvd_mul_left _ _)).mpr hkernel
  kernel := Nat.le_add_left _ _
  fits := by
    simp only [MAX_PAGES] at hidx
    simp only [pageAddr, PG_SIZE, KERNEL_VADDR_START]
    omega

/-- The pools of a machine with at most 1 GiB. -/
theorem poolHi_le {totalMemSize : Nat} (htotal : totalMemSize ≤ 2 ^ 30) (P : Pool) :
    poolHi totalMemSize P ≤ MAX_PAGES := by
  have hblocks : poolStart totalMemSize P + poolBlocks totalMemSize P
      ≤ (totalMemSize / PG_SIZE) / 2 ^ MAX_ORDER := by
    rw [← Nat.shiftRight_eq_div_pow]
    cases P <;> simp only [poolStart, poolBlocks] <;>
      generalize (totalMemSize / PG_SIZE) >>> MAX_ORDER = nr <;> omega
  calc poolHi totalMemSize P
      ≤ 2 ^ MAX_ORDER * ((totalMemSize / PG_SIZE) / 2 ^ MAX_ORDER) := Nat.mul_le_mul_left _ hblocks
    _ ≤ totalMemSize / PG_SIZE := Nat.mul_div_le _ _
    _ ≤ MAX_PAGES := by simp only [PG_SIZE, MAX_PAGES]; omega

/-! ### `get_free_page` and `free_page` -/

section
variable {totalMemSize : Nat} {b : Buddy} {out : Pool → Multiset Block} {fr : FreeLists}

/-- A block that is held lies in the direct mapping. -/
theorem RunInv.lt_maxPages (h : RunInv totalMemSize b out fr) (htotal : totalMemSize ≤ 2 ^ 30)
    {P : Pool} {blk : Block} (hblk : blk ∈ out P) : blk.idx < MAX_PAGES := by
  have hrange := (h.buddy.out_range hblk).2.2
  have hpos : 0 < 2 ^ blk.order := Nat.two_pow_pos _
  exact Nat.lt_of_lt_of_le (by omega) (poolHi_le htotal P)

/-- `get_free_page` gives out a new page, or stops with the `PANIC` of `alloc_pages`. -/
theorem RunInv.getFreePage (h : RunInv totalMemSize b out fr) (htotal : totalMemSize ≤ 2 ^ 30)
    (flag : Nat) (current : Tid) :
    (b.getFreePage flag current = .error .panic ∧
      b.allocPages flag 0 current = .error .panic) ∨
    ∃ idx b' fr', b.getFreePage flag current = .ok (pageAddr idx, b') ∧ idx < MAX_PAGES ∧
      RunInv totalMemSize b' (hold out (poolOfFlag flag) ⟨idx, 0⟩) fr' ∧
      (∀ P, ∀ blk ∈ out P, blk.idx ≠ idx) ∧
      b'.page = Function.update b.page idx { count := 1, «private» := 0 } := by
  have hlt : totalMemSize < 2 ^ 32 := by omega
  rcases h.allocPages hlt flag (Nat.zero_le MAX_ORDER) current with
    hpanic | ⟨idx, b', fr', hok, hrun, hpage⟩
  · exact .inl ⟨by simp [Buddy.getFreePage, Buddy.getFreePages, hpanic], hpanic⟩
  · have hidx := hrun.lt_maxPages htotal (BuddyInv.mem_hold out _ ⟨idx, 0⟩)
    refine .inr ⟨idx, b', fr', ?_, hidx, hrun, fun P blk hblk => ?_, hpage⟩
    · simp [Buddy.getFreePage, Buddy.getFreePages, hok]
    · exact hrun.buddy.idx_ne_of_mem (poolRanges hlt) hblk

/-- `free_page` of the last reference gives the page back. -/
theorem RunInv.freePageAt_last {P : Pool} {desc : Nat}
    (h : RunInv totalMemSize b (hold out P ⟨paddr2pg (getPaddr desc), 0⟩) fr)
    (htotal : totalMemSize ≤ 2 ^ 30) (hbase : PageBase desc)
    (hcount : (b.page (paddr2pg (getPaddr desc))).count = 1) (current : Tid) :
    ∃ b' fr', b.freePageAt desc current = .ok b' ∧ RunInv totalMemSize b' out fr' ∧
      b'.page = Function.update b.page (paddr2pg (getPaddr desc))
        { count := 0, «private» := 0 } := by
  obtain ⟨b', fr', hok, hrun, hpage⟩ := h.freePages (by omega) hcount current
  refine ⟨b', fr', ?_, hrun, hpage⟩
  simp only [Buddy.freePageAt, Buddy.freePagesAt, ASSERT_true hbase.and_eq_zero, ok_bind]
  exact hok

/-- `free_page` of a shared page drops a reference. -/
theorem freePageAt_shared {idx : Nat} (hidx : idx < MAX_PAGES)
    (hcount : 1 < (b.page idx).count) (current : Tid) :
    b.freePageAt (pageAddr idx) current
      = .ok (b.setPage idx { b.page idx with count := wrap32 ((b.page idx).count - 1) }) := by
  have hbase := pageBase_pageAddr hidx
  simp only [Buddy.freePageAt, Buddy.freePagesAt, ASSERT_true hbase.and_eq_zero, ok_bind,
    paddr2pg_pageAddr]
  have hblk : 1 < (b.page (Block.mk idx 0).idx).count := hcount
  exact BuddyInv.freePages_shared hblk current

end

end Fizzos.Proofs
