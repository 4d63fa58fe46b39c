import Fizzos.Kernel.PoolInit
import Fizzos.Proofs.BuddyLayout

/-!
# `Fizzos.Proofs.PoolInit`: the layout of memory at boot

Behind the page tables of the direct mapping, `buddy_init` puts `mem_map` and the bitmaps.
`pool_init` then takes as many blocks of the maximal order as cover all of it. The list of the
kernel pool starts with the blocks 0, 1, 2 and so on, and the loop takes them in that order
(`reserve_spec`).

The page tables may take `0x101000` up to `0x200000`, where `mem_map` begins: that is the room for
255 of them. The kernel pool gets a quarter of the blocks, and with fewer than four blocks it gets
none. So boot works between 16 MiB and 1020 MiB, and `pool_init` asserts only half of that
(`boots_iff`).
-/

set_option autoImplicit false

namespace Fizzos.Proofs

open Fizzos.Kernel
open Fizzos.Support
open BuddyInv (hold mem_hold mem_hold_iff)

/-! ### The blocks in use -/

/-- The loop takes the first blocks of the list, in their order. -/
theorem reserve_spec {totalMemSize : Nat} (htotal : totalMemSize < 2 ^ 32)
    (current : Tid) (n : Nat) :
    ∀ (i m : Nat) {b : Buddy} {fr : FreeLists} {out : Pool → Multiset Block}, n ≤ m →
      RunInv totalMemSize b out fr →
      fr .kernel MAX_ORDER = (List.range' i m).map (2 ^ MAX_ORDER * ·) →
      ∃ b' fr' out',
        reserve current n b = .ok ((List.range' i n).map (2 ^ MAX_ORDER * ·), b') ∧
        RunInv totalMemSize b' out' fr' ∧ (∀ P, ∀ blk ∈ out P, blk ∈ out' P) ∧
        ∀ k, i ≤ k → k < i + n → ⟨2 ^ MAX_ORDER * k, MAX_ORDER⟩ ∈ out' .kernel := by
  induction n with
  | zero =>
      intro i m b fr out _ h _
      exact ⟨b, fr, out, rfl, h, fun _ _ hblk => hblk, fun k hlo hhi => by omega⟩
  | succ n ih =>
      intro i m b fr out hle h hfr
      obtain ⟨m, rfl⟩ : ∃ m', m = m' + 1 := ⟨m - 1, by omega⟩
      rw [List.range'_succ, List.map_cons] at hfr
      have hr := poolRanges htotal
      obtain ⟨b₁, halloc, hpage, h₁⟩ := h.buddy.allocTop hr hfr current
      -- The block is of the maximal order, so it is not split and stays as it is.
      have hrun : RunInv totalMemSize b₁ (hold out .kernel ⟨2 ^ MAX_ORDER * i, MAX_ORDER⟩)
          (setFree fr .kernel MAX_ORDER ((List.range' (i + 1) m).map (2 ^ MAX_ORDER * ·))) := by
        refine ⟨h₁, fun Q blk hblk => ?_⟩
        rw [hpage]
        rcases mem_hold_iff.mp hblk with ⟨-, rfl⟩ | hother
        · rw [Function.update_self]
        · rw [Function.update_of_ne (h₁.idx_ne_of_mem hr hother)]
          exact h.order Q blk hother
      obtain ⟨b', fr', out', hloop, hrun', hsub, hmem⟩ :=
        ih (i + 1) m (Nat.le_of_succ_le_succ hle) hrun (setFree_self _ _ _ _)
      refine ⟨b', fr', out', ?_, hrun', fun P blk hblk => ?_, fun k hlo hhi => ?_⟩
      · rw [reserve, halloc, ok_bind]
        simp only [hloop, ok_bind, pure_eq_ok]
        rw [List.range'_succ, List.map_cons]
      · exact hsub P blk (mem_hold_iff.mpr (.inr hblk))
      · rcases Nat.eq_or_lt_of_le hlo with rfl | hlt
        · exact hsub .kernel _ (mem_hold out .kernel _)
        · exact hmem k hlt (by omega)

/-! ### The layout -/

/-- The data that boot leaves in memory. -/
inductive Region
  | entries
  | memMap
  | bitmap (P : Pool) (o : Nat)
  deriving DecidableEq

/-- The byte at the physical address `a` belongs to the data, when `buddy_init` has left `b`. -/
def Region.Has (totalMemSize : Nat) (b : Buddy) : Region → Nat → Prop
  | .entries, a => ∃ e ∈ entryStores totalMemSize, e.1 ≤ a ∧ a < e.1 + 4
  | .memMap, a => b.memMap ≤ a + KERNEL_VADDR_START ∧
      a + KERNEL_VADDR_START < b.memMap + totalMemSize / PG_SIZE * SIZEOF_PAGE
  | .bitmap P o, a => o ≤ MAX_ORDER ∧ (b.area P o).bmap.addr ≤ a + KERNEL_VADDR_START ∧
      a + KERNEL_VADDR_START < (b.area P o).bmap.addr + (b.area P o).bmap.byteSize

/-- The runs of the page allocator behind boot. -/
def bootSystem (x : Booted) : System BuddyState BuddyAct Halt where
  init s := s = ⟨x.buddy, fun _ => 0⟩
  enabled := BuddyState.Enabled
  next := BuddyState.next

/-- The data do not overlap, the blocks that boot takes are the first ones in their order and cover
the data, and no page that is handed out later overlaps the data. -/
structure BootLayout (totalMemSize : Nat) (b : Buddy) (x : Booted) : Prop where
  apart : ∀ (r r' : Region) a, r ≠ r' → r.Has totalMemSize b a → ¬r'.Has totalMemSize b a
  inOrder : x.reserved = (List.range x.reserved.length).map (2 ^ MAX_ORDER * ·)
  covers : x.saddr ≤ x.reserved.length * (2 ^ MAX_ORDER * PG_SIZE)
  later : ∀ s, (bootSystem x).Reachable s → ∀ P, ∀ blk ∈ s.live P, ∀ p, blk.Covers p →
    ∀ (r : Region) a, r.Has totalMemSize b a → a / PG_SIZE ≠ p

/-- A machine with this much memory boots, from any memory and zeroed static storage. -/
def Boots (totalMemSize : Nat) : Prop :=
  ∀ (words : PhysWords) (b : Buddy) (current : Tid), b.Zeroed →
    ∃ b₁ x, b.buddyInit POOL_START totalMemSize = .ok (x.saddr, b₁) ∧
      poolInit words b totalMemSize current = .ok x ∧ BootLayout totalMemSize b₁ x

/-- A table entry lies in front of `mem_map`, when there are at most 255 page tables. -/
theorem entryStores_lt {totalMemSize : Nat} (hmax : totalMemSize ≤ 255 * (1024 * PG_SIZE))
    {e : Nat × Word} (he : e ∈ entryStores totalMemSize) : e.1 + 4 ≤ POOL_START := by
  have hmax' : totalMemSize ≤ 255 * (1024 * 4096) := hmax
  rcases List.mem_append.mp he with he | he
  · rcases List.mem_append.mp he with he | he
    · obtain ⟨i, hi, rfl⟩ := List.mem_map.mp he
      have hlt := (List.mem_range'_1.mp hi).2
      show 0x101000 + i * 4 + 4 ≤ 0x200000
      omega
    · obtain ⟨i, hi, hmem⟩ := List.mem_flatMap.mp he
      obtain ⟨j, hj, rfl⟩ := List.mem_map.mp hmem
      have hlt := (List.mem_range'_1.mp hi).2
      have hj' := List.mem_range.mp hj
      have hcount : DIV_ROUND_UP totalMemSize (1024 * PG_SIZE)
          = (totalMemSize + 1024 * 4096 - 1) / (1024 * 4096) := rfl
      show 0x101000 + 4096 * i + j * 4 + 4 ≤ 0x200000
      omega
  · obtain ⟨i, hi, rfl⟩ := List.mem_map.mp he
    obtain ⟨k, hk, rfl⟩ := List.mem_range'.mp hi
    show 0x101000 + totalMemSize / 4096 * 4 + 4 * k + 4 ≤ 0x200000
    have hk' : k < (0x200000 - (0x101000 + totalMemSize / 4096 * 4) + 3) / 4 := hk
    omega

/-- Each order has twice the bits of the one above it, and less than a byte of padding. -/
theorem bitmapBytes_le (n nr : Nat) : 8 * bitmapBytes n nr + nr ≤ nr * 2 ^ n + 7 * n := by
  induction n generalizing nr with
  | zero => rw [bitmapBytes, Nat.pow_zero, Nat.mul_one, Nat.mul_zero, Nat.zero_add, Nat.add_zero]
  | succ n ih =>
      have hrest := ih (nr * 2)
      have hpow : nr * 2 ^ (n + 1) = nr * 2 * 2 ^ n := by rw [Nat.pow_succ', Nat.mul_assoc]
      have hfirst : DIV_ROUND_UP nr 8 = (nr + 7) / 8 := rfl
      rw [bitmapBytes, hpow, hfirst]
      omega

/-- The kernel pool has room for the data, when it has a block. -/
theorem saddr_le {totalMemSize saddr : Nat} {b : Buddy}
    (h : BuddyLayout totalMemSize POOL_START saddr b)
    (hmin : 4 * (1024 * PG_SIZE) ≤ totalMemSize) :
    POOL_START ≤ saddr ∧ DIV_ROUND_UP ((saddr + PG_SIZE - 1) / PG_SIZE) (1 <<< MAX_ORDER)
      ≤ poolBlocks totalMemSize .kernel := by
  have hend := h.end_eq
  have hk := bitmapBytes_le (MAX_ORDER + 1) (poolBlocks totalMemSize .kernel)
  have hu := bitmapBytes_le (MAX_ORDER + 1) (poolBlocks totalMemSize .user)
  obtain ⟨kernelNr, hkernel⟩ : ∃ nr, nr = poolBlocks totalMemSize .kernel := ⟨_, rfl⟩
  obtain ⟨userNr, huser⟩ : ∃ nr, nr = poolBlocks totalMemSize .user := ⟨_, rfl⟩
  obtain ⟨pages, hpages⟩ : ∃ pages, pages = totalMemSize / 4096 := ⟨_, rfl⟩
  have hshift : (totalMemSize / PG_SIZE) >>> MAX_ORDER = pages / 1024 := by
    rw [hpages]
    exact Nat.shiftRight_eq_div_pow _ _
  -- a quarter of the blocks is for the kernel, and that is one at least
  have hquarter : kernelNr = pages / 1024 / 4 := by rw [hkernel, poolBlocks, hshift]
  have hrest : userNr = pages / 1024 - kernelNr := by rw [huser, hquarter, poolBlocks, hshift]
  have hmin' : 4 * (1024 * 4096) ≤ totalMemSize := hmin
  have hone : 1 ≤ kernelNr := by omega
  have hpool : pages ≤ 4096 * kernelNr + 4095 := by omega
  have hpages' : totalMemSize / PG_SIZE * SIZEOF_PAGE = pages * 36 := by rw [hpages]; rfl
  have hstart : POOL_START = 0x200000 := rfl
  rw [← hkernel, ← huser, hpages', hstart] at hend
  rw [← hkernel] at hk ⊢
  rw [← huser] at hu
  have hk' : 8 * bitmapBytes (MAX_ORDER + 1) kernelNr + kernelNr ≤ kernelNr * 2048 + 77 := hk
  have hu' : 8 * bitmapBytes (MAX_ORDER + 1) userNr + userNr ≤ userNr * 2048 + 77 := hu
  have hend' : saddr ≤ kernelNr * (1024 * 4096) := by omega
  show 0x200000 ≤ saddr ∧ ((saddr + 4096 - 1) / 4096 + 1024 - 1) / 1024 ≤ _
  omega

section
variable {totalMemSize saddr a : Nat} {b : Buddy}

theorem memMap_range (h : BuddyLayout totalMemSize POOL_START saddr b)
    (ha : Region.memMap.Has totalMemSize b a) :
    POOL_START ≤ a ∧ a < POOL_START + totalMemSize / PG_SIZE * SIZEOF_PAGE := by
  have hmem := h.memMap
  obtain ⟨hlo, hhi⟩ := ha
  omega

theorem bitmap_range (h : BuddyLayout totalMemSize POOL_START saddr b) {P : Pool} {o : Nat}
    (ha : (Region.bitmap P o).Has totalMemSize b a) :
    POOL_START + totalMemSize / PG_SIZE * SIZEOF_PAGE ≤ a ∧ a < saddr := by
  obtain ⟨ho, hlo, hhi⟩ := ha
  have hend := h.end_eq
  have ho' : o < MAX_ORDER + 1 := Nat.lt_succ_of_le ho
  cases P with
  | kernel =>
      have hlo' := h.kernel.lo_le o ho'
      have hhi' := h.kernel.le_hi o ho'
      omega
  | user =>
      have hlo' := h.user.lo_le o ho'
      have hhi' := h.user.le_hi o ho'
      omega

theorem entries_range (hmax : totalMemSize ≤ 255 * (1024 * PG_SIZE))
    (ha : Region.entries.Has totalMemSize b a) : a < POOL_START := by
  obtain ⟨e, he, -, hhi⟩ := ha
  have hend := entryStores_lt hmax he
  omega

/-- The data lie below `saddr`. -/
theorem has_lt (h : BuddyLayout totalMemSize POOL_START saddr b)
    (hmax : totalMemSize ≤ 255 * (1024 * PG_SIZE)) {r : Region} (ha : r.Has totalMemSize b a) :
    a < saddr := by
  have hend := h.end_eq
  cases r with
  | entries =>
      have hlt := entries_range hmax ha
      omega
  | memMap =>
      have hrange := memMap_range h ha
      omega
  | bitmap P o => exact (bitmap_range h ha).2

/-- With at most 255 page tables, the data do not overlap. -/
theorem regions_apart (h : BuddyLayout totalMemSize POOL_START saddr b)
    (hmax : totalMemSize ≤ 255 * (1024 * PG_SIZE)) {r r' : Region} (hne : r ≠ r')
    (ha : r.Has totalMemSize b a) : ¬r'.Has totalMemSize b a := by
  intro ha'
  cases r with
  | entries =>
      have hlt := entries_range hmax ha
      cases r' with
      | entries => exact hne rfl
      | memMap =>
          have hrange := memMap_range h ha'
          omega
      | bitmap P o =>
          have hrange := bitmap_range h ha'
          omega
  | memMap =>
      have hrange := memMap_range h ha
      cases r' with
      | entries =>
          have hlt := entries_range hmax ha'
          omega
      | memMap => exact hne rfl
      | bitmap P o =>
          have hrange' := bitmap_range h ha'
          omega
  | bitmap P o =>
      have hrange := bitmap_range h ha
      cases r' with
      | entries =>
          have hlt := entries_range hmax ha'
          omega
      | memMap =>
          have hrange' := memMap_range h ha'
          omega
      | bitmap Q q =>
          -- Two bitmaps: `buddy_init` gives each its own bytes.
          have hplace : ¬(Q = P ∧ q = o) := by
            rintro ⟨rfl, rfl⟩
            exact hne rfl
          have hapart := h.apart ha.1 ha'.1 hplace
          obtain ⟨-, hlo, hhi⟩ := ha
          obtain ⟨-, hlo', hhi'⟩ := ha'
          omega

end

/-! ### Boot -/

/-- What holds in every state of a run behind boot: the reserved blocks stay out. -/
theorem bootSystem_inductive {totalMemSize : Nat} (htotal : totalMemSize < 2 ^ 32) {x : Booted}
    {out : Pool → Multiset Block} {fr : FreeLists} (h : RunInv totalMemSize x.buddy out fr) :
    (bootSystem x).Inductive fun s => ∃ fr, RunInv totalMemSize s.buddy (s.live + out) fr where
  init hs := by
    have hnone : (fun _ => 0) + out = out := zero_add out
    rw [hs]
    exact ⟨fr, hnone.symm ▸ h⟩
  step h ha hnext := by
    obtain ⟨fr, h⟩ := h
    rcases h.next htotal ha with ⟨hpanic, -⟩ | ⟨s', fr', hok, h'⟩
    · exact absurd (hnext.symm.trans hpanic) (by simp)
    · obtain rfl := Except.ok.inj (hok.symm.trans hnext)
      exact ⟨fr', h'.run⟩

/-- The memory from 16 MiB to 1020 MiB: four blocks of the maximal order, and 255 page tables. -/
def RightSize (totalMemSize : Nat) : Prop :=
  4 * (1024 * PG_SIZE) ≤ totalMemSize ∧ totalMemSize ≤ 255 * (1024 * PG_SIZE)

theorem boots_of_rightSize {totalMemSize : Nat} (h : RightSize totalMemSize) :
    Boots totalMemSize := by
  intro words b current hzero
  obtain ⟨hmin, hmax⟩ := h
  have hmin' : 4 * (1024 * 4096) ≤ totalMemSize := hmin
  have hmax' : totalMemSize ≤ 255 * (1024 * 4096) := hmax
  have htotal : totalMemSize < 2 ^ 32 := by omega
  have hkernel : 0 < poolBlocks totalMemSize .kernel := by
    show 0 < (totalMemSize / 4096) >>> 10 / 4
    rw [Nat.shiftRight_eq_div_pow]
    omega
  have hpool : ∀ P, 0 < poolBlocks totalMemSize P := by
    intro P
    cases P with
    | kernel => exact hkernel
    | user => exact hkernel.trans_le poolBlocks_kernel_le
  obtain ⟨saddr, b₁, hinit, hinv⟩ := buddyInit_spec hpool hzero POOL_START
  have hlayout := buddyInit_layout hinit
  obtain ⟨-, hroom⟩ := saddr_le hlayout hmin
  obtain ⟨n, hn⟩ : ∃ n, n = DIV_ROUND_UP ((saddr + PG_SIZE - 1) / PG_SIZE) (1 <<< MAX_ORDER) :=
    ⟨_, rfl⟩
  have hcover : saddr ≤ n * (1024 * 4096) := by
    have hn' : n = ((saddr + 4096 - 1) / 4096 + 1024 - 1) / 1024 := hn
    omega
  have hrun : RunInv totalMemSize b₁ (fun _ => 0) (initFree totalMemSize) :=
    ⟨hinv, fun P blk hblk => absurd hblk (Multiset.notMem_zero _)⟩
  obtain ⟨b₂, fr, out, hreserve, hrun₂, -, hheld⟩ :=
    reserve_spec htotal current n 0 _ (hn ▸ hroom) hrun rfl
  refine ⟨b₁, ⟨words.store (entryStores totalMemSize), b₂, saddr,
    (List.range' 0 n).map (2 ^ MAX_ORDER * ·)⟩, hinit, ?_, ?_⟩
  · have hlarge : totalMemSize > 512 * PG_SIZE := by
      show totalMemSize > 512 * 4096
      omega
    have hsmall : totalMemSize ≤ 1024 * 1024 * 1024 := by omega
    rw [poolInit, ASSERT_true hlarge, ok_bind, ASSERT_true hsmall, ok_bind, hinit, ok_bind]
    simp only [← hn, hreserve, ok_bind, pure_eq_ok]
  · refine ⟨fun r r' a hne ha => regions_apart hlayout hmax hne ha, ?_, ?_, ?_⟩
    · rw [List.length_map, List.length_range', List.range_eq_range']
    · rw [List.length_map, List.length_range']
      exact hcover
    · intro s hs P blk hblk p hp r a ha hpage
      obtain ⟨fr', hinv'⟩ := (bootSystem_inductive htotal hrun₂).reachable hs
      have hlt : a < saddr := has_lt hlayout hmax ha
      have hpage' : a / 4096 = p := hpage
      -- the page lies in one of the blocks that boot has taken
      have hblock := hheld (p / 1024) (Nat.zero_le _) (by omega)
      refine hinv'.live_not_covers htotal hblk hblock hp ⟨?_, ?_⟩
      · show 1024 * (p / 1024) ≤ p
        omega
      · show p < 1024 * (p / 1024) + 1024
        omega

/-- Without a block for the kernel, `bitmap_init` fails its assertion. -/
theorem Boots.min {totalMemSize : Nat} (h : Boots totalMemSize) :
    4 * (1024 * PG_SIZE) ≤ totalMemSize := by
  obtain ⟨b₁, x, hinit, -, -⟩ := h (fun _ => 0) zeroedBuddy 0 zeroedBuddy_zeroed
  have hs : BuddyState.Init totalMemSize ⟨b₁, fun _ => 0⟩ :=
    ⟨⟨zeroedBuddy, x.saddr, zeroedBuddy_zeroed, hinit⟩, fun _ => rfl⟩
  have hpos : 0 < (totalMemSize / 4096) >>> 10 / 4 := poolBlocks_pos_of_init hs .kernel
  rw [Nat.shiftRight_eq_div_pow] at hpos
  show 4 * (1024 * 4096) ≤ totalMemSize
  omega

/-- The page table 255 lies where `mem_map` begins. -/
theorem Boots.max {totalMemSize : Nat} (h : Boots totalMemSize) :
    totalMemSize ≤ 255 * (1024 * PG_SIZE) := by
  refine Nat.le_of_not_lt fun hgt => ?_
  obtain ⟨b₁, x, hinit, -, hboot⟩ := h (fun _ => 0) zeroedBuddy 0 zeroedBuddy_zeroed
  have hgt' : 255 * (1024 * 4096) < totalMemSize := hgt
  have hmem := (buddyInit_layout hinit).memMap
  have htable : 255 ∈ List.range' 1 (DIV_ROUND_UP totalMemSize (1024 * PG_SIZE) - 1) := by
    refine List.mem_range'_1.mpr ⟨by decide, ?_⟩
    show 255 < 1 + ((totalMemSize + 1024 * 4096 - 1) / (1024 * 4096) - 1)
    omega
  have hentry : (POOL_START, directEntry (255 * 1024 + 0)) ∈ entryStores totalMemSize := by
    refine List.mem_append_left _ (List.mem_append_right _ (List.mem_flatMap.mpr ⟨255, htable, ?_⟩))
    exact List.mem_map.mpr ⟨0, List.mem_range.mpr (Nat.succ_pos 1023), rfl⟩
  refine hboot.apart .entries .memMap POOL_START (by decide) ⟨_, hentry, ?_, ?_⟩ ⟨?_, ?_⟩
  · exact Nat.le_refl POOL_START
  · show POOL_START < POOL_START + 4
    omega
  · exact Nat.le_of_eq hmem
  · rw [hmem]
    show _ < _ + totalMemSize / 4096 * 36
    omega

/-- The memory sizes that boot: from 16 MiB, where the kernel pool has a block, to 1020 MiB, where
the page tables come to `mem_map`. The assertions of `pool_init` accept more. -/
theorem boots_iff (totalMemSize : Nat) : Boots totalMemSize ↔ RightSize totalMemSize :=
  ⟨fun h => ⟨h.min, h.max⟩, boots_of_rightSize⟩

/-- The assertions accept 8 MiB and 1 GiB, and neither boots. The first one has no block for the
kernel pool, and the second one needs a page table where `mem_map` begins. -/
theorem not_boots : (8 * 2 ^ 20 > 512 * PG_SIZE ∧ ¬Boots (8 * 2 ^ 20)) ∧
    (2 ^ 30 ≤ 1024 * 1024 * 1024 ∧ ¬Boots (2 ^ 30)) := by
  refine ⟨⟨by decide, fun h => ?_⟩, ⟨by decide, fun h => ?_⟩⟩
  · exact absurd h.min (by decide)
  · exact absurd h.max (by decide)

end Fizzos.Proofs
