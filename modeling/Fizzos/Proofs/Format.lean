import Fizzos.Proofs.Mount
import Mathlib.Order.CompletePartialOrder
import Mathlib.Order.Interval.Set.Disjoint

/-!
# `Fizzos.Proofs.Format`: the layout and the block bitmap of a new file system

`partition_format` takes the bitmap size from the free sectors, and then again from the sectors that
the first bitmap leaves. `layoutConsistent_iff` is about the numbers. They fit together for every
size of a partition, unless the addition in `DIV_ROUND_UP` wraps around. Then the bitmap has no
sectors.

`partitionFormat_bitmap_iff` is about the disk afterwards. The loop that clears the bits of the last
byte also clears the first bit behind the partition. Only when the bitmap fills its last sector
does that byte stay in memory.
-/

set_option autoImplicit false

namespace Fizzos.Proofs

open Fizzos.Device
open Fizzos.Fs
open Fizzos.Kernel
open Fizzos.Lib
open Fizzos.LibKernel
open Fizzos.Support

/-! ### The layout -/

/-- The first sector and the number of sectors of each area, in order. -/
def regions (startLba secCnt : Nat) : List (Nat × Nat) :=
  let sb := formatSuperBlock startLba secCnt
  [(startLba, bootSectorSects), ((startLba + 1) % 2 ^ 32, superBlockSects),
    (sb.blockBitmapLba, sb.blockBitmapSects), (sb.inodeBitmapLba, sb.inodeBitmapSects),
    (sb.inodeTableLba, sb.inodeTableSects), (sb.dataStartLba, blockBitmapBitLen secCnt)]

/-- The sectors of an area. -/
def sectorsOf (r : Nat × Nat) : Set Nat := Set.Ico r.1 (r.1 + r.2)

/-- The layout fits together and into the partition. -/
structure LayoutConsistent (startLba secCnt : Nat) : Prop where
  consecutive : (regions startLba secCnt).IsChain fun a b => a.1 + a.2 = b.1
  disjoint : (regions startLba secCnt).Pairwise fun a b => Disjoint (sectorsOf a) (sectorsOf b)
  inside : ∀ r ∈ regions startLba secCnt, sectorsOf r ⊆ Set.Ico startLba (startLba + secCnt)
  data : (formatSuperBlock startLba secCnt).dataStartLba + blockBitmapBitLen secCnt
    ≤ startLba + secCnt
  capacity : blockBitmapBitLen secCnt
    ≤ (formatSuperBlock startLba secCnt).blockBitmapSects * BITS_PER_SECTOR

section
variable {startLba secCnt x : Nat}

theorem usedSects_eq : usedSects = 515 := rfl

/-- `DIV_ROUND_UP` without an overflow. -/
theorem divRoundUp_eq (h : x + 4095 < 2 ^ 32) : divRoundUp x BITS_PER_SECTOR =
    (x + 4095) / 4096 := by
  have hsub : x + BITS_PER_SECTOR - 1 = x + 4095 := Nat.add_sub_assoc (by decide) x
  rw [divRoundUp, hsub, Nat.mod_eq_of_lt h, BITS_PER_SECTOR]

/-- Areas that follow each other are disjoint. -/
theorem disjoint_of_consecutive {rs : List (Nat × Nat)}
    (h : rs.IsChain fun a b => a.1 + a.2 = b.1) :
    rs.Pairwise fun a b => Disjoint (sectorsOf a) (sectorsOf b) := by
  let before : Nat × Nat → Nat × Nat → Prop := fun a b => a.1 + a.2 ≤ b.1
  have htrans : Trans before before before :=
    ⟨fun {a b c} hab hbc => Nat.le_trans hab (Nat.le_trans (Nat.le_add_right b.1 b.2) hbc)⟩
  have hchain : rs.IsChain before := h.imp fun _ _ heq => Nat.le_of_eq heq
  refine hchain.pairwise.imp fun {a b} hab => ?_
  exact Set.Ico_disjoint_Ico_same.mono_right (Set.Ico_subset_Ico_left hab)

/-- The free sectors of a partition with room for its metadata. -/
theorem freeSects_eq (hsize : 515 ≤ secCnt) (hfit : secCnt < 2 ^ 32) :
    freeSects secCnt = secCnt - 515 := by
  have hdef : freeSects secCnt = (secCnt + 2 ^ 32 - 515) % 2 ^ 32 := by
    rw [freeSects, usedSects_eq]
  omega

/-- The two bitmap sizes, when the rounding does not wrap around. -/
theorem bitmapSize_eq (hsize : usedSects + 2 ≤ secCnt)
    (hround : secCnt - usedSects + (BITS_PER_SECTOR - 1) < 2 ^ 32) :
    blockBitmapBitLen secCnt = secCnt - 515 - (secCnt - 515 + 4095) / 4096 ∧
      blockBitmapSects secCnt = (blockBitmapBitLen secCnt + 4095) / 4096 := by
  have hround' : secCnt - 515 + 4095 < 2 ^ 32 := hround
  have hfree : freeSects secCnt = secCnt - 515 := by
    rw [usedSects_eq] at hsize
    exact freeSects_eq (by omega) (by omega)
  have hfirst : divRoundUp (secCnt - 515) BITS_PER_SECTOR = (secCnt - 515 + 4095) / 4096 :=
    divRoundUp_eq hround'
  have hlen : blockBitmapBitLen secCnt = secCnt - 515 - (secCnt - 515 + 4095) / 4096 := by
    rw [blockBitmapBitLen, hfree, hfirst]
    omega
  exact ⟨hlen, divRoundUp_eq (by omega)⟩

/-- The bitmap sizes when the rounding wraps around. -/
theorem bitmapSize_overflow (hfit : secCnt < 2 ^ 32)
    (hround : 2 ^ 32 ≤ secCnt - usedSects + (BITS_PER_SECTOR - 1)) :
    blockBitmapBitLen secCnt = secCnt - 515 ∧ blockBitmapSects secCnt = 0 := by
  have hround' : 2 ^ 32 ≤ secCnt - 515 + 4095 := hround
  have hfree : freeSects secCnt = secCnt - 515 :=
    freeSects_eq (by omega) hfit
  have hzero : divRoundUp (secCnt - 515) BITS_PER_SECTOR = 0 := by
    show (secCnt - 515 + 4096 - 1) % 2 ^ 32 / 4096 = 0
    omega
  have hlen : blockBitmapBitLen secCnt = secCnt - 515 := by
    rw [blockBitmapBitLen, hfree, hzero]
    omega
  exact ⟨hlen, by rw [blockBitmapSects, hlen, hzero]⟩

/-- The areas behind the boot sector, in plain numbers. -/
theorem formatSuperBlock_eq (hend : startLba + 515 + blockBitmapSects secCnt < 2 ^ 32) :
    (formatSuperBlock startLba secCnt).blockBitmapLba = startLba + 2 ∧
      (formatSuperBlock startLba secCnt).inodeBitmapLba
        = startLba + 2 + blockBitmapSects secCnt ∧
      (formatSuperBlock startLba secCnt).inodeTableLba
        = startLba + 2 + blockBitmapSects secCnt + 1 ∧
      (formatSuperBlock startLba secCnt).dataStartLba
        = startLba + 2 + blockBitmapSects secCnt + 1 + 512 := by
  have h0 : (startLba + 2) % 2 ^ 32 = startLba + 2 := Nat.mod_eq_of_lt (by omega)
  have h1 : (startLba + 2 + blockBitmapSects secCnt) % 2 ^ 32
      = startLba + 2 + blockBitmapSects secCnt := Nat.mod_eq_of_lt (by omega)
  have h2 : (startLba + 2 + blockBitmapSects secCnt + 1) % 2 ^ 32
      = startLba + 2 + blockBitmapSects secCnt + 1 := Nat.mod_eq_of_lt (by omega)
  have h3 : (startLba + 2 + blockBitmapSects secCnt + 1 + 512) % 2 ^ 32
      = startLba + 2 + blockBitmapSects secCnt + 1 + 512 := Nat.mod_eq_of_lt (by omega)
  have hbits : inodeBitmapSects = 1 := rfl
  have htable : inodeTableSects = 512 := rfl
  simp only [formatSuperBlock, hbits, htable, h0, h1, h2, h3, and_self]

/-- The layout of a partition is consistent exactly when the rounding does not wrap around.
`DIV_ROUND_UP` adds 4095 to the free sectors in 32 bits, and a sum that wraps around gives a bitmap
without sectors. -/
theorem layoutConsistent_iff (hsize : usedSects + 2 ≤ secCnt) (hend : startLba + secCnt < 2 ^ 32) :
    LayoutConsistent startLba secCnt ↔
      secCnt - usedSects + (BITS_PER_SECTOR - 1) < 2 ^ 32 := by
  rw [usedSects_eq] at hsize
  constructor
  · intro h
    by_contra hround
    obtain ⟨hlen, hsects⟩ := bitmapSize_overflow (by omega) (Nat.le_of_not_lt hround)
    have hcapacity : blockBitmapBitLen secCnt ≤ blockBitmapSects secCnt * 4096 := h.capacity
    rw [hlen, hsects] at hcapacity
    omega
  · intro hround
    obtain ⟨hlen, hsects⟩ := bitmapSize_eq hsize hround
    -- The second size is not above the first one, so the data area keeps its length.
    have hdata : 515 + blockBitmapSects secCnt + blockBitmapBitLen secCnt ≤ secCnt := by omega
    have harea : startLba + 515 + blockBitmapSects secCnt < 2 ^ 32 := by omega
    obtain ⟨hbitmap, hinodes, htable, hstart⟩ := formatSuperBlock_eq harea
    have hsuper : (startLba + 1) % 2 ^ 32 = startLba + 1 := Nat.mod_eq_of_lt (by omega)
    have hchain : (regions startLba secCnt).IsChain fun a b => a.1 + a.2 = b.1 := by
      simp only [regions, List.isChain_cons_cons, List.isChain_singleton, and_true, hsuper, hbitmap,
        hinodes, htable, hstart]
      exact ⟨rfl, rfl, rfl, rfl, rfl⟩
    refine ⟨hchain, disjoint_of_consecutive hchain, fun r hr => ?_, ?_, ?_⟩
    · -- Each area starts at its own address and ends in front of the end of the data.
      simp only [regions, List.mem_cons, List.not_mem_nil, or_false, hsuper, hbitmap, hinodes,
        htable, hstart] at hr
      have hbounds : startLba ≤ r.1 ∧ r.1 + r.2 ≤ startLba + secCnt := by
        rcases hr with rfl | rfl | rfl | rfl | rfl | rfl
        · exact ⟨Nat.le_refl _, by show startLba + 1 ≤ _; omega⟩
        · exact ⟨by omega, by show startLba + 1 + 1 ≤ _; omega⟩
        · exact ⟨by omega, by show startLba + 2 + blockBitmapSects secCnt ≤ _; omega⟩
        · exact ⟨by omega, by show startLba + 2 + blockBitmapSects secCnt + 1 ≤ _; omega⟩
        · exact ⟨by omega, by show startLba + 2 + blockBitmapSects secCnt + 1 + 512 ≤ _; omega⟩
        · exact ⟨by omega, by omega⟩
      exact Set.Ico_subset_Ico hbounds.1 hbounds.2
    · omega
    · show blockBitmapBitLen secCnt ≤ blockBitmapSects secCnt * 4096
      omega

/-- A small partition. -/
theorem layoutConsistent_iff_600 : LayoutConsistent 63 600 ↔ 600 - usedSects + 4095 < 2 ^ 32 :=
  layoutConsistent_iff (by decide) (by decide)

/-- A partition entry that claims nearly all 32-bit sector numbers. Its block bitmap has no sectors,
while the super block counts the bits of all blocks. -/
theorem layout_overflows : ¬LayoutConsistent 63 (2 ^ 32 - 64) := by
  intro h
  have hlt : blockBitmapBitLen (2 ^ 32 - 64) ≤ 0 := h.capacity
  revert hlt
  decide

end

/-! ### The block bitmap -/

/-- Block allocations one after the other, each by a thread of the list, as the sectors they
give. -/
def allocBlocks (sb : SuperBlock) : List Tid → Disk → Bitmap → Except Halt (List Nat)
  | [], _, _ => pure []
  | current :: rest, disk, bmap => do
      let (lba, disk, bmap) ← blockBimapAlloc disk sb bmap current
      let lbas ← allocBlocks sb rest disk bmap
      pure (lba :: lbas)

/-- The block bitmap on the disk describes exactly the blocks of the partition, and no run of
allocations after a mount leaves the data area. -/
structure FreshBitmap (disk : Disk) (startLba secCnt : Nat) : Prop where
  exact : ∀ i, (i < (formatSuperBlock startLba secCnt).blockBitmapSects * BITS_PER_SECTOR ∧
    bitOnDisk disk (formatSuperBlock startLba secCnt).blockBitmapLba i = false) ↔
      1 ≤ i ∧ i < blockBitmapBitLen secCnt
  inside : ∀ (m : FileSys) (blockBits inodeBits : Nat) (currents : List Tid) (lbas : List Nat),
    m.disk = disk →
    allocBlocks (mountPartition m startLba blockBits inodeBits).part.sb currents disk
      (mountPartition m startLba blockBits inodeBits).part.blockBitmap = .ok lbas →
    ∀ lba ∈ lbas, (formatSuperBlock startLba secCnt).dataStartLba ≤ lba ∧ lba < startLba + secCnt

section
variable {disk disk' : Disk} {startLba secCnt lba i n size bitLen : Nat} {pad heap buf : Bytes}
  {sb : SuperBlock}

/-- The loop over the last byte clears the bits below `n`. -/
theorem getLsbD_clearBits (b : BitVec 8) (hn : n ≤ 8) (i : Nat) :
    (clearBits b n).getLsbD i = (decide (n ≤ i) && b.getLsbD i) := by
  induction n with
  | zero => simp [clearBits]
  | succ n ih =>
      rw [clearBits, BitVec.getLsbD_and, ih (by omega), ← BitVec.twoPow_eq, BitVec.getLsbD_not,
        BitVec.getLsbD_twoPow]
      by_cases hi : i < 8
      · simp only [hi, decide_true, Bool.true_and]
        by_cases hle : n + 1 ≤ i
        · simp [hle, show n ≤ i by omega, show n ≠ i by omega]
        · by_cases heq : n = i
          · subst heq
            simp [hi]
          · simp [show ¬n ≤ i by omega, show ¬n + 1 ≤ i by omega]
      · rw [BitVec.getLsbD_of_ge b i (by omega)]
        simp

/-- The bits of the block bitmap in memory, up to the end of the sector of the last byte. -/
theorem formatBlockBitmap_bit (hzero : ∀ k < size, buf k = 0) (hsize : i / 8 < size)
    (hin : i / 8 < bitLen / 8 + (SECTOR_SIZE - bitLen / 8 % SECTOR_SIZE)) :
    (formatBlockBitmap buf bitLen (i / 8)).getLsbD (i % 8) = false ↔
      i ≤ bitLen ∧ (i = 0 → bitLen < 8) := by
  have hbit : i % 8 < 8 := Nat.mod_lt i (by decide)
  simp only [formatBlockBitmap]
  by_cases hlast : i / 8 = bitLen / 8
  · -- The last byte: all its bits are set, and then those up to `bitLen` are cleared.
    have hones : memset (Function.update buf 0 (buf 0 ||| 1)) (bitLen / 8) 255
        (SECTOR_SIZE - bitLen / 8 % SECTOR_SIZE) (bitLen / 8) = 255#8 :=
      if_pos ⟨Nat.le_refl _, by omega⟩
    have hset : (255#8).getLsbD (i % 8) = true := by
      have hall : ∀ j < 8, (255#8).getLsbD j = true := by decide
      exact hall _ hbit
    rw [hlast, Function.update_self, hones, getLsbD_clearBits _ (by omega), hset, Bool.and_true,
      decide_eq_false_iff_not]
    omega
  · rw [Function.update_of_ne hlast, memset]
    by_cases hbelow : i / 8 < bitLen / 8
    · rw [if_neg (by omega)]
      by_cases hfirst : i / 8 = 0
      · rw [hfirst, Function.update_self, hzero 0 (by omega)]
        have hone : (0#8 ||| 1#8).getLsbD (i % 8) = decide (i % 8 = 0) := by
          have hall : ∀ j < 8, (0#8 ||| 1#8).getLsbD j = decide (j = 0) := by decide
          exact hall _ hbit
        rw [show (0 ||| 1 : BitVec 8) = 0#8 ||| 1#8 from rfl, hone, decide_eq_false_iff_not]
        omega
      · rw [Function.update_of_ne hfirst, hzero _ hsize]
        have hnone : (0 : BitVec 8).getLsbD (i % 8) = false := BitVec.getLsbD_zero
        simp only [hnone, true_iff]
        omega
    · rw [if_pos ⟨by omega, hin⟩]
      have hset : (0xff : BitVec 8).getLsbD (i % 8) = true := by
        have hall : ∀ j < 8, (0xff : BitVec 8).getLsbD j = true := by decide
        exact hall _ hbit
      simp only [hset, Bool.true_eq_false, false_iff]
      omega

/-- A sector that was written in one of several. -/
theorem ideWrite_at {secCnt l k : Nat} (hlo : lba ≤ l) (hhi : l < lba + secCnt)
    (hk : k < SECTOR_SIZE) :
    ideWrite disk lba buf 0 secCnt l k = buf ((l - lba) * SECTOR_SIZE + k) := by
  rw [ideWrite, if_pos ⟨hlo, hhi, hk⟩, Nat.zero_add]

/-- `ide_write` behind its tests. -/
theorem writeSectors_ok (h : writeSectors disk lba buf n = .ok disk') :
    lba ≤ MAX_LBA ∧ 0 < n ∧ disk' = ideWrite disk lba buf 0 n := by
  simp only [writeSectors, writeCheck, bind_eq_ok, ASSERT_eq_ok, pure_eq_ok] at h
  obtain ⟨-, ⟨-, hlba, -, hpos, -⟩, heq⟩ := h
  cases heq
  exact ⟨hlba, hpos, rfl⟩

/-- The words of the super block on the stack. -/
theorem storeSuperBlock_load (sb : SuperBlockRecord) {j : Nat} (hj : j < 13)
    (hv : sb.words.getD j 0 < 2 ^ 32) :
    load32 (storeSuperBlock pad sb) (4 * j) = sb.words.getD j 0 := by
  refine (loadLE_eq_mod fun b hb => ?_).trans (Nat.mod_eq_of_lt hv)
  rw [storeSuperBlock, if_pos (by omega), show (4 * j + b) / 4 = j by omega,
    show (4 * j + b) % 4 = b by omega]

/-- What a mount reads from a sector with the super block. -/
theorem loadSuperBlock_store (sb : SuperBlockRecord) (hv : ∀ j < 13, sb.words.getD j 0 < 2 ^ 32) :
    loadSuperBlock (storeSuperBlock pad sb) = sb.toSuperBlock := by
  have hload : ∀ j, 4 ≤ j → j ≤ 10 →
      load32 (storeSuperBlock pad sb) (4 * j) = sb.words.getD j 0 :=
    fun j _ hj => storeSuperBlock_load sb (by omega) (hv j (by omega))
  rw [loadSuperBlock, hload 4 (by decide) (by decide), hload 5 (by decide) (by decide),
    hload 6 (by decide) (by decide), hload 7 (by decide) (by decide),
    hload 8 (by decide) (by decide), hload 10 (by decide) (by decide)]
  rfl

/-- A super block is in the first 52 bytes of its sector. -/
theorem loadSuperBlock_congr {m m' : Bytes} (h : ∀ k < 52, m' k = m k) :
    loadSuperBlock m' = loadSuperBlock m := by
  have hload : ∀ o, o + 4 ≤ 52 → load32 m' o = load32 m o :=
    fun o ho => loadLE_congr fun k _ hhi => h k (by omega)
  rw [loadSuperBlock, loadSuperBlock, hload 16 (by decide), hload 20 (by decide),
    hload 24 (by decide), hload 28 (by decide), hload 32 (by decide), hload 40 (by decide)]

/-- The fields of the new super block have the width of `uint32_t`. -/
theorem formatSuperBlock_words (hstart : startLba < 2 ^ 32) (hsec : secCnt < 2 ^ 32) :
    ∀ j < 13, (formatSuperBlock startLba secCnt).words.getD j 0 < 2 ^ 32 := by
  have hmod : ∀ x : Nat, x % 2 ^ 32 < 2 ^ 32 := fun x => Nat.mod_lt x (by decide)
  have hsects : blockBitmapSects secCnt < 2 ^ 32 :=
    Nat.lt_of_le_of_lt (Nat.div_le_self _ _) (hmod _)
  intro j hj
  have hcases : ∀ ws : List Nat, (∀ w ∈ ws, w < 2 ^ 32) → ws.getD j 0 < 2 ^ 32 := by
    intro ws hall
    rw [List.getD_eq_getElem?_getD]
    cases hget : ws[j]? with
    | none =>
        show 0 < 2 ^ 32
        decide
    | some w => exact hall w (List.mem_of_getElem? hget)
  refine hcases _ ?_
  simp only [SuperBlockRecord.words, formatSuperBlock, List.forall_mem_cons]
  exact ⟨by decide, hsec, by decide, hstart, hmod _, hsects, hmod _, by decide, hmod _, by decide,
    hmod _, by decide, by decide, fun w hw => absurd hw List.not_mem_nil⟩

section
variable (hsize : usedSects + 2 ≤ secCnt) (hend : startLba + secCnt < 2 ^ 32)
  (hok : partitionFormat disk startLba secCnt pad heap = .ok disk')

include hsize hend hok

/-- After a format, the layout is consistent: an empty block bitmap fails an assertion. -/
theorem partitionFormat_sizes :
    blockBitmapBitLen secCnt = secCnt - 515 - (secCnt - 515 + 4095) / 4096 ∧
      blockBitmapSects secCnt = (blockBitmapBitLen secCnt + 4095) / 4096 ∧
      515 + blockBitmapSects secCnt + blockBitmapBitLen secCnt ≤ secCnt := by
  rw [usedSects_eq] at hsize
  simp only [partitionFormat, bind_eq_ok] at hok
  obtain ⟨disk₁, -, disk₂, hbitmap, -⟩ := hok
  have hpos : 0 < blockBitmapSects secCnt := (writeSectors_ok hbitmap).2.1
  have hround : secCnt - usedSects + (BITS_PER_SECTOR - 1) < 2 ^ 32 := by
    by_contra hround
    have hfit : secCnt < 2 ^ 32 := by omega
    have hzero := (bitmapSize_overflow hfit (Nat.le_of_not_lt hround)).2
    omega
  obtain ⟨hlen, hsects⟩ := bitmapSize_eq hsize hround
  exact ⟨hlen, hsects, by omega⟩

/-- The super block and the sectors of the block bitmap after a format. -/
theorem partitionFormat_ok :
    superBlockOf disk' startLba = (formatSuperBlock startLba secCnt).toSuperBlock ∧
      ∀ l k, startLba + 2 ≤ l → l < startLba + 2 + blockBitmapSects secCnt → k < SECTOR_SIZE →
        disk' l k = formatBlockBitmap (memset heap 0 0
          (max (max (blockBitmapSects secCnt) inodeBitmapSects) inodeTableSects * SECTOR_SIZE))
          (blockBitmapBitLen secCnt) ((l - (startLba + 2)) * SECTOR_SIZE + k) := by
  obtain ⟨hlen, hsects, hdata⟩ := partitionFormat_sizes hsize hend hok
  rw [usedSects_eq] at hsize
  have harea : startLba + 515 + blockBitmapSects secCnt < 2 ^ 32 := by omega
  obtain ⟨hbitmap, hinodes, htable, hstart⟩ := formatSuperBlock_eq harea
  have hsuper : (startLba + 1) % 2 ^ 32 = startLba + 1 := Nat.mod_eq_of_lt (by omega)
  simp only [partitionFormat, bind_eq_ok, hbitmap, hinodes, htable, hstart, hsuper] at hok
  obtain ⟨disk₁, h₁, disk₂, h₂, disk₃, h₃, disk₄, h₄, h₅⟩ := hok
  obtain ⟨-, -, rfl⟩ := writeSectors_ok h₁
  obtain ⟨-, -, rfl⟩ := writeSectors_ok h₂
  obtain ⟨-, -, rfl⟩ := writeSectors_ok h₃
  obtain ⟨-, -, rfl⟩ := writeSectors_ok h₄
  obtain ⟨-, -, rfl⟩ := writeSectors_ok h₅
  have hbits : (formatSuperBlock startLba secCnt).inodeBitmapSects = 1 := rfl
  have htables : (formatSuperBlock startLba secCnt).inodeTableSects = 512 := rfl
  have hblocks : (formatSuperBlock startLba secCnt).blockBitmapSects
      = blockBitmapSects secCnt := rfl
  -- The later writes go to the areas behind the block bitmap.
  refine ⟨?_, fun l k hlo hhi hk => ?_⟩
  · rw [superBlockOf, ideWrite_outside (by omega), ideWrite_outside (by omega),
      ideWrite_outside (by omega), ideWrite_outside (by omega)]
    have hcopy : ∀ k < 52, ideWrite disk (startLba + 1)
        (storeSuperBlock pad (formatSuperBlock startLba secCnt)) 0 1 (startLba + 1) k
          = storeSuperBlock pad (formatSuperBlock startLba secCnt) k := by
      intro k hk
      rw [ideWrite_one (show k < 512 by omega), Nat.zero_add]
    rw [loadSuperBlock_congr hcopy]
    exact loadSuperBlock_store _ (formatSuperBlock_words (by omega) (by omega))
  · rw [ideWrite_outside (by omega), ideWrite_outside (by omega), ideWrite_outside (by omega)]
    exact ideWrite_at hlo hhi hk

/-- The clear bits on the disk after a format. -/
theorem partitionFormat_bit (hi : i < blockBitmapSects secCnt * 4096) :
    bitOnDisk disk' (startLba + 2) i = false ↔
      i ≤ blockBitmapBitLen secCnt ∧ (i = 0 → blockBitmapBitLen secCnt < 8) := by
  obtain ⟨hlen, hsects, hdata⟩ := partitionFormat_sizes hsize hend hok
  obtain ⟨-, hsector⟩ := partitionFormat_ok hsize hend hok
  have hbyte : i % 4096 / 8 < 512 := by omega
  have hplace : (startLba + 2 + i / 4096 - (startLba + 2)) * 512 + i % 4096 / 8 = i / 8 := by omega
  have hdisk := hsector (startLba + 2 + i / 4096) (i % 4096 / 8) (by omega) (by omega) hbyte
  rw [show SECTOR_SIZE = 512 from rfl, hplace] at hdisk
  rw [bitOnDisk, show BITS_PER_SECTOR = 4096 from rfl, hdisk]
  have hsize' : i / 8 < blockBitmapSects secCnt * 512 := by omega
  refine formatBlockBitmap_bit (fun k hk => ?_) hsize' ?_
  · refine if_pos ⟨Nat.zero_le k, Nat.lt_of_lt_of_le hk ?_⟩
    rw [Nat.zero_add]
    exact Nat.mul_le_mul_right 512 (Nat.le_trans (Nat.le_max_left _ _) (Nat.le_max_left _ _))
  · show i / 8 < blockBitmapBitLen secCnt / 8 + (512 - blockBitmapBitLen secCnt / 8 % 512)
    omega

end

/-- Allocations from a bitmap that is clear only below `bitLen` stay in the data area. -/
theorem allocBlocks_inside {currents : List Tid} {bmap : Bitmap} {lbas : List Nat}
    (hclear : ∀ idx < 8 * bmap.byteSize, bmap.bit idx = false → idx < bitLen)
    (hfit : sb.dataStartLba + bitLen ≤ 2 ^ 32)
    (hrun : allocBlocks sb currents disk bmap = .ok lbas) :
    ∀ lba ∈ lbas, sb.dataStartLba ≤ lba ∧ lba < sb.dataStartLba + bitLen := by
  induction currents generalizing disk bmap lbas with
  | nil =>
      cases hrun
      exact fun lba hlba => absurd hlba List.not_mem_nil
  | cons current rest ih =>
      simp only [allocBlocks, bind_eq_ok, pure_eq_ok] at hrun
      obtain ⟨⟨first, disk₁, bmap₁⟩, halloc, lbas₁, hrest, heq⟩ := hrun
      cases heq
      obtain ⟨idx, hlt, hbit, -, hfirst, hbytes, hbits, -⟩ := blockBimapAlloc_ok halloc
      have hidx : idx < bitLen := hclear idx hlt hbit
      rw [Nat.mod_eq_of_lt (by omega)] at hfirst
      -- A bit that is clear afterwards was clear before.
      have hclear₁ : ∀ j < 8 * bmap₁.byteSize, bmap₁.bit j = false → j < bitLen := by
        intro j hj hfree
        rw [hbits] at hfree
        split at hfree
        · cases hfree
        · exact hclear j (hbytes ▸ hj) hfree
      intro lba hlba
      rcases List.mem_cons.mp hlba with rfl | hmem
      · omega
      · exact ih hclear₁ hrest lba hmem

/-- The block bitmap of a new file system is right exactly when it fills its last sector. Otherwise
the loop frees one bit too many behind the last block, unless the byte lies behind what is
written. -/
theorem partitionFormat_bitmap_iff (hsize : usedSects + 2 ≤ secCnt)
    (hend : startLba + secCnt < 2 ^ 32)
    (hok : partitionFormat disk startLba secCnt pad heap = .ok disk') :
    FreshBitmap disk' startLba secCnt ↔ blockBitmapBitLen secCnt % BITS_PER_SECTOR = 0 := by
  obtain ⟨hlen, hsects, hdata⟩ := partitionFormat_sizes hsize hend hok
  obtain ⟨hsuper, -⟩ := partitionFormat_ok hsize hend hok
  have hbit := fun i => partitionFormat_bit (i := i) hsize hend hok
  rw [usedSects_eq] at hsize
  have harea : startLba + 515 + blockBitmapSects secCnt < 2 ^ 32 := by omega
  obtain ⟨hbitmap, -, -, hstart⟩ := formatSuperBlock_eq harea
  have hblocks : (formatSuperBlock startLba secCnt).blockBitmapSects
      = blockBitmapSects secCnt := rfl
  constructor
  · intro h
    show blockBitmapBitLen secCnt % 4096 = 0
    by_contra hne
    -- The bit behind the last block is in the bitmap, and it is clear.
    have hin : blockBitmapBitLen secCnt < blockBitmapSects secCnt * 4096 := by omega
    have hclear := (hbit _ hin).mpr ⟨Nat.le_refl _, by omega⟩
    exact absurd ((h.exact (blockBitmapBitLen secCnt)).mp ⟨hin, hbitmap ▸ hclear⟩).2
      (Nat.lt_irrefl _)
  · intro hfull
    have hfull' : blockBitmapBitLen secCnt % 4096 = 0 := hfull
    have hexact : ∀ i, (i < blockBitmapSects secCnt * 4096 ∧
        bitOnDisk disk' (startLba + 2) i = false) ↔ 1 ≤ i ∧ i < blockBitmapBitLen secCnt := by
      intro i
      constructor
      · rintro ⟨hi, hfree⟩
        have hle := (hbit i hi).mp hfree
        omega
      · rintro ⟨hpos, hlt⟩
        have hi : i < blockBitmapSects secCnt * 4096 := by omega
        exact ⟨hi, (hbit i hi).mpr ⟨by omega, by omega⟩⟩
    refine ⟨fun i => ?_, fun m blockBits inodeBits currents lbas hm hrun lba hlba => ?_⟩
    · rw [hblocks, hbitmap]
      exact hexact i
    · subst hm
      have hsb : (mountPartition m startLba blockBits inodeBits).part.sb
          = (formatSuperBlock startLba secCnt).toSuperBlock := loadSuperBlock_ideRead.trans hsuper
      have hbits : (mountPartition m startLba blockBits inodeBits).part.blockBitmap
          = loadBitmap m.disk m.part.blockBitmap blockBits (startLba + 2)
              (blockBitmapSects secCnt) := by
        rw [mountPartition]
        dsimp only
        rw [loadSuperBlock_ideRead, hsuper, hbitmap]
        rfl
      rw [hsb, hbits] at hrun
      have hclear : ∀ idx < 8 * (blockBitmapSects secCnt * SECTOR_SIZE),
          (loadBitmap m.disk m.part.blockBitmap blockBits (startLba + 2)
            (blockBitmapSects secCnt)).bit idx = false → idx < blockBitmapBitLen secCnt := by
        intro idx hidx hfree
        have hidx' : idx < 8 * (blockBitmapSects secCnt * 512) := hidx
        rw [loadBitmap_bit _ (by omega)] at hfree
        exact ((hexact idx).mp ⟨by omega, hfree⟩).2
      have hin := allocBlocks_inside hclear (by omega) hrun lba hlba
      omega

/-- The format of a small partition returns. -/
theorem partitionFormat_600 : ∃ disk',
    partitionFormat (fun _ _ => 0) 63 600 (fun _ => 0) (fun _ => 0) = .ok disk' := ⟨_, rfl⟩

/-- A small partition, formatted. -/
theorem partitionFormat_bitmap_iff_600 : ∃ disk',
    partitionFormat (fun _ _ => 0) 63 600 (fun _ => 0) (fun _ => 0) = .ok disk' ∧
      (FreshBitmap disk' 63 600 ↔ blockBitmapBitLen 600 % BITS_PER_SECTOR = 0) := by
  obtain ⟨disk', hok⟩ := partitionFormat_600
  exact ⟨disk', hok, partitionFormat_bitmap_iff (by decide) (by decide) hok⟩

/-- The small partition has 84 blocks, and the bit of block 84 is clear. The loop that frees the
bits of the last byte runs one bit too far. -/
theorem partitionFormat_extra_block : ∃ disk',
    partitionFormat (fun _ _ => 0) 63 600 (fun _ => 0) (fun _ => 0) = .ok disk' ∧
      ¬FreshBitmap disk' 63 600 := by
  obtain ⟨disk', hok⟩ := partitionFormat_600
  refine ⟨disk', hok, fun h => ?_⟩
  have hclear : bitOnDisk disk' (63 + 2) 84 = false :=
    (partitionFormat_bit (by decide) (by decide) hok (by decide)).mpr (by decide)
  exact absurd ((h.exact 84).mp ⟨by decide, hclear⟩).2 (by decide)

end

end Fizzos.Proofs
