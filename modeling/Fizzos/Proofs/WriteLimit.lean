import Fizzos.Proofs.Files
import Fizzos.Proofs.SyncDisk
import Mathlib.Data.Finset.Card
import Mathlib.Data.Finset.Range

/-!
# `Fizzos.Proofs.WriteLimit`: which calls of `file_write` return

`file_write` leaves its loop with the data written or at the sector 140, and asserts that nothing is
left. The comment there says that the rest can be cut off.

A round takes a block when its sector is not there yet, and one more for the index block.
`blocksOf size` is what a file of this size has. Along the loop `blocksLeft` and the blocks of the
file have the same sum (`Budget`), so the bitmap must have a free block for each that is missing.

A partition can go on behind `MAX_LBA`, where `ide_read` and `ide_write` stop the kernel. A round
reads a new block at once, so only the free blocks up to there count. The blocks that the file has
must be on the disk where the call comes to them (`TouchesBlock`).
-/

set_option autoImplicit false

namespace Fizzos.Proofs

open Fizzos.Device
open Fizzos.Fs
open Fizzos.Kernel
open Fizzos.Lib
open Fizzos.LibKernel
open Fizzos.Support

/-! ### Free blocks -/

/-- The clear bits that `bitmap_sync` lets through, for blocks on the disk. -/
def clearBits (sb : SuperBlock) (bmap : Bitmap) : Finset Nat :=
  (Finset.range (SECTOR_SIZE * sb.blockBitmapSects)).filter fun i =>
    bmap.bit i = false ∧ sb.dataStartLba + i ≤ MAX_LBA

/-- The number of blocks that `block_bimap_alloc` can give out, and the disk has. -/
def blocksLeft (sb : SuperBlock) (bmap : Bitmap) : Nat := (clearBits sb bmap).card

section
variable {disk disk' : Disk} {sb : SuperBlock} {bmap bmap' : Bitmap} {lba idx : Nat} {current : Tid}

theorem mem_clearBits {i : Nat} :
    i ∈ clearBits sb bmap ↔ i / SECTOR_SIZE < sb.blockBitmapSects ∧ bmap.bit i = false ∧
      sb.dataStartLba + i ≤ MAX_LBA := by
  rw [clearBits, Finset.mem_filter, Finset.mem_range, Nat.div_lt_iff_lt_mul (by decide),
    Nat.mul_comm]

/-- A block bitmap between two calls. -/
structure BitmapReady (sb : SuperBlock) (bmap : Bitmap) : Prop where
  lock : bmap.lock = mutexLockInit
  byteSize : bmap.byteSize = sb.blockBitmapSects * SECTOR_SIZE

/-- `block_bimap_alloc` takes the least clear bit. -/
theorem blockBimapAlloc_eq (h : BitmapReady sb bmap) (hidx : bitmapScanIndex bmap = some idx)
    (hsects : idx / SECTOR_SIZE < sb.blockBitmapSects) (disk : Disk) (current : Tid) :
    ∃ disk', blockBimapAlloc disk sb bmap current
      = .ok ((sb.dataStartLba + idx) % 2 ^ 32, disk', Bitmap.set bmap idx true) := by
  have hlock : (Bitmap.set bmap idx true).lock = mutexLockInit := h.lock
  simp only [blockBimapAlloc, bitmapScanSet_eq h.lock, hidx, ok_bind, blockBitmapSync,
    bitmapWriteBack_eq hlock hsects]
  exact ⟨_, rfl⟩

/-- There is a free block. -/
theorem blockBimapAlloc_succeeds (h : BitmapReady sb bmap) (hfree : 0 < blocksLeft sb bmap)
    (disk : Disk) (current : Tid) :
    ∃ lba disk' bmap', blockBimapAlloc disk sb bmap current = .ok (lba, disk', bmap') ∧
      lba ≤ MAX_LBA := by
  have hbytes := h.byteSize
  obtain ⟨i, hi⟩ := Finset.card_pos.mp hfree
  obtain ⟨hsects, hclear, hlba⟩ := mem_clearBits.mp hi
  have hlt : i < 8 * bmap.byteSize := by
    rw [Nat.div_lt_iff_lt_mul (by decide)] at hsects
    omega
  cases hscan : bitmapScanIndex bmap with
  | none =>
      rw [bitmapScanIndex_eq_none hscan i hlt] at hclear
      cases hclear
  | some idx =>
      obtain ⟨-, -, hbelow⟩ := bitmapScanIndex_eq_some hscan
      have hle : idx ≤ i := by
        refine Nat.le_of_not_lt fun hgt => ?_
        rw [hbelow i hgt] at hclear
        cases hclear
      obtain ⟨disk', hok⟩ := blockBimapAlloc_eq h hscan
        (Nat.lt_of_le_of_lt (Nat.div_le_div_right hle) hsects) disk current
      exact ⟨_, _, _, hok, (Nat.mod_le _ _).trans (by omega)⟩

/-- The bitmap behind an allocation. -/
theorem blockBimapAlloc_ready (h : BitmapReady sb bmap)
    (hok : blockBimapAlloc disk sb bmap current = .ok (lba, disk', bmap')) :
    BitmapReady sb bmap' := by
  obtain ⟨-, -, -, -, -, hsize, -⟩ := blockBimapAlloc_ok hok
  refine ⟨?_, hsize.trans h.byteSize⟩
  cases hscan : bitmapScanIndex bmap with
  | none =>
      rw [blockBimapAlloc, bitmapScanSet_eq h.lock, hscan] at hok
      cases hok
  | some idx' =>
      have hsects' : idx' / SECTOR_SIZE < sb.blockBitmapSects := by
        by_contra hge
        simp only [blockBimapAlloc, bitmapScanSet_eq h.lock, hscan, ok_bind, blockBitmapSync,
          bitmapWriteBack, ASSERT_false hge] at hok
        cases hok
      obtain ⟨disk'', hok'⟩ := blockBimapAlloc_eq h hscan hsects' disk current
      rw [hok'] at hok
      cases hok
      exact h.lock

/-- An allocation of a block that is on the disk takes one. -/
theorem blockBimapAlloc_spent (hfit : BitsFit sb bmap)
    (hok : blockBimapAlloc disk sb bmap current = .ok (lba, disk', bmap')) (hlba : lba ≤ MAX_LBA) :
    blocksLeft sb bmap = blocksLeft sb bmap' + 1 := by
  obtain ⟨idx, hidx, hclear, hsects, hnumber, -, hbits, -⟩ := blockBimapAlloc_ok hok
  rw [Nat.mod_eq_of_lt (hfit idx hidx hclear)] at hnumber
  have hmem : idx ∈ clearBits sb bmap := mem_clearBits.mpr ⟨hsects, hclear, by omega⟩
  have herase : clearBits sb bmap' = (clearBits sb bmap).erase idx := by
    ext j
    rw [Finset.mem_erase, mem_clearBits, mem_clearBits, hbits j]
    by_cases hj : j = idx
    · rw [if_pos hj]
      simp [hj]
    · rw [if_neg hj]
      simp [hj]
  rw [blocksLeft, blocksLeft, herase, Finset.card_erase_of_mem hmem]
  have hpos := Finset.card_pos.mpr ⟨idx, hmem⟩
  omega

end

/-! ### Blocks of a file -/

/-- The blocks of a file: its sectors, and the index block. -/
def blocksOf (size : Nat) : Nat := (size + 511) / 512 + if 512 * 12 < size then 1 else 0

theorem blocksOf_mono {a b : Nat} (h : a ≤ b) : blocksOf a ≤ blocksOf b := by
  unfold blocksOf
  split <;> split <;> omega

/-- A round at the sector `sec` takes the blocks by which the file grows. -/
theorem blocksOf_round (size : Nat) {start sec off count m : Nat} (hstart : start = 512 * sec + off)
    (hoff : off < 512) (hcount : 0 < count) (hm : m = min count (512 - off)) :
    blocksOf (max size (start + m)) = blocksOf (max size start) +
      (if sec = 12 ∧ ¬512 * 12 < max size start then 1 else 0) +
      (if 512 * sec < max size start then 0 else 1) := by
  unfold blocksOf
  split <;> split <;> split <;> split <;> omega

namespace WriteCursor

variable {c c' : WriteCursor} {sb : SuperBlock} {sec lba : Nat} {current : Tid}

/-- The first part of the body takes a block for the index block. -/
theorem openIndex_succeeds (current : Tid) (h : BitmapReady sb c.blockBitmap)
    (hold : sec = 12 → c.inode.iSectors 12 ≤ MAX_LBA)
    (hfree : (if sec = 12 ∧ c.inode.iSectors 12 = 0 then 1 else 0) ≤ blocksLeft sb c.blockBitmap) :
    ∃ c₁, (if sec = 12 then c.openIndex sb current else pure c) = .ok c₁ := by
  by_cases hsec : sec = 12
  · rw [if_pos hsec, WriteCursor.openIndex]
    by_cases hzero : c.inode.iSectors 12 = 0
    · rw [if_pos ⟨hsec, hzero⟩] at hfree
      obtain ⟨lba, disk, bmap, halloc, hlba⟩ := blockBimapAlloc_succeeds h hfree c.disk current
      have hcheck : readCheck (Function.update c.inode.iSectors 12 lba 12) 1 = .ok () := by
        rw [Function.update_self]
        exact readCheck_le hlba
      simp only [if_pos hzero, WriteCursor.allocBlock, halloc, ok_bind, pure_eq_ok,
        WriteCursor.setSector, hcheck]
      exact ⟨_, rfl⟩
    · rw [if_neg hzero, readCheck_le (hold hsec), ok_bind]
      exact ⟨_, rfl⟩
  · rw [if_neg hsec]
    exact ⟨c, rfl⟩

theorem openIndex_spent (h : BitmapReady sb c.blockBitmap) (hfit : BitsFit sb c.blockBitmap)
    (hok : (if sec = 12 then c.openIndex sb current else pure c) = .ok c') :
    BitmapReady sb c'.blockBitmap ∧ BitsFit sb c'.blockBitmap ∧
      blocksLeft sb c.blockBitmap = blocksLeft sb c'.blockBitmap +
        (if sec = 12 ∧ c.inode.iSectors 12 = 0 then 1 else 0) := by
  by_cases hsec : sec = 12
  · rw [if_pos hsec, WriteCursor.openIndex] at hok
    by_cases hzero : c.inode.iSectors 12 = 0
    · rw [if_pos hzero] at hok
      simp only [WriteCursor.allocBlock, bind_eq_ok, pure_eq_ok] at hok
      obtain ⟨⟨lba, c₁⟩, ⟨⟨lba', disk', bmap'⟩, halloc, hres⟩, _, hcheck, hok⟩ := hok
      cases hres
      cases hok
      -- the new block is read at once
      have hlba : Function.update c.inode.iSectors 12 lba' 12 ≤ MAX_LBA := readCheck_one.mp hcheck
      rw [Function.update_self] at hlba
      rw [if_pos ⟨hsec, hzero⟩]
      exact ⟨blockBimapAlloc_ready h halloc, (blockBimapAlloc_free hfit halloc).2.2.1.bitsFit hfit,
        blockBimapAlloc_spent hfit halloc hlba⟩
    · rw [if_neg hzero] at hok
      obtain ⟨-, -, hok⟩ := bind_eq_ok.mp hok
      cases hok
      rw [if_neg fun hboth => hzero hboth.2]
      exact ⟨h, hfit, rfl⟩
  · rw [if_neg hsec] at hok
    cases hok
    rw [if_neg fun hboth => hsec hboth.1]
    exact ⟨h, hfit, rfl⟩

/-- At sector 12 the index block is read. -/
theorem openIndex_onDisk (hok : c.openIndex sb current = .ok c') :
    c.inode.iSectors 12 ≤ MAX_LBA ∧ c'.inode.iSectors 12 ≤ MAX_LBA := by
  rw [WriteCursor.openIndex] at hok
  by_cases hzero : c.inode.iSectors 12 = 0
  · rw [if_pos hzero] at hok
    obtain ⟨⟨lba, c₁⟩, -, hok⟩ := bind_eq_ok.mp hok
    obtain ⟨_, hcheck, hok⟩ := bind_eq_ok.mp hok
    cases hok
    rw [hzero]
    exact ⟨Nat.zero_le _, readCheck_one.mp hcheck⟩
  · rw [if_neg hzero] at hok
    obtain ⟨_, hcheck, hok⟩ := bind_eq_ok.mp hok
    cases hok
    exact ⟨readCheck_one.mp hcheck, readCheck_one.mp hcheck⟩

/-- From sector 12 on the number of a new sector goes to `io_buf`. -/
theorem openSector_inode (hsec : 12 ≤ sec) (hok : c.openSector sb sec current = .ok c') :
    c'.inode = c.inode := by
  rw [WriteCursor.openSector] at hok
  split at hok
  next =>
    simp only [WriteCursor.allocBlock, bind_eq_ok, pure_eq_ok] at hok
    obtain ⟨_, ⟨_, -, hres⟩, hok⟩ := hok
    cases hres
    cases hok
    rw [WriteCursor.setNextLba, if_neg (Nat.not_lt.mpr hsec)]
  next =>
    cases hok
    rfl

/-- The second part takes a block for the sector. -/
theorem openSector_succeeds (current : Tid) (h : BitmapReady sb c.blockBitmap)
    (hold : nextLba c.inode c.ioBuf sec ≤ MAX_LBA)
    (hfree : (if nextLba c.inode c.ioBuf sec = 0 then 1 else 0) ≤ blocksLeft sb c.blockBitmap) :
    ∃ c₁, c.openSector sb sec current = .ok c₁ ∧ nextLba c₁.inode c₁.ioBuf sec ≤ MAX_LBA := by
  rw [WriteCursor.openSector]
  by_cases hzero : nextLba c.inode c.ioBuf sec = 0
  · rw [if_pos hzero] at hfree ⊢
    obtain ⟨lba, disk, bmap, halloc, hlba⟩ := blockBimapAlloc_succeeds h hfree c.disk current
    simp only [WriteCursor.allocBlock, halloc, ok_bind]
    refine ⟨_, rfl, ?_⟩
    rw [nextLba_set (Nat.lt_of_le_of_lt hlba (by decide))]
    exact hlba
  · rw [if_neg hzero]
    exact ⟨c, rfl, hold⟩

theorem openSector_spent (h : BitmapReady sb c.blockBitmap) (hfit : BitsFit sb c.blockBitmap)
    (hok : c.openSector sb sec current = .ok c')
    (hdisk : nextLba c'.inode c'.ioBuf sec ≤ MAX_LBA) :
    BitmapReady sb c'.blockBitmap ∧ BitsFit sb c'.blockBitmap ∧
      blocksLeft sb c.blockBitmap = blocksLeft sb c'.blockBitmap +
      (if nextLba c.inode c.ioBuf sec = 0 then 1 else 0) := by
  rw [WriteCursor.openSector] at hok
  by_cases hzero : nextLba c.inode c.ioBuf sec = 0
  · rw [if_pos hzero] at hok ⊢
    simp only [WriteCursor.allocBlock, bind_eq_ok, pure_eq_ok] at hok
    obtain ⟨⟨lba, c₁⟩, ⟨⟨lba', disk', bmap'⟩, halloc, hres⟩, hok⟩ := hok
    cases hres
    cases hok
    obtain ⟨-, hbitmap, -⟩ := setNextLba_frame (WriteCursor.mk disk' bmap' c.inode c.ioBuf
      (c.isSyncSecond || decide (sec > 12)) c.count c.src c.offset) sec lba'
    obtain ⟨idx, -, -, -, hlba, -⟩ := blockBimapAlloc_ok halloc
    rw [nextLba_set (hlba ▸ Nat.mod_lt _ (by decide))] at hdisk
    dsimp only at hbitmap ⊢
    rw [hbitmap]
    exact ⟨blockBimapAlloc_ready h halloc, (blockBimapAlloc_free hfit halloc).2.2.1.bitsFit hfit,
      blockBimapAlloc_spent hfit halloc hdisk⟩
  · rw [if_neg hzero] at hok ⊢
    cases hok
    exact ⟨h, hfit, rfl⟩

/-- The rest of the body takes no block. -/
theorem writeSector_succeeds (src : Bytes) (hne : nextLba c.inode c.ioBuf sec ≠ 0)
    (hdisk : nextLba c.inode c.ioBuf sec ≤ MAX_LBA) (hoffset : c.offset < 512) :
    ∃ c', c.writeSector src sec = .ok c' := by
  have hsize : SECTOR_SIZE = 512 := rfl
  obtain ⟨n, hn⟩ : ∃ n, n = min c.count (SECTOR_SIZE - c.offset) := ⟨_, rfl⟩
  have hsame : nextLba c.inode (copyBytes (ideRead c.disk (nextLba c.inode c.ioBuf sec) c.ioBuf 0 1)
      c.offset src c.src n) sec = nextLba c.inode c.ioBuf sec := nextLba_copy (by omega)
  rw [hn] at hsame
  rw [WriteCursor.writeSector, ASSERT_true hne, ok_bind, readCheck_le hdisk, ok_bind]
  dsimp only
  rw [hsame, writeCheck_le hdisk, ok_bind]
  exact ⟨_, rfl⟩

theorem writeSector_onDisk {src : Bytes} (hok : c.writeSector src sec = .ok c') :
    c'.inode = c.inode ∧ c'.blockBitmap = c.blockBitmap ∧
      nextLba c.inode c.ioBuf sec ≤ MAX_LBA := by
  simp only [WriteCursor.writeSector, bind_eq_ok, pure_eq_ok, readCheck_one] at hok
  obtain ⟨-, -, _, hdisk, -, -, hok⟩ := hok
  cases hok
  exact ⟨rfl, rfl, hdisk⟩

end WriteCursor

/-! ### The loop -/

/-- The blocks that a call comes to: the sectors from the position on, and the index block for those
from sector 12 on. -/
def TouchesBlock (pos count j : Nat) : Prop :=
  if j = INDEX then 12 < pos / 512 ∨ (0 < count ∧ 512 * 12 < pos + count)
  else 0 < count ∧ pos / 512 ≤ j ∧ 512 * j < pos + count

/-- The free blocks and the blocks of the file have the sum that they had at the start. Behind
sector 12 the index block is on the disk. -/
structure Budget (s : FileSys) (size pos sec : Nat) (c : WriteCursor) : Prop where
  ready : BitmapReady s.part.sb c.blockBitmap
  bits : BitsFit s.part.sb c.blockBitmap
  sum : blocksLeft s.part.sb c.blockBitmap + blocksOf (max size (pos + c.src))
    = blocksLeft s.part.sb s.part.blockBitmap + blocksOf size
  index : 12 < sec → c.inode.iSectors 12 ≤ MAX_LBA

namespace WriteInv

variable {s : FileSys} {i₀ : Inode} {pos total sec n : Nat} {src : Bytes} {c c₁ c' : WriteCursor}
  {current : Tid}

/-- Whether the first part of the body takes a block. -/
theorem newIndex_eq (h : WriteInv s i₀ pos total src sec c) :
    (if sec = 12 ∧ c.inode.iSectors 12 = 0 then 1 else 0)
      = if sec = 12 ∧ ¬512 * 12 < max i₀.iSize (pos + c.src) then 1 else 0 := by
  have hindex := h.index
  rw [cursorBlock_index] at hindex
  have hzero : c.inode.iSectors 12 = 0 ↔ ¬512 * 12 < max i₀.iSize (pos + c.src) :=
    ⟨fun hzero hlt => hindex.mpr hlt hzero, fun hshort =>
      Classical.not_not.mp (mt hindex.mp hshort)⟩
  exact if_congr (and_congr_right fun _ => hzero) rfl rfl

/-- Whether the second part does. -/
theorem newSector_eq (h : WriteInv s i₀ pos total src sec c) (hlayout : LayoutOk s.part)
    (hfit : BitsFit s.part.sb s.part.blockBitmap) (hsec : sec < INDEX)
    (hok : (if sec = 12 then c.openIndex s.part.sb current else pure c) = .ok c₁) :
    (if nextLba c₁.inode c₁.ioBuf sec = 0 then 1 else 0)
      = if 512 * sec < max i₀.iSize (pos + c.src) then 0 else 1 := by
  obtain ⟨-, -, htable, -⟩ := h.openIndex hlayout hfit hok
  have hloaded : 12 ≤ sec → decide (12 < sec + 1) = true := fun hle => decide_eq_true (by omega)
  have hsector := h.sectors sec hsec
  rw [nextLba_eq hsec hloaded, htable sec hsec]
  by_cases hthere : 512 * sec < max i₀.iSize (pos + c.src)
  · rw [if_pos hthere, if_neg (hsector.mpr hthere)]
  · rw [if_neg hthere, if_pos (Classical.not_not.mp (mt hsector.mp hthere))]

/-- A sector that is there is the one from the start. -/
theorem nextLba_start (h : WriteInv s i₀ pos total src sec c) (hlayout : LayoutOk s.part)
    (hfit : BitsFit s.part.sb s.part.blockBitmap) (hsec : sec < INDEX)
    (hok : (if sec = 12 then c.openIndex s.part.sb current else pure c) = .ok c₁) :
    nextLba c₁.inode c₁.ioBuf sec = blockOf s.disk i₀ sec := by
  obtain ⟨-, -, htable, -⟩ := h.openIndex hlayout hfit hok
  have hloaded : 12 ≤ sec → decide (12 < sec + 1) = true := fun hle => decide_eq_true (by omega)
  rw [nextLba_eq hsec hloaded, htable sec hsec, h.ahead sec hsec (Nat.le_refl sec)]

/-- A round that returns comes to blocks that are on the disk. -/
theorem step_onDisk (h : WriteInv s i₀ pos total src sec c) (hlayout : LayoutOk s.part)
    (hfit : BitsFit s.part.sb s.part.blockBitmap) (hsec : sec < INDEX)
    (hok : c.step s.part.sb src sec current = .ok c') :
    blockOf s.disk i₀ sec ≤ MAX_LBA ∧ (sec = 12 → blockOf s.disk i₀ INDEX ≤ MAX_LBA) := by
  obtain ⟨c₁, c₂, hopen, hsector, hwrite⟩ := step_ok hok
  obtain ⟨-, -, hdisk⟩ := WriteCursor.writeSector_onDisk hwrite
  have hstart := h.nextLba_start hlayout hfit hsec hopen
  constructor
  · by_cases hzero : nextLba c₁.inode c₁.ioBuf sec = 0
    · rw [← hstart, hzero]
      exact Nat.zero_le _
    · rw [WriteCursor.openSector, if_neg hzero] at hsector
      cases hsector
      rwa [← hstart]
  · rintro rfl
    rw [if_pos rfl] at hopen
    rw [← h.aheadIndex (Nat.le_refl 12), cursorBlock_index]
    exact (WriteCursor.openIndex_onDisk hopen).1

/-- The bytes of a round. -/
theorem step_src (h : WriteInv s i₀ pos total src sec c) (hlayout : LayoutOk s.part)
    (hfit : BitsFit s.part.sb s.part.blockBitmap) (hsec : sec < INDEX)
    (hok : c.step s.part.sb src sec current = .ok c') :
    c'.src = c.src + min c.count (512 - c.offset) := by
  obtain ⟨c₁, c₂, hopen, hsector, hwrite⟩ := step_ok hok
  obtain ⟨hstage₁, hplace₁, -⟩ := h.openIndex hlayout hfit hopen
  have hloaded : 12 ≤ sec → decide (12 < sec + 1) = true := fun hle => decide_eq_true (by omega)
  obtain ⟨-, hplace₂, -⟩ := hstage₁.openSector hlayout hfit hsec hloaded hsector
  have hplace := hplace₁.trans hplace₂
  simp only [WriteCursor.writeSector, bind_eq_ok, pure_eq_ok] at hwrite
  obtain ⟨-, -, -, -, -, -, hwrite⟩ := hwrite
  cases hwrite
  dsimp only
  rw [hplace.src, hplace.count, hplace.offset]
  rfl

/-- A round that returns has paid for its blocks. -/
theorem step_budget (h : WriteInv s i₀ pos total src sec c) (hlayout : LayoutOk s.part)
    (hfit : BitsFit s.part.sb s.part.blockBitmap) (hbudget : Budget s i₀.iSize pos sec c)
    (hcount : 0 < c.count) (hsec : sec < INDEX) (hok : c.step s.part.sb src sec current = .ok c') :
    Budget s i₀.iSize pos (sec + 1) c' := by
  obtain ⟨c₁, c₂, hopen, hsector, hwrite⟩ := step_ok hok
  obtain ⟨hinode, hbitmap, hdisk⟩ := WriteCursor.writeSector_onDisk hwrite
  obtain ⟨hready₁, hbits₁, hfree₁⟩ :=
    WriteCursor.openIndex_spent hbudget.ready hbudget.bits hopen
  obtain ⟨hready₂, hbits₂, hfree₂⟩ := WriteCursor.openSector_spent hready₁ hbits₁ hsector hdisk
  rw [h.newIndex_eq] at hfree₁
  rw [h.newSector_eq hlayout hfit hsec hopen] at hfree₂
  have hround := blocksOf_round i₀.iSize (h.place (Nat.ne_of_gt hcount)) h.offset hcount rfl
  have hsum := hbudget.sum
  rw [Nat.add_assoc, ← h.step_src hlayout hfit hsec hok] at hround
  refine ⟨hbitmap ▸ hready₂, hbitmap ▸ hbits₂, ?_, fun hgt => ?_⟩
  · rw [hbitmap, hround]
    omega
  · have hle : 12 ≤ sec := Nat.le_of_lt_succ hgt
    rw [hinode, WriteCursor.openSector_inode hle hsector]
    by_cases h12 : sec = 12
    · rw [if_pos h12] at hopen
      exact (WriteCursor.openIndex_onDisk hopen).2
    · rw [if_neg h12] at hopen
      cases hopen
      exact hbudget.index (by omega)

/-- There are blocks enough for a round. -/
theorem step_succeeds (h : WriteInv s i₀ pos total src sec c) (hlayout : LayoutOk s.part)
    (hfit : BitsFit s.part.sb s.part.blockBitmap) (hbudget : Budget s i₀.iSize pos sec c)
    (hcount : 0 < c.count) (hsec : sec < INDEX) (hold : blockOf s.disk i₀ sec ≤ MAX_LBA)
    (holdIndex : sec = 12 → blockOf s.disk i₀ INDEX ≤ MAX_LBA)
    (hroom : blocksOf (max i₀.iSize (pos + total))
      ≤ blocksLeft s.part.sb s.part.blockBitmap + blocksOf i₀.iSize) :
    ∃ c', c.step s.part.sb src sec current = .ok c' := by
  have hround := blocksOf_round i₀.iSize (h.place (Nat.ne_of_gt hcount)) h.offset hcount rfl
  have htotal := h.total
  have hmono : blocksOf (max i₀.iSize (pos + c.src + min c.count (512 - c.offset)))
      ≤ blocksOf (max i₀.iSize (pos + total)) := blocksOf_mono (by omega)
  have hsum := hbudget.sum
  have hindex : sec = 12 → c.inode.iSectors 12 ≤ MAX_LBA := by
    intro hsec12
    have hblock := h.aheadIndex (Nat.le_of_eq hsec12)
    rw [cursorBlock_index] at hblock
    exact hblock ▸ holdIndex hsec12
  -- The three parts of a round, each with what the one before it has left of the blocks.
  obtain ⟨c₁, hopen⟩ := WriteCursor.openIndex_succeeds current hbudget.ready hindex
      (by rw [h.newIndex_eq]; omega)
  obtain ⟨hready₁, -, hfree₁⟩ := WriteCursor.openIndex_spent hbudget.ready hbudget.bits hopen
  have hnew := h.newSector_eq hlayout hfit hsec hopen
  rw [h.newIndex_eq] at hfree₁
  obtain ⟨c₂, hsector, hdisk⟩ := WriteCursor.openSector_succeeds current hready₁
    (h.nextLba_start hlayout hfit hsec hopen ▸ hold) (by rw [hnew]; omega)
  obtain ⟨hstage₁, hplace₁, -⟩ := h.openIndex hlayout hfit hopen
  have hloaded : 12 ≤ sec → decide (12 < sec + 1) = true := fun hle => decide_eq_true (by omega)
  obtain ⟨-, hplace₂, hne, -⟩ := hstage₁.openSector hlayout hfit hsec hloaded hsector
  rw [← nextLba_eq hsec hloaded] at hne
  obtain ⟨c', hwrite⟩ := WriteCursor.writeSector_succeeds src hne hdisk
    ((hplace₁.trans hplace₂).offset.symm ▸ h.offset)
  refine ⟨c', ?_⟩
  rw [WriteCursor.step]
  by_cases h12 : sec = 12
  · rw [if_pos h12] at hopen ⊢
    rw [hopen, ok_bind]
    dsimp only
    rw [hsector, ok_bind, hwrite]
  · rw [if_neg h12] at hopen ⊢
    rw [hopen, ok_bind]
    dsimp only
    rw [hsector, ok_bind, hwrite]

/-- A loop that returns has paid, and stays below the last sector. -/
theorem loop_budget (hlayout : LayoutOk s.part) (hfit : BitsFit s.part.sb s.part.blockBitmap)
    (n : Nat) (h : WriteInv s i₀ pos total src sec c) (hbudget : Budget s i₀.iSize pos sec c)
    (hsec : sec + n = INDEX ∨ n = 0) (hroom : pos + c.src ≤ 512 * INDEX)
    (hok : writeLoop s.part.sb src current (List.range' sec n) c = .ok c') :
    ∃ last, Budget s i₀.iSize pos last c' ∧ pos + c'.src ≤ 512 * INDEX := by
  induction n generalizing sec c with
  | zero =>
      cases hok
      exact ⟨sec, hbudget, hroom⟩
  | succ n ih =>
      rw [List.range'_succ, writeLoop] at hok
      by_cases hcount : c.count > 0
      · rw [if_pos hcount] at hok
        obtain ⟨c₁, hstep, hrest⟩ := bind_eq_ok.mp hok
        have hlt : sec < INDEX := by omega
        have hround := h.step hlayout hfit (Nat.ne_of_gt hcount) hlt hstep
        have hsrc := h.step_src hlayout hfit hlt hstep
        have hplace := h.place (Nat.ne_of_gt hcount)
        have hindex : INDEX = 140 := rfl
        exact ih hround (h.step_budget hlayout hfit hbudget hcount hlt hstep) (by omega)
          (by omega) hrest
      · rw [if_neg hcount] at hok
        cases hok
        exact ⟨sec, hbudget, hroom⟩

/-- A loop that writes all of the data comes to blocks that are on the disk. -/
theorem loop_onDisk (hlayout : LayoutOk s.part) (hfit : BitsFit s.part.sb s.part.blockBitmap)
    (n : Nat) (h : WriteInv s i₀ pos total src sec c) (hsec : sec + n = INDEX ∨ n = 0)
    (hcount : 0 < c.count)
    (hok : writeLoop s.part.sb src current (List.range' sec n) c = .ok c') (hend : c'.count = 0) :
    ∀ j, sec ≤ j → 512 * j < pos + total →
      blockOf s.disk i₀ j ≤ MAX_LBA ∧ (j = 12 → blockOf s.disk i₀ INDEX ≤ MAX_LBA) := by
  induction n generalizing sec c with
  | zero =>
      cases hok
      omega
  | succ n ih =>
      intro j hj hlt
      rw [List.range'_succ, writeLoop, if_pos hcount] at hok
      obtain ⟨c₁, hstep, hrest⟩ := bind_eq_ok.mp hok
      have hsec' : sec < INDEX := by omega
      have hround := h.step hlayout hfit (Nat.ne_of_gt hcount) hsec' hstep
      by_cases hjs : j = sec
      · rw [hjs]
        exact h.step_onDisk hlayout hfit hsec' hstep
      · have hplace := h.place (Nat.ne_of_gt hcount)
        have hoffset := h.offset
        have hsrc := h.step_src hlayout hfit hsec' hstep
        have htotal := hround.total
        -- there is data left for the sectors behind this one
        have hmore : 0 < c₁.count := by omega
        exact ih hround (by omega) hmore hrest j (by omega) hlt

/-- The loop writes all of the data when there are sectors and blocks for it. -/
theorem loop_succeeds (hlayout : LayoutOk s.part) (hfit : BitsFit s.part.sb s.part.blockBitmap)
    (n : Nat) (h : WriteInv s i₀ pos total src sec c) (hbudget : Budget s i₀.iSize pos sec c)
    (hsec : sec + n = INDEX) (hfits : pos + total ≤ 512 * INDEX)
    (hold : ∀ j < BLOCKS, TouchesBlock pos total j → blockOf s.disk i₀ j ≤ MAX_LBA)
    (hroom : blocksOf (max i₀.iSize (pos + total))
      ≤ blocksLeft s.part.sb s.part.blockBitmap + blocksOf i₀.iSize) :
    ∃ c', writeLoop s.part.sb src current (List.range' sec n) c = .ok c' ∧ c'.count = 0 ∧
      (c'.isSyncSecond = true → c'.inode.iSectors 12 ≤ MAX_LBA) := by
  have hsecond : ∀ {sec : Nat} {c : WriteCursor}, WriteInv s i₀ pos total src sec c →
      Budget s i₀.iSize pos sec c → c.isSyncSecond = true → c.inode.iSectors 12 ≤ MAX_LBA := by
    intro sec c h hbudget hsync
    refine hbudget.index (Nat.lt_of_not_le fun hle => ?_)
    rw [h.early hle] at hsync
    cases hsync
  induction n generalizing sec c with
  | zero =>
      refine ⟨c, rfl, ?_, hsecond h hbudget⟩
      -- the position is behind the last sector, and all the data is in front of it
      by_contra hne
      have hplace := h.place hne
      have htotal := h.total
      omega
  | succ n ih =>
      rw [List.range'_succ, writeLoop]
      by_cases hcount : c.count > 0
      · rw [if_pos hcount]
        have hlt : sec < INDEX := by omega
        have hplace := h.place (Nat.ne_of_gt hcount)
        have hoffset := h.offset
        have htotal := h.total
        have hindex : INDEX = 140 := rfl
        have hblocks : BLOCKS = 141 := rfl
        have htouches : TouchesBlock pos total sec := by
          rw [TouchesBlock, if_neg (Nat.ne_of_lt hlt)]
          omega
        have htouches' : sec = 12 → TouchesBlock pos total INDEX := by
          intro h12
          rw [TouchesBlock, if_pos rfl]
          exact .inr (by omega)
        obtain ⟨c₁, hstep⟩ : ∃ c₁, c.step s.part.sb src sec current = .ok c₁ :=
          h.step_succeeds hlayout hfit hbudget hcount hlt (hold sec (by omega) htouches)
            (fun h12 => hold INDEX (by omega) (htouches' h12)) hroom
        rw [hstep, ok_bind]
        exact ih (h.step hlayout hfit (Nat.ne_of_gt hcount) hlt hstep)
          (h.step_budget hlayout hfit hbudget hcount hlt hstep) (by omega)
      · rw [if_neg hcount]
        exact ⟨c, rfl, by omega, hsecond h hbudget⟩

end WriteInv

/-! ### The call -/

/-- What the call owes to the file: it returns, with the part of the data that there is room for. -/
def WritesUpToLimit (s : FileSys) (p : Nat) (src : Bytes) (count pos : Nat) (ioBuf pad : Bytes)
    (current : Tid) : Prop :=
  ∃ ret pos' s', fileWrite s p src count pos ioBuf pad current = .ok (ret, pos', s') ∧
    ret = min count (MAX_FILE_SIZE - pos) ∧ pos' = pos + ret ∧ (s'.inode p).iSize ≤ MAX_FILE_SIZE ∧
    ∀ x < (s'.inode p).iSize, contentAt s'.disk (s'.inode p) x
      = if pos ≤ x ∧ x < pos + ret then src (x - pos) else contentAt s.disk (s.inode p) x

section
variable {s s' : FileSys} {files : List FileRef} {p pos count ret pos' : Nat}
  {src ioBuf pad : Bytes} {current : Tid}

theorem checkSecond_eq {c : WriteCursor}
    (h : c.isSyncSecond = true → c.inode.iSectors 12 ≤ MAX_LBA) : c.checkSecond = .ok () := by
  rw [WriteCursor.checkSecond]
  split
  next hsync => exact writeCheck_le (h hsync)
  next => rfl

/-- A call that starts behind sector 12 reads the index block. -/
theorem fileWrite_readsIndex (hlate : 12 < pos / 512)
    (hok : fileWrite s p src count pos ioBuf pad current = .ok (ret, pos', s')) :
    (s.inode p).iSectors 12 ≤ MAX_LBA := by
  rw [fileWrite] at hok
  dsimp only at hok
  have hlate' : pos / SECTOR_SIZE > 12 := hlate
  rw [if_pos hlate'] at hok
  simp only [bind_eq_ok, readCheck_one] at hok
  obtain ⟨-, -, _, hdisk, -⟩ := hok
  exact hdisk

/-- A call returns when its loop writes all of the data. -/
theorem fileWrite_of_loop (count : Nat) (src ioBuf pad : Bytes) (current : Tid)
    (hindex : 12 < pos / 512 → (s.inode p).iSectors 12 ≠ 0)
    (hdisk : 12 < pos / 512 → (s.inode p).iSectors 12 ≤ MAX_LBA) :
    ∃ c₀, c₀.disk = s.disk ∧ c₀.blockBitmap = s.part.blockBitmap ∧ c₀.inode = s.inode p ∧
      c₀.isSyncSecond = false ∧ c₀.count = count ∧ c₀.src = 0 ∧ c₀.offset = pos % 512 ∧
      (12 < pos / 512 → (s.inode p).iSectors 12 ≠ 0 ∧
        c₀.ioBuf = ideRead s.disk ((s.inode p).iSectors 12) ioBuf SECTOR_SIZE 1) ∧
      ∀ c, writeLoop s.part.sb src current
          (List.range' (pos / SECTOR_SIZE) (FILE_SECTORS - pos / SECTOR_SIZE)) c₀ = .ok c →
        c.count = 0 → (c.isSyncSecond = true → c.inode.iSectors 12 ≤ MAX_LBA) →
          ∃ r, fileWrite s p src count pos ioBuf pad current = .ok r := by
  -- Above sector 12 the call reads the index block before its loop.
  by_cases hlate : 12 < pos / 512
  · refine ⟨⟨s.disk, s.part.blockBitmap, s.inode p,
      ideRead s.disk ((s.inode p).iSectors 12) ioBuf SECTOR_SIZE 1, false, count, 0,
      pos % SECTOR_SIZE⟩,
      rfl, rfl, rfl, rfl, rfl, rfl, rfl, fun _ => ⟨hindex hlate, rfl⟩,
      fun c hloop hcount hsecond => ?_⟩
    have hlate' : pos / SECTOR_SIZE > 12 := hlate
    rw [fileWrite]
    dsimp only
    rw [if_pos hlate', ASSERT_true (hindex hlate), ok_bind, readCheck_le (hdisk hlate), ok_bind,
      pure_eq_ok, ok_bind]
    rw [hloop, ok_bind, ASSERT_true hcount, ok_bind, checkSecond_eq hsecond]
    exact ⟨_, rfl⟩
  · refine ⟨⟨s.disk, s.part.blockBitmap, s.inode p, ioBuf, false, count, 0, pos % SECTOR_SIZE⟩,
      rfl, rfl, rfl, rfl, rfl, rfl, rfl, fun hgt => absurd hgt hlate,
      fun c hloop hcount hsecond => ?_⟩
    have hlate' : ¬pos / SECTOR_SIZE > 12 := hlate
    rw [fileWrite]
    dsimp only
    rw [if_neg hlate', pure_eq_ok, ok_bind]
    rw [hloop, ok_bind, ASSERT_true hcount, ok_bind, checkSecond_eq hsecond]
    exact ⟨_, rfl⟩

section
variable (h : FilesOk s files) (hp : FileRef.open p ∈ files)
  (hlock : s.part.blockBitmap.lock = mutexLockInit) (hpos : pos ≤ (s.inode p).iSize)

include h hp hpos

theorem FilesOk.start {c : WriteCursor} (hdisk : c.disk = s.disk)
    (hbitmap : c.blockBitmap = s.part.blockBitmap) (hinode : c.inode = s.inode p)
    (hsync : c.isSyncSecond = false) (hcount : c.count = count) (hsrc : c.src = 0)
    (hoffset : c.offset = pos % 512)
    (hindex : 12 < pos / 512 → (s.inode p).iSectors 12 ≠ 0 ∧
      c.ioBuf = ideRead s.disk ((s.inode p).iSectors 12) ioBuf SECTOR_SIZE 1) :
    WriteInv s (s.inode p) pos count src (pos / 512) c := by
  refine WriteInv.start (h.allocated _ hp) (h.used _ hp) ?_ hpos hdisk hbitmap hinode hsync hcount
    hsrc hoffset hindex
  intro j hj k hk heq hne
  exact (h.apart _ hp _ hp j hj k hk heq hne).2

include hlock

omit hp in
theorem FilesOk.budget {c : WriteCursor} (hbitmap : c.blockBitmap = s.part.blockBitmap)
    (hsrc : c.src = 0) (hinode : c.inode = s.inode p)
    (hindex : 12 < pos / 512 → (s.inode p).iSectors 12 ≤ MAX_LBA) :
    Budget s (s.inode p).iSize pos (pos / 512) c := by
  refine ⟨hbitmap ▸ ⟨hlock, h.layout.bytes⟩, hbitmap ▸ h.bits, ?_, hinode ▸ hindex⟩
  rw [hbitmap, hsrc, Nat.add_zero, Nat.max_eq_left hpos]

/-- A call that returns had room in the file, and the blocks. -/
theorem fileWrite_needs
    (hok : fileWrite s p src count pos ioBuf pad current = .ok (ret, pos', s')) :
    pos + count ≤ MAX_FILE_SIZE ∧
    (∀ j < BLOCKS, TouchesBlock pos count j → blockOf s.disk (s.inode p) j ≤ MAX_LBA) ∧
    blocksOf (max (s.inode p).iSize (pos + count))
      ≤ blocksLeft s.part.sb s.part.blockBitmap + blocksOf (s.inode p).iSize := by
  obtain ⟨c₀, c, hdisk₀, hbitmap₀, hinode₀, hsync₀, hcount₀, hsrc₀, hoffset₀, hindex₀,
    hloop, hcount, -, -, -⟩ := fileWrite_ok hok
  have hsize := (h.allocated _ hp).size_le
  have hmax : MAX_FILE_SIZE = 512 * INDEX := rfl
  have hindex : INDEX = 140 := rfl
  have hsectors : pos / 512 + (FILE_SECTORS - pos / 512) = INDEX := by
    show pos / 512 + (140 - pos / 512) = 140
    have hle : pos ≤ 512 * 140 := Nat.le_trans hpos hsize
    omega
  have hstart : WriteInv s (s.inode p) pos count src (pos / 512) c₀ :=
    h.start hp hpos hdisk₀ hbitmap₀ hinode₀ hsync₀ hcount₀ hsrc₀ hoffset₀ hindex₀
  -- The invariant at the end of the loop says what has been written, the budget what it took.
  obtain ⟨last, hend⟩ := WriteInv.loop h.layout h.bits _ hstart (.inl hsectors) hloop
  have hfirst : pos + c₀.src ≤ 512 * INDEX := by
    rw [hsrc₀]
    exact Nat.le_trans hpos hsize
  obtain ⟨last', hbudget, hroom⟩ := hstart.loop_budget h.layout h.bits _
    (h.budget hlock hpos hbitmap₀ hsrc₀ hinode₀ fun hlate => fileWrite_readsIndex hlate hok)
    (.inl hsectors) hfirst hloop
  have hsrc : c.src = count := by
    have htotal := hend.total
    omega
  have hsum := hbudget.sum
  rw [hsrc] at hroom hsum
  refine ⟨by omega, fun j _ htouches => ?_, by omega⟩
  have hreach : 0 < count → ∀ j, pos / 512 ≤ j → 512 * j < pos + count →
      blockOf s.disk (s.inode p) j ≤ MAX_LBA ∧
        (j = 12 → blockOf s.disk (s.inode p) INDEX ≤ MAX_LBA) := fun hpositive =>
    hstart.loop_onDisk h.layout h.bits _ (.inl hsectors) (hcount₀.symm ▸ hpositive) hloop hcount
  rw [TouchesBlock] at htouches
  split at htouches
  next hj =>
    rw [hj]
    -- The index block is read by `file_write` itself above sector 12, and else by the round of
    -- sector 12.
    by_cases hlate : 12 < pos / 512
    · exact fileWrite_readsIndex hlate hok
    · obtain ⟨hpositive, hlong⟩ := htouches.resolve_left hlate
      exact (hreach hpositive 12 (by omega) hlong).2 rfl
  next =>
    obtain ⟨hpositive, hfirst, hlast⟩ := htouches
    exact (hreach hpositive j hfirst hlast).1

/-- A call with room in the file and the blocks returns. -/
theorem fileWrite_returns (hfits : pos + count ≤ MAX_FILE_SIZE)
    (hold : ∀ j < BLOCKS, TouchesBlock pos count j → blockOf s.disk (s.inode p) j ≤ MAX_LBA)
    (hroom : blocksOf (max (s.inode p).iSize (pos + count))
      ≤ blocksLeft s.part.sb s.part.blockBitmap + blocksOf (s.inode p).iSize) :
    WritesUpToLimit s p src count pos ioBuf pad current := by
  have hsize := (h.allocated _ hp).size_le
  have hsectors : pos / 512 + (FILE_SECTORS - pos / 512) = INDEX := by
    show pos / 512 + (140 - pos / 512) = 140
    have hle : pos ≤ 512 * 140 := Nat.le_trans hpos hsize
    omega
  have hlate : 12 < pos / 512 → (s.inode p).iSectors 12 ≠ 0 := by
    intro hgt
    exact (h.allocated _ hp).index.mpr (by
      show 512 * 12 < (s.inode p).iSize
      omega)
  have hdisk : 12 < pos / 512 → (s.inode p).iSectors 12 ≤ MAX_LBA := by
    intro hgt
    refine hold INDEX (Nat.lt_succ_self _) ?_
    rw [TouchesBlock, if_pos rfl]
    exact .inl hgt
  obtain ⟨c₀, hdisk₀, hbitmap₀, hinode₀, hsync₀, hcount₀, hsrc₀, hoffset₀, hindex₀, hcall⟩ :=
    fileWrite_of_loop count src ioBuf pad current hlate hdisk
  have hstart : WriteInv s (s.inode p) pos count src (pos / 512) c₀ :=
    h.start hp hpos hdisk₀ hbitmap₀ hinode₀ hsync₀ hcount₀ hsrc₀ hoffset₀ hindex₀
  -- There are blocks for every round, so the loop comes to its end, and the rest is known of calls
  -- that return.
  obtain ⟨c, hloop, hcount, hsecond⟩ := hstart.loop_succeeds h.layout h.bits _
    (h.budget hlock hpos hbitmap₀ hsrc₀ hinode₀ hdisk) hsectors hfits hold hroom
  obtain ⟨⟨ret, pos', s'⟩, hok⟩ := hcall c hloop hcount hsecond
  obtain ⟨hret, hpos', disk₁, hw⟩ := h.fileWrite hp hpos hfits hok
  refine ⟨ret, pos', s', hok, ?_, ?_, ?_, fun x hx => ?_⟩
  · rw [hret]
    omega
  · rw [hret, hpos']
  · rw [hw.size]
    exact Nat.max_le.mpr ⟨hsize, hfits⟩
  · rw [hret]
    exact hw.content_self h hp hpos hx

end

end

/-- Behind the root directory's block there is a free one. -/
theorem newFile_blocksLeft : blocksOf (max (newFile.inode 16).iSize (0 + 3))
    ≤ blocksLeft newFile.part.sb newFile.part.blockBitmap + blocksOf (newFile.inode 16).iSize := by
  have hsecond : 1 ∈ clearBits newFile.part.sb newFile.part.blockBitmap :=
    mem_clearBits.mpr ⟨by decide, by decide, by decide⟩
  have hfree : 0 < blocksLeft newFile.part.sb newFile.part.blockBitmap :=
    Finset.card_pos.mpr ⟨1, hsecond⟩
  calc blocksOf (max (newFile.inode 16).iSize (0 + 3))
      = 1 := by decide
    _ ≤ blocksLeft newFile.part.sb newFile.part.blockBitmap := hfree
    _ ≤ _ := Nat.le_add_right _ _

end Fizzos.Proofs
