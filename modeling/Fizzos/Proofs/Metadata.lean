import Fizzos.Fs.Inode
import Fizzos.Proofs.Bitmap

/-!
# `Fizzos.Proofs.Metadata`: the inode table and the block bitmap on disk

The inode table has 64 bytes for each inode, so an entry never crosses the end of a sector. The
entry of a number is all that `inode_open` reads from the disk, and all that `inode_sync` writes.

`block_bimap_alloc` sets a bit of the bitmap in memory and writes the sector of the bitmap that has
the bit. Bits in other sectors of the disk keep the values they had.
-/

set_option autoImplicit false

namespace Fizzos.Proofs

open Fizzos.Device
open Fizzos.Fs
open Fizzos.Kernel
open Fizzos.LibKernel
open Fizzos.Support

/-! ### The inode table -/

/-- The inodes have the same number and the same data on disk. -/
structure SameInode (a b : Inode) : Prop where
  iNo : a.iNo = b.iNo
  iMode : a.iMode = b.iMode
  iSize : a.iSize = b.iSize
  iFlags : a.iFlags = b.iFlags
  iSectors : ∀ k < 13, a.iSectors k = b.iSectors k

namespace SameInode

variable {a b c : Inode}

theorem refl (a : Inode) : SameInode a a := ⟨rfl, rfl, rfl, rfl, fun _ _ => rfl⟩

theorem symm (h : SameInode a b) : SameInode b a :=
  ⟨h.iNo.symm, h.iMode.symm, h.iSize.symm, h.iFlags.symm, fun k hk => (h.iSectors k hk).symm⟩

theorem trans (h : SameInode a b) (h' : SameInode b c) : SameInode a c :=
  ⟨h.iNo.trans h'.iNo, h.iMode.trans h'.iMode, h.iSize.trans h'.iSize, h.iFlags.trans h'.iFlags,
    fun k hk => (h.iSectors k hk).trans (h'.iSectors k hk)⟩

end SameInode

/-- The fields have the widths of `struct inode`. -/
structure InodeFits (i : Inode) : Prop where
  iNo : i.iNo < 4096
  iMode : i.iMode < 2 ^ 16
  iSize : i.iSize < 2 ^ 32
  iFlags : i.iFlags < 2 ^ 32
  iSectors : ∀ k < 13, i.iSectors k < 2 ^ 32

section
variable {sb : SuperBlock} {disk disk' : Disk} {ioBuf pad : Bytes} {i : Inode} {iNo : Nat}

/-- The sector of an entry. -/
def tableSector (sb : SuperBlock) (iNo : Nat) : Nat := sb.inodeTableLba + iNo / 8

/-- The place of an entry in its sector. -/
def tableOffset (iNo : Nat) : Nat := 64 * (iNo % 8)

theorem tableOffset_le (iNo : Nat) : tableOffset iNo + 64 ≤ 512 := by
  have hlt := Nat.mod_lt iNo (Nat.succ_pos 7)
  rw [tableOffset]
  omega

/-- An entry is in one sector. -/
theorem getInodePos_eq (hno : iNo < 4096) :
    getInodePos sb iNo = ⟨false, tableSector sb iNo, tableOffset iNo⟩ := by
  have hmul : iNo * 64 % 2 ^ 32 = iNo * 64 := Nat.mod_eq_of_lt (by omega)
  have hoffset : iNo * 64 % 512 = tableOffset iNo := by
    rw [tableOffset]
    omega
  have hsector : iNo * 64 / 512 = iNo / 8 := by omega
  have hle := tableOffset_le iNo
  rw [getInodePos, SIZEOF_D6DTD_INODE, SECTOR_SIZE, hmul, hoffset, hsector,
    decide_eq_false (by omega)]
  rfl

/-- The part of a sector that is loaded through a buffer. -/
theorem loadLE_ideRead {lba n o : Nat} (h : o + n ≤ 512) :
    loadLE n (ideRead disk lba ioBuf 0 1) o = loadLE n (disk lba) o :=
  loadLE_congr fun k _ hhi => ideRead_one (Nat.zero_le k) (by show k < 0 + 512; omega)

/-- What `inode_open` reads. -/
theorem inodeFromDisk_eq (sb : SuperBlock) (disk : Disk) (hno : iNo < 4096) :
    (inodeFromDisk sb disk iNo).iNo = iNo ∧
    (inodeFromDisk sb disk iNo).iMode
      = load16 (disk (tableSector sb iNo)) (tableOffset iNo + 2) ∧
    (inodeFromDisk sb disk iNo).iSize
      = load32 (disk (tableSector sb iNo)) (tableOffset iNo + 4) ∧
    (inodeFromDisk sb disk iNo).iFlags
      = load32 (disk (tableSector sb iNo)) (tableOffset iNo + 8) ∧
    ∀ k < 13, (inodeFromDisk sb disk iNo).iSectors k
      = load32 (disk (tableSector sb iNo)) (tableOffset iNo + 12 + 4 * k) := by
  have hle := tableOffset_le iNo
  have hmode : tableOffset iNo + 2 + 2 ≤ 512 := by omega
  have hsize : tableOffset iNo + 4 + 4 ≤ 512 := by omega
  have hflags : tableOffset iNo + 8 + 4 ≤ 512 := by omega
  have hsectors : ∀ k < 13, tableOffset iNo + 12 + 4 * k + 4 ≤ 512 := by omega
  rw [inodeFromDisk, getInodePos_eq hno]
  exact ⟨rfl, loadLE_ideRead hmode, loadLE_ideRead hsize, loadLE_ideRead hflags,
    fun k hk => loadLE_ideRead (hsectors k hk)⟩

/-- `inode_open` reads the entry only. -/
theorem inodeFromDisk_congr (hno : iNo < 4096)
    (h : ∀ k < 64, disk' (tableSector sb iNo) (tableOffset iNo + k)
      = disk (tableSector sb iNo) (tableOffset iNo + k)) :
    SameInode (inodeFromDisk sb disk' iNo) (inodeFromDisk sb disk iNo) := by
  have hload : ∀ n o, o + n ≤ 64 →
      loadLE n (disk' (tableSector sb iNo)) (tableOffset iNo + o)
        = loadLE n (disk (tableSector sb iNo)) (tableOffset iNo + o) := by
    intro n o hle
    refine loadLE_congr fun k hlo hhi => ?_
    have hk := h (k - tableOffset iNo) (by omega)
    rwa [Nat.add_sub_cancel' (by omega)] at hk
  obtain ⟨h0, h1, h2, h3, h4⟩ := inodeFromDisk_eq sb disk hno
  obtain ⟨h0', h1', h2', h3', h4'⟩ := inodeFromDisk_eq sb disk' hno
  refine ⟨h0'.trans h0.symm, ?_, ?_, ?_, fun k hk => ?_⟩
  · rw [h1', h1, load16, load16, hload 2 2 (by omega)]
  · rw [h2', h2, load32, load32, hload 4 4 (by omega)]
  · rw [h3', h3, load32, load32, hload 4 8 (by omega)]
  · rw [h4' k hk, h4 k hk, load32, load32, Nat.add_assoc, hload 4 (12 + 4 * k) (by omega)]

/-- The disk after `inode_sync`. -/
theorem inodeSync_at (hno : i.iNo < 4096) (l k : Nat) :
    (inodeSync sb disk i ioBuf pad).1 l k
      = if l = tableSector sb i.iNo ∧ tableOffset i.iNo ≤ k ∧ k < tableOffset i.iNo + 64 then
          dInode pad i (k - tableOffset i.iNo)
        else disk l k := by
  have hle := tableOffset_le i.iNo
  rw [inodeSync, getInodePos_eq hno]
  show ideWrite disk (tableSector sb i.iNo)
    (copyBytes (ideRead disk (tableSector sb i.iNo) ioBuf 0 1)
    (tableOffset i.iNo) (dInode pad i) 0 64) 0 1 l k = _
  by_cases hl : l = tableSector sb i.iNo
  · by_cases hk : k < 512
    · rw [hl, ideWrite_one hk, Nat.zero_add]
      by_cases hin : tableOffset i.iNo ≤ k ∧ k < tableOffset i.iNo + 64
      · rw [if_pos ⟨rfl, hin⟩, copyBytes_at hin.1 hin.2, Nat.zero_add]
      · rw [if_neg fun h => hin h.2, copyBytes_of_ne (by omega),
          ideRead_one (Nat.zero_le k) (by show k < 0 + 512; omega), Nat.sub_zero]
    · rw [if_neg (by omega), ideWrite, if_neg fun h => hk h.2.2]
  · rw [ideWrite_of_ne hl, if_neg fun h => hl h.1]

/-- `inode_sync` writes one sector of the table. -/
theorem inodeSync_of_ne (hno : i.iNo < 4096) {l : Nat} (hl : l ≠ tableSector sb i.iNo) :
    (inodeSync sb disk i ioBuf pad).1 l = disk l := by
  funext k
  rw [inodeSync_at hno, if_neg fun h => hl h.1]

/-- `inode_open` of another number reads the same as before. -/
theorem inodeFromDisk_sync_of_ne (hno : i.iNo < 4096) (hno' : iNo < 4096) (hne : iNo ≠ i.iNo) :
    SameInode (inodeFromDisk sb (inodeSync sb disk i ioBuf pad).1 iNo)
      (inodeFromDisk sb disk iNo) := by
  refine inodeFromDisk_congr hno' fun k hk => ?_
  rw [inodeSync_at hno, if_neg]
  rw [tableSector, tableSector, tableOffset, tableOffset]
  omega

/-- The words of a `struct d6dtd_inode`. -/
theorem dInode_load {n o v : Nat} (h : ∀ j < n, dInode pad i (o + j) = byteLE v j)
    (hv : v < 256 ^ n) : loadLE n (dInode pad i) o = v := by
  rw [loadLE_eq_mod h, Nat.mod_eq_of_lt hv]

/-- `inode_open` of the number reads what `inode_sync` wrote. -/
theorem inodeFromDisk_sync (hi : InodeFits i) :
    SameInode (inodeFromDisk sb (inodeSync sb disk i ioBuf pad).1 i.iNo) i := by
  have hload : ∀ n o, o + n ≤ 64 →
      loadLE n ((inodeSync sb disk i ioBuf pad).1 (tableSector sb i.iNo)) (tableOffset i.iNo + o)
        = loadLE n (dInode pad i) o := by
    intro n o hle
    refine loadLE_shift o fun j hj => ?_
    rw [inodeSync_at hi.iNo, if_pos (by omega)]
    congr 1
    omega
  obtain ⟨h0, h1, h2, h3, h4⟩ :=
    inodeFromDisk_eq sb (inodeSync sb disk i ioBuf pad).1 hi.iNo
  refine ⟨h0, ?_, ?_, ?_, fun k hk => ?_⟩
  · rw [h1, load16, hload 2 2 (by omega)]
    refine dInode_load (fun j hj => ?_) hi.iMode
    rw [dInode, if_neg (by omega), if_pos (by omega), Nat.add_sub_cancel_left]
  · rw [h2, load32, hload 4 4 (by omega)]
    refine dInode_load (fun j hj => ?_) hi.iSize
    rw [dInode, if_neg (by omega), if_neg (by omega), if_pos (by omega), Nat.add_sub_cancel_left]
  · rw [h3, load32, hload 4 8 (by omega)]
    refine dInode_load (fun j hj => ?_) hi.iFlags
    rw [dInode, if_neg (by omega), if_neg (by omega), if_neg (by omega), if_pos (by omega),
      Nat.add_sub_cancel_left]
  · rw [h4 k hk, load32, Nat.add_assoc, hload 4 (12 + 4 * k) (by omega)]
    refine dInode_load (fun j hj => ?_) (hi.iSectors k hk)
    rw [dInode, if_neg (by omega), if_neg (by omega), if_neg (by omega), if_neg (by omega),
      show (12 + 4 * k + j - 12) / 4 = k by omega, show (12 + 4 * k + j - 12) % 4 = j by omega]

end

/-! ### The bitmaps -/

/-- Bit `idx` of a bitmap that starts at the sector `lba`. -/
def bitOnDisk (disk : Disk) (lba idx : Nat) : Bool :=
  (disk (lba + idx / BITS_PER_SECTOR) (idx % BITS_PER_SECTOR / 8)).getLsbD (idx % 8)

section
variable {disk disk' : Disk} {sb : SuperBlock} {bmap bmap' : Bitmap} {lba sects idx : Nat}
  {current : Tid}

theorem bitOnDisk_congr (h : disk' (lba + idx / BITS_PER_SECTOR)
    = disk (lba + idx / BITS_PER_SECTOR)) :
    bitOnDisk disk' lba idx = bitOnDisk disk lba idx := by
  rw [bitOnDisk, bitOnDisk, h]

/-- `bitmap_sync` writes the sector of the bit. -/
theorem bitmapWriteBack_ok
    (h : bitmapWriteBack disk bmap lba sects idx current = .ok (disk', bmap')) :
    idx / SECTOR_SIZE < sects ∧ (∃ lock, bmap' = { bmap with lock }) ∧
    (∀ l, l ≠ lba + idx / BITS_PER_SECTOR → disk' l = disk l) ∧
    ∀ j, bitOnDisk disk' lba j =
      if j / BITS_PER_SECTOR = idx / BITS_PER_SECTOR then bmap.bit j else bitOnDisk disk lba j := by
  simp only [bitmapWriteBack, bind_eq_ok, ASSERT_eq_ok, pure_eq_ok] at h
  obtain ⟨-, hlt, b₁, hacq, b₂, hrel, hres⟩ := h
  obtain ⟨lock₁, rfl⟩ := acquire_ok hacq
  obtain ⟨lock₂, rfl⟩ := release_ok hrel
  cases hres
  refine ⟨hlt, ⟨lock₂, rfl⟩, fun l hl => ideWrite_of_ne hl, fun j => ?_⟩
  by_cases hj : j / BITS_PER_SECTOR = idx / BITS_PER_SECTOR
  · rw [if_pos hj, bitOnDisk, hj, Bitmap.bit]
    have hsame : j / 4096 = idx / 4096 := hj
    have hbyte : j % BITS_PER_SECTOR / 8 < SECTOR_SIZE := by
      show j % 4096 / 8 < 512
      omega
    -- The source is the byte of the bit, counted from the start of the bitmap.
    have hplace : (idx - idx % BITS_PER_SECTOR) / 8 + j % BITS_PER_SECTOR / 8 = j / 8 := by
      show (idx - idx % 4096) / 8 + j % 4096 / 8 = j / 8
      omega
    rw [ideWrite_one hbyte, hplace]
  · rw [if_neg hj]
    exact bitOnDisk_congr (ideWrite_of_ne fun heq => hj (Nat.add_left_cancel heq))

/-- `block_bimap_alloc` takes a clear bit, and writes the sector of the bitmap that has it. -/
theorem blockBimapAlloc_ok (h : blockBimapAlloc disk sb bmap current = .ok (lba, disk', bmap')) :
    ∃ idx, idx < 8 * bmap.byteSize ∧ bmap.bit idx = false ∧
      idx / SECTOR_SIZE < sb.blockBitmapSects ∧
      lba = (sb.dataStartLba + idx) % 2 ^ 32 ∧ bmap'.byteSize = bmap.byteSize ∧
      (∀ j, bmap'.bit j = if j = idx then true else bmap.bit j) ∧
      (∀ l, l ≠ sb.blockBitmapLba + idx / BITS_PER_SECTOR → disk' l = disk l) ∧
      ∀ j, bitOnDisk disk' sb.blockBitmapLba j =
        if j / BITS_PER_SECTOR = idx / BITS_PER_SECTOR then bmap'.bit j
        else bitOnDisk disk sb.blockBitmapLba j := by
  simp only [blockBimapAlloc, blockBitmapSync, bind_eq_ok, pure_eq_ok] at h
  obtain ⟨⟨idx, b₁⟩, hscan, ⟨disk₁, b₂⟩, hsync, hres⟩ := h
  obtain ⟨hlt, hclear, -, lock, rfl⟩ := bitmapScanSet_ok hscan
  obtain ⟨hsects, ⟨lock', rfl⟩, hframe, hbits⟩ := bitmapWriteBack_ok hsync
  cases hres
  exact ⟨idx, hlt, hclear, hsects, rfl, rfl, fun j => Bitmap.bit_set bmap idx true j, hframe, hbits⟩

end

end Fizzos.Proofs
