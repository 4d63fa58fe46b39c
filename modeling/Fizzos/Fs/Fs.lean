import Fizzos.Fs.Dir

/-!
# `Fizzos.Fs.Fs`: format and mount of `fs/fs.c`

`mount_partition` reads the super block and the two bitmaps from the disk. The addresses of the
bitmaps come from `kmalloc`.

`partition_format` computes the layout of a partition and writes the super block, the bitmaps, the
inode table and the root directory. The arithmetic is of `uint32_t`.

Left out: the search for the partition by its name, and `PRINTK`.
-/

set_option autoImplicit false

namespace Fizzos.Fs

open Fizzos.Device
open Fizzos.Lib
open Fizzos.LibKernel
open Fizzos.Support

/-- The `struct super_block` in `buf`. -/
def loadSuperBlock (buf : Bytes) : SuperBlock :=
  { blockBitmapLba := load32 buf 16
    blockBitmapSects := load32 buf 20
    inodeBitmapLba := load32 buf 24
    inodeBitmapSects := load32 buf 28
    inodeTableLba := load32 buf 32
    dataStartLba := load32 buf 40 }

/-- `ide_read` of a bitmap of `sects` sectors to new memory at `bits`. -/
def loadBitmap (disk : Disk) (bmap : Bitmap) (bits lba sects : Nat) : Bitmap :=
  { bmap with
    addr := bits, bytes := ideRead disk lba (fun _ => 0) 0 sects, byteSize := sects * SECTOR_SIZE }

/-- `mount_partition` of the partition that starts at `startLba`. -/
def mountPartition (s : FileSys) (startLba blockBits inodeBits : Nat) : FileSys :=
  let sb := loadSuperBlock (ideRead s.disk (startLba + 1) (fun _ => 0) 0 1)
  { s with
    part :=
      { sb
        blockBitmap :=
          loadBitmap s.disk s.part.blockBitmap blockBits sb.blockBitmapLba sb.blockBitmapSects
        inodeBitmap :=
          loadBitmap s.disk s.part.inodeBitmap inodeBits sb.inodeBitmapLba sb.inodeBitmapSects
        openInodes := listInit } }

/-! ### `partition_format` -/

def FIZZ_FILE_SYSTEM : Nat := 0x20000504
def MAX_FILES_PER_PART : Nat := 4096

/-- `DIV_ROUND_UP(x, step)` of a `uint32_t`. -/
def divRoundUp (x step : Nat) : Nat := (x + step - 1) % 2 ^ 32 / step

/-- All of `struct super_block` but the padding. -/
structure SuperBlockRecord extends SuperBlock where
  magic : Nat
  secCnt : Nat
  inodeCnt : Nat
  partLbaBase : Nat
  inodeTableSects : Nat
  rootInodeNo : Nat
  dirEntrySize : Nat

/-- The words of the record, in order. -/
def SuperBlockRecord.words (sb : SuperBlockRecord) : List Nat :=
  [sb.magic, sb.secCnt, sb.inodeCnt, sb.partLbaBase, sb.blockBitmapLba, sb.blockBitmapSects,
    sb.inodeBitmapLba, sb.inodeBitmapSects, sb.inodeTableLba, sb.inodeTableSects, sb.dataStartLba,
    sb.rootInodeNo, sb.dirEntrySize]

/-- A `struct super_block` on the stack. The bytes `pad` are not written. -/
def storeSuperBlock (pad : Bytes) (sb : SuperBlockRecord) : Bytes := fun k =>
  if k < 52 then byteLE (sb.words.getD (k / 4) 0) (k % 4) else pad k

/-- `boot_sector_sects`. -/
def bootSectorSects : Nat := 1

/-- `super_block_sects`. -/
def superBlockSects : Nat := 1

/-- `inode_bitmap_sects`. -/
def inodeBitmapSects : Nat := divRoundUp MAX_FILES_PER_PART BITS_PER_SECTOR

/-- `inode_table_sects`. -/
def inodeTableSects : Nat := divRoundUp (MAX_FILES_PER_PART * SIZEOF_D6DTD_INODE) SECTOR_SIZE

/-- `used_sects`. -/
def usedSects : Nat := bootSectorSects + superBlockSects + inodeBitmapSects + inodeTableSects

/-- `free_sects`. -/
def freeSects (secCnt : Nat) : Nat := (secCnt + 2 ^ 32 - usedSects) % 2 ^ 32

/-- `block_bitmap_bit_len`. It takes the first value of `block_bitmap_sects`. -/
def blockBitmapBitLen (secCnt : Nat) : Nat :=
  (freeSects secCnt + 2 ^ 32 - divRoundUp (freeSects secCnt) BITS_PER_SECTOR) % 2 ^ 32

/-- The second value of `block_bitmap_sects`. -/
def blockBitmapSects (secCnt : Nat) : Nat := divRoundUp (blockBitmapBitLen secCnt) BITS_PER_SECTOR

/-- The super block of `partition_format`. -/
def formatSuperBlock (startLba secCnt : Nat) : SuperBlockRecord :=
  let blockBitmapLba := (startLba + 2) % 2 ^ 32
  let inodeBitmapLba := (blockBitmapLba + blockBitmapSects secCnt) % 2 ^ 32
  let inodeTableLba := (inodeBitmapLba + inodeBitmapSects) % 2 ^ 32
  { magic := FIZZ_FILE_SYSTEM
    secCnt
    inodeCnt := MAX_FILES_PER_PART
    partLbaBase := startLba
    blockBitmapLba
    blockBitmapSects := blockBitmapSects secCnt
    inodeBitmapLba
    inodeBitmapSects
    inodeTableLba
    inodeTableSects
    dataStartLba := (inodeTableLba + inodeTableSects) % 2 ^ 32
    rootInodeNo := 0
    dirEntrySize := SIZEOF_DENTRY_DISK }

/-- The loop of `partition_format` over a byte, for `bit_idx` below `n`. -/
def clearBits (b : BitVec 8) : Nat → BitVec 8
  | 0 => b
  | n + 1 => clearBits b n &&& ~~~(1#8 <<< n)

/-- The block bitmap in `buf`. -/
def formatBlockBitmap (buf : Bytes) (bitLen : Nat) : Bytes :=
  let buf := Function.update buf 0 (buf 0 ||| 1)
  let lastByte := bitLen / 8
  let lastBit := bitLen % 8
  let lastSize := SECTOR_SIZE - lastByte % SECTOR_SIZE
  let buf := memset buf lastByte 0xff lastSize
  Function.update buf lastByte (clearBits (buf lastByte) (lastBit + 1))

/-- The inode of the root directory in `buf`. -/
def formatRootInode (buf : Bytes) (sb : SuperBlockRecord) : Bytes :=
  let buf := storeLE 2 buf 2 FT_DIR
  let buf := storeLE 4 buf 4 (sb.dirEntrySize * 2)
  storeLE 4 buf 12 sb.dataStartLba

/-- The entries `.` and `..` of the root directory in `buf`. -/
def formatRootEntries (buf : Bytes) : Bytes :=
  let buf := Function.update buf 0 DOT
  let buf := storeLE 4 buf 28 0
  let buf := storeLE 2 buf 26 FT_DIR
  let buf := storeLE 2 buf 24 1
  let buf := Function.update buf 32 DOT
  let buf := Function.update buf 33 DOT
  let buf := storeLE 4 buf (32 + 28) 0
  let buf := storeLE 2 buf (32 + 26) FT_DIR
  storeLE 2 buf (32 + 24) 2

/-- `ide_write` with its tests. -/
def writeSectors (disk : Disk) (lba : Nat) (buf : Bytes) (secCnt : Nat) : Except Halt Disk := do
  writeCheck lba secCnt
  pure (ideWrite disk lba buf 0 secCnt)

/-- `partition_format`. `pad` is what is on the stack, and `heap` is the memory from `kmalloc`. -/
def partitionFormat (disk : Disk) (startLba secCnt : Nat) (pad heap : Bytes) :
    Except Halt Disk := do
  let sb := formatSuperBlock startLba secCnt
  let disk ← writeSectors disk ((startLba + 1) % 2 ^ 32) (storeSuperBlock pad sb) 1
  let bufSize :=
    max (max sb.blockBitmapSects sb.inodeBitmapSects) sb.inodeTableSects * SECTOR_SIZE
  let buf := memset heap 0 0 bufSize
  let buf := formatBlockBitmap buf (blockBitmapBitLen secCnt)
  let disk ← writeSectors disk sb.blockBitmapLba buf sb.blockBitmapSects
  let buf := memset buf 0 0 bufSize
  let buf := Function.update buf 0 (buf 0 ||| 1)
  let disk ← writeSectors disk sb.inodeBitmapLba buf sb.inodeBitmapSects
  let buf := memset buf 0 0 bufSize
  let buf := formatRootInode buf sb
  let disk ← writeSectors disk sb.inodeTableLba buf sb.inodeTableSects
  let buf := memset buf 0 0 bufSize
  let buf := formatRootEntries buf
  writeSectors disk sb.dataStartLba buf 1

end Fizzos.Fs
