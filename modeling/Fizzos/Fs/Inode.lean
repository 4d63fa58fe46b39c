import Fizzos.Device.Ide
import Fizzos.LibKernel.Bitmap
import Fizzos.LibKernel.List

/-!
# `Fizzos.Fs.Inode`: inodes and block allocation of `fs/inode.c`

`FileSys` is what the file system works on: the disk, the mounted partition `cur_part`, and the
inodes in memory. A `struct inode` is named by its address. `kmalloc` returns the address of a new
inode, and every function that allocates takes it as an argument.

Each function is one step of its caller. The bitmaps are locked by the thread `current`.

Left out: `PRINTK`, and the content of buffers that `ide_read` fills before they are read.
-/

set_option autoImplicit false

namespace Fizzos.Fs

open Fizzos.Device
open Fizzos.Kernel
open Fizzos.LibKernel
open Fizzos.Support

/-- `*(uint32_t*)(buf + off)`. -/
abbrev load32 (buf : Bytes) (off : Nat) : Nat := loadLE 4 buf off

/-- `*(uint16_t*)(buf + off)`. -/
abbrev load16 (buf : Bytes) (off : Nat) : Nat := loadLE 2 buf off

/-! ### Constants and types -/

def BITS_PER_SECTOR : Nat := 4096
def MAX_FILE_SIZE : Nat := 71680
def FT_UNKNOWN : Nat := 0
def FT_NORMAL : Nat := 1 <<< 12
def FT_DIR : Nat := 2 <<< 12
def FT_SCREEN : Nat := 3 <<< 12
def FT_KEYBOARD : Nat := 4 <<< 12

/-- `sizeof (struct d6dtd_inode)`. -/
def SIZEOF_D6DTD_INODE : Nat := 64

/-- The fields of `struct super_block` that are read after the mount. -/
structure SuperBlock where
  blockBitmapLba : Nat
  blockBitmapSects : Nat
  inodeBitmapLba : Nat
  inodeBitmapSects : Nat
  inodeTableLba : Nat
  dataStartLba : Nat
  deriving DecidableEq, Repr

/-- `struct partition`. -/
structure Partition where
  sb : SuperBlock
  blockBitmap : Bitmap
  inodeBitmap : Bitmap
  openInodes : KList Nat

/-- `struct inode`. Only the first 13 of `iSectors` count. -/
structure Inode where
  iNo : Nat
  iFlags : Nat
  iSize : Nat
  iCount : Int
  rwlock : RwLock
  iMode : Nat
  iSectors : Nat → Nat

/-- Write `i_count`. -/
def Inode.setCount (i : Inode) (iCount : Int) : Inode := { i with iCount }

/-- The disk, the partition `cur_part`, the inodes, and their `inode_tag`s. -/
structure FileSys where
  disk : Disk
  part : Partition
  inode : Nat → Inode
  inodeTag : Links Nat

namespace FileSys

def setInode (s : FileSys) (p : Nat) (i : Inode) : FileSys :=
  { s with inode := Function.update s.inode p i }

@[simp] theorem setInode_self (s : FileSys) (p : Nat) (i : Inode) : (s.setInode p i).inode p = i :=
  Function.update_self _ _ _

theorem setInode_of_ne (s : FileSys) {p q : Nat} (i : Inode) (h : q ≠ p) :
    (s.setInode p i).inode q = s.inode q := Function.update_of_ne h _ _

end FileSys

/-! ### The inode table -/

/-- `struct inode_pos`. -/
structure InodePos where
  twoSec : Bool
  secNo : Nat
  offset : Nat
  deriving DecidableEq, Repr

/-- `get_inode_pos`. The product is a `uint32_t`. -/
def getInodePos (sb : SuperBlock) (iNo : Nat) : InodePos :=
  let pos := iNo * SIZEOF_D6DTD_INODE % 2 ^ 32
  let offset := pos % SECTOR_SIZE
  { twoSec := decide (SECTOR_SIZE - offset < SIZEOF_D6DTD_INODE)
    secNo := sb.inodeTableLba + pos / SECTOR_SIZE
    offset }

/-- A `struct d6dtd_inode` on the stack. The bytes `pad` are not written. -/
def dInode (pad : Bytes) (i : Inode) : Bytes := fun k =>
  if k < 2 then pad k
  else if k < 4 then byteLE i.iMode (k - 2)
  else if k < 8 then byteLE i.iSize (k - 4)
  else if k < 12 then byteLE i.iFlags (k - 8)
  else byteLE (i.iSectors ((k - 12) / 4)) ((k - 12) % 4)

/-- `inode_sync`: the disk and the buffer afterwards. -/
def inodeSync (sb : SuperBlock) (disk : Disk) (i : Inode) (ioBuf pad : Bytes) : Disk × Bytes :=
  let pos := getInodePos sb i.iNo
  let secs := if pos.twoSec then 2 else 1
  let ioBuf := ideRead disk pos.secNo ioBuf 0 secs
  let ioBuf := copyBytes ioBuf pos.offset (dInode pad i) 0 SIZEOF_D6DTD_INODE
  (ideWrite disk pos.secNo ioBuf 0 secs, ioBuf)

/-- The inode that `inode_open` fills from the disk. -/
def inodeFromDisk (sb : SuperBlock) (disk : Disk) (iNo : Nat) : Inode :=
  let pos := getInodePos sb iNo
  let buf := ideRead disk pos.secNo (fun _ => 0) 0 (if pos.twoSec then 2 else 1)
  { iNo
    iMode := load16 buf (pos.offset + 2)
    iSize := load32 buf (pos.offset + 4)
    iFlags := load32 buf (pos.offset + 8)
    iSectors := fun k => load32 buf (pos.offset + 12 + 4 * k)
    iCount := 1
    rwlock := rwlockInit }

/-! ### Inodes in memory -/

/-- The loop of `inode_open` over the open inodes. -/
def findInode (inode : Nat → Inode) (tags : Links Nat) (iNo : Nat) :
    Nat → Option Nat → Except Halt (Option Nat)
  | _, none => .ok none
  | 0, some _ => .error .hang
  | n + 1, some p =>
      if (inode p).iNo = iNo then .ok (some p) else findInode inode tags iNo n (tags p).next

/-- `inode_open`. `i` is the address that `kmalloc` returns for a new inode. -/
def inodeOpen (s : FileSys) (iNo i : Nat) : Except Halt (Nat × FileSys) := do
  ASSERT (iNo < 4096)
  ASSERT (bitmapIsSet s.part.inodeBitmap iNo = true)
  match ← findInode s.inode s.inodeTag iNo LIST_WALK s.part.openInodes.head with
  | some p =>
      pure (p, s.setInode p ((s.inode p).setCount (atomicInc (s.inode p).iCount)))
  | none => do
      let s := s.setInode i (inodeFromDisk s.part.sb s.disk iNo)
      let (openInodes, inodeTag) ← listPushFront s.part.openInodes i s.inodeTag
      pure (i, { s with part := { s.part with openInodes }, inodeTag })

/-- `inode_close`. -/
def inodeClose (s : FileSys) (p : Nat) : Except Halt FileSys := do
  let (iCount, positive) := atomicDecAndSetg (s.inode p).iCount
  let s := s.setInode p ((s.inode p).setCount iCount)
  if positive then pure s
  else do
    let (openInodes, inodeTag) ← listDelete s.part.openInodes p s.inodeTag
    pure { s with part := { s.part with openInodes }, inodeTag }

/-- `inode_alloc`. `i` is the address that `kzalloc` returns. The assertion on `i_no` tests a
`uint32_t` against zero, and always holds. -/
def inodeAlloc (s : FileSys) (i : Nat) (current : Tid) : Except Halt FileSys := do
  let (iNo, inodeBitmap) ← bitmapScanSet s.part.inodeBitmap current
  let s := s.setInode i
    { iNo, iFlags := 0, iSize := 0, iCount := 0, rwlock := rwlockInit, iMode := 0
      iSectors := fun _ => 0 }
  let (openInodes, inodeTag) ← listPushFront s.part.openInodes i s.inodeTag
  pure { s with part := { s.part with inodeBitmap, openInodes }, inodeTag }

/-- `inode_delete`. -/
def inodeDelete (s : FileSys) (p : Nat) (current : Tid) : Except Halt FileSys := do
  ASSERT ((s.inode p).iCount = 0)
  let (openInodes, inodeTag) ← listDelete s.part.openInodes p s.inodeTag
  let inodeBitmap ← bitmapReset s.part.inodeBitmap (s.inode p).iNo current
  pure { s with part := { s.part with inodeBitmap, openInodes }, inodeTag }

/-! ### Blocks -/

/-- The part of `bitmap_sync` behind the choice of the bitmap: write the sector of the bitmap that
bit `idx` lies in. -/
def bitmapWriteBack (disk : Disk) (bmap : Bitmap) (lba sects idx : Nat) (current : Tid) :
    Except Halt (Disk × Bitmap) := do
  ASSERT (idx / SECTOR_SIZE < sects)
  let bmap ← bmap.acquire current
  let disk := ideWrite disk (lba + idx / BITS_PER_SECTOR) bmap.bytes
    ((idx - idx % BITS_PER_SECTOR) / 8) 1
  let bmap ← bmap.release current
  pure (disk, bmap)

/-- `bitmap_sync` of the block bitmap. -/
def blockBitmapSync (disk : Disk) (sb : SuperBlock) (bmap : Bitmap) (idx : Nat) (current : Tid) :
    Except Halt (Disk × Bitmap) :=
  bitmapWriteBack disk bmap sb.blockBitmapLba sb.blockBitmapSects idx current

/-- `bitmap_sync` of the inode bitmap. -/
def inodeBitmapSync (disk : Disk) (sb : SuperBlock) (bmap : Bitmap) (idx : Nat) (current : Tid) :
    Except Halt (Disk × Bitmap) :=
  bitmapWriteBack disk bmap sb.inodeBitmapLba sb.inodeBitmapSects idx current

/-- `enum BITMAP_TYPE`. -/
inductive BitmapType where
  | BLOCK_BITMAP
  | INODE_BITMAP
  deriving DecidableEq, Repr

/-- The first sector of a bitmap on the disk. -/
def BitmapType.lba (sb : SuperBlock) : BitmapType → Nat
  | .BLOCK_BITMAP => sb.blockBitmapLba
  | .INODE_BITMAP => sb.inodeBitmapLba

/-- The number of sectors of a bitmap. -/
def BitmapType.sects (sb : SuperBlock) : BitmapType → Nat
  | .BLOCK_BITMAP => sb.blockBitmapSects
  | .INODE_BITMAP => sb.inodeBitmapSects

/-- `bitmap_sync`. -/
def bitmapSync (disk : Disk) (sb : SuperBlock) (bmap : Bitmap) (idx : Nat) (current : Tid) :
    BitmapType → Except Halt (Disk × Bitmap)
  | .BLOCK_BITMAP => blockBitmapSync disk sb bmap idx current
  | .INODE_BITMAP => inodeBitmapSync disk sb bmap idx current

/-- `block_bimap_alloc`: a free block, as its sector. -/
def blockBimapAlloc (disk : Disk) (sb : SuperBlock) (bmap : Bitmap) (current : Tid) :
    Except Halt (Nat × Disk × Bitmap) := do
  let (idx, bmap) ← bitmapScanSet bmap current
  let (disk, bmap) ← blockBitmapSync disk sb bmap idx current
  pure ((sb.dataStartLba + idx) % 2 ^ 32, disk, bmap)

/-! ### Runs -/

/-- The open inodes, from the front of the list. -/
def FileSys.openList (s : FileSys) : Except Halt (List Nat) :=
  nodesFrom s.inodeTag LIST_WALK s.part.openInodes.head

/-- The calls. `p` is an inode, or the address that the allocator returns. -/
inductive InodeAct where
  | alloc (p : Nat) (current : Tid)
  | «open» (iNo p : Nat)
  | close (p : Nat)
  | delete (p : Nat) (current : Tid)

namespace FileSys

/-- The inode is on the list. -/
def IsOpen (s : FileSys) (p : Nat) : Prop := ∃ ps, s.openList = .ok ps ∧ p ∈ ps

/-- What the allocator promises: a pointer to memory that no open inode has. -/
def Fresh (s : FileSys) (p : Nat) : Prop := p < 2 ^ 32 ∧ ¬s.IsOpen p

def Enabled (s : FileSys) : InodeAct → Prop
  | .alloc p _ => s.Fresh p
  | .open iNo p => bitmapIsSet s.part.inodeBitmap iNo = true ∧ s.Fresh p
  | .close p => s.IsOpen p ∧ 1 ≤ (s.inode p).iCount
  | .delete p _ => s.IsOpen p ∧ (s.inode p).iCount = 0

def next (s : FileSys) : InodeAct → Except Halt FileSys
  | .alloc p current => inodeAlloc s p current
  | .open iNo p => do
      let (_, s) ← inodeOpen s iNo p
      pure s
  | .close p => inodeClose s p
  | .delete p current => inodeDelete s p current

end FileSys

/-- Any run of calls on a partition without open inodes. -/
def inodeSystem : System FileSys InodeAct Halt where
  init s := s.part.openInodes = listInit ∧ s.part.inodeBitmap.lock = mutexLockInit
  enabled := FileSys.Enabled
  next := FileSys.next

end Fizzos.Fs
