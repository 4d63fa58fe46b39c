import Fizzos.Fs.Dir

/-!
# `Fizzos.Fs.File`: regular files of `fs/file.c`

`file_write` and `file_read` go over the sectors of a file, from the one that the position is in.
Sector `sec` of a file is named by `i_sectors[sec]` below 12, and by the entry `sec - 12` of the
index block `i_sectors[12]` from 12 on. A call keeps the index block in the second half of `io_buf`,
and moves data through the first half.

`io_buf` comes from `kmalloc` with any content. The functions take the inode `p` of the file, which
the source reads from `f->f_dentry`.

A block that `block_bimap_alloc` returns can lie past `MAX_LBA`, so `file_write` makes the tests of
`ide_read` and `ide_write` for the blocks of the file. The bitmap and the inode table lie in front
of the data, and a call that writes them reads and writes a block of data, too. `file_read` reads
blocks that `file_write` has read, without the tests.

Left out: the branches for `FT_SCREEN` and `FT_KEYBOARD`, which do not touch the file system, and
the `f_flags` that `filp_openat` sets.
-/

set_option autoImplicit false

namespace Fizzos.Fs

open Fizzos.Device
open Fizzos.Kernel
open Fizzos.Lib
open Fizzos.LibKernel
open Fizzos.Support

/-- `12 + 128`: the number of sectors of the largest file. -/
def FILE_SECTORS : Nat := 12 + 128

/-! ### `file_write` -/

/-- The variables of `file_write`. `src` and `count` are what is left. -/
structure WriteCursor where
  disk : Disk
  blockBitmap : Bitmap
  inode : Inode
  ioBuf : Bytes
  isSyncSecond : Bool
  count : Nat
  src : Nat
  offset : Nat

/-- `*next_lba`. -/
def nextLba (inode : Inode) (ioBuf : Bytes) (sec : Nat) : Nat :=
  if sec < 12 then inode.iSectors sec else load32 ioBuf (SECTOR_SIZE + 4 * (sec - 12))

namespace WriteCursor

/-- `block_bimap_alloc(cur_part)`. -/
def allocBlock (c : WriteCursor) (sb : SuperBlock) (current : Tid) :
    Except Halt (Nat × WriteCursor) := do
  let (lba, disk, blockBitmap) ← blockBimapAlloc c.disk sb c.blockBitmap current
  pure (lba, { c with disk, blockBitmap })

/-- `i->i_sectors[k] = lba`. -/
def setSector (c : WriteCursor) (k lba : Nat) : WriteCursor :=
  { c with inode := { c.inode with iSectors := Function.update c.inode.iSectors k lba } }

/-- `*next_lba = lba`. -/
def setNextLba (c : WriteCursor) (sec lba : Nat) : WriteCursor :=
  if sec < 12 then c.setSector sec lba
  else { c with ioBuf := storeLE 4 c.ioBuf (SECTOR_SIZE + 4 * (sec - 12)) lba }

/-- The branch for `sec == 12`: the index block, in the second half of `io_buf`. -/
def openIndex (c : WriteCursor) (sb : SuperBlock) (current : Tid) : Except Halt WriteCursor :=
  if c.inode.iSectors 12 = 0 then do
    let (lba, c) ← c.allocBlock sb current
    let c := c.setSector 12 lba
    readCheck (c.inode.iSectors 12) 1
    let ioBuf := ideRead c.disk (c.inode.iSectors 12) c.ioBuf SECTOR_SIZE 1
    pure { c with ioBuf := memsetZero ioBuf SECTOR_SIZE SECTOR_SIZE, isSyncSecond := true }
  else do
    readCheck (c.inode.iSectors 12) 1
    pure { c with ioBuf := ideRead c.disk (c.inode.iSectors 12) c.ioBuf SECTOR_SIZE 1 }

/-- The branch for `*next_lba == 0`: a new sector. -/
def openSector (c : WriteCursor) (sb : SuperBlock) (sec : Nat) (current : Tid) :
    Except Halt WriteCursor :=
  if nextLba c.inode c.ioBuf sec = 0 then do
    let c := { c with isSyncSecond := c.isSyncSecond || decide (sec > 12) }
    let (lba, c) ← c.allocBlock sb current
    pure (c.setNextLba sec lba)
  else pure c

/-- The rest of the body: read the sector, change it and write it. -/
def writeSector (c : WriteCursor) (src : Bytes) (sec : Nat) : Except Halt WriteCursor := do
  let n := min c.count (SECTOR_SIZE - c.offset)
  ASSERT (nextLba c.inode c.ioBuf sec ≠ 0)
  readCheck (nextLba c.inode c.ioBuf sec) 1
  let ioBuf := ideRead c.disk (nextLba c.inode c.ioBuf sec) c.ioBuf 0 1
  let ioBuf := copyBytes ioBuf c.offset src c.src n
  writeCheck (nextLba c.inode ioBuf sec) 1
  let disk := ideWrite c.disk (nextLba c.inode ioBuf sec) ioBuf 0 1
  pure { c with disk, ioBuf, count := c.count - n, src := c.src + n, offset := 0 }

/-- The body of the loop. -/
def step (c : WriteCursor) (sb : SuperBlock) (src : Bytes) (sec : Nat) (current : Tid) :
    Except Halt WriteCursor := do
  let c ← if sec = 12 then c.openIndex sb current else pure c
  let c ← c.openSector sb sec current
  c.writeSector src sec

end WriteCursor

/-- The loop of `file_write`, over the sectors that are left. -/
def writeLoop (sb : SuperBlock) (src : Bytes) (current : Tid) :
    List Nat → WriteCursor → Except Halt WriteCursor
  | [], c => pure c
  | sec :: rest, c =>
      if c.count > 0 then do
        let c ← c.step sb src sec current
        writeLoop sb src current rest c
      else pure c

/-- The tests of `ide_write` for the index block. -/
def WriteCursor.checkSecond (c : WriteCursor) : Except Halt Unit :=
  if c.isSyncSecond then writeCheck (c.inode.iSectors 12) 1 else pure ()

/-- The part of `file_write` behind the loop. The data ends at `fin`. -/
def WriteCursor.finish (c : WriteCursor) (s : FileSys) (p fin : Nat) (pad : Bytes) : FileSys :=
  let isSyncInode := decide (c.inode.iSize < fin)
  let i := if isSyncInode then { c.inode with iSize := fin % 2 ^ 32 } else c.inode
  let disk :=
    if c.isSyncSecond then ideWrite c.disk (i.iSectors 12) c.ioBuf SECTOR_SIZE 1 else c.disk
  let disk := if isSyncInode then (inodeSync s.part.sb disk i c.ioBuf pad).1 else disk
  let s := { s with disk, part := { s.part with blockBitmap := c.blockBitmap } }
  s.setInode p i

/-- `file_write` for the inode `p`: the result, the new position and the file system. -/
def fileWrite (s : FileSys) (p : Nat) (src : Bytes) (count pos : Nat) (ioBuf pad : Bytes)
    (current : Tid) : Except Halt (Nat × Nat × FileSys) := do
  let sb := s.part.sb
  let i := s.inode p
  let ret := count
  let sec := pos / SECTOR_SIZE
  let ioBuf ←
    if sec > 12 then do
      ASSERT (i.iSectors 12 ≠ 0)
      readCheck (i.iSectors 12) 1
      pure (ideRead s.disk (i.iSectors 12) ioBuf SECTOR_SIZE 1)
    else pure ioBuf
  let c ← writeLoop sb src current (List.range' sec (FILE_SECTORS - sec))
    { disk := s.disk, blockBitmap := s.part.blockBitmap, inode := i, ioBuf
      isSyncSecond := false, count, src := 0, offset := pos % SECTOR_SIZE }
  ASSERT (c.count = 0)
  c.checkSecond
  pure (ret, pos + ret, c.finish s p (pos + ret) pad)

/-! ### `file_read` -/

/-- The variables of `file_read`. `dest` is the buffer of the caller, and `dst` the place in it. -/
structure ReadCursor where
  ioBuf : Bytes
  dest : Bytes
  count : Nat
  dst : Nat
  offset : Nat

namespace ReadCursor

/-- The body of the loop. Below sector 12 `next_lba` is the first word of the second half of
`io_buf`. -/
def step (c : ReadCursor) (disk : Disk) (i : Inode) (sec : Nat) : Except Halt ReadCursor := do
  let (ioBuf, next) :=
    if sec < 12 then (storeLE 4 c.ioBuf SECTOR_SIZE (i.iSectors sec), SECTOR_SIZE)
    else if sec = 12 then (ideRead disk (i.iSectors 12) c.ioBuf SECTOR_SIZE 1, SECTOR_SIZE)
    else (c.ioBuf, SECTOR_SIZE + 4 * (sec - 12))
  let n := min c.count (SECTOR_SIZE - c.offset)
  ASSERT (load32 ioBuf next ≠ 0)
  let ioBuf := ideRead disk (load32 ioBuf next) ioBuf 0 1
  pure
    { ioBuf, dest := copyBytes c.dest c.dst ioBuf c.offset n
      count := c.count - n, dst := c.dst + n, offset := 0 }

end ReadCursor

/-- The loop of `file_read`, over the sectors that are left. -/
def readLoop (disk : Disk) (i : Inode) : List Nat → ReadCursor → Except Halt ReadCursor
  | [], c => pure c
  | sec :: rest, c =>
      if c.count > 0 then do
        let c ← c.step disk i sec
        readLoop disk i rest c
      else pure c

/-- `file_read` for the inode `p`: the result, the new position and the buffer of the caller. -/
def fileRead (s : FileSys) (p : Nat) (dest : Bytes) (count pos : Nat) (ioBuf : Bytes) :
    Except Halt (Nat × Nat × Bytes) := do
  let i := s.inode p
  ASSERT (i.iSize ≥ pos)
  let count := min i.iSize (pos + count) - pos
  let sec := pos / SECTOR_SIZE
  let ioBuf := if sec > 12 then ideRead s.disk (i.iSectors 12) ioBuf SECTOR_SIZE 1 else ioBuf
  let c ← readLoop s.disk i (List.range' sec (FILE_SECTORS - sec))
    { ioBuf, dest, count, dst := 0, offset := pos % SECTOR_SIZE }
  ASSERT (c.count = 0)
  pure (count, pos + count, c.dest)

/-! ### `file_create` -/

def MAX_FILE_COUNT : Nat := 64

/-- `struct file`. -/
structure File where
  count : Int
  pos : Nat
  fDentry : Nat

/-- The file system with `file_table`. -/
structure FileTable where
  dirs : DirSys
  file : Nat → File

/-- `get_free_file_of_table`. -/
def getFreeFileOfTable (t : FileTable) : Option Nat :=
  (List.range MAX_FILE_COUNT).find? fun i => decide ((t.file i).count = 0)

/-- `file_create`: the index in the file table, or `none` for `NULL`. -/
def fileCreate (t : FileTable) (filename : Bytes) (fnameLen parent : Nat) (buf : Bytes)
    (i dm : Nat) (pad : Bytes) (current : Tid) : Except Halt (Option Nat × FileTable) := do
  let s := t.dirs
  let fs ← inodeAlloc s.fs i current
  let s := { s with fs := fs.setInode i { fs.inode i with iMode := FT_NORMAL } }
  match ← dirWrite s parent i buf filename fnameLen dm current with
  | (some dentry, buf, s) => do
      let fs := s.fs.setInode i ((s.fs.inode i).setCount (atomicInc (s.fs.inode i).iCount))
      let f ← deref (getFreeFileOfTable t)
      let s := s.setDentry dentry { s.dentry dentry with inode := i }
      let x := { t.file f with pos := 0, fDentry := dentry }
      let file := Function.update t.file f { x with count := atomicInc x.count }
      let (disk, _) := inodeSync fs.part.sb fs.disk (fs.inode i) buf pad
      let (disk, inodeBitmap) ←
        inodeBitmapSync disk fs.part.sb fs.part.inodeBitmap (fs.inode i).iNo current
      let s := { s with fs := { fs with disk, part := { fs.part with inodeBitmap } } }
      pure (some f, { dirs := s, file })
  | (none, _, s) => do
      let fs ← inodeDelete s.fs i current
      pure (none, { t with dirs := { s with fs } })

end Fizzos.Fs
