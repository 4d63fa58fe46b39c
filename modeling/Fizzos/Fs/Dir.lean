import Fizzos.Fs.Inode
import Fizzos.Lib.Fizzstr

/-!
# `Fizzos.Fs.Dir`: directories of `fs/dir.c`

A directory is an inode whose sectors hold a `struct dentry_disk` in each 32 bytes. Twelve sectors
are named by the inode, and up to 128 more by the sector `i_sectors[12]`. A `struct dentry` in
memory caches an entry, and is on the list `d_subdirs` of its parent.

`DirSys` adds the dentries to `FileSys`. A dentry is named by its address, and `dChild` has its
links. The 1024 bytes `buf` are the caller's. `kmalloc` returns the addresses of a new inode and
a new dentry, which are arguments.

A block that `block_bimap_alloc` returns can lie past `MAX_LBA`, so `dir_write` makes the tests of
`ide_read` and `ide_write`. `search_dentry` does not make them: it is for directories whose sectors
are on the disk (`SectorsOnDisk`), where the tests pass (`lookupLog_passes`), and `dir_write` keeps
them there (`SectorsOnDisk.dirWrite`). The bitmaps and the inodes are in front of the data.

`search_dentry` calls `list_empty` on the address of its pointer, so the answer is always no. The
walk that follows handles an empty list.

Left out: `d_lru`, which nothing uses.
-/

set_option autoImplicit false

namespace Fizzos.Fs

open Fizzos.Device
open Fizzos.Kernel
open Fizzos.Lib
open Fizzos.LibKernel
open Fizzos.Support

def MAX_FILE_NAME_LEN : Nat := 24

/-- `sizeof (struct dentry_disk)`. -/
def SIZEOF_DENTRY_DISK : Nat := 32

/-- `struct dentry`. -/
structure Dentry where
  count : Int
  /-- The pointer `inode`. -/
  inode : Nat
  fname : Bytes
  fnameLen : Nat
  dParent : Nat
  dSubdirs : KList Nat

/-- The file system with the dentries in memory. -/
structure DirSys where
  fs : FileSys
  dentry : Nat → Dentry
  dChild : Links Nat

namespace DirSys

def setDentry (s : DirSys) (d : Nat) (x : Dentry) : DirSys :=
  { s with dentry := Function.update s.dentry d x }

/-- `list_push_front(&parent->d_subdirs, &d->d_child)`. -/
def pushChild (s : DirSys) (parent d : Nat) : Except Halt DirSys := do
  let (dSubdirs, dChild) ← listPushFront (s.dentry parent).dSubdirs d s.dChild
  pure { s.setDentry parent { s.dentry parent with dSubdirs } with dChild }

end DirSys

/-! ### Entries in a sector

The entry `j` of the sector in `buf` is at `32 * j`: `fname`, `fname_len` at 24, `i_mode` at 26,
`i_no` at 28. -/

/-- `(dd->i_mode & 0xf000)`. -/
def slotType (buf : Bytes) (j : Nat) : Nat := load16 buf (SIZEOF_DENTRY_DISK * j + 26) &&& 0xf000

/-- The test of `search_dentry`. -/
def slotMatches (buf : Bytes) (j : Nat) (dname : Bytes) (dnameLen : Nat) : Bool :=
  decide (slotType buf j ≠ FT_UNKNOWN) &&
    (decide (load16 buf (SIZEOF_DENTRY_DISK * j + 24) = dnameLen) &&
      decide (strncmp (fun k => buf (SIZEOF_DENTRY_DISK * j + k)) dname dnameLen = 0))

/-- The number of entries in a sector. -/
def SLOTS : Nat := SECTOR_SIZE / SIZEOF_DENTRY_DISK

/-- The loop of `search_dentry` over a sector: the `i_no` of the first entry with the name. -/
def findSlot (buf : Bytes) (dname : Bytes) (dnameLen : Nat) : Option Nat :=
  ((List.range SLOTS).find? fun j => slotMatches buf j dname dnameLen).map fun j =>
    load32 buf (SIZEOF_DENTRY_DISK * j + 28)

/-- The loop of `dir_write` over a sector: the first free entry. -/
def freeSlot (buf : Bytes) : Option Nat :=
  (List.range SLOTS).find? fun j => decide (slotType buf j = FT_UNKNOWN)

/-- The assignments of `dir_write` to the free entry `j`. -/
def writeSlot (buf : Bytes) (j iMode iNo : Nat) (filename : Bytes) (fnameLen : Nat) : Bytes :=
  let dd := SIZEOF_DENTRY_DISK * j
  let buf := storeLE 2 buf (dd + 26) iMode
  let buf := storeLE 4 buf (dd + 28) iNo
  let buf := strncpy buf dd filename fnameLen
  storeLE 2 buf (dd + 24) fnameLen

/-! ### `search_dentry` -/

/-- The loop over the cached dentries. -/
def findCached (dentry : Nat → Dentry) (children : Links Nat) (dname : Bytes) (dnameLen : Nat) :
    Nat → Option Nat → Except Halt (Option Nat)
  | _, none => .ok none
  | 0, some _ => .error .hang
  | n + 1, some d =>
      if strncmp (dentry d).fname dname dnameLen = 0 then .ok (some d)
      else findCached dentry children dname dnameLen n (children d).next

/-- The inner loop over sectors, from number `times` on: the `i_no` that was found, and `buf`. -/
def searchLoop (disk : Disk) (dname : Bytes) (dnameLen : Nat) :
    Nat → Nat → Nat → Bytes → Option Nat × Bytes
  | 0, _, _, buf => (none, buf)
  | n + 1, times, startLba, buf =>
      let buf := ideRead disk startLba buf 0 1
      match findSlot buf dname dnameLen with
      | some iNo => (some iNo, buf)
      | none =>
          searchLoop disk dname dnameLen n (times + 1)
            (load32 buf (SECTOR_SIZE + 4 * (times + 1))) buf

/-- The outer loop over `i_sectors`. -/
def searchSectors (disk : Disk) (p : Inode) (dname : Bytes) (dnameLen : Nat) :
    List Nat → Bytes → Option Nat × Bytes
  | [], buf => (none, buf)
  | idx :: rest, buf =>
      if p.iSectors idx = 0 then searchSectors disk p dname dnameLen rest buf
      else
        let (loop, startLba, buf) :=
          if idx = 12 then
            let buf := ideRead disk (p.iSectors 12) buf SECTOR_SIZE 1
            (SECTOR_SIZE / 4, load32 buf SECTOR_SIZE, buf)
          else (1, p.iSectors idx, buf)
        match searchLoop disk dname dnameLen loop 0 startLba buf with
        | (some iNo, buf) => (some iNo, buf)
        | (none, buf) => searchSectors disk p dname dnameLen rest buf

/-- The part of `search_dentry` that reads the disk. -/
def searchDisk (disk : Disk) (p : Inode) (dname : Bytes) (dnameLen : Nat) (buf : Bytes) :
    Option Nat × Bytes := searchSectors disk p dname dnameLen (List.range 13) buf

/-- `'.'`. -/
def DOT : BitVec 8 := 0x2e

/-- `search_dentry`: the dentry that was found, with `none` for `NULL`. -/
def searchDentry (s : DirSys) (parent : Nat) (dname : Bytes) (dnameLen : Nat) (buf : Bytes)
    (i d : Nat) : Except Halt (Option Nat × DirSys) :=
  if dnameLen = 1 ∧ dname 0 = DOT then pure (some parent, s)
  else if dnameLen = 2 ∧ dname 0 = DOT ∧ dname 1 = DOT then
    pure (some (s.dentry parent).dParent, s)
  else do
    match ← findCached s.dentry s.dChild dname dnameLen LIST_WALK
        (s.dentry parent).dSubdirs.head with
    | some subdir =>
        let x := s.dentry subdir
        pure (some subdir, s.setDentry subdir { x with count := atomicInc x.count })
    | none =>
        match searchDisk s.fs.disk (s.fs.inode (s.dentry parent).inode) dname dnameLen buf with
        | (none, _) => pure (none, s)
        | (some iNo, _) => do
            let (inode, fs) ← inodeOpen s.fs iNo i
            let s := { s with fs }
            let s := s.setDentry d
              { fname := strncpy (fun _ => 0) 0 dname dnameLen
                fnameLen := dnameLen, count := 1, inode, dParent := parent, dSubdirs := listInit }
            let s ← s.pushChild parent d
            pure (some d, s)

/-! ### `dir_write` -/

/-- What the loops of `dir_write` work on: the disk, the block bitmap, the directory's inode and
the buffer. -/
structure DirCursor where
  disk : Disk
  blockBitmap : Bitmap
  dir : Inode
  buf : Bytes

/-- Where the loops of `dir_write` end: at the entry `slot` of the sector `lba`. -/
structure DirPlace where
  cursor : DirCursor
  lba : Nat
  slot : Nat
  isSecond : Bool

namespace DirCursor

/-- `block_bimap_alloc`. -/
def allocBlock (c : DirCursor) (sb : SuperBlock) (current : Tid) : Except Halt (Nat × DirCursor) :=
  do
  let (lba, disk, blockBitmap) ← blockBimapAlloc c.disk sb c.blockBitmap current
  pure (lba, { c with disk, blockBitmap })

/-- `dir->i_sectors[idx] = lba`. -/
def setSector (c : DirCursor) (idx lba : Nat) : DirCursor :=
  { c with dir := { c.dir with iSectors := Function.update c.dir.iSectors idx lba } }

/-- The sector `lba` in `buf`. -/
def load (c : DirCursor) (lba : Nat) : DirCursor :=
  { c with buf := ideRead c.disk lba c.buf 0 1 }

/-- `ide_read` of the sector `lba` to `buf`. -/
def read (c : DirCursor) (lba : Nat) : Except Halt DirCursor := do
  readCheck lba 1
  pure (c.load lba)

/-- A new sector in `buf`. -/
def clear (c : DirCursor) : DirCursor := { c with buf := memsetZero c.buf 0 SECTOR_SIZE }

end DirCursor

/-- The loop of `dir_write` over the sectors that the inode names. -/
def findDirect (sb : SuperBlock) (current : Tid) :
    List Nat → DirCursor → Except Halt (Option DirPlace × DirCursor)
  | [], c => pure (none, c)
  | idx :: rest, c => do
      let (lba, c) ←
        if c.dir.iSectors idx = 0 then do
          let (lba, c) ← c.allocBlock sb current
          pure (lba, (c.setSector idx lba).clear)
        else do
          let lba := c.dir.iSectors idx
          let c ← c.read lba
          pure (lba, c)
      match freeSlot c.buf with
      | some slot => pure (some { cursor := c, lba, slot, isSecond := false }, c)
      | none => findDirect sb current rest c

/-- The loop of `dir_write` over the sectors that the index block in `buf` names. -/
def findIndexed (sb : SuperBlock) (isSecond : Bool) (current : Tid) :
    List Nat → DirCursor → Except Halt (Option DirPlace)
  | [], _ => pure none
  | times :: rest, c => do
      let (lba, c) ←
        if load32 c.buf (SECTOR_SIZE + 4 * times) = 0 then do
          let (lba, c) ← c.allocBlock sb current
          let c := { c with buf := storeLE 4 c.buf (SECTOR_SIZE + 4 * times) lba }
          pure (lba, c.clear)
        else
          let lba := load32 c.buf (SECTOR_SIZE + 4 * times)
          let c ← c.read lba
          pure (lba, c)
      match freeSlot c.buf with
      | some slot => pure (some { cursor := c, lba, slot, isSecond })
      | none => findIndexed sb isSecond current rest c

/-- The loops of `dir_write`: a free entry. A new index block clears the first half of `buf`, and
not the half that the block is in. -/
def findPlace (sb : SuperBlock) (c : DirCursor) (current : Tid) : Except Halt DirPlace := do
  match ← findDirect sb current (List.range 12) c with
  | (some place, _) => pure place
  | (none, c) => do
      let (isSecond, c) ←
        if c.dir.iSectors 12 = 0 then do
          let (lba, c) ← c.allocBlock sb current
          pure (true, (c.setSector 12 lba).clear)
        else do
          readCheck (c.dir.iSectors 12) 1
          pure (false, { c with buf := ideRead c.disk (c.dir.iSectors 12) c.buf SECTOR_SIZE 1 })
      match ← findIndexed sb isSecond current (List.range (SECTOR_SIZE / 4)) c with
      | some place => pure place
      | none => PANIC

/-- The first sector of a new directory: the entries `.` and `..`. -/
def dotEntries (buf : Bytes) (i dir : Inode) : Bytes :=
  let buf := memsetZero buf 0 SECTOR_SIZE
  let buf := Function.update buf 0 DOT
  let buf := storeLE 2 buf 24 1
  let buf := storeLE 2 buf 26 i.iMode
  let buf := storeLE 4 buf 28 i.iNo
  let buf := Function.update buf 32 DOT
  let buf := Function.update buf 33 DOT
  let buf := storeLE 2 buf (32 + 24) 2
  let buf := storeLE 2 buf (32 + 26) dir.iMode
  storeLE 4 buf (32 + 28) dir.iNo

/-- The sector with the entry goes to the disk, and so does a new index block. -/
def storeEntry (place : DirPlace) (entry : Bytes) : Except Halt DirCursor := do
  let c := { place.cursor with buf := entry }
  writeCheck place.lba 1
  let c := { c with disk := ideWrite c.disk place.lba c.buf 0 1 }
  if place.isSecond then do
    writeCheck (c.dir.iSectors 12) 1
    pure { c with disk := ideWrite c.disk (c.dir.iSectors 12) c.buf SECTOR_SIZE 1 }
  else pure c

/-- What `dir_write` does with the free entry: the entry goes to the disk, and a new directory
gets a sector. The results are the directory's inode, the new inode, the disk and the rest. -/
def putEntry (sb : SuperBlock) (place : DirPlace) (i : Inode) (filename : Bytes) (fnameLen : Nat)
    (current : Tid) : Except Halt (DirCursor × Inode) := do
  let c ← storeEntry place
    (writeSlot place.cursor.buf place.slot i.iMode i.iNo filename fnameLen)
  if i.iMode &&& 0xf000 = FT_DIR then do
    let (lba, c) ← c.allocBlock sb current
    let i := { i with iSectors := Function.update i.iSectors 0 lba }
    let c := { c with buf := dotEntries c.buf i c.dir }
    let i := { i with iSize := SIZEOF_DENTRY_DISK * 2 }
    writeCheck lba 1
    pure ({ c with disk := ideWrite c.disk lba c.buf 0 1 }, i)
  else pure (c, i)

/-- `dir_write`: the new dentry at `dm`, or `none` for `NULL`. `i` is the inode of the entry. -/
def dirWrite (s : DirSys) (parent i : Nat) (buf : Bytes) (filename : Bytes) (fnameLen dm : Nat)
    (current : Tid) : Except Halt (Option Nat × Bytes × DirSys) :=
  let dirAddr := (s.dentry parent).inode
  let dir := s.fs.inode dirAddr
  if dir.iSize = MAX_FILE_SIZE then pure (none, buf, s)
  else do
    let sb := s.fs.part.sb
    let place ← findPlace sb ⟨s.fs.disk, s.fs.part.blockBitmap, dir, buf⟩ current
    let (c, inode) ← putEntry sb place (s.fs.inode i) filename fnameLen current
    let fs := { s.fs with
      disk := c.disk, part := { s.fs.part with blockBitmap := c.blockBitmap } }
    let fs := fs.setInode i inode
    let s := { s with fs }
    let s := s.setDentry dm
      { dParent := parent, fname := strncpy (fun _ => 0) 0 filename fnameLen
        fnameLen, inode := i, count := 1, dSubdirs := listInit }
    let s ← s.pushChild parent dm
    let dir := { c.dir with iSize := (c.dir.iSize + SIZEOF_DENTRY_DISK) % 2 ^ 32 }
    pure (some dm, c.buf, { s with fs := s.fs.setInode dirAddr dir })

/-- `dir_create`. `i` and `dm` are the addresses of the new inode and the new dentry. -/
def dirCreate (s : DirSys) (parent mode : Nat) (buf : Bytes) (fname : Bytes) (fnameLen : Nat)
    (i dm : Nat) (pad : Bytes) (current : Tid) : Except Halt (Int × DirSys) := do
  let fs ← inodeAlloc s.fs i current
  let s := { s with fs := fs.setInode i { fs.inode i with iMode := (mode &&& 0x0fff) ||| FT_DIR } }
  match ← dirWrite s parent i buf fname fnameLen dm current with
  | (some dentry, buf, s) => do
      let s := s.setDentry dentry { s.dentry dentry with inode := i }
      let inode := (s.fs.inode i).setCount (atomicInc (s.fs.inode i).iCount)
      let fs := s.fs.setInode i inode
      let (disk, _) := inodeSync fs.part.sb fs.disk inode buf pad
      let (disk, inodeBitmap) ←
        inodeBitmapSync disk fs.part.sb fs.part.inodeBitmap inode.iNo current
      pure (0, { s with fs := { fs with disk, part := { fs.part with inodeBitmap } } })
  | (none, _, s) => do
      let fs ← inodeDelete s.fs i current
      pure (-1, { s with fs })

end Fizzos.Fs
