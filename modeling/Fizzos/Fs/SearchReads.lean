import Fizzos.Fs.Dir
import Fizzos.Support.Logged

/-!
# `Fizzos.Fs.SearchReads`: what `search_dentry` of `fs/dir.c` reads

The functions are the ones of `Fizzos.Fs.Dir`, and log two kinds of events: the sectors that
`ide_read` is called for, and the bytes of `buf` that are read. `lookupLog` ends in front of
`inode_open`, which reads the sector of the inode.

The test of `ide_read` is left out: where the sectors of a directory are on the disk
(`SectorsOnDisk`), it does not stop the kernel (`lookupLog_passes`).
-/

set_option autoImplicit false

namespace Fizzos.Fs

open Fizzos.Device
open Fizzos.Kernel
open Fizzos.Lib
open Fizzos.LibKernel
open Fizzos.Support

/-- A sector that is read to `buf`, or a byte of `buf` that is read. -/
inductive Access where
  | sector (lba : Nat)
  | byte (off : Nat)
  deriving DecidableEq, Repr

/-- Log `n` bytes of `buf` from `off` on. -/
def readBytes (off n : Nat) : Logged Access Unit := .tell ((List.range' off n).map Access.byte)

/-- A number in `buf`. -/
def loadLog (n : Nat) (buf : Bytes) (off : Nat) : Logged Access Nat := do
  readBytes off n
  pure (loadLE n buf off)

/-- The characters of `s1` that `strncmp` reads. -/
def strncmpReads : Bytes → Bytes → Nat → Nat
  | _, _, 0 => 1
  | s1, s2, n + 1 =>
      if s1 0 ≠ 0 ∧ s2 0 ≠ 0 ∧ s1 0 = s2 0 then
        strncmpReads (fun k => s1 (k + 1)) (fun k => s2 (k + 1)) n + 1
      else 1

/-- The test of `search_dentry`. -/
def slotMatchesLog (buf : Bytes) (j : Nat) (dname : Bytes) (dnameLen : Nat) :
    Logged Access Bool := do
  let iMode ← loadLog 2 buf (SIZEOF_DENTRY_DISK * j + 26)
  if iMode &&& 0xf000 = FT_UNKNOWN then pure false
  else do
    let fnameLen ← loadLog 2 buf (SIZEOF_DENTRY_DISK * j + 24)
    if fnameLen = dnameLen then do
      let fname := fun k => buf (SIZEOF_DENTRY_DISK * j + k)
      readBytes (SIZEOF_DENTRY_DISK * j) (strncmpReads fname dname dnameLen)
      pure (decide (strncmp fname dname dnameLen = 0))
    else pure false

/-- The loop of `search_dentry` over the entries of a sector that are left. -/
def findSlotLog (buf : Bytes) (dname : Bytes) (dnameLen : Nat) :
    List Nat → Logged Access (Option Nat)
  | [] => pure none
  | j :: rest => do
      if ← slotMatchesLog buf j dname dnameLen then do
        let iNo ← loadLog 4 buf (SIZEOF_DENTRY_DISK * j + 28)
        pure (some iNo)
      else findSlotLog buf dname dnameLen rest

/-- `searchLoop`. -/
def searchLoopLog (disk : Disk) (dname : Bytes) (dnameLen : Nat) :
    Nat → Nat → Nat → Bytes → Logged Access (Option Nat × Bytes)
  | 0, _, _, buf => pure (none, buf)
  | n + 1, times, startLba, buf => do
      let buf := ideRead disk startLba buf 0 1
      .tell [.sector startLba]
      match ← findSlotLog buf dname dnameLen (List.range SLOTS) with
      | some iNo => pure (some iNo, buf)
      | none => do
          let startLba ← loadLog 4 buf (SECTOR_SIZE + 4 * (times + 1))
          searchLoopLog disk dname dnameLen n (times + 1) startLba buf

/-- What `searchSectors` does for `i_sectors[idx]` in front of the inner loop. -/
def openSectorLog (disk : Disk) (p : Inode) (idx : Nat) (buf : Bytes) :
    Logged Access (Nat × Nat × Bytes) :=
  if idx = 12 then do
    let buf := ideRead disk (p.iSectors 12) buf SECTOR_SIZE 1
    .tell [.sector (p.iSectors 12)]
    let startLba ← loadLog 4 buf SECTOR_SIZE
    pure (SECTOR_SIZE / 4, startLba, buf)
  else pure (1, p.iSectors idx, buf)

/-- `searchSectors`. -/
def searchSectorsLog (disk : Disk) (p : Inode) (dname : Bytes) (dnameLen : Nat) :
    List Nat → Bytes → Logged Access (Option Nat × Bytes)
  | [], buf => pure (none, buf)
  | idx :: rest, buf =>
      if p.iSectors idx = 0 then searchSectorsLog disk p dname dnameLen rest buf
      else do
        let (loop, startLba, buf) ← openSectorLog disk p idx buf
        match ← searchLoopLog disk dname dnameLen loop 0 startLba buf with
        | (some iNo, buf) => pure (some iNo, buf)
        | (none, buf) => searchSectorsLog disk p dname dnameLen rest buf

/-- `searchDisk`. -/
def searchDiskLog (disk : Disk) (p : Inode) (dname : Bytes) (dnameLen : Nat) (buf : Bytes) :
    Logged Access (Option Nat × Bytes) :=
  searchSectorsLog disk p dname dnameLen (List.range 13) buf

/-- What `search_dentry` has found when it comes to `inode_open`: the directory for `.` or `..`, a
dentry in memory, the `i_no` of an entry on the disk, or nothing. -/
inductive Lookup where
  | dots (d : Nat)
  | cached (d : Nat)
  | entry (iNo : Nat)
  | missing
  deriving DecidableEq, Repr

/-- `search_dentry` in front of `inode_open`. -/
def lookupLog (s : DirSys) (parent : Nat) (dname : Bytes) (dnameLen : Nat) (buf : Bytes) :
    Logged Access (Except Halt Lookup) :=
  if dnameLen = 1 ∧ dname 0 = DOT then pure (.ok (.dots parent))
  else if dnameLen = 2 ∧ dname 0 = DOT ∧ dname 1 = DOT then
    pure (.ok (.dots (s.dentry parent).dParent))
  else
    match findCached s.dentry s.dChild dname dnameLen LIST_WALK (s.dentry parent).dSubdirs.head with
    | .error e => pure (.error e)
    | .ok (some subdir) => pure (.ok (.cached subdir))
    | .ok none => do
        match ← searchDiskLog s.fs.disk (s.fs.inode (s.dentry parent).inode) dname dnameLen buf with
        | (some iNo, _) => pure (.ok (.entry iNo))
        | (none, _) => pure (.ok .missing)

/-- What `search_dentry` does with it. -/
def openLookup (s : DirSys) (parent : Nat) (dname : Bytes) (dnameLen i d : Nat) :
    Lookup → Except Halt (Option Nat × DirSys)
  | .dots dir => pure (some dir, s)
  | .cached subdir =>
      let x := s.dentry subdir
      pure (some subdir, s.setDentry subdir { x with count := atomicInc x.count })
  | .missing => pure (none, s)
  | .entry iNo => do
      let (inode, fs) ← inodeOpen s.fs iNo i
      let s := { s with fs }
      let s := s.setDentry d
        { fname := strncpy (fun _ => 0) 0 dname dnameLen
          fnameLen := dnameLen, count := 1, inode, dParent := parent, dSubdirs := listInit }
      let s ← s.pushChild parent d
      pure (some d, s)

end Fizzos.Fs
