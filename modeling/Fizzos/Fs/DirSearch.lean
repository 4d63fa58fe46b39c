import Fizzos.Fs.Dir
import Fizzos.Support.Visit

/-!
# `Fizzos.Fs.DirSearch`: going over the entries of a directory, of `fs/dir.c`

`dir_search_disk` calls `func` on the entries in the sectors of a directory. `func` reads the 32
bytes of the entry and works on `arg`, and does not write to `buf`. The log has the calls, each with
the place of its entry: the number of the sector in the directory (from 12 on these are the ones of
the index block), and the slot.

`sys_printdir` calls it with `add_dentry`, which puts the entries on a list.

Left out: what `sys_printdir` prints, and the test of `ide_read`. The sectors of a directory are on
the disk (`SectorsOnDisk`), and the loops read none that `search_dentry` does not read.
-/

set_option autoImplicit false

namespace Fizzos.Fs

open Fizzos.Device
open Fizzos.Kernel
open Fizzos.Support

/-- `struct dentry_disk`, as its bytes. -/
abbrev EntryBytes := List (BitVec 8)

/-- A call of `func`: the place of the entry, and what is there. -/
structure EntryCall where
  sec : Nat
  slot : Nat
  entry : EntryBytes
  deriving DecidableEq

/-- `*((struct dentry_disk*)buf + j)`. -/
def entryAt (buf : Bytes) (j : Nat) : EntryBytes :=
  (List.range SIZEOF_DENTRY_DISK).map fun k => buf (SIZEOF_DENTRY_DISK * j + k)

section
variable {σ : Type} (func : σ → EntryBytes → Bool × σ)

/-- The loop over the entries of a sector that are left. -/
def searchEntries (buf : Bytes) (sec : Nat) : List Nat → σ → Logged EntryCall σ
  | [], arg => pure arg
  | j :: rest, arg =>
      if slotType buf j ≠ FT_UNKNOWN then do
        .tell [⟨sec, j, entryAt buf j⟩]
        let (again, arg) := func arg (entryAt buf j)
        if again = false then pure arg else searchEntries buf sec rest arg
      else searchEntries buf sec rest arg

/-- The loop over sectors, from number `times` on. -/
def searchTimes (disk : Disk) (idx : Nat) : Nat → Nat → Nat → Bytes → σ →
    Logged EntryCall (Bytes × σ)
  | 0, _, _, buf, arg => pure (buf, arg)
  | n + 1, times, startLba, buf, arg => do
      let buf := ideRead disk startLba buf 0 1
      let arg ← searchEntries func buf (idx + times) (List.range SLOTS) arg
      let startLba := load32 buf (SECTOR_SIZE + 4 * (times + 1))
      searchTimes disk idx n (times + 1) startLba buf arg

/-- The loop over `i_sectors`. -/
def searchIdxs (disk : Disk) (p : Inode) : List Nat → Bytes → σ → Logged EntryCall (Bytes × σ)
  | [], buf, arg => pure (buf, arg)
  | idx :: rest, buf, arg =>
      if p.iSectors idx = 0 then searchIdxs disk p rest buf arg
      else do
        let (loop, startLba, buf) :=
          if idx = 12 then
            let buf := ideRead disk (p.iSectors 12) buf SECTOR_SIZE 1
            (SECTOR_SIZE / 4, load32 buf SECTOR_SIZE, buf)
          else (1, p.iSectors idx, buf)
        let (buf, arg) ← searchTimes func disk idx loop 0 startLba buf arg
        searchIdxs disk p rest buf arg

/-- `dir_search_disk`: what is behind `arg`, with the calls. `buf` is from `kmalloc`. -/
def dirSearchDisk (disk : Disk) (p : Inode) (buf : Bytes) (arg : σ) :
    Except Halt (Logged EntryCall σ) := do
  ASSERT (p.iMode &&& 0xf000 = FT_DIR)
  pure (do
    let (_, arg) ← searchIdxs func disk p (List.range 13) buf arg
    pure arg)

end

/-- `add_dentry`. -/
def addDentry (dentryList : List EntryBytes) (dentry : EntryBytes) : Bool × List EntryBytes :=
  (true, dentryList ++ [dentry])

end Fizzos.Fs
