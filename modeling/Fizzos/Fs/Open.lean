import Fizzos.Fs.File
import Fizzos.Fs.Path

/-!
# `Fizzos.Fs.Open`: opening and closing a file of `fs/file.c`

`filp_openat` goes along the path, takes the first slot of `file_table` with `count == 0` and stores
the dentry in it. It uses the slot without a test for `NULL`. It does not look at the result of
`parse_path` either, which leaves `res` alone when it returns `-ENOTDIR`.

`OpenMem` has what memory and `kmalloc` provide to a call.

Left out: `f_flags` and `f_mode`.
-/

set_option autoImplicit false

namespace Fizzos.Fs

open Fizzos.Kernel
open Fizzos.Support

def O_RDWR : Nat := 2
def O_CREAT : Nat := 64

/-- What a call of `filp_openat` finds: the buffers and addresses of `parse_path`, `res` and `buf`
behind it, and the addresses and the padding of a new file. -/
structure OpenMem where
  bufs : Nat → Bytes
  addrs : Nat → Nat × Nat
  res : SearchRes
  buf : Bytes
  inode : Nat
  dentry : Nat
  pad : Bytes

/-- The pointer that `filp_openat` returns: a slot of `file_table`, `NULL`, or
`ERR_PTR(-ENOENT)`. -/
inductive OpenedFile where
  | file (f : Nat)
  | null
  | enoent
  deriving DecidableEq, Repr

/-- `filp_openat`, in a process with the directories `root` and `cwd`. -/
def filpOpenat (t : FileTable) (root cwd : Nat) (dirfd : DirFd) (path : Path) (flags : Nat)
    (m : OpenMem) (current : Tid) : Except Halt (OpenedFile × FileTable) := do
  let (found, dirs) ← parsePath t.dirs root cwd dirfd path m.bufs m.addrs
  let t := { t with dirs }
  let res := found.getD m.res
  if res.child.isNone && res.nextdir.isNone && decide (flags &&& O_CREAT ≠ 0) then do
    let (f, t) ← fileCreate t (charsAt res.curdir) res.curdirLen res.parent m.buf m.inode m.dentry
      m.pad current
    match f with
    | some f => pure (.file f, t)
    | none => pure (.null, t)
  else
    match res.child with
    | none => pure (.enoent, t)
    | some child =>
        if res.nextdir.isNone then do
          let f ← deref (getFreeFileOfTable t)
          let x := { t.file f with fDentry := child }
          let x := { x with count := atomicInc x.count, pos := 0 }
          pure (.file f, { t with file := Function.update t.file f x })
        else PANIC

/-- `dentry_close`. -/
def dentryClose (s : DirSys) (rootDir d : Nat) : Except Halt DirSys :=
  if d = rootDir then pure s
  else do
    let x := s.dentry d
    ASSERT (x.count > 0)
    pure (s.setDentry d { x with count := (atomicDecAndSete x.count).1 })

/-- `file_close`. -/
def fileClose (t : FileTable) (rootDir f : Nat) : Except Halt FileTable := do
  let x := t.file f
  ASSERT (x.count > 0)
  let (count, last) := atomicDecAndSete x.count
  let t := { t with file := Function.update t.file f { x with count } }
  if last then do
    let dirs ← dentryClose t.dirs rootDir x.fDentry
    pure { t with dirs }
  else pure t

end Fizzos.Fs
