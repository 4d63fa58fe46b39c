import Fizzos.Fs.Open

/-!
# `Fizzos.Fs.PathCalls`: system calls with a path of `fs/fs.c` and `fs/dir.c`

`sys_openat` takes a descriptor before it opens the file, and gives it back when `filp_openat`
returns an error. `IS_ERR` does not hold of `NULL`, so a `NULL` is stored in `fd_array`.

`sys_mkdirat` makes a directory in `res.parent` when `res.child` is `NULL`. It does not look at
`res.nextdir`.

`tmp` and `buf` are the addresses of the copy of the path and of the buffer of 1024 bytes. `heap`
has the buffers that `kmalloc` has returned and `kfree` has not taken back.

Left out: the mode of `sys_openat`, which nothing uses.
-/

set_option autoImplicit false

namespace Fizzos.Fs

open Fizzos.Kernel
open Fizzos.Support

/-! ### Descriptors -/

/-- The fields of `struct files_struct` that a descriptor has: `open_fds` and `fd_array`, with slots
of `file_table` for pointers and `none` for `NULL`. -/
structure FdTable where
  openFds : Nat
  fdArray : Nat → Option Nat

/-- `P_MAX_FILE_COUNT`. -/
def P_MAX_FILE_COUNT : Nat := 32

/-- `alloc_fd`: the descriptor, or `none` for -1. -/
def allocFd (files : FdTable) : Option (Nat × FdTable) :=
  ((List.range P_MAX_FILE_COUNT).find? fun i => decide ((1 <<< i) &&& files.openFds = 0)).map
    fun i => (i, { files with openFds := files.openFds ||| (1 <<< i) })

/-- `free_fd`. -/
def freeFd (files : FdTable) (fd : Nat) : Except Halt FdTable := do
  ASSERT (files.openFds &&& (1 <<< fd) ≠ 0)
  pure { files with openFds := files.openFds &&& (0xffffffff ^^^ (1 <<< fd)) }

/-- `install_fd`. -/
def installFd (files : FdTable) (fd : Nat) (f : Option Nat) : FdTable :=
  { files with fdArray := Function.update files.fdArray fd f }

/-! ### `sys_openat` -/

/-- `filp_openat` behind `parse_path`. -/
def openFound (t : FileTable) (res : SearchRes) (flags : Nat) (m : OpenMem) (current : Tid) :
    Except Halt (OpenedFile × FileTable) :=
  if res.child.isNone && res.nextdir.isNone && decide (flags &&& O_CREAT ≠ 0) then do
    let (f, t) ← fileCreate t (charsAt res.curdir) res.curdirLen res.parent m.buf m.inode m.dentry
      m.pad current
    match f with
    | some f => pure (.file f, t)
    | none => pure (.null, t)
  else
    match res.child with
    | none => pure (.enoent, t)
    | some child =>
        if res.nextdir.isNone then do
          let f ← deref (getFreeFileOfTable t)
          let x := { t.file f with fDentry := child }
          let x := { x with count := atomicInc x.count, pos := 0 }
          pure (.file f, { t with file := Function.update t.file f x })
        else PANIC

/-- `filp_openat` goes along the path first. -/
theorem filpOpenat_eq (t : FileTable) (root cwd : Nat) (dirfd : DirFd) (path : Path) (flags : Nat)
    (m : OpenMem) (current : Tid) :
    filpOpenat t root cwd dirfd path flags m current =
      parsePath t.dirs root cwd dirfd path m.bufs m.addrs >>= fun r =>
        openFound { t with dirs := r.2 } (r.1.getD m.res) flags m current := rfl

/-- What `sys_openat` works on. -/
structure OpenState where
  files : FdTable
  table : FileTable
  heap : List Nat

/-- `sys_openat` for a path that `getname` has copied to `tmp`. -/
def sysOpenat (st : OpenState) (root cwd : Nat) (dirfd : DirFd) (path : Path) (flags tmp buf : Nat)
    (m : OpenMem) (current : Tid) : Except Halt (Int × OpenState) := do
  -- `getname`
  let heap := tmp :: st.heap
  let (fd, files, table, heap) ←
    match allocFd st.files with
    | none => pure ((-1 : Int), st.files, st.table, heap)
    | some (fd, files) => do
        -- the buffer of `filp_openat`
        let heap := buf :: heap
        let (f, table) ← filpOpenat st.table root cwd dirfd path flags m current
        let heap := heap.erase buf
        match f with
        | .enoent => do
            let files ← freeFd files fd
            pure ((-2 : Int), files, table, heap)
        | .null => pure ((fd : Int), installFd files fd none, table, heap)
        | .file f => pure ((fd : Int), installFd files fd (some f), table, heap)
  -- `putname`
  pure (fd, { files, table, heap := heap.erase tmp })

/-! ### `sys_mkdirat` -/

/-- The first `if` of `sys_mkdirat`: a path relative to an open file is not handled. -/
def mkdirRelative (dirfd : DirFd) (path : List (BitVec 8)) : Except Halt Unit :=
  if path.head? = some 0x2f then pure ()
  else
    match dirfd with
    | .fdcwd => pure ()
    | .file _ => PANIC

/-- `sys_mkdirat` behind `parse_path`. -/
def mkdirFound (s : DirSys) (res : SearchRes) (mode : Nat) (m : OpenMem) (current : Tid) :
    Except Halt (Int × DirSys) := do
  ASSERT (res.child = none)
  dirCreate s res.parent mode m.buf
    (charsAt res.curdir) res.curdirLen m.inode m.dentry m.pad current

/-- `sys_mkdirat`. -/
def sysMkdirat (s : DirSys) (root cwd : Nat) (dirfd : DirFd) (path : Path) (mode : Nat)
    (m : OpenMem) (current : Tid) : Except Halt (Int × DirSys) := do
  mkdirRelative dirfd path.chars
  let (found, s) ← parsePath s root cwd dirfd path m.bufs m.addrs
  mkdirFound s (found.getD m.res) mode m current

end Fizzos.Fs
