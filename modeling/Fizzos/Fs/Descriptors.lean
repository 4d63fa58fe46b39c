import Fizzos.Device.Ioqueue
import Fizzos.Fs.PathCalls

/-!
# `Fizzos.Fs.Descriptors`: `sys_read`, `sys_write` and `sys_close` of `fs/fs.c`

Each call takes a descriptor and checks it in its own way. `sys_read` and `sys_write` return -1 for
a negative one and assert its bit in `open_fds`. `sys_close` returns `-EBADF`, and compares with the
size of `file_table`, not with the size of `fd_array`. The shift count of `1 << fd` is taken modulo
32, as on x86.

`file_read` and `file_write` follow `f_dentry`, unless the file is the keyboard or the screen. A
`f_dentry` of 0 is `NULL`.

Left out: the text that `console_print` puts on the screen. Its result is an argument of the call.
-/

set_option autoImplicit false

namespace Fizzos.Fs

open Fizzos.Device
open Fizzos.Kernel
open Fizzos.Support

def EBADF : Int := 9

/-- What a call of a process works on: `file_table`, the field `f_mode` of its slots, the queue of
the keyboard, and the descriptors. -/
structure Io where
  table : FileTable
  fMode : Nat → Nat
  keyboard : Ioqueue
  files : FdTable

/-! ### The checks -/

/-- `1 << fd`. -/
def fdBit (fd : Int) : Nat := 1 <<< (fd % 32).toNat

/-- The index into `fd_array` of `sys_read` and `sys_write`. `none` is for the return of -1. The
test `count < 0` is on a `size_t`. -/
def transferIndex (openFds : Nat) (fd : Int) : Except Halt (Option Int) :=
  if fd < 0 then pure none
  else do
    ASSERT (openFds &&& fdBit fd ≠ 0)
    pure (some fd)

/-- The index into `fd_array` of `sys_close`. `none` is for the return of `-EBADF`. -/
def closeIndex (openFds : Nat) (fd : Int) : Option Int :=
  if fd < 0 ∨ fd ≥ MAX_FILE_COUNT ∨ openFds &&& fdBit fd = 0 then none else some fd

/-- `fd_array[i]`. -/
def FdTable.at (files : FdTable) (i : Int) : Except Halt (Option Nat) :=
  if 0 ≤ i ∧ i < P_MAX_FILE_COUNT then pure (files.fdArray i.toNat) else .error .outOfBounds

/-! ### `sys_close` -/

/-- `file_close` of a pointer. `dentry_close` dereferences the dentry of a file that nobody else has
open. -/
def closeFile (t : FileTable) (rootDir : Nat) (f : Option Nat) : Except Halt FileTable := do
  let f ← deref f
  if (t.file f).count = 1 ∧ (t.file f).fDentry = 0 then .error .nullDeref
  else fileClose t rootDir f

/-- `sys_close`. -/
def sysClose (io : Io) (rootDir : Nat) (fd : Int) : Except Halt (Int × Io) :=
  match closeIndex io.files.openFds fd with
  | none => pure (-EBADF, io)
  | some i => do
      let f ← io.files.at i
      let table ← closeFile io.table rootDir f
      let files ← freeFd io.files (fd % 32).toNat
      pure (0, { io with table, files })

/-! ### `sys_read` and `sys_write` -/

/-- Where the data of a transfer is: at a device, or in the file of an inode. -/
inductive Target where
  | device
  | inode (p : Nat)
  deriving DecidableEq, Repr

/-- The beginning of `file_read` and of `file_write`, with the type of the device that the function
knows. -/
def fileTarget (t : FileTable) (fMode : Nat → Nat) (device f : Nat) : Except Halt Target :=
  if fMode f &&& 0xf000 = device then pure .device
  else if (t.file f).fDentry = 0 then .error .nullDeref
  else pure (.inode (t.dirs.dentry (t.file f).fDentry).inode)

/-- `f->pos = pos`. -/
def FileTable.setPos (t : FileTable) (f pos : Nat) : FileTable :=
  { t with file := Function.update t.file f { t.file f with pos } }

/-- `sys_read`: the result, the buffer of the caller, and the rest. -/
def sysRead (io : Io) (fd : Int) (dest : Bytes) (count : Nat) (ioBuf : Bytes) (current : Tid) :
    Except Halt (Int × Bytes × Io) := do
  match ← transferIndex io.files.openFds fd with
  | none => pure (-1, dest, io)
  | some i =>
      match ← io.files.at i with
      | none => pure (-1, dest, io)
      | some f =>
          match ← fileTarget io.table io.fMode FT_KEYBOARD f with
          | .device => do
              let (ret, line, keyboard) ← ioqueueGetline io.keyboard (wrap32 count) current
              pure (ret, copyBytes dest 0 (fun k => line.getD k 0) 0 line.length,
                { io with keyboard })
          | .inode p => do
              let (ret, pos, dest) ←
                fileRead io.table.dirs.fs p dest count (io.table.file f).pos ioBuf
              pure (wrap32 ret, dest, { io with table := io.table.setPos f pos })

/-- `sys_write`: the result, and the rest. `printed` is what `console_print` returns. -/
def sysWrite (io : Io) (fd : Int) (src : Bytes) (count : Nat) (ioBuf pad : Bytes) (printed : Int)
    (current : Tid) : Except Halt (Int × Io) := do
  match ← transferIndex io.files.openFds fd with
  | none => pure (-1, io)
  | some i =>
      match ← io.files.at i with
      | none => pure (-1, io)
      | some f =>
          match ← fileTarget io.table io.fMode FT_SCREEN f with
          | .device => pure (printed, io)
          | .inode p => do
              let t := io.table
              let (ret, pos, fs) ←
                fileWrite t.dirs.fs p src count (t.file f).pos ioBuf pad current
              let t := { t with dirs := { t.dirs with fs } }
              pure (wrap32 ret, { io with table := t.setPos f pos })

end Fizzos.Fs
