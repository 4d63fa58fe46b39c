import Fizzos.Fs.Open
import Fizzos.Kernel.Exec

/-!
# `Fizzos.Kernel.ExecFiles`: the files of a program

`do_exec` of `kernel/exec.c` as a whole: it opens the program, loads it as `doExec` does, and
between the header and the areas it closes the files of the program before.

`files_struct_init` sets `map_file` to `NULL` and `close_on_exec` to 0, and no code but `do_exec`
writes to them later.

Left out as in `doExec`: the arguments on the user stack, the pages that `exec_mmap` frees, and the
page of the stack.
-/

set_option autoImplicit false

namespace Fizzos.Kernel

open Fizzos.Fs
open Fizzos.Lib
open Fizzos.Support

/-- `struct files_struct`, with slots of `file_table` for pointers. -/
structure FilesStruct where
  mapFile : Option Nat
  closeOnExec : Nat
  openFds : Nat
  fdArray : Nat → Nat

/-- What `do_exec` works on: `file_table`, the files and the `mm` of the process, and the memory
from `elf_head` on. -/
structure ExecState where
  table : FileTable
  files : FilesStruct
  mm : MmStruct
  mem : Bytes

/-- What a call of `do_exec` finds: the path and the directories of the process, the memory for
`filp_openat`, and `io_buf` of `file_read`. `root` is `&root_dir`, too. -/
structure ExecCall where
  path : Path
  root : Nat
  cwd : Nat
  openMem : OpenMem
  ioBuf : Bytes
  current : Tid

/-- The loop of `flush_old_files`, with `close_on_exec` in a variable. -/
def flushLoop (root : Nat) : List Nat → Nat → FilesStruct → FileTable →
    Except Halt (Nat × FilesStruct × FileTable)
  | [], closeOnExec, f, t => pure (closeOnExec, f, t)
  | i :: rest, closeOnExec, f, t =>
      if closeOnExec &&& (1 <<< i) = 1 then do
        let t ← fileClose t root (f.fdArray i)
        let mask := 0xffffffff ^^^ (1 <<< i)
        flushLoop root rest (closeOnExec &&& mask) { f with openFds := f.openFds &&& mask } t
      else flushLoop root rest closeOnExec f t

/-- `flush_old_files`. -/
def flushOldFiles (t : FileTable) (root : Nat) (f : FilesStruct) :
    Except Halt (FilesStruct × FileTable) := do
  let (closeOnExec, f, t) ← flushLoop root (List.range 32) f.closeOnExec f t
  pure ({ f with closeOnExec }, t)

/-- The `if` of `do_exec` around `map_file`. -/
def closeImage (t : FileTable) (root : Nat) (f : FilesStruct) (file : Nat) :
    Except Halt (FilesStruct × FileTable) :=
  match f.mapFile with
  | some old => do
      let t ← fileClose t root old
      pure ({ f with mapFile := some file }, t)
  | none => pure (f, t)

/-- `do_exec`: the result, and the state behind it. -/
def doExecve (st : ExecState) (c : ExecCall) : Except Halt (Int × ExecState) := do
  match ← filpOpenat st.table c.root c.cwd .fdcwd c.path O_RDWR c.openMem c.current with
  | (.enoent, table) => pure (-2, { st with table })
  | (.null, _) => .error .nullDeref
  | (.file file, table) => do
      let p := (table.dirs.dentry (table.file file).fDentry).inode
      let (_, _, mem) ← fileRead table.dirs.fs p st.mem 200 0 c.ioBuf
      if memcmp mem elfMagic 16 ≠ 0 then PANIC
      else do
        -- `flush_old_exec`
        let mm := { st.mm with mmap := [] }
        let (files, table) ← flushOldFiles table c.root st.files
        let (files, table) ← closeImage table c.root files file
        let mm ← phdrLoop mem file (List.range (ePhnum mem)) mm
        let (_, mm) ← doMmap mm none (TASK_SIZE - PG_SIZE * 2) (PG_SIZE * 2) 0 0
        pure (0, { table, files, mm, mem })

end Fizzos.Kernel
