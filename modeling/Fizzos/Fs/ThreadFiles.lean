import Fizzos.Fs.Descriptors

/-!
# `Fizzos.Fs.ThreadFiles`: threads and their descriptors

`file_init` clears `file_table` and marks two slots: slot 0 is the keyboard and slot 1 is the
screen. `files_struct_init` gives every new thread the slots 0, 1 and 2 as its descriptors 0, 1 and
2. So slot 2 is neither a device nor a file with a dentry.

`kthread_create` calls `files_struct_init`. `do_fork` copies the `task_struct`, and with it the
pointer `files`: the call of `copy_file` is a comment. So a child has the descriptors of its parent,
and not a copy of them.

A `struct files_struct` and a thread are named by their addresses. `files_struct_init` sets `root`
and `cwd` to `root_dir` as well.

Left out: the thread `idle`, whose `files_struct` is older than `file_init`, and `main`, which has
none. Neither makes a call.
-/

set_option autoImplicit false

namespace Fizzos.Fs

open Fizzos.Device
open Fizzos.Kernel
open Fizzos.LibKernel
open Fizzos.Support

/-- `AT_FDCWD`. -/
def AT_FDCWD : Int := -100

/-! ### The start -/

/-- `file_init`: `file_table`, and the field `f_mode` of its slots. -/
def fileInit : (Nat → File) × (Nat → Nat) :=
  let file : Nat → File := fun _ => { count := 0, pos := 0, fDentry := 0 }
  let fMode : Nat → Nat := fun _ => 0
  let fMode := Function.update fMode 0 FT_KEYBOARD
  let file := Function.update file 0 { file 0 with count := atomicInc (file 0).count }
  let fMode := Function.update fMode 1 FT_SCREEN
  let file := Function.update file 1 { file 1 with count := atomicInc (file 1).count }
  (file, fMode)

/-- `open_root_dir`. `root_inode_no` is `rootNo`, and `i` is the address of a new inode. -/
def openRootDir (s : DirSys) (rootDir rootNo i : Nat) : Except Halt DirSys := do
  let (inode, fs) ← inodeOpen s.fs rootNo i
  let x := s.dentry rootDir
  pure ({ s with fs }.setDentry rootDir
    { x with inode, dParent := rootDir, fname := Function.update x.fname 0 0x2f, fnameLen := 1 })

/-- `root_dir` is in static storage. -/
structure StaticRoot (s : DirSys) (rootDir : Nat) : Prop where
  addr : rootDir ≠ 0
  dSubdirs : (s.dentry rootDir).dSubdirs = listInit
  dChild : (s.dChild rootDir).next = none

/-! ### A new thread -/

/-- `atomic_inc(&file_table[f].count)`. -/
def FileTable.incCount (t : FileTable) (f : Nat) : FileTable :=
  { t with file := Function.update t.file f { t.file f with count := atomicInc (t.file f).count } }

/-- `files_struct_init`. -/
def filesStructInit (t : FileTable) : FdTable × FileTable :=
  -- `kzalloc`
  let files : FdTable := { openFds := 0, fdArray := fun _ => none }
  let t := ((t.incCount 0).incCount 1).incCount 2
  let files := installFd files 0 (some 0)
  let files := installFd files 1 (some 1)
  let files := installFd files 2 (some 2)
  ({ files with openFds := 0b111 }, t)

/-! ### `sys_openat` with a descriptor -/

/-- What `parse_path` finds behind `dirfd`. It does not look at `open_fds`. -/
def dirFdOf (t : FileTable) (files : FdTable) (dirfd : Int) (path : List (BitVec 8)) :
    Except Halt DirFd :=
  if path.head? = some 0x2f ∨ dirfd = AT_FDCWD then pure .fdcwd
  else do
    let f ← files.at dirfd
    let f ← deref f
    if (t.file f).fDentry = 0 then .error .nullDeref
    else pure (.file (t.file f).fDentry)

/-- The arguments of `sys_openat`, the addresses of its buffers, and what the call finds in
memory. -/
structure OpenArgs where
  dirfd : Int
  path : Path
  flags : Nat
  tmp : Nat
  buf : Nat
  m : OpenMem

/-- `sys_openat` in a process with the directories `root` and `cwd`. Without a free descriptor it
does not come to `parse_path`. -/
def openatFd (io : Io) (root cwd : Nat) (args : OpenArgs) (current : Tid) :
    Except Halt (Int × Io) := do
  let dirfd ←
    if (allocFd io.files).isNone then pure .fdcwd
    else dirFdOf io.table io.files args.dirfd args.path.chars
  let (fd, st) ← sysOpenat { files := io.files, table := io.table, heap := [] } root cwd dirfd
    args.path args.flags args.tmp args.buf args.m current
  pure (fd, { io with files := st.files, table := st.table })

/-! ### Runs -/

/-- The threads and their descriptors, and the rest of what the calls work on. -/
structure ThreadFiles where
  table : FileTable
  fMode : Nat → Nat
  keyboard : Ioqueue
  /-- The `struct files_struct` at an address. -/
  files : Nat → Option FdTable
  /-- The pointer `files` of a thread. -/
  task : Tid → Option Nat

/-- The actions. `t` is the thread that makes the call. -/
inductive ThreadAct where
  /-- `kthread_create` of the thread `t`, with the address that `kzalloc` returns. -/
  | kthreadCreate (t : Tid) (addr : Nat)
  | fork (t child : Tid)
  | openat (t : Tid) (args : OpenArgs)
  | close (t : Tid) (fd : Int)
  | read (t : Tid) (fd : Int) (dest : Bytes) (count : Nat) (ioBuf : Bytes)
  | write (t : Tid) (fd : Int) (src : Bytes) (count : Nat) (ioBuf pad : Bytes) (printed : Int)

namespace ThreadFiles

/-- What a call of a process with the descriptors `files` works on. -/
def io (s : ThreadFiles) (files : FdTable) : Io :=
  { table := s.table, fMode := s.fMode, keyboard := s.keyboard, files }

/-- The state behind a call of a process whose `struct files_struct` is at `addr`. -/
def put (s : ThreadFiles) (addr : Nat) (io : Io) : ThreadFiles :=
  { s with
    table := io.table, keyboard := io.keyboard
    files := Function.update s.files addr (some io.files) }

/-- A system call of the thread `t`. -/
def call (s : ThreadFiles) (t : Tid) (f : Io → Except Halt Io) : Except Halt ThreadFiles := do
  let addr ← deref (s.task t)
  let files ← deref (s.files addr)
  let io ← f (s.io files)
  pure (s.put addr io)

/-- `kthread_create`, as far as the files go. -/
def kthreadCreate (s : ThreadFiles) (t : Tid) (addr : Nat) : ThreadFiles :=
  let (files, table) := filesStructInit s.table
  { s with
    table
    files := Function.update s.files addr (some files)
    task := Function.update s.task t (some addr) }

/-- `do_fork`, as far as the files go. -/
def doFork (s : ThreadFiles) (t child : Tid) : ThreadFiles :=
  { s with task := Function.update s.task child (s.task t) }

/-- A new thread has a new `task_struct`. `kzalloc` returns kernel memory that no `files_struct` is
in, and `kmalloc` does not return `NULL`. -/
def Enabled (s : ThreadFiles) : ThreadAct → Prop
  | .kthreadCreate t addr =>
      s.task t = none ∧ s.files addr = none ∧ KERNEL_VADDR_START ≤ addr ∧ addr < 2 ^ 32
  | .fork t child => s.task t ≠ none ∧ s.task child = none
  | .openat t args => s.task t ≠ none ∧ args.m.dentry ≠ 0 ∧ ∀ n, (args.m.addrs n).2 ≠ 0
  | .close t _ => s.task t ≠ none
  | .read t _ _ _ _ => s.task t ≠ none
  | .write t _ _ _ _ _ _ => s.task t ≠ none

def next (rootDir : Nat) (s : ThreadFiles) : ThreadAct → Except Halt ThreadFiles
  | .kthreadCreate t addr => pure (s.kthreadCreate t addr)
  | .fork t child => pure (s.doFork t child)
  | .openat t args => s.call t fun io => do
      let (_, io) ← openatFd io rootDir rootDir args t
      pure io
  | .close t fd => s.call t fun io => do
      let (_, io) ← sysClose io rootDir fd
      pure io
  | .read t fd dest count ioBuf => s.call t fun io => do
      let (_, _, io) ← sysRead io fd dest count ioBuf t
      pure io
  | .write t fd src count ioBuf pad printed => s.call t fun io => do
      let (_, io) ← sysWrite io fd src count ioBuf pad printed t
      pure io

/-- Behind `file_init` and `open_root_dir`: no thread but `idle` was created. -/
def Init (rootDir : Nat) (s : ThreadFiles) : Prop :=
  (∃ dirs rootNo i, StaticRoot dirs rootDir ∧
    openRootDir dirs rootDir rootNo i = .ok s.table.dirs) ∧
  (s.table.file, s.fMode) = fileInit ∧ (∀ addr, s.files addr = none) ∧ ∀ t, s.task t = none

/-- No path is relative to an open file that is not a directory. -/
def RelativeToDir (rootDir : Nat) (s : ThreadFiles) : ThreadAct → Prop
  | .openat t args => ∀ addr files dirfd, s.task t = some addr → s.files addr = some files →
      dirFdOf s.table files args.dirfd args.path.chars = .ok dirfd →
      pathStart s.table.dirs rootDir rootDir dirfd args.path.chars ≠ none
  | _ => True

end ThreadFiles

/-- Any run of threads that are created, fork, and open, close, read and write files. -/
def threadSystem (rootDir : Nat) : System ThreadFiles ThreadAct Halt where
  init := ThreadFiles.Init rootDir
  enabled := ThreadFiles.Enabled
  next := ThreadFiles.next rootDir

/-- `threadSystem` where each path starts in a directory. With another `parse_path` returns
`-ENOTDIR`, and `filp_openat` goes on with a `res` that nobody has set. -/
def startedSystem (rootDir : Nat) : System ThreadFiles ThreadAct Halt :=
  (threadSystem rootDir).restrict (ThreadFiles.RelativeToDir rootDir)

end Fizzos.Fs
