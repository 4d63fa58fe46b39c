import Fizzos.Fs.PathCalls

/-!
# `Fizzos.Fs.UserPath`: the memory of a path

`parse_path` puts a `'\0'` in the place of each `'/'` that it comes to, in the string of its caller.
`PathCursor` has its variables, with addresses for the pointers, and `parsePathIn` is `parse_path`
on the memory of the kernel and of the program that calls it. `Fizzos.Fs.Path` has the same walk on
the characters.

`getname`, `sys_mkdirat` and `sys_chdir` copy 127 bytes from the program, and put a `'\0'` behind
them. `sys_chdir` passes the pointer of the program to `parse_path` all the same, and so does
`do_exec`, which makes no copy.

A string is shorter than the memory, so `2 ^ 32` steps are enough to find its end.
-/

set_option autoImplicit false

namespace Fizzos.Fs

open Fizzos.Kernel
open Fizzos.Lib
open Fizzos.Support

/-- The characters behind the address `p`, up to the `'\0'` and at most `n`. -/
def stringFrom (mem : Bytes) : Nat → Nat → List (BitVec 8)
  | 0, _ => []
  | n + 1, p => if mem p = 0 then [] else mem p :: stringFrom mem n (p + 1)

/-- The string at the address `p`. -/
def stringAt (mem : Bytes) (p : Nat) : List (BitVec 8) := stringFrom mem (2 ^ 32) p

/-- `strchr`, for a character that is not `'\0'`. -/
def strchr (mem : Bytes) (p : Nat) (c : BitVec 8) : Option Nat :=
  ((stringAt mem p).findIdx? fun a => decide (a = c)).map fun i => p + i

/-- The variables of `parse_path`. -/
structure PathCursor where
  parent : Nat
  child : Option Nat
  cur : Nat
  curlen : Nat
  next : Option Nat

/-- The loop of `parse_path`. It takes at most `n` rounds. -/
def parseLoopIn (bufs : Nat → Bytes) (addrs : Nat → Nat × Nat) :
    Nat → DirSys → Bytes → PathCursor → Except Halt (PathCursor × Bytes × DirSys)
  | 0, s, mem, c => pure (c, mem, s)
  | n + 1, s, mem, c =>
      match c.next, c.child with
      | some cur, some parent =>
          if mem cur = 0 then pure (c, mem, s)
          else do
            let (curlen, next, mem) :=
              match strchr mem cur 0x2f with
              | some next => (next - cur, some (next + 1), Function.update mem next 0)
              | none => (strlen (charsAt (stringAt mem cur)), none, mem)
            let (child, s) ← searchDentry s parent (charsAt (stringAt mem cur)) (curlen % 2 ^ 16)
              (bufs n) (addrs n).1 (addrs n).2
            parseLoopIn bufs addrs n s mem { parent, child, cur, curlen, next }
      | _, _ => pure (c, mem, s)

/-- Where `parse_path` starts: the directory, and the address. -/
def pathStartIn (s : DirSys) (mem : Bytes) (root cwd : Nat) (dirfd : DirFd) (path : Nat) :
    Option (Nat × Nat) :=
  if mem path = 0x2f then some (root, path + 1)
  else
    match dirfd with
    | .fdcwd => some (cwd, path)
    | .file parent =>
        if (s.fs.inode (s.dentry parent).inode).iMode &&& FT_DIR = 0 then none
        else some (parent, path)

/-- `parse_path` on the string at the address `path`. `n` is at least its length. -/
def parsePathIn (s : DirSys) (mem : Bytes) (root cwd : Nat) (dirfd : DirFd) (path n : Nat)
    (bufs : Nat → Bytes) (addrs : Nat → Nat × Nat) :
    Except Halt (Option PathCursor × Bytes × DirSys) :=
  match pathStartIn s mem root cwd dirfd path with
  | none => pure (none, mem, s)
  | some (parent, cur) => do
      let (c, mem, s) ← parseLoopIn bufs addrs n s mem
        { parent, child := some parent, cur, curlen := 0, next := some cur }
      pure (some c, mem, s)

/-- `*res`, with the strings in place of the addresses. -/
def PathCursor.result (c : PathCursor) (mem : Bytes) : SearchRes where
  parent := c.parent
  child := c.child
  curdir := stringAt mem c.cur
  curdirLen := c.curlen % 2 ^ 16
  nextdir := c.next.map (stringAt mem)

/-! ### The system calls -/

/-- The copy of a path: 127 bytes and a `'\0'`. -/
def copyPath (mem : Bytes) (path pathname : Nat) : Bytes :=
  let mem := strncpy mem path (fun k => mem (pathname + k)) MAX_PATH_LEN
  Function.update mem (path + MAX_PATH_LEN) 0

/-- What a system call finds: the process and its directories, the address that `kmalloc` returns
for the copy of the path, and the length of the path. -/
structure PathCall where
  table : FileTable
  files : FdTable
  root : Nat
  cwd : Nat
  tmp : Nat
  len : Nat
  openMem : OpenMem
  current : Tid

/-- `sys_openat`: the result, and the memory behind it. -/
def sysOpenatIn (mem : Bytes) (call : PathCall) (dirfd : DirFd) (pathname flags : Nat) :
    Except Halt (Int × Bytes) := do
  let mem := copyPath mem call.tmp pathname
  match allocFd call.files with
  | none => pure (-1, mem)
  | some (fd, _) => do
      let (c, mem, dirs) ← parsePathIn call.table.dirs mem call.root call.cwd dirfd
        call.tmp call.len call.openMem.bufs call.openMem.addrs
      let res := (c.map fun c => c.result mem).getD call.openMem.res
      let (f, _) ← openFound { call.table with dirs } res flags call.openMem call.current
      match f with
      | .enoent => pure (-2, mem)
      | _ => pure (fd, mem)

/-- `sys_mkdirat`. -/
def sysMkdiratIn (mem : Bytes) (call : PathCall) (dirfd : DirFd) (pathname mode : Nat) :
    Except Halt (Int × Bytes) := do
  let mem := copyPath mem call.tmp pathname
  mkdirRelative dirfd (stringAt mem call.tmp)
  let (c, mem, dirs) ← parsePathIn call.table.dirs mem call.root call.cwd dirfd call.tmp call.len
    call.openMem.bufs call.openMem.addrs
  let res := (c.map fun c => c.result mem).getD call.openMem.res
  let (ret, _) ← mkdirFound dirs res mode call.openMem call.current
  pure (ret, mem)

/-- `sys_chdir`: the result, `cwd` and the memory behind it. -/
def sysChdirIn (mem : Bytes) (call : PathCall) (pathname : Nat) :
    Except Halt (Int × Nat × Bytes) := do
  let mem := copyPath mem call.tmp pathname
  let (c, mem, dirs) ← parsePathIn call.table.dirs mem call.root call.cwd .fdcwd pathname call.len
    call.openMem.bufs call.openMem.addrs
  let res := (c.map fun c => c.result mem).getD call.openMem.res
  match res.child with
  | none => pure (-1, call.cwd, mem)
  | some child => do
      ASSERT ((dirs.fs.inode (dirs.dentry child).inode).iMode &&& FT_DIR ≠ 0)
      pure (0, child, mem)

/-- `sys_execve` up to `flush_old_exec`, where the memory of the program goes away: what
`filp_openat` returns, and the memory behind it. -/
def sysExecveIn (mem : Bytes) (call : PathCall) (pathname : Nat) :
    Except Halt (OpenedFile × Bytes) := do
  let (c, mem, dirs) ← parsePathIn call.table.dirs mem call.root call.cwd .fdcwd pathname call.len
    call.openMem.bufs call.openMem.addrs
  let res := (c.map fun c => c.result mem).getD call.openMem.res
  let (f, _) ← openFound { call.table with dirs } res O_RDWR call.openMem call.current
  pure (f, mem)

end Fizzos.Fs
