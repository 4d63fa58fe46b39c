import Fizzos.Fs.Path

/-!
# `Fizzos.Fs.Cwd`: the path of a directory in `fs/dir.c`

`get_path` climbs from a dentry to the root. It writes the path from its end to its start, to the
place in front of the pointer `*buffer`. Nothing tests the length `*buflen`.

The memory of the kernel is indexed by the distance to `path`, which may be negative, and the memory
of the program by the distance to `buf`. A dentry keeps its `fname`, whatever is written around the
buffer.
-/

set_option autoImplicit false

namespace Fizzos.Fs

open Fizzos.Kernel
open Fizzos.Support

/-- What `prepend` works on: the memory, `*buffer` and `*buflen`. -/
@[ext] structure PathBuf where
  mem : Int → BitVec 8
  buffer : Int
  buflen : Int

/-- `prepend`. -/
def prepend (b : PathBuf) (str : Bytes) (namelen : Nat) : PathBuf :=
  let buflen := b.buflen - namelen
  let buffer := b.buffer - namelen
  -- `memcpy(*buffer, str, namelen)`
  { mem := fun a => if buffer ≤ a ∧ a < buffer + namelen then str (a - buffer).toNat else b.mem a
    buffer, buflen }

/-- `"/"`. -/
def slashStr : Bytes := fun k => if k = 0 then 0x2f else 0

/-- The loop of `get_path`. It takes at most `n` rounds. -/
def getPathLoop (dentry : Nat → Dentry) : Nat → Nat → PathBuf → Except Halt PathBuf
  | 0, d, b => if (dentry d).dParent = d then pure b else .error .hang
  | n + 1, d, b =>
      if (dentry d).dParent = d then pure b
      else
        let b := prepend b (dentry d).fname (dentry d).fnameLen
        let b := prepend b slashStr 1
        getPathLoop dentry n (dentry d).dParent b

/-- `get_path`. -/
def getPath (dentry : Nat → Dentry) (n d : Nat) (b : PathBuf) : Except Halt PathBuf :=
  if (dentry d).dParent = d then pure (prepend b slashStr 1)
  else getPathLoop dentry n d b

/-- `sys_getcwd` in a process with the directory `cwd`: the result, and the memory of the kernel
and of the program. -/
def sysGetcwd (dentry : Nat → Dentry) (n cwd : Nat) (mem : Int → BitVec 8) (user : Bytes)
    (size : Nat) : Except Halt (Nat × (Int → BitVec 8) × Bytes) := do
  let b : PathBuf := { mem, buffer := MAX_PATH_LEN + 1, buflen := MAX_PATH_LEN + 1 }
  let b := prepend b (fun _ => 0) 1
  let b ← getPath dentry n cwd b
  let len := (MAX_PATH_LEN + 1 - b.buflen).toNat
  let (len, mem) :=
    if size < len then (size, Function.update b.mem (b.buffer + size - 1) 0)
    else (len, b.mem)
  -- `copy_to_user(buf, pbuf, len)`
  let user : Bytes := fun k => if k < len then mem (b.buffer + k) else user k
  pure (len, mem, user)

end Fizzos.Fs
