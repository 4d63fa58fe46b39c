import Fizzos.Fs.Dir

/-!
# `Fizzos.Fs.Path`: paths of `fs/dir.c`

`parse_path` goes along a path, from the root, from the current directory or from an open file. It
looks up one name after the other, and stops behind the last one or at a name that is not there.
Then the caller makes an entry of this name in the directory `parent`.

A `Path` is what `getname` leaves in the kernel: at most 127 characters. A `char*` into it is the
list of the characters from there on, up to the `'\0'`. A character that `parse_path` overwrites
with a `'\0'` ends the list.

`kmalloc` in `search_dentry` returns the addresses `addrs`, and `bufs` is what is left in the
buffer.

`dentryImage` is the new `struct dentry` of `dir_write` in bytes: `count` at 0, `inode` at 4,
`fname` at 8, `fname_len` at 34, `d_parent` at 36. The links behind it are `dChild` and `dSubdirs`.
-/

set_option autoImplicit false

namespace Fizzos.Fs

open Fizzos.Lib
open Fizzos.Support

def MAX_PATH_LEN : Nat := 127

/-- A path in the kernel. -/
structure Path where
  chars : List (BitVec 8)
  nul : 0 ∉ chars
  le : chars.length ≤ MAX_PATH_LEN

/-- The memory behind a `char*`. -/
def charsAt (s : List (BitVec 8)) : Bytes := fun k => s.getD k 0

/-- `*s != '/'`. -/
def notSlash (c : BitVec 8) : Bool := decide (c ≠ 0x2f)

/-- `struct search_res`. -/
structure SearchRes where
  parent : Nat
  child : Option Nat
  curdir : List (BitVec 8)
  curdirLen : Nat
  nextdir : Option (List (BitVec 8))

/-- `strchr(cur, '/')`, and the `'\0'` in its place: what is behind the `'/'`. -/
def splitSlash (cur : List (BitVec 8)) : Option (List (BitVec 8)) :=
  match cur.dropWhile notSlash with
  | [] => none
  | _ :: next => some next

/-- The loop of `parse_path`. It takes at most `n` rounds. -/
def parseLoop (bufs : Nat → Bytes) (addrs : Nat → Nat × Nat) :
    Nat → DirSys → SearchRes → Except Halt (SearchRes × DirSys)
  | 0, s, res => pure (res, s)
  | n + 1, s, res =>
      match res.nextdir, res.child with
      | some (c :: cs), some parent => do
          let cur := c :: cs
          let curdir := cur.takeWhile notSlash
          let nextdir := splitSlash cur
          let curlen := if nextdir.isSome then curdir.length else strlen (charsAt curdir)
          let curdirLen := curlen % 2 ^ 16
          let (child, s) ← searchDentry s parent (charsAt curdir) curdirLen (bufs n)
            (addrs n).1 (addrs n).2
          parseLoop bufs addrs n s { parent, child, curdir, curdirLen, nextdir }
      | _, _ => pure (res, s)

/-- `dirfd`: `AT_FDCWD`, or an open file with its dentry. -/
inductive DirFd where
  | fdcwd
  | file (fDentry : Nat)

/-- Where `parse_path` starts: the directory, and the path from there on. `none` is `-ENOTDIR`. -/
def pathStart (s : DirSys) (root cwd : Nat) (dirfd : DirFd) (path : List (BitVec 8)) :
    Option (Nat × List (BitVec 8)) :=
  if path.head? = some 0x2f then some (root, path.tail)
  else
    match dirfd with
    | .fdcwd => some (cwd, path)
    | .file parent =>
        if (s.fs.inode (s.dentry parent).inode).iMode &&& FT_DIR = 0 then none
        else some (parent, path)

/-- `parse_path`: what it found, or `none` for `-ENOTDIR`. -/
def parsePath (s : DirSys) (root cwd : Nat) (dirfd : DirFd) (path : Path) (bufs : Nat → Bytes)
    (addrs : Nat → Nat × Nat) : Except Halt (Option SearchRes × DirSys) :=
  match pathStart s root cwd dirfd path.chars with
  | none => pure (none, s)
  | some (parent, cur) => do
      let (res, s) ← parseLoop bufs addrs path.chars.length s
        { parent, child := some parent, curdir := cur, curdirLen := 0, nextdir := some cur }
      pure (some res, s)

/-! ### The new `struct dentry` -/

/-- `sizeof (struct dentry)`. -/
def SIZEOF_DENTRY : Nat := 64

/-- The assignments of `dir_write` to the new `struct dentry`. -/
def dentryImage (mem : Bytes) (parent i : Nat) (filename : Bytes) (fnameLen : Nat) : Bytes :=
  let mem := memsetZero mem 0 SIZEOF_DENTRY
  let mem := storeLE 4 mem 36 parent
  let mem := strncpy mem 8 filename fnameLen
  let mem := storeLE 2 mem 34 fnameLen
  let mem := storeLE 4 mem 4 i
  storeLE 4 mem 0 1

end Fizzos.Fs
