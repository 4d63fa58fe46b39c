import Fizzos.Fs.Descriptors
import Fizzos.LibKernel.Print
import Fizzos.LibKernel.Printk

/-!
# `Fizzos.Device.Console`: text on the screen

`console_print` of `device/console.c`. It gives the buffer of the caller to `snprintk` as the
format, with the count as the size, and `console_buf` to `put_str`. So the arguments of `snprintk`
are the words that happen to be on the stack behind it, and the format goes on behind the buffer up
to a `'\0'`.

A string in memory has fewer than `2 ^ 32` characters, so the loop of `put_str` ends before its
fuel.

Left out: `console_lock`.
-/

set_option autoImplicit false

namespace Fizzos.Device

open Fizzos.Fs
open Fizzos.LibKernel
open Fizzos.Support

/-- What `console_print` meets: the characters behind the buffer up to a `'\0'`, the words on the
stack, and what `console_buf` holds. -/
structure Around where
  behind : List (BitVec 8)
  stack : VaList
  consoleBuf : Int → BitVec 8

/-- The size of `console_buf`. -/
def CONSOLE_BUF_SIZE : Nat := 500

/-- `console_print`: the result, the characters that `put_str` gets, and `console_buf`. -/
def consolePrint (a : Around) (buf : List (BitVec 8)) (count : BitVec 32) :
    Except Halt (Int × List (BitVec 8) × Lib.CharMem) := do
  let (c, consoleBuf) ← snprintk ⟨a.consoleBuf, []⟩ count.toNat (buf ++ a.behind) a.stack
  let shown ← putStr consoleBuf.mem (2 ^ 32) 0
  pure (c, shown, consoleBuf)

/-- What `sys_write` does on a descriptor of the screen. -/
structure Printed where
  ret : Int
  shown : List (BitVec 8)
  consoleBuf : Lib.CharMem
  io : Io

/-- `sys_write` of `buf` on a descriptor of the screen: `file_write` returns what `console_print`
returns. -/
def sysWriteScreen (a : Around) (io : Io) (fd : Int) (buf : List (BitVec 8)) (ioBuf pad : Bytes)
    (current : Kernel.Tid) : Except Halt Printed := do
  -- the count goes from a `size_t` to an `int` and back
  let count := BitVec.ofNat 32 buf.length
  let (c, shown, consoleBuf) ← consolePrint a buf count
  let (ret, io) ← sysWrite io fd (fun k => buf.getD k 0) count.toNat ioBuf pad c current
  pure ⟨ret, shown, consoleBuf, io⟩

end Fizzos.Device
