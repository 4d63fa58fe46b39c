import Fizzos.Lib.Fizzlib
import Fizzos.Lib.Fizzstr

/-!
# `Fizzos.LibKernel.Printk`: formatted text

`vsnprint` of `lib/kernel/printk.c`. A format string is its characters, up to the `'\0'`. The
arguments are the words behind it on the stack, and a word of a `%s` is a pointer to a string.
`dest` is a memory with offsets from the pointer: a store can be behind the buffer, and in front of
it.

`dest_idx` is an `int`. The loop compares it with a `size_t`, so a negative one is too large, and
the `strlen` of a long string takes 1 from it.

Left out: a string that overlaps the buffer.
-/

set_option autoImplicit false

namespace Fizzos.LibKernel

open Fizzos.Lib
open Fizzos.Support

/-- `'%'`. -/
def PERCENT : BitVec 8 := 0x25

/-- What `ap` reads: the words of the arguments, and the strings that they point to. -/
structure VaList where
  word : Nat → BitVec 32
  str : BitVec 32 → CString

/-- The variables of `vsnprint`. `ap` counts the words that have been read. -/
structure PrintState where
  dest : CharMem
  destIdx : Int
  flag : Bool
  ap : Nat

/-- `strcpy` to `dest + off`. -/
def strcpyTo (m : CharMem) (off : Int) : List (BitVec 8) → CharMem
  | [] => m.store off 0
  | c :: rest => strcpyTo (m.store off c) (off + 1) rest

/-- `dest_idx < size`. -/
def below (destIdx : Int) (size : Nat) : Prop := destIdx % 2 ^ 32 < size

instance (destIdx : Int) (size : Nat) : Decidable (below destIdx size) :=
  inferInstanceAs (Decidable (_ < _))

/-- The `switch` of `vsnprint`. -/
def convert (va : VaList) (c : BitVec 8) (s : PrintState) : Except Halt PrintState :=
  let arg := va.word s.ap
  if c = 0x64 then do
    let (n, dest) ← itoa s.dest arg.toInt s.destIdx 10
    pure { s with dest, destIdx := wrap32 (s.destIdx + n), ap := s.ap + 1 }
  else if c = 0x73 then
    let str := va.str arg
    pure { s with
      dest := strcpyTo s.dest s.destIdx str.chars
      destIdx := wrap32 (s.destIdx + strlen str.bytes), ap := s.ap + 1 }
  else if c = 0x63 then
    pure { s with
      dest := s.dest.store s.destIdx (arg.setWidth 8)
      destIdx := wrap32 (s.destIdx + 1), ap := s.ap + 1 }
  else if c = 0x78 then do
    let (n, dest) ← uitoa s.dest arg.toNat s.destIdx 16
    pure { s with dest, destIdx := wrap32 (s.destIdx + n), ap := s.ap + 1 }
  else PANIC

/-- The loop of `vsnprint`, over the characters of the format. -/
def vsnprintLoop (size : Nat) (va : VaList) :
    List (BitVec 8) → PrintState → Except Halt PrintState
  | [], s => pure s
  | c :: format, s =>
      if below s.destIdx size then
        -- a plain character
        if c ≠ PERCENT ∧ s.flag = false then
          vsnprintLoop size va format
            { s with dest := s.dest.store s.destIdx c, destIdx := wrap32 (s.destIdx + 1) }
        else if c = PERCENT then vsnprintLoop size va format { s with flag := true }
        else do
          ASSERT (s.flag = true)
          let s ← convert va c s
          let s := { s with flag := false }
          -- the size of `console_buf`, whatever `size` is
          if s.destIdx ≥ 500 then PANIC
          else vsnprintLoop size va format s
      else pure s

/-- `vsnprint`: the count, and the memory at `dest`. -/
def vsnprint (dest : CharMem) (size : Nat) (format : List (BitVec 8)) (va : VaList) :
    Except Halt (Int × CharMem) := do
  let s ← vsnprintLoop size va format { dest, destIdx := 0, flag := false, ap := 0 }
  pure (s.destIdx, s.dest.store s.destIdx 0)

/-- `snprintk`. The arguments are behind `format`. -/
def snprintk (dest : CharMem) (size : Nat) (format : List (BitVec 8)) (va : VaList) :
    Except Halt (Int × CharMem) :=
  vsnprint dest size format va

end Fizzos.LibKernel
