import Fizzos.Machine
import Fizzos.Support.Stores

/-!
# `Fizzos.Lib.Fizzlib`: numerals of `lib/fizzlib.c`

`itoa` and `uitoa` write a number at `dest`. They count the digits with one loop of divisions, and
store them from the back with another one. C rounds a division towards zero, and a remainder has the
sign of the value.

The value is an `int32_t` or a `uint32_t`: 32 turns are enough for a radix that is at least 2.
-/

set_option autoImplicit false

namespace Fizzos.Lib

open Fizzos.Support

/-- A memory of characters. -/
abbrev CharMem := Stored Int (BitVec 8)

/-- `while (num)`: the turns of the first loop. -/
def countDigits (radix : Int) : Nat → Int → Except Halt Nat
  | fuel, num =>
      if num = 0 then pure 0
      else
        match fuel with
        | 0 => .error .hang
        | fuel + 1 => do
            let idx ← countDigits radix fuel (num.tdiv radix)
            pure (idx + 1)

/-- The character that is stored for a remainder. -/
def digitChar (d : Int) : BitVec 8 :=
  if d ≥ 10 then BitVec.ofInt 8 (d + 0x61 - 10) else BitVec.ofInt 8 (d + 0x30)

/-- `while (value)`: the second loop. -/
def storeDigits (radix dest : Int) : Nat → Int → Int → CharMem → Except Halt CharMem
  | fuel, idx, value, m =>
      if value = 0 then pure m
      else
        match fuel with
        | 0 => .error .hang
        | fuel + 1 =>
            let idx := idx - 1
            let m := m.store (dest + idx) (digitChar (value.tmod radix))
            storeDigits radix dest fuel idx (value.tdiv radix) m

/-- What `itoa` and `uitoa` have in common, with `count` characters before `dest`. -/
def storeValue (m : CharMem) (value dest radix count : Int) : Except Halt (Int × CharMem) :=
  if value = 0 then pure (1, m.store dest 0x30)
  else do
    let idx ← countDigits radix 32 value
    let m ← storeDigits radix dest 32 idx value m
    pure (count + idx, m)

/-- `itoa`. The negation of the least value is this value again. -/
def itoa (m : CharMem) (value dest radix : Int) : Except Halt (Int × CharMem) :=
  -- the sign takes the first place, and the digits start behind it
  if value < 0 then storeValue (m.store dest 0x2d) (wrap32 (-value)) (dest + 1) radix 1
  else storeValue m value dest radix 0

/-- `uitoa`. -/
def uitoa (m : CharMem) (value dest radix : Int) : Except Halt (Int × CharMem) :=
  storeValue m value dest radix 0

end Fizzos.Lib
