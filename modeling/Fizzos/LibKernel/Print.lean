import Fizzos.Machine
import Fizzos.Support.Stores

/-!
# `Fizzos.LibKernel.Print`: characters on the screen

`put_char` and `put_str` of `lib/kernel/print.S`. The cursor is in two registers of the video card,
and in `bx` while the function runs. A cell of the screen has two bytes, so `bx` is shifted to the
left for the address in the video segment, and back. All arithmetic is of 16 bits, and `jl` compares
with a sign.

`gs` and the pointers of `roll_screen` are for the same memory: the loader adds `0xc0000000` to the
base of the segment, so the offset 0 is at `0xc00b8000`. The segment has eight pages, and a store
through `gs` behind them is a general protection fault (`storeGs`).

Left out: the ports of the video card, and the message of the fault on the screen.
-/

set_option autoImplicit false

namespace Fizzos.LibKernel

open Fizzos.Support

/-- The video segment. -/
abbrev Video := Stored Nat (BitVec 8)

/-- The cursor and the video segment. -/
structure Screen where
  cursor : BitVec 16
  video : Video

/-- The last offset in the video segment. `VIDEO_DESC` of the loader has the limit 7, in pages. -/
def VIDEO_LIMIT : Nat := 0x7fff

/-- A store to `[gs:bx]`. Behind the limit of the segment the processor raises a general protection
fault, and `general_intr_handler` stays in its loop. -/
def storeGs (v : Video) (bx : BitVec 16) (b : BitVec 8) : Except Halt Video :=
  if bx.toNat ≤ VIDEO_LIMIT then pure (v.store bx.toNat b) else .error .hang

/-- One turn of `rep movsd` in `.roll_screen`: four bytes from the next row. -/
def movsd (v : Video) (i : Nat) : Video :=
  (List.range 4).foldl (fun t b => t.store (4 * i + b) (v.mem (160 + 4 * i + b))) v

/-- One turn of `.cls` in `.roll_screen`. Its offsets do not depend on the cursor, and are below the
limit of the segment. -/
def clearCell (v : Video) (i : Nat) : Video :=
  (v.store (3840 + 2 * i) 0x20).store (3840 + 2 * i + 1) 0x07

/-- `.roll_screen`. -/
def rollScreen (v : Video) : Screen where
  cursor := 1920
  video := (List.range 80).foldl clearCell ((List.range 960).foldl movsd v)

/-- `.is_line_feed` and `.is_carriage_return`. -/
def lineFeed (s : Screen) : Screen :=
  let bx := s.cursor - s.cursor % 80
  let bx := bx + 80
  if bx.slt 2000 then { s with cursor := bx } else rollScreen s.video

/-- `.is_backspace`. -/
def backspace (s : Screen) : Except Halt Screen := do
  -- there is no test for the first cell
  let bx := s.cursor - 1
  let bx := bx <<< 1
  let video ← storeGs s.video bx 0x20
  let bx := bx + 1
  let video ← storeGs video bx 0x07
  pure { cursor := bx >>> 1, video }

/-- `.put_other`. Behind the last cell it goes on at `.is_line_feed`. -/
def putOther (cl : BitVec 8) (s : Screen) : Except Halt Screen := do
  let bx := s.cursor <<< 1
  let video ← storeGs s.video bx cl
  let bx := bx + 1
  let video ← storeGs video bx 0x07
  let bx := bx >>> 1
  let bx := bx + 1
  pure (if bx.slt 2000 then { cursor := bx, video } else lineFeed { cursor := bx, video })

/-- `put_char`. -/
def putChar (s : Screen) (cl : BitVec 8) : Except Halt Screen :=
  if cl = 0xd then pure (lineFeed s)
  else if cl = 0xa then pure (lineFeed s)
  else if cl = 0x8 then backspace s
  else putOther cl s

/-- `.goon` of `put_str`, from `ebx` on: the characters that go to `put_char`. -/
def putStr (mem : Int → BitVec 8) : Nat → Int → Except Halt (List (BitVec 8))
  | fuel, ebx =>
      if mem ebx = 0 then pure []
      else
        match fuel with
        | 0 => .error .hang
        | fuel + 1 => do
            let rest ← putStr mem fuel (ebx + 1)
            pure (mem ebx :: rest)

end Fizzos.LibKernel
