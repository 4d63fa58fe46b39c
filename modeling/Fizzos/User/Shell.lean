import Fizzos.Fs.UserPath

/-!
# `Fizzos.User.Shell`: the command line of the shell

`parse_cmd` of `my_program/shell.c`, up to the test of the command. It cuts the line in `cmd_buf`
into arguments in place, and the elements of `argv` are pointers into the line: here offsets, with
`none` for 0. A store behind `argv` is outside of the program.

`strchr` is the one that the kernel uses for paths: both are of `lib/fizzstr.c`.

Left out: what the command does.
-/

set_option autoImplicit false

namespace Fizzos.User

open Fizzos.Fs
open Fizzos.Support

def MAX_CMD_LEN : Nat := 128

/-- The number of elements of `argv`. -/
def ARGV_SIZE : Nat := 11

def SPACE : BitVec 8 := 0x20

/-- `cmd_buf` and `argv`. -/
structure Shell where
  cmdBuf : Bytes
  argv : Nat → Option Nat

/-- `argv[idx] = arg`. -/
def Shell.setArgv (s : Shell) (idx : Nat) (arg : Option Nat) : Except Halt Shell :=
  if idx < ARGV_SIZE then pure { s with argv := Function.update s.argv idx arg }
  else .error .outOfBounds

/-- The inner loop of `parse_cmd`, over the spaces. -/
def skipSpaces (cmdBuf : Bytes) : Nat → Nat → Except Halt Nat
  | 0, _ => .error .hang
  | fuel + 1, arg =>
      if cmdBuf arg ≠ 0 ∧ cmdBuf arg = SPACE then skipSpaces cmdBuf fuel (arg + 1) else pure arg

/-- The loop of `parse_cmd`: the number of arguments. -/
def splitLoop : Nat → Nat → Nat → Shell → Except Halt (Nat × Shell)
  | 0, _, _, _ => .error .hang
  | fuel + 1, arg, idx, s =>
      if s.cmdBuf arg ≠ 0 then do
        let s ← s.setArgv idx (some arg)
        let idx := idx + 1
        match strchr s.cmdBuf arg SPACE with
        | none => pure (idx, s)
        | some arg => do
            -- the argument ends here
            let s := { s with cmdBuf := Function.update s.cmdBuf arg 0 }
            let arg ← skipSpaces s.cmdBuf (MAX_CMD_LEN + 1) (arg + 1)
            splitLoop fuel arg idx s
      else pure (idx, s)

/-- `parse_cmd`, up to the test of the command. -/
def parseCmd (s : Shell) : Except Halt Shell := do
  let (idx, s) ← splitLoop (MAX_CMD_LEN + 1) 0 0 s
  if idx = 0 then pure s
  else s.setArgv idx none

end Fizzos.User
