import Fizzos.Kernel.PageFault
import Fizzos.Lib.Fizzstr

/-!
# `Fizzos.Kernel.ExecArgs`: the arguments of a program

`do_exec` of `kernel/exec.c` puts the arguments into one page: the strings from the top down, and
below them `argc` and ten pointers. `arg` is where the kernel writes, and `stack` the same place as
the program sees it, at the end of user memory. Both go down by the length of each string, rounded
up to a multiple of 4.

The length comes from `strlen`, which gives up at 100 characters and returns -1, while `strcpy` goes
up to the `'\0'`.

Memory is the memory of the kernel by virtual address. An address from `2 ^ 32` on stands for the
one it wraps around to. Left out: `envp`, which `do_exec` does not read.
-/

set_option autoImplicit false

namespace Fizzos.Kernel

open Fizzos.Lib
open Fizzos.Support

/-- The number of pointers behind `argc`. -/
def EXEC_ARGS : Nat := 10

/-- The variables of the loop of `do_exec` over `argv`. -/
structure ArgCursor where
  mem : Bytes
  arg : Nat
  stack : Nat
  s : Nat → Nat
  argc : Nat

/-- `(len + 1 + 3) / 4 * 4` for the `int` that `strlen` gives. -/
def argSize (str : CString) : Nat :=
  let len := wrap32 (strlen str.bytes)
  ((len + 1 + 3).tdiv 4 * 4).toNat

/-- The body of the loop. -/
def argStep (c : ArgCursor) (str : CString) : Except Halt ArgCursor :=
  if c.argc ≥ EXEC_ARGS then PANIC
  else
    let arg := c.arg - argSize str
    let stack := c.stack - argSize str
    pure
      { mem := strcpy c.mem arg str.chars, arg, stack
        s := Function.update c.s c.argc stack, argc := c.argc + 1 }

/-- The loop, over the strings that are left. -/
def argLoop (argv : List CString) (c : ArgCursor) : Except Halt ArgCursor := argv.foldlM argStep c

/-- `memcpy(dest, s, sizeof (char*) * 10)`. -/
def storePtrs (mem : Bytes) (dest : Nat) (s : Nat → Nat) : Bytes :=
  (List.range EXEC_ARGS).foldl (fun mem k => storeLE 4 mem (dest + 4 * k) (s k)) mem

/-- The part of `do_exec` up to `file_read`, with the zeroed page at `page`. -/
def execArgs (mem : Bytes) (page : Nat) (argv : List CString) : Except Halt ArgCursor := do
  let mem := memsetZero mem page PG_SIZE
  let c ← argLoop argv
    { mem, arg := page + PG_SIZE, stack := TASK_SIZE, s := fun _ => 0, argc := 0 }
  let arg := c.arg - 4 * 11
  let stack := c.stack - 4 * 11
  let mem := storeLE 4 c.mem arg c.argc
  pure { c with mem := storePtrs mem (arg + 4) c.s, arg, stack }

/-- `get_paddr(arg) | PG_P | PG_RWE | PG_USER`. -/
def argEntry (arg : Nat) : Word := paddrWord arg ||| PG_P ||| PG_RWE ||| PG_USER

/-- The end of `do_exec`: the page gets a page-table entry. -/
def Vm.mapArgs (vm : Vm) (pgDir arg : Nat) (current : Tid) : Except Halt Vm := do
  let vm ← vm.openTable pgDir (TASK_SIZE - PG_SIZE) current
  let (pt, j) := vm.getPte pgDir (TASK_SIZE - PG_SIZE)
  pure (vm.setEntry pt j (argEntry arg))

end Fizzos.Kernel
