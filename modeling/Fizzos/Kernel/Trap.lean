import Fizzos.Kernel.Switch

/-!
# `Fizzos.Kernel.Trap`: the ways into the kernel

The entries of `kernel/kernel.S` and `kernel/page.S`: the interrupts, the page fault and the system
calls. Each entry puts a `struct intr_stack` on the kernel stack, calls a C function, and takes the
registers from there again. A C function is a function on the processor, and `next` is the address
behind the call.

`_syscall0` to `_syscall4` of `include/lib/user/syscall.h` load the registers and raise the
interrupt 0x80.
-/

set_option autoImplicit false

namespace Fizzos.Kernel

open Fizzos.Support.X86

/-! ### `kernel/kernel.S` -/

/-- The registers go on the stack. -/
def saveRegs : List Instr :=
  [.push (.seg .ds), .push (.seg .es), .push (.seg .fs), .push (.seg .gs)] ++ pushad

/-- The registers come from the stack. -/
def restoreRegs : List Instr :=
  popad ++ [.pop (.seg .gs), .pop (.seg .fs), .pop (.seg .es), .pop (.seg .ds)]

/-- The end of interrupt, for both controllers. -/
def eoi : List Instr := [.movAl 0x20, .out 0xa0, .out 0x20]

/-- The code of `intr_exit`. It skips the number of the interrupt and the error code. -/
def exitCode : List Instr := [.drop 1] ++ restoreRegs ++ [.drop 1]

/-- `intr_exit` -/
def intrExit (c : Cpu) : Cpu := (c.run exitCode).iret

/-- The interrupts that are `VECTOR`s with `ERROR_CODE`. The others push a zero. -/
def hasErrorCode (v : BitVec 8) : Bool :=
  decide (v ∈ [0x08, 0x0a, 0x0b, 0x0d, 0x0e, 0x11, 0x18, 0x1a, 0x1b, 0x1d, 0x1e])

/-- The code of `VECTOR v` in front of the call. -/
def vectorCode (v : BitVec 8) : List Instr :=
  (if hasErrorCode v then [] else [.push (.imm 0)]) ++ saveRegs ++ eoi
    ++ [.push (.imm (v.setWidth 32))]

/-- `VECTOR v`, with the handler in `idt_table`. -/
def vectorEntry (v : BitVec 8) (handler : Cpu → Cpu) (next : Dword) (c : Cpu) : Cpu :=
  intrExit ((c.run (vectorCode v)).call handler next)

/-- The code of `syscall_handler` in front of the call. -/
def syscallCode : List Instr :=
  [.push (.imm 0)] ++ saveRegs ++ [.push (.imm 0x80),
    .push (.reg .esi), .push (.reg .edx), .push (.reg .ecx), .push (.reg .ebx)]

/-- `syscall_handler`. `table` has the functions of `syscall_table`. -/
def syscallHandler (table : Dword → Cpu → Cpu) (next : Dword) (c : Cpu) : Cpu :=
  let c := c.run syscallCode
  let c := c.call (table (c.reg .eax)) next
  intrExit (c.run [.drop 4, .poke INTR_EAX .eax])

/-! ### `kernel/page.S` -/

/-- The code of `page_fault_handler` in front of the jump. -/
def pageFaultCode : List Instr :=
  saveRegs ++ eoi ++ [.peek .eax 12, .movCr2 .ebx, .push (.reg .ebx)]

/-- `page_fault_handler`. Bit 0 of the error code is clear when the page is not present. -/
def pageFaultHandler (pageNotPresent pageProtectFault : Cpu → Cpu) (next : Dword) (c : Cpu) : Cpu :=
  let c := c.run pageFaultCode
  let c := c.call (if c.reg .eax &&& 1 = 0 then pageNotPresent else pageProtectFault) next
  (c.run exitCode).iret

/-! ### Frames -/

/-- The end of the stack that a trap uses: the stack of the kernel code that it interrupts, or the
one in the task state segment. -/
def trapTop (g : Cpu.Gate) (c : Cpu) : Dword := if Cpu.rpl c.cs = 0 then c.reg .esp else g.esp0

/-- What the processor pushes, without the error code. -/
def hardwareFrame (k : Core) : List Dword :=
  [k.eip, k.cs.setWidth 32, k.eflags] ++
    if Cpu.rpl k.cs = 0 then [] else [k.reg .esp, k.ss.setWidth 32]

/-- The registers as `saveRegs` pushes them: `edi` to `ds` of `struct intr_stack`. -/
def savedRegs (k : Core) (espDummy : Dword) : List Dword :=
  [k.reg .edi, k.reg .esi, k.reg .ebp, espDummy, k.reg .ebx, k.reg .edx, k.reg .ecx, k.reg .eax,
    (k.seg .gs).setWidth 32, (k.seg .fs).setWidth 32, (k.seg .es).setWidth 32,
    (k.seg .ds).setWidth 32]

/-- `struct intr_stack` behind `vec_no`. -/
def trapFrame (k : Core) (espDummy errorCode : Dword) : List Dword :=
  savedRegs k espDummy ++ errorCode :: hardwareFrame k

end Fizzos.Kernel
