import Fizzos.Kernel.Trap

/-!
# `Fizzos.User.Syscall`: system calls from the program to the kernel

The numbers of `include/lib/user/syscall.h`, `syscall_table` of `user/syscall-init.c`, and the
functions that `_syscall0` to `_syscall4` make in `lib/user/syscall.c`. The bodies of the `sys_`
functions are `kernel`, and `other` is what a call of anything else in the table does.
-/

set_option autoImplicit false

namespace Fizzos.User

open Fizzos.Kernel
open Fizzos.Support.X86

/-- A system call: `name` in the program, `sys_name` in the kernel. -/
inductive SysCall where
  | exit | fork | read | write | «open» | close | execve | chdir | getpid | mkdir | getcwd | openat
  | mkdirat | printdir
  deriving DecidableEq, Repr

namespace SysCall

/-- `__NR_name` -/
def nr : SysCall → Nat
  | exit => 1
  | fork => 2
  | read => 3
  | write => 4
  | «open» => 5
  | close => 6
  | execve => 11
  | chdir => 12
  | getpid => 20
  | mkdir => 39
  | getcwd => 48
  | openat => 243
  | mkdirat => 244
  | printdir => 300

/-- The number of the macro `_syscall0` to `_syscall4` in `lib/user/syscall.c`. -/
def arity : SysCall → Nat
  | fork | getpid | printdir => 0
  | exit | close | chdir => 1
  | mkdir | getcwd => 2
  | read | write | «open» | execve | mkdirat => 3
  | openat => 4

end SysCall

/-- `syscall_table`. The other entries are 0. -/
def syscallTable : Nat → Option SysCall
  | 1 => some .exit
  | 2 => some .fork
  | 3 => some .read
  | 4 => some .write
  | 5 => some .open
  | 6 => some .close
  | 11 => some .execve
  | 12 => some .chdir
  | 20 => some .getpid
  | 39 => some .mkdir
  | 48 => some .getcwd
  | 243 => some .openat
  | 244 => some .mkdirat
  | 300 => some .printdir
  | _ => none

/-- `call [syscall_table + eax * 4]` -/
def callTable (kernel : SysCall → Cpu → Cpu) (other : Dword → Cpu → Cpu)
    (eax : Dword) : Cpu → Cpu :=
  (syscallTable eax.toNat).elim (other eax) kernel

/-- The registers of the constraints `"b"`, `"c"`, `"d"` and `"S"`. -/
def ARG_REGS : List Reg := [.ebx, .ecx, .edx, .esi]

/-- The registers in front of `int $0x80`. -/
def loadRegs (n : SysCall) (args : List Dword) (k : Core) : Core :=
  (ARG_REGS.zip args).foldl (fun k x => k.setReg x.1 x.2) (k.setReg .eax (BitVec.ofNat 32 n.nr))

/-- What the wrapper returns for `__res`, and what it stores in `errno`. -/
def wrapperReturn (res : Dword) : Int × Option Int :=
  if res.toInt ≥ 0 then (res.toInt, none) else (-1, some (wrap32 (-res.toInt)))

/-- The function `name` of `lib/user/syscall.c`, with the gate of the interrupt 0x80. -/
def wrapper (kernel : SysCall → Cpu → Cpu) (other : Dword → Cpu → Cpu) (g : Cpu.Gate) (next : Dword)
    (n : SysCall) (args : List Dword) (c : Cpu) : Cpu × Int × Option Int :=
  let c : Cpu := { loadRegs n args c.toCore with mem := c.mem }
  let c := syscallHandler (callTable kernel other) next (c.deliver g none)
  (c, wrapperReturn (c.reg .eax))

end Fizzos.User
