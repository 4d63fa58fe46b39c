import Fizzos.Machine
import Fizzos.Support.System
import Fizzos.Support.X86

/-!
# `Fizzos.Kernel.Switch`: kernel stacks, and the switch between them

Each task has one page. The `task_struct` is at its start, and the kernel stack of the task grows
down from its end. `switch_to` of `kernel/switch.S` pushes the registers that a C function has to
save, keeps `esp` in the first word of the page, and takes the `esp` of the next task from there.
`init_thread` and `do_fork` write the words that `switch_to` is going to pop for a new task.

Between two switches the current task runs any code of the kernel (`SwitchAct.run`). This code may
write everywhere but to the stacks of the tasks that wait, and it keeps `esp` in the page of its
task.

`saved` has what a task that waits needs to go on. The code does not read it.

Left out: the page directory and `esp0`, which `process_activate` sets.
-/

set_option autoImplicit false

namespace Fizzos.Kernel

open Fizzos.Support
open Fizzos.Support.X86

/-! ### `kernel/switch.S` -/

/-- The instructions of `switch_to`, up to `ret`. -/
def switchToCode : List Instr :=
  [.push (.reg .esi), .push (.reg .edi), .push (.reg .ebx), .push (.reg .ebp),
    .peek .eax 5, .store .eax .esp, .peek .eax 6, .load .esp .eax,
    .pop (.reg .ebp), .pop (.reg .ebx), .pop (.reg .edi), .pop (.reg .esi)]

/-- `switch_to`, behind the call. -/
def switchTo (c : Cpu) : Cpu := (c.run switchToCode).ret

/-- `switch_to(now, next)` from C code that goes on at `back`. -/
def callSwitchTo (c : Cpu) (now next back : Dword) : Cpu :=
  ((c.push next).push now).call switchTo back

/-- `get_current`. -/
def getCurrent (c : Cpu) : Dword := c.reg .esp &&& 0xfffff000

/-! ### New tasks -/

/-- The end of the page of a task. -/
def stackTop (t : Dword) : Dword := t + BitVec.ofNat 32 PG_SIZE

/-- The number of words in a page. -/
def PG_WORDS : Nat := PG_SIZE / 4

/-- The number of words of `struct intr_stack`. -/
def INTR_STACK : Nat := 19

/-- The number of words of `struct thread_switch_data`. -/
def SWITCH_DATA : Nat := 8

/-- The place of `eax` in `struct intr_stack`. -/
def INTR_EAX : Nat := 8

/-- The address of the `i`-th word of a structure at `p`. -/
def field (p : Dword) (i : Nat) : Dword := p + BitVec.ofNat 32 (4 * i)

/-- The addresses of two labels. -/
structure Labels where
  kthreadStart : Dword
  intrExit : Dword

/-- The stores of `init_thread` that concern the stack. -/
def initThread (l : Labels) (mem : Dword → Dword) (t threadfn data : Dword) : Dword → Dword :=
  let stack := stackTop t - BitVec.ofNat 32 (4 * INTR_STACK) - BitVec.ofNat 32 (4 * SWITCH_DATA)
  let mem := Function.update mem t stack
  let mem := Function.update mem (field stack 4) l.kthreadStart
  let mem := Function.update mem (field stack 6) threadfn
  Function.update mem (field stack 7) data

/-- `memcpy(dst, src, PG_SIZE)` for two pages. -/
def copyTask (mem : Dword → Dword) (dst src : Dword) : Dword → Dword :=
  fun a => if a &&& 0xfffff000 = dst then mem (src + (a - dst)) else mem a

/-- The stores of `do_fork` that concern the stack. -/
def forkStack (l : Labels) (mem : Dword → Dword) (current new : Dword) : Dword → Dword :=
  let mem := copyTask mem new current
  let frame := stackTop new - BitVec.ofNat 32 (4 * INTR_STACK)
  let stack := frame - BitVec.ofNat 32 (4 * 5)
  let mem := Function.update mem new stack
  let mem := Function.update mem (field stack 4) l.intrExit
  Function.update mem (field frame INTR_EAX) 0

/-! ### Tasks under any schedule -/

/-- What a task finds when it runs again: the registers, where it goes on, and the words on its
stack. -/
structure Context where
  ebp : Dword
  ebx : Dword
  edi : Dword
  esi : Dword
  eip : Dword
  stack : List Dword

namespace Context

/-- The words that `switch_to` pops, and the stack behind them. -/
def frame (x : Context) : List Dword := x.ebp :: x.ebx :: x.edi :: x.esi :: x.eip :: x.stack

/-- The processor goes on with a task. -/
structure Resumes (x : Context) (t : Dword) (c : Cpu) : Prop where
  ebp : c.reg .ebp = x.ebp
  ebx : c.reg .ebx = x.ebx
  edi : c.reg .edi = x.edi
  esi : c.reg .esi = x.esi
  eip : c.eip = x.eip
  stack : c.Stack (stackTop t) x.stack

end Context

/-- The processor, the task that runs, and what the other tasks wait with. -/
structure SwitchState where
  cpu : Cpu
  current : Dword
  saved : Dword → Option Context

/-- What happens next. -/
inductive SwitchAct where
  /-- The current task runs up to the state `c`. -/
  | run (c : Cpu)
  /-- A call of `switch_to`, which returns to `back`. -/
  | switchTo (next back : Dword)
  /-- The last call of `switch_to` of a task that exits. Its page is free. -/
  | exit (next back : Dword)
  | kthreadCreate (t threadfn data : Dword)
  | fork (t : Dword)

namespace SwitchState

/-- The words on the stack of the current task. -/
def words (s : SwitchState) : List Dword :=
  wordsAt (stackTop s.current) s.cpu.mem (s.cpu.depth (stackTop s.current))

/-- What the current task waits with, when it calls `switch_to(current, next)`. -/
def context (s : SwitchState) (next back : Dword) : Context where
  ebp := s.cpu.reg .ebp
  ebx := s.cpu.reg .ebx
  edi := s.cpu.reg .edi
  esi := s.cpu.reg .esi
  eip := back
  stack := s.current :: next :: s.words

/-- What a new thread waits with: `kthread_start` with its two arguments. -/
def kthreadContext (l : Labels) (s : SwitchState) (t threadfn data : Dword) : Context :=
  let word (k : Nat) := s.cpu.mem (below (stackTop t) (INTR_STACK + k))
  { ebp := word 8, ebx := word 7, edi := word 6, esi := word 5, eip := l.kthreadStart
    stack := word 3 :: threadfn :: data :: wordsAt (stackTop t) s.cpu.mem INTR_STACK }

/-- What a child waits with: the frame of its parent at `intr_exit`, with 0 for `eax`. -/
def forkContext (l : Labels) (s : SwitchState) : Context :=
  let word (k : Nat) := s.cpu.mem (below (stackTop s.current) (INTR_STACK + k))
  { ebp := word 5, ebx := word 4, edi := word 3, esi := word 2, eip := l.intrExit
    stack := (wordsAt (stackTop s.current) s.cpu.mem INTR_STACK).set INTR_EAX 0 }

/-- The stack of the current task is in its page, in front of the word that `switch_to` writes, with
room for `n` words. -/
def Room (c : Cpu) (t : Dword) (n : Nat) : Prop :=
  ∃ ws, c.Stack (stackTop t) ws ∧ 1 ≤ ws.length ∧ ws.length + n < PG_WORDS

/-- The memory keeps the stacks of the tasks that wait. -/
def Keeps (s : SwitchState) (mem : Dword → Dword) : Prop :=
  ∀ t x, s.saved t = some x → mem t = s.cpu.mem t ∧
    ∀ k, 1 ≤ k → k ≤ x.frame.length → mem (below (stackTop t) k) = s.cpu.mem (below (stackTop t) k)

/-- A page that is no task. -/
def Free (s : SwitchState) (t : Dword) : Prop :=
  t &&& 0xfff = 0 ∧ t ≠ s.current ∧ s.saved t = none

/-- The actions that can happen. -/
def Enabled (s : SwitchState) : SwitchAct → Prop
  | .run c => Room c s.current 0 ∧ s.Keeps c.mem
  | .switchTo next _ => Room s.cpu s.current 7 ∧ (next = s.current ∨ s.saved next ≠ none)
  | .exit next _ => Room s.cpu s.current 7 ∧ s.saved next ≠ none
  | .kthreadCreate t _ _ => s.Free t
  | .fork t => s.Free t

/-- The state behind a switch, when `saved` has what all tasks wait with. -/
def switched (s : SwitchState) (saved : Dword → Option Context) (next back : Dword) :
    SwitchState where
  cpu := callSwitchTo s.cpu s.current next back
  current := next
  saved := Function.update saved next none

/-- The state after an action. -/
def next (l : Labels) (s : SwitchState) : SwitchAct → Except Halt SwitchState
  | .run cpu => pure { s with cpu }
  | .switchTo next back =>
      pure (s.switched (Function.update s.saved s.current (some (s.context next back))) next back)
  | .exit next back => pure (s.switched s.saved next back)
  | .kthreadCreate t threadfn data =>
      pure { s with
        cpu := { s.cpu with mem := initThread l s.cpu.mem t threadfn data }
        saved := Function.update s.saved t (some (s.kthreadContext l t threadfn data)) }
  | .fork t =>
      pure { s with
        cpu := { s.cpu with mem := forkStack l s.cpu.mem s.current t }
        saved := Function.update s.saved t (some (s.forkContext l)) }

/-- The main task runs on its stack, and there is no other task. -/
structure Start (s : SwitchState) : Prop where
  page : s.current &&& 0xfff = 0
  room : Room s.cpu s.current 0
  saved : ∀ t, s.saved t = none

end SwitchState

/-- Tasks that switch to each other in any order. -/
def switchSystem (l : Labels) : System SwitchState SwitchAct Halt where
  init := SwitchState.Start
  enabled := SwitchState.Enabled
  next := SwitchState.next l

end Fizzos.Kernel
