import Fizzos.Machine
import Fizzos.Support.System
import Fizzos.Support.X86

/-!
# `Fizzos.Kernel.IntrStatus`: when interrupts are off

`IF` is a flag of the one processor, and `switch_to` does not save it. What it is when a task goes
on is up to the task that ran before. Each function that turns interrupts off keeps the old status
in a local variable, or the processor keeps it in the frame of a trap. These are the frames of a
task (`IntrFrame`), with the innermost one in front.

An action is a call that pushes a frame, a return from the innermost frame, or a call of `schedule`.
The order of the tasks is free. `thread_yield` does not restore the old status: it turns interrupts
on. Its callers are `slock_lock`, from threads with interrupts on, and `ticks_to_sleep`, which has
the old status in a frame of its own.

Left out: `panic`, and the first part of `init_all`, where interrupts are off and there is one task.
-/

set_option autoImplicit false

namespace Fizzos.Kernel

open Fizzos.Support
open Fizzos.Support.X86

/-! ### `kernel/interrupt.c` -/

/-- `enum intr_status`. -/
inductive IntrStatus where
  | INTR_OFF
  | INTR_ON
  deriving DecidableEq, Repr

def EFLAGS_IF : Dword := 0x200

/-- `intr_get_status` -/
def intrGetStatus (eflags : Dword) : IntrStatus :=
    if EFLAGS_IF &&& eflags ≠ 0 then .INTR_ON else .INTR_OFF

/-- `sti` -/
def sti (eflags : Dword) : Dword := eflags ||| EFLAGS_IF

/-- `cli` -/
def cli (eflags : Dword) : Dword := eflags &&& ~~~EFLAGS_IF

/-- `intr_enable`: the old status, and the new flags. -/
def intrEnable (eflags : Dword) : IntrStatus × Dword :=
  if intrGetStatus eflags = .INTR_ON then (.INTR_ON, eflags) else (.INTR_OFF, sti eflags)

/-- `intr_disable` -/
def intrDisable (eflags : Dword) : IntrStatus × Dword :=
  if intrGetStatus eflags = .INTR_ON then (.INTR_ON, cli eflags) else (.INTR_OFF, eflags)

/-- `intr_set_status` -/
def intrSetStatus (status : IntrStatus) (eflags : Dword) : IntrStatus × Dword :=
  if status = .INTR_ON then intrEnable eflags else intrDisable eflags

/-! ### Tasks -/

/-- What a task goes back to. -/
inductive IntrFrame where
  /-- Between `intr_disable` and `intr_set_status(old)`. -/
  | region (old : IntrStatus)
  /-- In a handler, with the flags in the `struct intr_stack`. -/
  | trap (eflags : Dword)
  /-- In `schedule`, called from `thread_yield`. -/
  | yield
  /-- Behind `thread_yield` in `ticks_to_sleep`. -/
  | slept (old : IntrStatus)
  /-- A new thread, in front of `kthread_start`. -/
  | start
  deriving DecidableEq, Repr

/-- The flags of the processor, the task that runs, and the frames of all tasks. -/
structure IntrState where
  eflags : Dword
  current : Nat
  frames : Nat → Option (List IntrFrame)

/-- What the current task does next. `next` is the task that `schedule` takes. -/
inductive IntrAct where
  /-- `intr_disable` -/
  | disable
  /-- The processor takes an interrupt of a device. -/
  | intr
  /-- A page fault, another exception or a system call. -/
  | exception
  /-- The innermost frame ends. -/
  | ret
  | threadBlock (next : Nat)
  /-- `thread_yield` in `slock_lock`. -/
  | threadYield (next : Nat)
  /-- A round of `ticks_to_sleep`. -/
  | ticksToSleep (next : Nat)
  /-- `intr_timer_handler`, when the time of the task is over. -/
  | timer (next : Nat)
  | sysExit (next : Nat)
  | kthreadCreate (t : Nat)
  | doFork (t : Nat)

namespace IntrState

/-- The frames of the current task. -/
def stack (s : IntrState) : List IntrFrame := (s.frames s.current).getD []

def setStack (s : IntrState) (fs : List IntrFrame) : IntrState :=
  { s with frames := Function.update s.frames s.current (some fs) }

/-- `intr_disable`, whose old status goes to a frame. -/
def disable (s : IntrState) (frame : IntrStatus → IntrFrame) : IntrState :=
  let (old, eflags) := intrDisable s.eflags
  { s.setStack (frame old :: s.stack) with eflags }

/-- A trap through an interrupt gate. -/
def trap (s : IntrState) : IntrState :=
  { s.setStack (.trap s.eflags :: s.stack) with eflags := s.eflags &&& ~~~Cpu.GATE_FLAGS }

/-- The flags behind the end of a frame. -/
def flagsBehind (eflags : Dword) : IntrFrame → Dword
  | .region old | .slept old => (intrSetStatus old eflags).2
  | .trap saved => saved
  | .yield | .start => (intrEnable eflags).2

/-- The innermost frame ends. -/
def ret (s : IntrState) : IntrState :=
  match s.stack with
  | [] => s
  | f :: fs => { s.setStack fs with eflags := flagsBehind s.eflags f }

/-- `schedule`, up to the switch. -/
def schedule (s : IntrState) (next : Nat) : Except Halt IntrState := do
  ASSERT (intrGetStatus s.eflags = .INTR_OFF)
  pure { s with current := next }

/-- The actions that can happen. -/
def Enabled (s : IntrState) : IntrAct → Prop
  | .disable | .exception => True
  | .intr => intrGetStatus s.eflags = .INTR_ON
  | .ret => s.stack ≠ []
  | .threadBlock next | .ticksToSleep next => s.frames next ≠ none
  | .threadYield next => s.frames next ≠ none ∧ intrGetStatus s.eflags = .INTR_ON
  | .timer next => s.frames next ≠ none ∧ ∃ e fs, s.stack = .trap e :: fs
  | .sysExit next => s.frames next ≠ none ∧ next ≠ s.current ∧ ∃ e fs, s.stack = .trap e :: fs
  | .kthreadCreate t => s.frames t = none
  | .doFork t => s.frames t = none ∧ ∃ e, s.stack = [.trap e]

instance decidableInTrap (fs : List IntrFrame) : Decidable (∃ e gs, fs = .trap e :: gs) :=
  match fs with
  | .trap e :: gs => isTrue ⟨e, gs, rfl⟩
  | [] | .region _ :: _ | .yield :: _ | .slept _ :: _ | .start :: _ => isFalse (by simp)

instance decidableInSyscall (fs : List IntrFrame) : Decidable (∃ e, fs = [.trap e]) :=
  match fs with
  | [.trap e] => isTrue ⟨e, rfl⟩
  | [] | _ :: _ :: _ | [.region _] | [.yield] | [.slept _] | [.start] => isFalse (by simp)

instance (s : IntrState) (a : IntrAct) : Decidable (s.Enabled a) := by
  cases a <;> unfold Enabled <;> infer_instance

/-- The state after an action. -/
def next (s : IntrState) : IntrAct → Except Halt IntrState
  | .disable => pure (s.disable .region)
  | .intr | .exception => pure s.trap
  | .ret => pure s.ret
  | .threadBlock next => (s.disable .region).schedule next
  | .threadYield next => (s.disable fun _ => .yield).schedule next
  | .ticksToSleep next => ((s.disable .slept).disable fun _ => .yield).schedule next
  | .timer next => s.schedule next
  | .sysExit next => do
      let s' ← s.schedule next
      pure { s' with frames := Function.update s'.frames s.current none }
  | .kthreadCreate t => pure { s with frames := Function.update s.frames t (some [.start]) }
  | .doFork t => { s with frames := Function.update s.frames t (some s.stack) }.schedule t

/-- The main task in front of `ide_init`, and `idle`, which has not run. -/
structure Start (s : IntrState) : Prop where
  eflags : intrGetStatus s.eflags = .INTR_ON
  main : s.frames s.current = some []
  others : ∃ i, i ≠ s.current ∧ ∀ t, t ≠ s.current →
    s.frames t = if t = i then some [.start] else none

end IntrState

/-- The interrupt status in any order of the tasks and of the interrupts. -/
def intrSystem : System IntrState IntrAct Halt where
  init := IntrState.Start
  enabled := IntrState.Enabled
  next := IntrState.next

instance (s : IntrState) (a : IntrAct) : Decidable (intrSystem.enabled s a) :=
  inferInstanceAs (Decidable (s.Enabled a))

end Fizzos.Kernel
