import Fizzos.Kernel.Paging
import Fizzos.Kernel.Sched

/-!
# `Fizzos.Kernel.Fork`: the pid that `do_fork` returns

`do_fork` makes the child, calls `schedule` and returns `new->pid`, when its task runs again. In
between other tasks run, and the child may exit. Its page is free then, and `new` still points to
it.

A system call runs with interrupts off, so `do_fork` has three regions: up to `alloc_pid`
(`doFork`), the call of `schedule` (`forkSchedule`) and the return (`forkReturn`). Between the first
two regions `copy_mm` takes pages and writes them, like other code does at any time
(`ForkAct.pages`, `ForkAct.write`).

Of the memory in a page there is the word at the offset of `pid` in `struct task_struct`. `tasks`
has the pages that are a `task_struct`, and `others` the blocks that other code has. The code does
not read either. The main task has its page from the loader, and it does not exit.
-/

set_option autoImplicit false

namespace Fizzos.Kernel

open Fizzos.LibKernel
open Fizzos.Support

/-- A call of `do_fork` behind `alloc_pid`: the variable `new`, what `alloc_pid` returned, and if
the task has called `schedule`. -/
structure ForkCall where
  new : Tid
  pid : Nat
  waits : Bool
  deriving DecidableEq, Repr

/-- The tasks with the memory of their pages. -/
structure ForkState where
  sched : SchedState
  buddy : Buddy
  pidBitmap : Bitmap
  pid : Nat → Nat
  fork : Tid → Option ForkCall
  tasks : Multiset Nat
  others : Pool → Multiset Block

/-- What happens next on the processor. -/
inductive ForkAct where
  | timer
  | threadBlock
  | threadUnblock (t : Tid)
  | threadYield
  | kthreadCreate (prio ticks : UInt32)
  /-- `do_fork`, up to `alloc_pid`. -/
  | doFork
  /-- `do_fork`, up to `schedule`. -/
  | forkSchedule
  /-- The return of `do_fork`. -/
  | forkReturn
  | sysExit
  /-- A call of other code to the page allocator. -/
  | pages (a : BuddyAct)
  /-- Other code writes a page that it has. -/
  | write (idx v : Nat)

/-- The pages of the tasks, which are in the kernel pool. -/
def taskPages (tasks : Multiset Nat) : Pool → Multiset Nat :=
  Function.update (fun _ => 0) .kernel tasks

namespace ForkState

def setFork (s : ForkState) (t : Tid) (call : Option ForkCall) : ForkState :=
  { s with fork := Function.update s.fork t call }

/-- A page that is a `task_struct`. -/
def IsTask (s : ForkState) (t : Tid) : Prop := ∃ idx ∈ s.tasks, t = pageAddr idx

/-- `alloc_pid`. -/
def allocPid (s : ForkState) : Except Halt (Nat × Bitmap) :=
  bitmapScanSet s.pidBitmap s.sched.current

/-- `free_pid`. -/
def freePid (s : ForkState) (pid : Nat) : Except Halt Bitmap :=
  bitmapReset s.pidBitmap pid s.sched.current

/-- `kthread_create`. The new task has the ticks that the page has from before. -/
def kthreadCreate (s : ForkState) (prio ticks : UInt32) : Except Halt ForkState := do
  let (t, buddy) ← s.buddy.getFreePage KERNEL_POOL s.sched.current
  let (pid, pidBitmap) ← s.allocPid
  pure { s with
    sched := s.sched.kthreadCreate t prio ticks, buddy, pidBitmap
    pid := Function.update s.pid t pid
    tasks := paddr2pg (getPaddr t) ::ₘ s.tasks }

/-- `do_fork`, up to `alloc_pid`. -/
def doFork (s : ForkState) : Except Halt ForkState := do
  let current := s.sched.current
  let (new, buddy) ← s.buddy.getFreePage KERNEL_POOL current
  let s := { s with
    buddy, pid := Function.update s.pid new (s.pid current)
    tasks := paddr2pg (getPaddr new) ::ₘ s.tasks }
  let (pid, pidBitmap) ← s.allocPid
  let s := { s with pidBitmap, pid := Function.update s.pid new pid }
  pure (s.setFork current (some ⟨new, pid, false⟩))

/-- `do_fork`, from the end of `copy_mm` to the call of `schedule`. -/
def forkSchedule (s : ForkState) : Except Halt ForkState := do
  let current := s.sched.current
  let call ← deref (s.fork current)
  let sched ← s.sched.doFork call.new
  pure ({ s with sched }.setFork current (some { call with waits := true }))

/-- `return new->pid`. -/
def forkReturn (s : ForkState) : Except Halt (Nat × ForkState) := do
  let call ← deref (s.fork s.sched.current)
  pure (s.pid call.new, s.setFork s.sched.current none)

/-- `sys_exit`, with the `EXIT` branch of `schedule`. -/
def sysExit (s : ForkState) : Except Halt ForkState := do
  let current := s.sched.current
  let pidBitmap ← s.freePid (s.pid current)
  let buddy ← s.buddy.freePageAt current current
  let sched ← s.sched.sysExit
  pure { s with sched, buddy, pidBitmap, tasks := s.tasks.erase (paddr2pg (getPaddr current)) }

/-- The current task is not in `do_fork`. -/
def Runs (s : ForkState) : Prop := s.fork s.sched.current = none

/-- The current task is in its own code or in `copy_mm`. -/
def MayWrite (s : ForkState) : Prop := ∀ call ∈ s.fork s.sched.current, call.waits = false

instance (s : ForkState) (t : Tid) : Decidable (s.IsTask t) :=
  Multiset.decidableExistsMultiset

instance (s : ForkState) : Decidable s.Runs :=
  inferInstanceAs (Decidable (s.fork s.sched.current = none))

instance (s : ForkState) : Decidable s.MayWrite :=
  inferInstanceAs (Decidable (∀ call ∈ s.fork s.sched.current, call.waits = false))

/-- The actions that can happen. -/
def Enabled (s : ForkState) : ForkAct → Prop
  | .timer | .threadBlock | .threadYield | .kthreadCreate _ _ => s.Runs
  | .threadUnblock t => s.Runs ∧ s.sched.state t = some .BLOCKED
  | .doFork => s.Runs ∧ s.sched.idle ≠ some s.sched.current
  | .forkSchedule => ∃ call, s.fork s.sched.current = some call ∧ call.waits = false
  | .forkReturn => ∃ call, s.fork s.sched.current = some call ∧ call.waits = true
  | .sysExit => s.Runs ∧ s.sched.idle ≠ some s.sched.current ∧ s.IsTask s.sched.current
  | .pages a => s.MayWrite ∧ (BuddyState.mk s.buddy s.others).Enabled a
  | .write idx _ => s.MayWrite ∧ ∃ P, ∃ blk ∈ s.others P, blk.Covers idx

/-- The state after an action. -/
def next (s : ForkState) : ForkAct → Except Halt ForkState
  | .timer => do
      let sched ← s.sched.intrTimerHandler
      pure { s with sched }
  | .threadBlock => do
      let sched ← s.sched.threadBlock
      pure { s with sched }
  | .threadUnblock t => pure { s with sched := s.sched.threadUnblock t }
  | .threadYield => do
      let sched ← s.sched.threadYield
      pure { s with sched }
  | .kthreadCreate prio ticks => s.kthreadCreate prio ticks
  | .doFork => s.doFork
  | .forkSchedule => s.forkSchedule
  | .forkReturn => do
      let (_, s) ← s.forkReturn
      pure s
  | .sysExit => s.sysExit
  | .pages a => do
      let t ← (BuddyState.mk s.buddy s.others).next a
      pure { s with buddy := t.buddy, others := t.live }
  | .write idx v => pure { s with pid := Function.update s.pid (pageAddr idx) v }

/-- The state after `thread_init`: the main task has the pid 0, and `idle` the pid 1. -/
structure Start (totalMemSize : Nat) (s : ForkState) : Prop where
  size : totalMemSize > 512 * PG_SIZE ∧ totalMemSize ≤ 1024 * 1024 * 1024
  sched : s.sched.Start
  idle : ∃ idx, s.sched.idle = some (pageAddr idx) ∧ s.tasks = {idx} ∧
    (s.buddy.page idx).count = 1 ∧ s.pid (pageAddr idx) = 1
  main : s.pid s.sched.current = 0
  fork : ∀ t, s.fork t = none
  pages : (buddySystem totalMemSize).Reachable ⟨s.buddy, s.others + pageBlock (taskPages s.tasks)⟩
  pids : (idSystem MAX_PID).Reachable ⟨s.pidBitmap, [1, 0]⟩

end ForkState

/-- Tasks that come, fork and go under any schedule, on a machine with `totalMemSize` bytes. -/
def forkSystem (totalMemSize : Nat) : System ForkState ForkAct Halt where
  init := ForkState.Start totalMemSize
  enabled := ForkState.Enabled
  next := ForkState.next

end Fizzos.Kernel
