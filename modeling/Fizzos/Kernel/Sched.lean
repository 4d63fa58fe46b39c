import Fizzos.Kernel.Mutex

/-!
# `Fizzos.Kernel.Sched`: tasks, the ready list and the wait lists

The scheduler of `kernel/kthread.c` with everything that moves a task between the lists:
`do_fork`, `sys_exit`, the timer interrupt, and the semaphores, mutexes and condition
variables of `kernel/sync.c`. There is one processor. `current` is the task that runs on it,
and only the current task takes a step. A region with interrupts off is one action. The timer
can preempt the current task between any two actions, also in the middle of
`mutex_acquire`, `mutex_release` and `sema_post`, and `SchedPc` says where it goes on.

`idle` runs `idle_thread` and nothing else. The semaphore of a disk is posted by an interrupt
handler, which runs with interrupts off on top of any task (`SchedAct.intrPost`).

Left out of `task_struct`: what no list depends on (the stack and its magic number, the
names, the pid, the files and the memory). `get_free_page` is the choice of a task that is
not in use.
-/

set_option autoImplicit false

namespace Fizzos.Kernel

open Fizzos.Support

/-- `enum TASK_STATE`. -/
inductive TaskState where
  | RUNNING
  | READY
  | BLOCKED
  | EXIT
  deriving DecidableEq, Repr

/-- Where a task goes on when it runs. -/
inductive SchedPc where
  /-- In its own code. -/
  | run
  /-- In `mutex_acquire` or `mutex_release` of the mutex `m`. -/
  | mutex (m : Nat) (pc : MutexPc)
  /-- In `sema_post` of the semaphore `i`, behind the increment. -/
  | semaPop (i : Nat)
  deriving DecidableEq, Repr

/-- The task that `mutex_release` has popped and is about to unblock. -/
def SchedPc.popped : SchedPc → Option Tid
  | .mutex _ (.relUnblock u) => some u
  | _ => none

/-- A wait list. -/
inductive WaitPlace where
  | sem (i : Nat)
  | mutex (m : Nat)
  | cond (c : Nat)
  deriving DecidableEq, Repr

/-- The tasks and the locks. A page that is no `task_struct` has no state. -/
structure SchedState where
  current : Tid
  idle : Option Tid
  readyList : List Tid
  state : Tid → Option TaskState
  pc : Tid → SchedPc
  ticks : Tid → UInt32
  prio : Tid → UInt32
  sem : Nat → Sem
  mutex : Nat → MutexLock
  cond : Nat → Cond

namespace SchedState

/-- `t->state = v`. -/
def setState (s : SchedState) (t : Tid) (v : TaskState) : SchedState :=
  { s with state := Function.update s.state t (some v) }

/-- The task `t` goes on at `pc`. -/
def setPc (s : SchedState) (t : Tid) (pc : SchedPc) : SchedState :=
  { s with pc := Function.update s.pc t pc }

def setSem (s : SchedState) (i : Nat) (x : Sem) : SchedState :=
  { s with sem := Function.update s.sem i x }

def setMutex (s : SchedState) (m : Nat) (x : MutexLock) : SchedState :=
  { s with mutex := Function.update s.mutex m x }

def setCond (s : SchedState) (c : Nat) (x : Cond) : SchedState :=
  { s with cond := Function.update s.cond c x }

/-- `list_push_back(&ready_list, &t->task_tag)`. -/
def pushReady (s : SchedState) (t : Tid) : SchedState :=
  { s with readyList := s.readyList ++ [t] }

/-- `list_push_front(&ready_list, &t->task_tag)`. -/
def pushReadyFront (s : SchedState) (t : Tid) : SchedState :=
  { s with readyList := t :: s.readyList }

/-! ### `kernel/kthread.c` -/

/-- The second half of `schedule`: take the first ready task, or `idle`, and switch to it. -/
def pickNext (s : SchedState) : Except Halt SchedState := do
  let (next, rest) :=
    match s.readyList with
    | [] => (s.idle, [])
    | t :: ts => (some t, ts)
  ASSERT (next ≠ none)
  let next ← deref next
  pure { s.setState next .RUNNING with readyList := rest, current := next }

/-- `schedule`. In the `EXIT` branch the page of the task is given back, so that
`get_free_page` can return it again. -/
def schedule (s : SchedState) : Except Halt SchedState :=
  if s.state s.current = some .RUNNING then
    (({ s with ticks := Function.update s.ticks s.current (s.prio s.current) }.setState
      s.current .READY).pushReady s.current).pickNext
  else s.pickNext

/-- `thread_block`. -/
def threadBlock (s : SchedState) : Except Halt SchedState :=
  (s.setState s.current .BLOCKED).schedule

/-- `thread_unblock`. -/
def threadUnblock (s : SchedState) (t : Tid) : SchedState := (s.setState t .READY).pushReady t

/-- `thread_yield`. -/
def threadYield (s : SchedState) : Except Halt SchedState :=
  ((s.setState s.current .READY).pushReady s.current).schedule

/-- `kthread_create` in the page `t`. The new task starts with the ticks that the page has
from before. -/
def kthreadCreate (s : SchedState) (t : Tid) (prio ticks : UInt32) : SchedState :=
  (({ s with prio := Function.update s.prio t prio,
             ticks := Function.update s.ticks t ticks }.setState t .READY).setPc t .run).pushReady t

/-- `do_fork` with the page `t` for the child. -/
def doFork (s : SchedState) (t : Tid) : Except Halt SchedState :=
  ((({ s with prio := Function.update s.prio t (s.prio s.current),
              ticks := Function.update s.ticks t (s.ticks s.current) }.setState
      t .READY).setPc t .run).pushReadyFront t).schedule

/-- `sys_exit`. -/
def sysExit (s : SchedState) : Except Halt SchedState := (s.setState s.current .EXIT).schedule

/-- `intr_timer_handler`. -/
def intrTimerHandler (s : SchedState) : Except Halt SchedState :=
  if s.ticks s.current = 0 then s.schedule
  else pure { s with ticks := Function.update s.ticks s.current (s.ticks s.current - 1) }

/-! ### `kernel/sync.c` -/

/-- `sema_wait`. -/
def semaWait (s : SchedState) (i : Nat) : Except Halt SchedState :=
  match Kernel.semaWait (s.sem i) s.current with
  | (x, true) => (s.setSem i x).threadBlock
  | (x, false) => pure (s.setSem i x)

/-- The increment of `sema_post`. -/
def semaPost (s : SchedState) (i : Nat) : SchedState :=
  match semaPostInc (s.sem i) with
  | (x, true) => (s.setSem i x).setPc s.current (.semaPop i)
  | (x, false) => s.setSem i x

/-- The region of `sema_post` behind the increment. -/
def semaPop (s : SchedState) (i : Nat) : Except Halt SchedState := do
  let (x, t) ← semaPostPop (s.sem i)
  pure ((s.setSem i x).threadUnblock t)

/-- `sema_trywait`. -/
def semaTrywait (s : SchedState) (i : Nat) : SchedState :=
  s.setSem i (Kernel.semaTrywait (s.sem i)).1

/-- `sema_post` from an interrupt handler. -/
def intrPost (s : SchedState) (i : Nat) : Except Halt SchedState :=
  match semaPostInc (s.sem i) with
  | (x, true) => (s.setSem i x).semaPop i
  | (x, false) => pure (s.setSem i x)

/-- The next access of the current task to the mutex `m`. -/
def mutexStep (s : SchedState) (m : Nat) (pc : MutexPc) : Except Halt SchedState :=
  let t := s.current
  let x := s.mutex m
  match pc with
  | .outside => pure (s.setPc t .run)
  | .acqCheck =>
      if x.holder = some t then pure (s.setPc t (.mutex m .acqRepeat))
      else pure (s.setPc t (.mutex m (.acqTry false)))
  | .acqRepeat => pure ((s.setMutex m { x with «repeat» := x.repeat + 1 }).setPc t .run)
  | .acqTry _ =>
      match mutexTry x t with
      | (x, true) => ((s.setMutex m x).setPc t (.mutex m .acqSleep)).threadBlock
      | (x, false) => pure ((s.setMutex m x).setPc t (.mutex m .acqHolder))
  | .acqSleep => pure (s.setPc t (.mutex m (.acqTry true)))
  | .acqHolder =>
      pure ((s.setMutex m { x with holder := some t }).setPc t (.mutex m .acqOne))
  | .acqOne => pure ((s.setMutex m { x with «repeat» := 1 }).setPc t .run)
  | .relAssert => do
      ASSERT (x.holder = some t)
      pure (s.setPc t (.mutex m .relDec))
  | .relDec =>
      let left := x.repeat - 1
      pure ((s.setMutex m { x with «repeat» := left }).setPc t
        (if left = 0 then .mutex m .relHolder else .run))
  | .relHolder =>
      pure ((s.setMutex m { x with holder := none }).setPc t (.mutex m .relXchg))
  | .relXchg => do
      let (x, popped) ← mutexUnlock x
      pure ((s.setMutex m x).setPc t
        (match popped with
          | none => .run
          | some u => .mutex m (.relUnblock u)))
  | .relUnblock u => pure ((s.threadUnblock u).setPc t .run)

/-- `cond_wait`, up to the sleep. `mutex_release` runs with interrupts off here. Behind the
sleep comes `mutex_acquire`. -/
def condWait (s : SchedState) (c m : Nat) : Except Halt SchedState := do
  let t := s.current
  ASSERT (t ∉ (s.cond c).waitList)
  let (x, popped) ← mutexRelease (s.mutex m) t
  let s := s.setMutex m x
  let s := popped.elim s s.threadUnblock
  ((s.setCond c { waitList := (s.cond c).waitList ++ [t] }).setPc t
    (.mutex m .acqCheck)).threadBlock

/-- `cond_signal`. -/
def condSignal (s : SchedState) (c : Nat) : SchedState :=
  match (s.cond c).waitList with
  | [] => s
  | t :: ts => (s.setCond c { waitList := ts }).threadUnblock t

/-- The loop of `cond_broadcast` over what is left of the list. -/
def condWakeAll (s : SchedState) (c : Nat) : List Tid → SchedState
  | [] => s
  | t :: ts => ((s.setCond c { waitList := ts }).threadUnblock t).condWakeAll c ts

/-- `cond_broadcast`. -/
def condBroadcast (s : SchedState) (c : Nat) : SchedState :=
  s.condWakeAll c (s.cond c).waitList

end SchedState

/-- What happens next on the processor. -/
inductive SchedAct where
  /-- The timer interrupt. -/
  | timer
  /-- `sema_post` in an interrupt handler. -/
  | intrPost (i : Nat)
  /-- `thread_block` in the loop of `idle_thread`. -/
  | idleBlock
  | kthreadCreate (t : Tid) (prio ticks : UInt32)
  | doFork (t : Tid)
  | threadYield
  | sysExit
  | semaWait (i : Nat)
  | semaPost (i : Nat)
  | semaTrywait (i : Nat)
  | mutexAcquire (m : Nat)
  | mutexRelease (m : Nat)
  | condWait (c m : Nat)
  | condSignal (c : Nat)
  | condBroadcast (c : Nat)
  /-- The current task goes on in the function that it is in. -/
  | step

namespace SchedState

/-- The task is in its own code, and it is not `idle`. -/
def Runs (s : SchedState) : Prop := s.pc s.current = .run ∧ s.idle ≠ some s.current

/-- No task lives in the page `t`. -/
def Unused (s : SchedState) (t : Tid) : Prop := s.state t = none ∨ s.state t = some .EXIT

/-- The actions that can happen. -/
def Enabled (s : SchedState) : SchedAct → Prop
  | .timer | .intrPost _ => True
  | .idleBlock => s.idle = some s.current
  | .kthreadCreate t _ _ | .doFork t => s.Runs ∧ s.Unused t
  | .threadYield | .sysExit | .semaWait _ | .semaPost _ | .semaTrywait _ | .mutexAcquire _
  | .mutexRelease _ | .condWait _ _ | .condSignal _ | .condBroadcast _ => s.Runs
  | .step => s.pc s.current ≠ .run

/-- The state after an action. -/
def next (s : SchedState) : SchedAct → Except Halt SchedState
  | .timer => s.intrTimerHandler
  | .intrPost i => s.intrPost i
  | .idleBlock => s.threadBlock
  | .kthreadCreate t prio ticks => pure (s.kthreadCreate t prio ticks)
  | .doFork t => s.doFork t
  | .threadYield => s.threadYield
  | .sysExit => s.sysExit
  | .semaWait i => s.semaWait i
  | .semaPost i => pure (s.semaPost i)
  | .semaTrywait i => pure (s.semaTrywait i)
  | .mutexAcquire m => pure (s.setPc s.current (.mutex m .acqCheck))
  | .mutexRelease m => pure (s.setPc s.current (.mutex m .relAssert))
  | .condWait c m => s.condWait c m
  | .condSignal c => pure (s.condSignal c)
  | .condBroadcast c => pure (s.condBroadcast c)
  | .step =>
      match s.pc s.current with
      | .run => pure s
      | .mutex m pc => s.mutexStep m pc
      | .semaPop i => (s.setPc s.current .run).semaPop i

/-- The state after `thread_init`: the main task runs, `idle` is on the ready list, and
nobody waits. -/
structure Start (s : SchedState) : Prop where
  idle : ∃ i, s.idle = some i ∧ i ≠ s.current ∧ s.readyList = [i] ∧
    ∀ t, s.state t =
      if t = s.current then some .RUNNING else if t = i then some .READY else none
  pc : ∀ t, s.pc t = .run
  sem : ∀ i, (s.sem i).waitList = []
  mutex : ∀ m, (s.mutex m).waitList = []
  cond : ∀ c, (s.cond c).waitList = []

/-- The tasks on a wait list. -/
def waitList (s : SchedState) : WaitPlace → List Tid
  | .sem i => (s.sem i).waitList
  | .mutex m => (s.mutex m).waitList
  | .cond c => (s.cond c).waitList

end SchedState

/-- The tasks of the kernel under any schedule. -/
def schedSystem : System SchedState SchedAct Halt where
  init := SchedState.Start
  enabled := SchedState.Enabled
  next := SchedState.next

/-! ### The scheduler alone -/

/-- The calls of the scheduler, in any order, as the locks, the queues and the system calls make
them. All calls of `schedule` are in these. -/
inductive SliceAct where
  | timer
  | kthreadCreate (t : Tid) (prio ticks : UInt32)
  | doFork (t : Tid)
  | threadBlock
  | threadUnblock (t : Tid)
  | threadYield
  | sysExit

namespace SchedState

/-- A new task gets a page without a task, and `thread_unblock` gets a blocked task. -/
def SliceEnabled (s : SchedState) : SliceAct → Prop
  | .kthreadCreate t _ _ | .doFork t => s.Unused t
  | .threadUnblock t => s.state t = some .BLOCKED
  | .timer | .threadBlock | .threadYield | .sysExit => True

/-- The state after a call. -/
def sliceNext (s : SchedState) : SliceAct → Except Halt SchedState
  | .timer => s.intrTimerHandler
  | .kthreadCreate t prio ticks => pure (s.kthreadCreate t prio ticks)
  | .doFork t => s.doFork t
  | .threadBlock => s.threadBlock
  | .threadUnblock t => pure (s.threadUnblock t)
  | .threadYield => s.threadYield
  | .sysExit => s.sysExit

end SchedState

/-- Tasks that come, go, block and yield as they like. -/
def sliceSystem : System SchedState SliceAct Halt where
  init := SchedState.Start
  enabled := SchedState.SliceEnabled
  next := SchedState.sliceNext

end Fizzos.Kernel
