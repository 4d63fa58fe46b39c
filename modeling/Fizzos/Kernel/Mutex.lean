import Fizzos.Kernel.Sync
import Fizzos.Support.System
import Mathlib.Logic.Function.Basic

/-!
# `Fizzos.Kernel.Mutex`: threads that share a recursive mutex

`mutex_acquire` and `mutex_release` disable interrupts only around the exchange of `is_lock`
and the wait list. Between any two other accesses to the mutex another thread can run. So one
action of `mutexSystem` is one such access, or one region with interrupts off, and
`MutexPc` says which comes next in a thread.

`depth` counts the acquires of a thread that returned, minus the releases that took their
turn at `--mutex->repeat`. The mutex does not read it.
-/

set_option autoImplicit false

namespace Fizzos.Kernel

open Fizzos.Support

/-- The next access of a thread to the mutex. -/
inductive MutexPc where
  /-- In no function of the mutex. -/
  | outside
  /-- `if (mutex->holder == current)`. -/
  | acqCheck
  /-- `mutex->repeat++`. -/
  | acqRepeat
  /-- The region with the exchange. `woken` says if the thread was popped from the wait list
  before, so that this is not its first try. -/
  | acqTry (woken : Bool)
  /-- In `thread_block`. -/
  | acqSleep
  /-- `mutex->holder = current`. -/
  | acqHolder
  /-- `mutex->repeat = 1`. -/
  | acqOne
  /-- `ASSERT(mutex->holder == get_current())`. -/
  | relAssert
  /-- `if (--mutex->repeat == 0)`. -/
  | relDec
  /-- `mutex->holder = NULL`. -/
  | relHolder
  /-- The region with the exchange and `list_pop_front`. -/
  | relXchg
  /-- `thread_unblock` of the thread that was popped. -/
  | relUnblock (popped : Tid)
  deriving DecidableEq, Repr

/-- The mutex and the threads that use it. -/
structure MutexState where
  lock : MutexLock
  pc : Tid → MutexPc
  /-- The thread's state is `BLOCKED`. -/
  blocked : Tid → Bool
  depth : Tid → Nat

/-- A call of a function, or the next access of a call. -/
inductive MutexAct where
  | acquire (t : Tid)
  | release (t : Tid)
  | step (t : Tid)

namespace MutexState

/-- The thread `t` goes on at `pc`. -/
def goto (s : MutexState) (t : Tid) (pc : MutexPc) : MutexState :=
  { s with pc := Function.update s.pc t pc }

/-- The next access of the thread `t`. -/
def step (s : MutexState) (t : Tid) : Except Halt MutexState :=
  match s.pc t with
  | .outside => pure s
  | .acqCheck =>
      if s.lock.holder = some t then pure (s.goto t .acqRepeat)
      else pure (s.goto t (.acqTry false))
  | .acqRepeat =>
      pure { s.goto t .outside with
        lock := { s.lock with «repeat» := s.lock.repeat + 1 }
        depth := Function.update s.depth t (s.depth t + 1) }
  | .acqTry _ =>
      match mutexTry s.lock t with
      | (lock, true) =>
          pure { s.goto t .acqSleep with lock, blocked := Function.update s.blocked t true }
      | (lock, false) => pure { s.goto t .acqHolder with lock }
  | .acqSleep => pure (s.goto t (.acqTry true))
  | .acqHolder => pure { s.goto t .acqOne with lock := { s.lock with holder := some t } }
  | .acqOne =>
      pure { s.goto t .outside with
        lock := { s.lock with «repeat» := 1 }
        depth := Function.update s.depth t (s.depth t + 1) }
  | .relAssert => do
      ASSERT (s.lock.holder = some t)
      pure (s.goto t .relDec)
  | .relDec =>
      let left := s.lock.repeat - 1
      pure { s.goto t (if left = 0 then .relHolder else .outside) with
        lock := { s.lock with «repeat» := left }
        depth := Function.update s.depth t (s.depth t - 1) }
  | .relHolder => pure { s.goto t .relXchg with lock := { s.lock with holder := none } }
  | .relXchg => do
      let (lock, popped) ← mutexUnlock s.lock
      pure { s.goto t (popped.elim .outside .relUnblock) with lock }
  | .relUnblock popped =>
      pure { s.goto t .outside with blocked := Function.update s.blocked popped false }

/-- A thread outside may call `mutex_acquire`, and it may release what it holds. A thread in
a call goes on unless it sleeps. -/
def Enabled (s : MutexState) : MutexAct → Prop
  | .acquire t => s.pc t = .outside
  | .release t => s.pc t = .outside ∧ 0 < s.depth t
  | .step t => s.pc t ≠ .outside ∧ s.blocked t = false

instance (s : MutexState) (a : MutexAct) : Decidable (s.Enabled a) := by
  cases a <;> unfold Enabled <;> infer_instance

/-- The state after an action. -/
def next (s : MutexState) : MutexAct → Except Halt MutexState
  | .acquire t => pure (s.goto t .acqCheck)
  | .release t => pure (s.goto t .relAssert)
  | .step t => s.step t

/-- The mutex after `mutex_lock_init`, and no thread uses it. -/
def start : MutexState :=
  { lock := mutexLockInit, pc := fun _ => .outside, blocked := fun _ => false,
    depth := fun _ => 0 }

/-- The thread owns the mutex: from the exchange that set `is_lock` to the exchange that
clears it. -/
def Holds (s : MutexState) (t : Tid) : Prop :=
  0 < s.depth t ∨ s.pc t = .acqHolder ∨ s.pc t = .acqOne ∨ s.pc t = .relHolder ∨
    s.pc t = .relXchg

/-- The thread was popped from the wait list, is ready or about to be made ready, and will
try the exchange again. -/
def WillRetry (s : MutexState) (t : Tid) : Prop :=
  (s.pc t = .acqSleep ∧ ((∃ v, s.pc v = .relUnblock t) ∨ s.blocked t = false)) ∨
    s.pc t = .acqTry true

end MutexState

/-- Any number of threads that use one mutex, nested to any depth. -/
def mutexSystem : System MutexState MutexAct Halt where
  init s := s = MutexState.start
  enabled := MutexState.Enabled
  next := MutexState.next

/-- An acquire that keeps the depth of its thread below `2 ^ 32`. -/
def DepthFits (s : MutexState) : MutexAct → Prop
  | .acquire t => s.depth t + 1 < 2 ^ 32
  | _ => True

instance (s : MutexState) (a : MutexAct) : Decidable (DepthFits s a) := by
  cases a <;> unfold DepthFits <;> infer_instance

/-- `mutexSystem` where no thread nests `2 ^ 32` acquires, so that `repeat` can count
them. -/
def shallowMutexSystem : System MutexState MutexAct Halt :=
  mutexSystem.restrict DepthFits

end Fizzos.Kernel
