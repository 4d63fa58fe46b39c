import Fizzos.Kernel.Mutex

/-!
# `Fizzos.Kernel.Cond`: threads that wait on a condition

`cond_wait` runs with interrupts off up to `thread_block`. It calls `mutex_release` there, so
nobody sees the mutex in the middle, and the region is one action of `condSystem`
(`CondAct.wait`). A woken thread runs again at any later time (`CondAct.wake`), and then
`mutex_acquire` goes on as in `mutexSystem`, one access at a time.

A place in `cond_wait` has the depth at the call. `since` has the time at which a thread went to
sleep. The code does not read them.
-/

set_option autoImplicit false

namespace Fizzos.Kernel

open Fizzos.Support

/-- Where a thread is in `cond_wait`. -/
inductive CondPlace where
  | outside
  /-- In `thread_block`. -/
  | asleep (depth : Nat)
  /-- In `mutex_acquire`, or behind it. -/
  | acquiring (depth : Nat)
  deriving DecidableEq, Repr

instance decidableAsleep (p : CondPlace) : Decidable (∃ d, p = .asleep d) :=
  match p with
  | .asleep d => isTrue ⟨d, rfl⟩
  | .outside | .acquiring _ => isFalse (by simp)

instance decidableAcquiring (p : CondPlace) : Decidable (∃ d, p = .acquiring d) :=
  match p with
  | .acquiring d => isTrue ⟨d, rfl⟩
  | .outside | .asleep _ => isFalse (by simp)

/-- The condition, the mutex that all calls of `cond_wait` pass, and the threads. -/
structure CondState where
  mutex : MutexState
  cond : Cond
  place : Tid → CondPlace
  since : Tid → Nat
  clock : Nat

/-- What a thread does next. -/
inductive CondAct where
  /-- A call of `mutex_acquire` or `mutex_release`, or the next access of one. -/
  | mutex (a : MutexAct)
  /-- `cond_wait` up to `thread_block`. -/
  | wait (t : Tid)
  /-- A woken thread returns from `thread_block` and calls `mutex_acquire`. -/
  | wake (t : Tid)
  /-- `cond_wait` returns. -/
  | ret (t : Tid)
  | signal (t : Tid)
  | broadcast (t : Tid)

/-- `thread_unblock` of the thread that was popped, if there is one. -/
def unblockPopped (blocked : Tid → Bool) : Option Tid → Tid → Bool
  | none => blocked
  | some t => Function.update blocked t false

/-- `mutex_release` with interrupts off. -/
def MutexState.release (s : MutexState) (t : Tid) : Except Halt MutexState := do
  let (lock, popped) ← mutexRelease s.lock t
  pure { s with lock, blocked := unblockPopped s.blocked popped
                depth := Function.update s.depth t (s.depth t - 1) }

/-- The thread's state becomes `BLOCKED`, or `READY`. -/
def MutexState.setBlocked (s : MutexState) (t : Tid) (b : Bool) : MutexState :=
  { s with blocked := Function.update s.blocked t b }

namespace CondState

/-- The thread is in no function of the mutex or the condition. -/
def Idle (s : CondState) (t : Tid) : Prop := s.mutex.pc t = .outside ∧ s.place t = .outside

/-- A thread waits only with the mutex in its hands. -/
def Enabled (s : CondState) : CondAct → Prop
  | .mutex (.acquire t) => s.Idle t
  | .mutex (.release t) => s.Idle t ∧ 0 < s.mutex.depth t
  | .mutex (.step t) => s.mutex.Enabled (.step t)
  | .wait t => s.Idle t ∧ 0 < s.mutex.depth t
  | .wake t => (∃ d, s.place t = .asleep d) ∧ s.mutex.blocked t = false
  | .ret t => (∃ d, s.place t = .acquiring d) ∧ s.mutex.pc t = .outside
  | .signal t => s.Idle t
  | .broadcast t => s.Idle t

instance (s : CondState) (t : Tid) : Decidable (s.Idle t) := inferInstanceAs (Decidable (_ ∧ _))

instance (s : CondState) (a : CondAct) : Decidable (s.Enabled a) :=
  match a with
  | .mutex (.acquire t) | .signal t | .broadcast t => inferInstanceAs (Decidable (s.Idle t))
  | .mutex (.release _) | .wait _ | .wake _ | .ret _ => inferInstanceAs (Decidable (_ ∧ _))
  | .mutex (.step t) => inferInstanceAs (Decidable (s.mutex.Enabled (.step t)))

/-- `cond_wait` up to `thread_block`. -/
def wait (s : CondState) (t : Tid) : Except Halt CondState := do
  ASSERT (t ∉ s.cond.waitList)
  let mutex ← s.mutex.release t
  pure { mutex := mutex.setBlocked t true
         cond := { waitList := s.cond.waitList ++ [t] }
         place := Function.update s.place t (.asleep (s.mutex.depth t))
         since := Function.update s.since t s.clock
         clock := s.clock + 1 }

/-- `cond_signal`. -/
def signal (s : CondState) : CondState :=
  match s.cond.waitList with
  | [] => s
  | w :: ws => { s with mutex := s.mutex.setBlocked w false, cond := { waitList := ws } }

/-- The loop of `cond_broadcast` over the list. -/
def wakeAll (s : CondState) : List Tid → CondState
  | [] => s
  | w :: ws => wakeAll { s with mutex := s.mutex.setBlocked w false, cond := { waitList := ws } } ws

/-- The state after an action. -/
def next (s : CondState) : CondAct → Except Halt CondState
  | .mutex a => do
      let mutex ← s.mutex.next a
      pure { s with mutex }
  | .wait t => s.wait t
  | .wake t =>
      match s.place t with
      | .asleep d => pure { s with mutex := s.mutex.goto t .acqCheck
                                   place := Function.update s.place t (.acquiring d) }
      | _ => pure s
  | .ret t => pure { s with place := Function.update s.place t .outside }
  | .signal _ => pure s.signal
  | .broadcast _ => pure (s.wakeAll s.cond.waitList)

/-- The condition after `cond_init`, the mutex after `mutex_lock_init`. -/
def start : CondState :=
  { mutex := MutexState.start, cond := { waitList := [] }, place := fun _ => .outside
    since := fun _ => 0, clock := 0 }

end CondState

/-- Any number of threads that use one mutex and one condition. -/
def condSystem : System CondState CondAct Halt where
  init s := s = CondState.start
  enabled := CondState.Enabled
  next := CondState.next

instance (s : CondState) (a : CondAct) : Decidable (condSystem.enabled s a) :=
  inferInstanceAs (Decidable (s.Enabled a))

/-- An acquire that keeps the depth of its thread below `2 ^ 32`. -/
def CondFits (s : CondState) : CondAct → Prop
  | .mutex a => DepthFits s.mutex a
  | _ => True

instance (s : CondState) (a : CondAct) : Decidable (CondFits s a) := by
  cases a <;> unfold CondFits <;> infer_instance

/-- `condSystem` where no thread nests `2 ^ 32` acquires. -/
def shallowCondSystem : System CondState CondAct Halt := condSystem.restrict CondFits

/-- A wait of a thread that has acquired the mutex once. -/
def WaitsOnce (s : CondState) : CondAct → Prop
  | .wait t => s.mutex.depth t = 1
  | _ => True

instance (s : CondState) (a : CondAct) : Decidable (WaitsOnce s a) := by
  cases a <;> unfold WaitsOnce <;> infer_instance

instance (s : CondState) (a : CondAct) : Decidable (shallowCondSystem.enabled s a) :=
  inferInstanceAs (Decidable ((condSystem.restrict CondFits).enabled s a))

end Fizzos.Kernel
