import Fizzos.Kernel.Sync
import Fizzos.Support.System
import Mathlib.Logic.Function.Basic

/-!
# `Fizzos.Kernel.RwLock`: threads that share a read-write lock

The functions of `rwlock_t` run with interrupts off from one sleep to the next, so each such
region is one action of `rwSystem`. A thread that `thread_unblock` made ready runs again at
any later time, in any order with the others (`RwAct.retry`), and a newcomer can run before
it.

A thread may take the lock again while it holds it. `readers` and `writers` have one entry
for each acquire that was not released yet. They only say which releases are matching: the
lock does not read them.
-/

set_option autoImplicit false

namespace Fizzos.Kernel

open Fizzos.Support

/-- Where a thread is in the code of the lock: outside, or in the loop of an acquire. -/
inductive RwPhase where
  | idle
  | readWait
  | writeWait
  deriving DecidableEq, Repr

/-- The lock and the threads that use it. -/
structure RwState where
  lock : RwLock
  phase : Tid → RwPhase
  /-- The thread's state is `BLOCKED`. -/
  blocked : Tid → Bool
  readers : List Tid
  writers : List Tid

/-- What a thread does next. -/
inductive RwAct where
  | readAcquire (t : Tid)
  | readRelease (t : Tid)
  | writeAcquire (t : Tid)
  | writeRelease (t : Tid)
  /-- A woken thread tests the condition of its loop again. -/
  | retry (t : Tid)

/-- `thread_unblock` for each thread of a list. -/
def unblockAll (blocked : Tid → Bool) (woken : List Tid) : Tid → Bool :=
  fun t => blocked t && decide (t ∉ woken)

namespace RwState

/-- Woken, but its loop has not tested the condition yet. -/
def Pending (s : RwState) (t : Tid) : Prop := s.phase t ≠ .idle ∧ s.blocked t = false

/-- One round of the loop of `rwlock_read_acquire`. -/
def tryRead (s : RwState) (t : Tid) : RwState :=
  match rwlockReadTry s.lock t with
  | (lock, true) =>
      { s with lock, phase := Function.update s.phase t .readWait,
               blocked := Function.update s.blocked t true }
  | (lock, false) =>
      { s with lock, phase := Function.update s.phase t .idle, readers := t :: s.readers }

/-- One round of the loop of `rwlock_write_acquire`. -/
def tryWrite (s : RwState) (t : Tid) : RwState :=
  match rwlockWriteTry s.lock t with
  | (lock, true) =>
      { s with lock, phase := Function.update s.phase t .writeWait,
               blocked := Function.update s.blocked t true }
  | (lock, false) =>
      { s with lock, phase := Function.update s.phase t .idle, writers := t :: s.writers }

/-- `rwlock_read_release`. -/
def readRelease (s : RwState) (t : Tid) : Except Halt RwState := do
  let (lock, woken) ← rwlockReadRelease s.lock
  pure { s with lock, blocked := unblockAll s.blocked woken, readers := s.readers.erase t }

/-- `rwlock_write_release`. -/
def writeRelease (s : RwState) (t : Tid) : Except Halt RwState := do
  let (lock, woken) ← rwlockWriteRelease s.lock
  pure { s with lock, blocked := unblockAll s.blocked woken, writers := s.writers.erase t }

/-- The actions that a thread can take: a sleeping thread takes none, and a release matches
an acquire. -/
def Enabled (s : RwState) : RwAct → Prop
  | .readAcquire t => s.phase t = .idle
  | .readRelease t => s.phase t = .idle ∧ t ∈ s.readers
  | .writeAcquire t => s.phase t = .idle
  | .writeRelease t => s.phase t = .idle ∧ t ∈ s.writers
  | .retry t => s.Pending t

instance (s : RwState) (t : Tid) : Decidable (s.Pending t) := inferInstanceAs (Decidable (_ ∧ _))

instance (s : RwState) (a : RwAct) : Decidable (s.Enabled a) := by
  cases a <;> unfold Enabled <;> infer_instance

/-- The state after an action. -/
def next (s : RwState) : RwAct → Except Halt RwState
  | .readAcquire t => pure (s.tryRead t)
  | .readRelease t => s.readRelease t
  | .writeAcquire t => pure (s.tryWrite t)
  | .writeRelease t => s.writeRelease t
  | .retry t =>
      match s.phase t with
      | .idle => pure s
      | .readWait => pure (s.tryRead t)
      | .writeWait => pure (s.tryWrite t)

/-- The lock after `rwlock_init`, and no thread uses it. -/
def start : RwState :=
  { lock := rwlockInit, phase := fun _ => .idle, blocked := fun _ => false,
    readers := [], writers := [] }

end RwState

/-- Any number of threads that use one read-write lock. -/
def rwSystem : System RwState RwAct Halt where
  init s := s = RwState.start
  enabled := RwState.Enabled
  next := RwState.next

instance (s : RwState) (a : RwAct) : Decidable (rwSystem.enabled s a) :=
  inferInstanceAs (Decidable (s.Enabled a))

end Fizzos.Kernel
