import Fizzos.Kernel.Sync
import Fizzos.Support.System

/-!
# `Fizzos.Kernel.Semaphore`: threads that share a semaphore

`sema_wait` and `sema_trywait` run with interrupts off. `sema_post` increments `count` first,
maybe with interrupts on, and pops a waiter later, so it takes two actions of `semaSystem`.
An interrupt handler that posts counts as a thread of its own.

A thread that is popped returns from `sema_wait` at any later time (`SemaAct.resume`). It does
not test `count` again.

`posting`, `woken`, `posts` and `completed` say where the threads are and how far they got. The
semaphore does not read them.
-/

set_option autoImplicit false

namespace Fizzos.Kernel

open Fizzos.Support

/-- The semaphore and the threads that use it. -/
structure SemaState where
  sem : Sem
  /-- The threads between the increment and the pop of `sema_post`. -/
  posting : List Tid
  /-- The threads that were popped, and that are still in `sema_wait`. -/
  woken : List Tid
  /-- The posts begun. -/
  posts : Nat
  /-- The completed waits and the successful trywaits. -/
  completed : Nat

/-- What a thread does next. -/
inductive SemaAct where
  | wait (t : Tid)
  | trywait (t : Tid)
  /-- `sema_post` up to the increment. -/
  | post (t : Tid)
  /-- The rest of `sema_post`. -/
  | pop (t : Tid)
  /-- A woken thread returns from `sema_wait`. -/
  | resume (t : Tid)

namespace SemaState

/-- The thread is in no function of the semaphore. -/
def Idle (s : SemaState) (t : Tid) : Prop :=
  t ∉ s.sem.waitList ∧ t ∉ s.posting ∧ t ∉ s.woken

def Enabled (s : SemaState) : SemaAct → Prop
  | .wait t => s.Idle t
  | .trywait t => s.Idle t
  | .post t => s.Idle t
  | .pop t => t ∈ s.posting
  | .resume t => t ∈ s.woken

/-- `sema_wait`, to its end or to the sleep. -/
def wait (s : SemaState) (t : Tid) : SemaState :=
  match semaWait s.sem t with
  | (sem, true) => { s with sem }
  | (sem, false) => { s with sem, completed := s.completed + 1 }

/-- `sema_trywait`. -/
def trywait (s : SemaState) : SemaState :=
  match semaTrywait s.sem with
  | (sem, true) => { s with sem, completed := s.completed + 1 }
  | (sem, false) => { s with sem }

/-- `sema_post` up to the increment. It ends there when nobody waits. -/
def post (s : SemaState) (t : Tid) : SemaState :=
  match semaPostInc s.sem with
  | (sem, true) => { s with sem, posts := s.posts + 1, posting := t :: s.posting }
  | (sem, false) => { s with sem, posts := s.posts + 1 }

/-- The rest of `sema_post`. -/
def pop (s : SemaState) (t : Tid) : Except Halt SemaState := do
  let (sem, popped) ← semaPostPop s.sem
  pure { s with sem, posting := s.posting.erase t, woken := popped :: s.woken }

/-- The state after an action. -/
def next (s : SemaState) : SemaAct → Except Halt SemaState
  | .wait t => pure (s.wait t)
  | .trywait _ => pure s.trywait
  | .post t => pure (s.post t)
  | .pop t => s.pop t
  | .resume t => pure { s with woken := s.woken.erase t, completed := s.completed + 1 }

/-- The semaphore after `sema_init`, and no thread uses it. -/
def start (val : Int) : SemaState :=
  { sem := semaInit val, posting := [], woken := [], posts := 0, completed := 0 }

end SemaState

/-- Any number of threads that use one semaphore, which starts with the value `val`. -/
def semaSystem (val : Int) : System SemaState SemaAct Halt where
  init s := s = SemaState.start val
  enabled := SemaState.Enabled
  next := SemaState.next

/-- An action that does not overflow `count`. -/
def CountFits (s : SemaState) : SemaAct → Prop
  | .wait _ => -2 ^ 31 < s.sem.count
  | .post _ => s.sem.count < 2 ^ 31 - 1
  | _ => True

end Fizzos.Kernel
