import Fizzos.Machine

/-!
# `Fizzos.Kernel.Sync`: the locks of `include/kernel/sync.h`

The data types of the locks, and the regions of `kernel/sync.c` that run with interrupts
off, as functions on one lock. A region that puts its caller to sleep says so in its result,
and so does a region that takes a thread off a wait list. Who runs next is the scheduler's
business (`Fizzos.Kernel.Sched`).

A wait list is a sequence of threads. `Fizzos.Proofs.List` shows that the intrusive list is
one, as long as no thread is on two lists.

`mutexAcquire` and `mutexRelease` are the two mutex functions without interference: the
whole call, as it runs when no other thread takes a step in between.
-/

set_option autoImplicit false

namespace Fizzos.Kernel

/-- A thread, named by its `task_struct`. -/
abbrev Tid := Nat

/-- The number of pids. Every thread has one. -/
def MAX_PID : Nat := 65536

/-- `sem_t`. -/
structure Sem where
  count : Int
  waitList : List Tid
  deriving DecidableEq, Repr

/-- `mutex_lock_t`. The nesting depth `repeat` is a `uint32_t`. -/
structure MutexLock where
  isLock : Bool
  waitList : List Tid
  holder : Option Tid
  «repeat» : UInt32
  deriving DecidableEq, Repr

/-- `cond_t`. -/
structure Cond where
  waitList : List Tid
  deriving DecidableEq, Repr

/-- `rwlock_t`. -/
structure RwLock where
  readWaiterList : List Tid
  writeWaiterList : List Tid
  count : Int
  readyWrite : Bool
  deriving DecidableEq, Repr

/-! ### `mutex_lock_t` -/

/-- `mutex_lock_init`. -/
def mutexLockInit : MutexLock :=
  { isLock := false, waitList := [], holder := none, «repeat» := 0 }

/-- The region of `mutex_acquire`: exchange `is_lock` with `true`. A locked mutex puts the
caller on the wait list. The second component says if the caller goes to sleep. -/
def mutexTry (m : MutexLock) (current : Tid) : MutexLock × Bool :=
  if m.isLock then ({ m with waitList := m.waitList ++ [current] }, true)
  else ({ m with isLock := true }, false)

/-- The region of `mutex_release`: exchange `is_lock` with `false`, and pop a waiter. -/
def mutexUnlock (m : MutexLock) : Except Halt (MutexLock × Option Tid) := do
  ASSERT (m.isLock = true)
  pure ({ m with isLock := false, waitList := m.waitList.tail }, m.waitList.head?)

/-- `mutex_acquire` without interference. -/
def mutexAcquire (m : MutexLock) (current : Tid) : Except Halt MutexLock :=
  if m.holder = some current then .ok { m with «repeat» := m.repeat + 1 }
  else
    match mutexTry m current with
    | (_, true) => .error .blocked
    | (m, false) => .ok { m with holder := some current, «repeat» := 1 }

/-- `mutex_release` without interference: the new lock and the thread to unblock. The branch
`repeat < 0` of the source is dead, since `repeat` is unsigned. -/
def mutexRelease (m : MutexLock) (current : Tid) : Except Halt (MutexLock × Option Tid) := do
  ASSERT (m.holder = some current)
  let m := { m with «repeat» := m.repeat - 1 }
  if m.repeat = 0 then mutexUnlock { m with holder := none } else pure (m, none)

/-! ### `rwlock_t`

Every function of the read-write lock runs with interrupts off between two sleeps. `count`
is an `int`, which wraps around at 32 bits. -/

/-- `rwlock_init`. -/
def rwlockInit : RwLock :=
  { readWaiterList := [], writeWaiterList := [], count := 0, readyWrite := false }

/-- One round of the loop of `rwlock_read_acquire`: the caller enters, or it goes to sleep on
the read list (second component). -/
def rwlockReadTry (l : RwLock) (current : Tid) : RwLock × Bool :=
  if l.count < 0 ∨ l.readyWrite = true then
    ({ l with readWaiterList := l.readWaiterList ++ [current] }, true)
  else ({ l with count := wrap32 (l.count + 1) }, false)

/-- `rwlock_read_release`: the new lock and the threads to unblock. -/
def rwlockReadRelease (l : RwLock) : Except Halt (RwLock × List Tid) := do
  ASSERT (l.count > 0)
  let l := { l with count := wrap32 (l.count - 1) }
  if l.count = 0 then
    match l.writeWaiterList, l.readWaiterList with
    | w :: ws, _ => pure ({ l with writeWaiterList := ws }, [w])
    | [], r :: rs => pure ({ l with readWaiterList := rs }, [r])
    | [], [] => pure (l, [])
  else pure (l, [])

/-- One round of the loop of `rwlock_write_acquire`. -/
def rwlockWriteTry (l : RwLock) (current : Tid) : RwLock × Bool :=
  if l.count ≠ 0 then
    ({ l with readyWrite := true, writeWaiterList := l.writeWaiterList ++ [current] }, true)
  else ({ l with count := wrap32 (l.count - 1) }, false)

/-- `rwlock_write_release`. Without a waiting writer it unblocks all readers, in list
order. -/
def rwlockWriteRelease (l : RwLock) : Except Halt (RwLock × List Tid) := do
  ASSERT (l.count = -1 ∧ l.readyWrite = true)
  let l := { l with count := wrap32 (l.count + 1) }
  match l.writeWaiterList with
  | w :: ws => pure ({ l with writeWaiterList := ws }, [w])
  | [] => pure ({ l with readyWrite := false, readWaiterList := [] }, l.readWaiterList)

/-! ### `sem_t` -/

/-- `sema_init`. -/
def semaInit (val : Int) : Sem := { count := val, waitList := [] }

/-- The region of `sema_wait`. The second component says if the caller goes to sleep. -/
def semaWait (s : Sem) (current : Tid) : Sem × Bool :=
  let (count, ge) := atomicDecAndSetge s.count
  if ge then ({ s with count }, false)
  else ({ count, waitList := s.waitList ++ [current] }, true)

/-- The increment of `sema_post`. The second component says if a waiter is to be popped. -/
def semaPostInc (s : Sem) : Sem × Bool :=
  let (count, g) := atomicIncAndSetg s.count
  ({ s with count }, !g)

/-- The region of `sema_post` behind the increment: pop the first waiter. Without a waiter
`list_pop_front` returns `NULL`, and `thread_unblock` fails `ASSERT(elem)` in
`list_push_back`. -/
def semaPostPop (s : Sem) : Except Halt (Sem × Tid) :=
  match s.waitList with
  | [] => .error .assertFailed
  | t :: ts => .ok ({ s with waitList := ts }, t)

/-- `sema_trywait`: the new semaphore, and if the caller got it. -/
def semaTrywait (s : Sem) : Sem × Bool :=
  let (count, ge) := atomicDecAndSetge s.count
  if ge then ({ s with count }, true) else ({ s with count := atomicInc count }, false)

end Fizzos.Kernel
