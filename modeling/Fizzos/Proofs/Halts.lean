import Fizzos.Fs.File

/-!
# `Fizzos.Proofs.Halts`: ways to stop that a call does not have

`Never e x` says that the call `x` does not stop with `e`: it returns, or it stops in another way. A
call has no way to stop that its parts do not have (`Never.bind`). So one lemma for each function of
the source is enough, and none of these lemmas looks at the state.

Two ways to stop are not meant by the source: a dereference of `NULL`, and a loop that does not end
(`Unasked`). The locks, the bitmaps and `file_read` have none of the two, whatever they find. A lock
sends its caller to sleep, and the others fail an `ASSERT`.
-/

set_option autoImplicit false

namespace Fizzos.Proofs

open Fizzos.Device
open Fizzos.Fs
open Fizzos.Kernel
open Fizzos.LibKernel
open Fizzos.Support

/-- The call `x` does not stop with `e`. -/
def Never {α : Type} (e : Halt) (x : Except Halt α) : Prop := x ≠ .error e

/-- The ways to stop without a message: `NULL` is dereferenced, or a loop does not end. The other
ways are the ones that the source asks for, with `ASSERT`, `PANIC`, or a task that goes to sleep. -/
def Unasked (e : Halt) : Prop := e = .nullDeref ∨ e = .hang

theorem unasked_hang : Unasked .hang := .inr rfl

theorem unasked_nullDeref : Unasked .nullDeref := .inl rfl

namespace Never

section
variable {α β : Type} {e e' : Halt} {x : Except Halt α}

/-- A call that returns does not stop. -/
theorem ok (a : α) : Never e (.ok a) := fun h => nomatch h

theorem pure (a : α) : Never e (Pure.pure a : Except Halt α) := ok a

/-- A call stops in one way. -/
theorem halt (he : e' ≠ e) : Never e (.error e' : Except Halt α) := fun h => he (Except.error.inj h)

/-- The rule for two calls one after the other. -/
theorem bind {f : α → Except Halt β} (hx : Never e x) (hf : ∀ a, Never e (f a)) :
    Never e (x >>= f) := by
  cases x with
  | ok a => exact hf a
  -- when the first call stops, the second is not made
  | error e' => exact halt fun he => hx (congrArg Except.error he)

/-- When the second call never stops with `e`, the two do exactly when the first call does. -/
theorem bind_iff {f : α → Except Halt β} (hf : ∀ a, Never e (f a)) :
    (x >>= f) = .error e ↔ x = .error e := by
  cases x with
  | ok a => exact iff_of_false (hf a) (ok a)
  | error e' => rw [error_bind, Except.error.injEq, Except.error.injEq]

/-- `ASSERT` stops with a message. -/
theorem assert (he : Unasked e) (cond : Prop) [Decidable cond] : Never e (ASSERT cond) := by
  by_cases h : cond
  · rw [ASSERT_true h]
    exact ok ()
  · rw [ASSERT_false h]
    obtain rfl | rfl := he
    · exact halt (by decide)
    · exact halt (by decide)

/-- A task that goes to sleep does not come to the rest of its call. -/
theorem blocked (he : Unasked e) : Never e (.error .blocked : Except Halt α) := by
  obtain rfl | rfl := he
  · exact halt (by decide)
  · exact halt (by decide)

end

end Never

/-! ### Locks -/

section
variable {e : Halt} (he : Unasked e) {current : Tid}

include he

/-- `mutex_acquire` returns, or the caller goes to sleep. -/
theorem mutexAcquire_never (m : MutexLock) : Never e (mutexAcquire m current) := by
  rw [mutexAcquire]
  split
  next => exact .ok _
  next =>
    split
    next => exact .blocked he
    next => exact .ok _

/-- `mutex_release` asserts that the caller is the owner, and that the lock was taken. -/
theorem mutexRelease_never (m : MutexLock) : Never e (mutexRelease m current) := by
  refine .bind (.assert he _) fun _ => ?_
  dsimp only
  split
  next => exact .bind (.assert he _) fun _ => .ok _
  next => exact .ok _

/-- A bitmap is locked with its own mutex. -/
theorem bitmapAcquire_never (b : Bitmap) : Never e (b.acquire current) :=
  .bind (mutexAcquire_never he b.lock) fun _ => .ok _

theorem bitmapRelease_never (b : Bitmap) : Never e (b.release current) :=
  .bind (mutexRelease_never he b.lock) fun _ => .ok _

/-- `bitmap_set` asserts that the bit is in the bitmap. -/
theorem bitmapSet_never (b : Bitmap) (idx : Nat) : Never e (bitmapSet b idx current) := by
  refine .bind (bitmapAcquire_never he b) fun b => .bind (.assert he _) fun _ => ?_
  exact bitmapRelease_never he _

/-! ### `file_read` -/

/-- The loop over the sectors that are left. Each round asserts that the file has its sector. -/
theorem readLoop_never (disk : Disk) (i : Inode) (secs : List Nat) (c : ReadCursor) :
    Never e (readLoop disk i secs c) := by
  induction secs generalizing c with
  | nil => exact .ok c
  | cons sec rest ih =>
      rw [readLoop]
      split
      next => exact .bind (.bind (.assert he _) fun _ => .ok _) fun c => ih c
      next => exact .ok c

/-- `file_read` looks for no address in memory but those of its arguments, and its loop goes over
the sectors of one file, so it is over after `FILE_SECTORS` rounds at most. -/
theorem fileRead_never (s : FileSys) (p : Nat) (dest : Bytes) (count pos : Nat) (ioBuf : Bytes) :
    Never e (fileRead s p dest count pos ioBuf) := by
  refine .bind (.assert he _) fun _ => .bind (readLoop_never he _ _ _ _) fun c => ?_
  exact .bind (.assert he _) fun _ => .ok _

end

end Fizzos.Proofs
