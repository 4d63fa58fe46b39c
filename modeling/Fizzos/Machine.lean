import Mathlib.Data.Int.ModEq

/-!
# `Fizzos.Machine`: how kernel code stops

Kernel functions of the model return `Except Halt`. `ASSERT` and `PANIC` of
`include/kernel/debug.h` print a message and spin forever, so a call that reaches one never
returns. The other ways not to return are a dereference of `NULL`, an endless loop, a call that
puts the caller to sleep in a place where the model is sequential, and a store behind the end of
an array, after which C promises nothing.
-/

set_option autoImplicit false

namespace Fizzos

/-- Why a call does not return. -/
inductive Halt where
  /-- A failed `ASSERT`. -/
  | assertFailed
  /-- An explicit `PANIC`. -/
  | panic
  /-- A dereference of `NULL`. -/
  | nullDeref
  /-- A loop that does not end. -/
  | hang
  /-- The caller goes to sleep. -/
  | blocked
  /-- A store behind the end of an array. -/
  | outOfBounds
  deriving DecidableEq, Repr

/-- `ASSERT(cond)`. -/
def ASSERT (cond : Prop) [Decidable cond] : Except Halt Unit :=
  if cond then .ok () else .error .assertFailed

/-- `PANIC`. -/
def PANIC {α : Type} : Except Halt α := .error .panic

/-- Follow a pointer. -/
def deref {α : Type} : Option α → Except Halt α
  | some x => .ok x
  | none => .error .nullDeref

@[simp] theorem ASSERT_true {cond : Prop} [Decidable cond] (h : cond) :
    ASSERT cond = .ok () := if_pos h

@[simp] theorem ASSERT_false {cond : Prop} [Decidable cond] (h : ¬cond) :
    ASSERT cond = .error .assertFailed := if_neg h

@[simp] theorem deref_some {α : Type} (x : α) : deref (some x) = .ok x := rfl

@[simp] theorem ok_bind {ε α β : Type} (x : α) (f : α → Except ε β) :
    ((Except.ok x : Except ε α) >>= f) = f x := rfl

@[simp] theorem error_bind {ε α β : Type} (e : ε) (f : α → Except ε β) :
    ((Except.error e : Except ε α) >>= f) = .error e := rfl

@[simp] theorem pure_eq_ok {ε α : Type} (x : α) : (pure x : Except ε α) = .ok x := rfl

/-- A call with two stages returns when both do. -/
theorem bind_eq_ok {ε α β : Type} {x : Except ε α} {f : α → Except ε β} {b : β} :
    (x >>= f) = .ok b ↔ ∃ a, x = .ok a ∧ f a = .ok b := by
  cases x with
  | ok a => simp
  | error e => simp

/-- `ASSERT` returns exactly when its condition holds. -/
theorem ASSERT_eq_ok {cond : Prop} [Decidable cond] {u : Unit} :
    ASSERT cond = .ok u ↔ cond := by
  by_cases h : cond <;> simp [h]

/-- A pointer is followed exactly when it is not `NULL`. -/
theorem deref_eq_ok {α : Type} {x : Option α} {a : α} : deref x = .ok a ↔ x = some a := by
  cases x with
  | none => simp [deref]
  | some b => simp

/-! ### Atomic counters of `include/kernel/atomic.h`

An `atomic_t` holds a 32-bit signed integer. `incl` and `decl` wrap around, and the `setcc`
that follows reads the flags, so it sees the sign of the exact result and not of the wrapped
one. -/

/-- The 32-bit signed value of an integer. -/
def wrap32 (i : Int) : Int := i.bmod (2 ^ 32)

/-- `atomic_inc`. -/
def atomicInc (v : Int) : Int := wrap32 (v + 1)

/-- `atomic_dec_and_setg`: the new value, and if the result is greater than zero. -/
def atomicDecAndSetg (v : Int) : Int × Bool := (wrap32 (v - 1), decide (v - 1 > 0))

/-- `atomic_inc_and_setg`. -/
def atomicIncAndSetg (v : Int) : Int × Bool := (wrap32 (v + 1), decide (v + 1 > 0))

/-- `atomic_dec_and_setge`: the new value, and if the result is at least zero. -/
def atomicDecAndSetge (v : Int) : Int × Bool := (wrap32 (v - 1), decide (v - 1 ≥ 0))

/-- `atomic_dec_and_sete`: the new value, and if the result is zero. -/
def atomicDecAndSete (v : Int) : Int × Bool := (wrap32 (v - 1), decide (v - 1 = 0))

/-- A value in the 32-bit range is its own wrap. -/
theorem wrap32_eq {i : Int} (hlo : -2 ^ 31 ≤ i) (hhi : i < 2 ^ 31) : wrap32 i = i := by
  unfold wrap32
  exact Int.bmod_eq_of_le (by omega) (by omega)

/-- A value that is too large by one bit. -/
theorem wrap32_above {i : Int} (hlo : 2 ^ 31 ≤ i) (hhi : i < 2 ^ 31 + 2 ^ 32) :
    wrap32 i = i - 2 ^ 32 := by
  have hsub : wrap32 i = wrap32 (i - 2 ^ 32) := by
    unfold wrap32
    rw [← Int.add_bmod_right (i - 2 ^ 32)]
    exact congrArg (Int.bmod · _) (Int.sub_add_cancel i _).symm
  rw [hsub, wrap32_eq (by omega) (by omega)]

/-- A 32-bit value is in its range. -/
theorem wrap32_range (i : Int) : -2 ^ 31 ≤ wrap32 i ∧ wrap32 i < 2 ^ 31 := by
  have hlo := Int.le_bmod (x := i) (m := 2 ^ 32) (by decide)
  have hhi := Int.bmod_lt (x := i) (m := 2 ^ 32) (by decide)
  unfold wrap32
  omega

theorem wrap32_lt (i : Int) : wrap32 i < 2 ^ 31 := (wrap32_range i).2

/-! ### Constants of `include/kernel/global.h` and `include/kernel/memory.h` -/

def PG_SIZE : Nat := 4096

/-- Physical memory is mapped at this virtual address. -/
def KERNEL_VADDR_START : Nat := 0xc0000000

/-- `DIV_ROUND_UP(X, STEP)`. -/
def DIV_ROUND_UP (x step : Nat) : Nat := (x + step - 1) / step

end Fizzos
