import Mathlib.Data.List.Basic
import Mathlib.Data.Nat.ModEq
import Mathlib.Logic.Function.Basic

/-!
# `Fizzos.Support.Ring`: a sequence in a ring of cells

A ring has `size` cells, and behind the last one comes the first again. `ring cells size start
len` is the sequence of the `len` cells from `start` on. `start` may be any number: only its
remainder counts (`ring_mod`).

There is one rule for each end. `ring_push` writes a cell behind the sequence, `ring_concat`
splits off the last cell, `ring_cons` the first one.
-/

set_option autoImplicit false

namespace Fizzos.Support

universe u

variable {α : Type u} (cells : Nat → α) (size start len : Nat)

/-- The `len` cells from `start` on. -/
def ring : List α := (List.range len).map fun i => cells ((start + i) % size)

@[simp] theorem ring_length : (ring cells size start len).length = len := by simp [ring]

@[simp] theorem ring_zero : ring cells size start 0 = [] := rfl

/-- The start counts modulo the size. -/
theorem ring_mod : ring cells size (start % size) len = ring cells size start len := by
  simp only [ring, Nat.mod_add_mod]

/-- The last cell. -/
theorem ring_concat :
    ring cells size start (len + 1)
      = ring cells size start len ++ [cells ((start + len) % size)] := by
  simp [ring, List.range_succ]

/-- The first cell. -/
theorem ring_cons :
    ring cells size start (len + 1)
      = cells (start % size) :: ring cells size (start + 1) len := by
  simp only [ring, List.range_succ_eq_map, List.map_cons, List.map_map, Nat.add_zero]
  congr 2
  funext i
  simp only [Function.comp_apply, Nat.succ_eq_add_one]
  rw [Nat.add_assoc, Nat.add_comm 1 i]

/-- Two offsets below the size are two cells. -/
theorem ring_index_ne {i j : Nat} (hij : i < j) (hj : j < size) :
    (start + i) % size ≠ (start + j) % size := by
  intro heq
  have hdvd : size ∣ start + j - (start + i) := (Nat.modEq_iff_dvd' (by omega)).mp heq
  have hle := Nat.le_of_dvd (by omega) hdvd
  omega

/-- A write to the cell behind the sequence makes it longer, as long as a cell is free. -/
theorem ring_push (hlen : len < size) (x : α) :
    ring (Function.update cells ((start + len) % size) x) size start (len + 1)
      = ring cells size start len ++ [x] := by
  rw [ring_concat, Function.update_self]
  congr 1
  apply List.map_congr_left
  intro i hi
  have hi := List.mem_range.mp hi
  exact Function.update_of_ne (ring_index_ne size start hi hlen) _ _

end Fizzos.Support
