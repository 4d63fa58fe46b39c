import Mathlib.Data.List.Basic
import Mathlib.Logic.Function.Basic

/-!
# `Fizzos.Support.Copies`: copying a memory onto itself

`copyEach` copies one cell after the other, and each copy reads the memory that the copies before
have left. It is a copy of the first memory when no cell is written before it is read
(`copyEach_at`); and it writes the destinations only (`copyEach_of_ne`).
-/

set_option autoImplicit false

namespace Fizzos.Support

universe u v w

variable {ι : Type u} {β : Type v} {κ : Type w} [DecidableEq ι]

/-- Copy the cell `src i` to the cell `dst i`, for each `i` of a list. -/
def copyEach (dst src : κ → ι) (m : ι → β) (order : List κ) : ι → β :=
  order.foldl (fun m i => Function.update m (dst i) (m (src i))) m

section
variable {dst src : κ → ι} {order : List κ} {m : ι → β} {a : ι} {i : κ}

/-- A cell that is no destination. -/
theorem copyEach_of_ne (h : ∀ i ∈ order, a ≠ dst i) : copyEach dst src m order a = m a := by
  induction order generalizing m with
  | nil => rfl
  | cons j order ih =>
      have hrest := ih (m := Function.update m (dst j) (m (src j)))
        fun i hi => h i (List.mem_cons_of_mem j hi)
      exact hrest.trans (Function.update_of_ne (h j List.mem_cons_self) _ _)

/-- A destination has the value that its source had in the first memory. -/
theorem copyEach_at (hdst : order.Pairwise fun j i => dst j ≠ dst i)
    (hsrc : order.Pairwise fun j i => dst j ≠ src i) (hi : i ∈ order) :
    copyEach dst src m order (dst i) = m (src i) := by
  induction order generalizing m with
  | nil => exact absurd hi List.not_mem_nil
  | cons j order ih =>
      obtain ⟨hdst₀, hdst⟩ := List.pairwise_cons.mp hdst
      obtain ⟨hsrc₀, hsrc⟩ := List.pairwise_cons.mp hsrc
      show copyEach dst src (Function.update m (dst j) (m (src j))) order (dst i) = m (src i)
      rcases List.mem_cons.mp hi with rfl | hi
      · rw [copyEach_of_ne hdst₀, Function.update_self]
      · -- the source of `i` is not the cell that has been written
        rw [ih hdst hsrc hi, Function.update_of_ne (hsrc₀ i hi).symm]

end

end Fizzos.Support
