import Mathlib.Data.List.Nodup

/-!
# `Fizzos.Support.Enumerates`: a list that holds a set once

A queue of waiting threads holds each thread that waits, and holds it once.
`Enumerates xs P` says this for a list `xs` and the property `P` of the elements that are
meant to be on it. The lemmas are the operations of a queue: push at the back, pop at the
front, and steps that change `P` away from the list.
-/

set_option autoImplicit false

namespace Fizzos.Support

variable {α : Type}

/-- The list has exactly the elements with the property, each once. -/
structure Enumerates (xs : List α) (P : α → Prop) : Prop where
  nodup : xs.Nodup
  mem_iff : ∀ x, x ∈ xs ↔ P x

namespace Enumerates

variable {xs : List α} {P Q : α → Prop} {x : α}

/-- The empty list, when nothing has the property. -/
theorem nil (h : ∀ x, ¬P x) : Enumerates [] P :=
  ⟨List.nodup_nil, fun x => by simp [h x]⟩

/-- Only the set of elements matters. -/
theorem congr (h : Enumerates xs P) (hPQ : ∀ x, P x ↔ Q x) : Enumerates xs Q :=
  ⟨h.nodup, fun x => (h.mem_iff x).trans (hPQ x)⟩

theorem ne_nil (h : Enumerates xs P) (hx : P x) : xs ≠ [] :=
  List.ne_nil_of_mem ((h.mem_iff x).mpr hx)

/-- The first element has the property. -/
theorem head (h : Enumerates (x :: xs) P) : P x :=
  (h.mem_iff x).mp List.mem_cons_self

/-- Push at the back. -/
theorem push (h : Enumerates xs P) (hx : ¬P x) :
    Enumerates (xs ++ [x]) (fun y => P y ∨ y = x) where
  nodup := by
    rw [List.nodup_append]
    refine ⟨h.nodup, List.nodup_singleton x, ?_⟩
    intro a ha b hb
    rw [List.mem_singleton] at hb
    rintro rfl
    exact hx (hb ▸ (h.mem_iff a).mp ha)
  mem_iff y := by simp [h.mem_iff y]

/-- Pop at the front. -/
theorem pop (h : Enumerates (x :: xs) P) : Enumerates xs (fun y => P y ∧ y ≠ x) where
  nodup := h.nodup.of_cons
  mem_iff y := by
    have hmem := h.mem_iff y
    have hnot := List.nodup_cons.mp h.nodup
    constructor
    · intro hy
      refine ⟨hmem.mp (List.mem_cons_of_mem x hy), ?_⟩
      rintro rfl
      exact hnot.1 hy
    · rintro ⟨hP, hne⟩
      exact (List.mem_cons.mp (hmem.mpr hP)).resolve_left hne

end Enumerates

end Fizzos.Support
