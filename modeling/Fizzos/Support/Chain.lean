import Mathlib.Data.List.Nodup

/-!
# `Fizzos.Support.Chain`: singly linked nodes in a heap

`Chain next p xs` says that the pointer `p` leads to the nodes `xs`, each by the link of the node
before it, and that the last link ends the list. A pointer has one list (`Chain.unique`), and
the list has no node twice (`Chain.nodup`): a walk that came to a node again would not end.
`Chain.congr` is the frame rule.
-/

set_option autoImplicit false

namespace Fizzos.Support

universe u

variable {α : Type u} {next next' : α → Option α}

/-- The pointer leads to the nodes. -/
def Chain (next : α → Option α) : Option α → List α → Prop
  | p, [] => p = none
  | p, x :: xs => p = some x ∧ Chain next (next x) xs

namespace Chain

variable {p : Option α} {xs ys : List α}

theorem unique (hx : Chain next p xs) (hy : Chain next p ys) : xs = ys := by
  induction xs generalizing p ys with
  | nil =>
      cases ys with
      | nil => rfl
      | cons y ys => exact absurd (hx.symm.trans hy.1) (by simp)
  | cons x xs ih =>
      cases ys with
      | nil => exact absurd (hy.symm.trans hx.1) (by simp)
      | cons y ys =>
          obtain rfl := Option.some.inj (hx.1.symm.trans hy.1)
          rw [ih hx.2 hy.2]

/-- The list from one of its nodes on. -/
theorem suffix {x : α} {before behind : List α} (h : Chain next p (before ++ x :: behind)) :
    Chain next (some x) (x :: behind) := by
  induction before generalizing p with
  | nil => exact ⟨rfl, h.2⟩
  | cons y before ih => exact ih h.2

theorem nodup (h : Chain next p xs) : xs.Nodup := by
  induction xs generalizing p with
  | nil => exact List.nodup_nil
  | cons x xs ih =>
      refine List.nodup_cons.mpr ⟨fun hmem => ?_, ih h.2⟩
      obtain ⟨before, behind, hxs⟩ := List.append_of_mem hmem
      -- the list from `x` on would be as long as its own rest
      have htail : Chain next (some x) (x :: behind) := (hxs ▸ h.2).suffix
      have heq : x :: xs = x :: behind := Chain.unique ⟨rfl, h.2⟩ htail
      have hlen := congrArg List.length (hxs.symm.trans (List.cons.inj heq).2)
      simp only [List.length_append, List.length_cons] at hlen
      omega

/-- Only the links of its nodes matter. -/
theorem congr (h : Chain next p xs) (heq : ∀ x ∈ xs, next' x = next x) : Chain next' p xs := by
  induction xs generalizing p with
  | nil => exact h
  | cons x xs ih =>
      refine ⟨h.1, ?_⟩
      rw [heq x List.mem_cons_self]
      exact ih h.2 fun y hy => heq y (List.mem_cons_of_mem _ hy)

end Chain

end Fizzos.Support
