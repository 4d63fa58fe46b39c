import Mathlib.Data.List.TakeWhile

/-!
# `Fizzos.Support.Runs`: the words of a text, with their places

`runs sep off cs` are the maximal runs of elements of `cs` that are no separators, each with its
place, when `cs` starts at the place `off`. A text is taken apart from the front: a separator
(`runs_sep`), or a run up to the next separator (`runs_run`).
-/

set_option autoImplicit false

namespace Fizzos.Support

universe u

variable {α : Type u} (sep : α → Bool)

/-- The maximal runs without separators, and where they start. -/
def runs (off : Nat) : List α → List (Nat × List α)
  | [] => []
  | c :: cs =>
      if sep c then runs (off + 1) cs
      else
        let w := c :: cs.takeWhile fun c => !sep c
        (off, w) :: runs (off + w.length) (cs.dropWhile fun c => !sep c)
termination_by cs => cs.length
decreasing_by
  · exact Nat.lt_succ_self _
  · exact Nat.lt_succ_of_le (List.dropWhile_sublist _).length_le

section
variable {sep} {off : Nat} {c : α} {cs w rest : List α}

theorem runs_nil : runs sep off [] = [] := by rw [runs]

theorem runs_sep (hc : sep c = true) : runs sep off (c :: cs) = runs sep (off + 1) cs := by
  rw [runs, if_pos hc]

/-- Separators in front of a text. -/
theorem runs_append_sep (hw : ∀ c ∈ w, sep c = true) :
    runs sep off (w ++ rest) = runs sep (off + w.length) rest := by
  induction w generalizing off with
  | nil => rfl
  | cons c w ih =>
      rw [List.cons_append, runs_sep (hw c List.mem_cons_self),
        ih fun d hd => hw d (List.mem_cons_of_mem _ hd), List.length_cons]
      congr 1
      omega

/-- A run in front of a text. -/
theorem runs_run (hne : w ≠ []) (hw : ∀ c ∈ w, sep c = false)
    (hrest : ∀ c ∈ rest.head?, sep c = true) :
    runs sep off (w ++ rest) = (off, w) :: runs sep (off + w.length) rest := by
  obtain ⟨c, w, rfl⟩ := List.exists_cons_of_ne_nil hne
  have hc : ¬sep c = true := by simp [hw c List.mem_cons_self]
  have htail : ∀ d ∈ w, (!sep d) = true := by
    intro d hd
    simp [hw d (List.mem_cons_of_mem _ hd)]
  have htake : rest.takeWhile (fun c => !sep c) = [] := by
    cases rest with
    | nil => rfl
    | cons d rest => simp [hrest d rfl]
  have hdrop : rest.dropWhile (fun c => !sep c) = rest := by
    cases rest with
    | nil => rfl
    | cons d rest => simp [hrest d rfl]
  rw [List.cons_append, runs, if_neg hc, List.takeWhile_append_of_pos htail, htake,
    List.append_nil, List.dropWhile_append_of_pos htail, hdrop]

/-- The places are behind the start. -/
theorem le_of_mem_runs {r : Nat × List α} (hr : r ∈ runs sep off cs) : off ≤ r.1 := by
  fun_induction runs sep off cs with
  | case1 => exact absurd hr List.not_mem_nil
  | case2 off c cs hc ih => exact Nat.le_of_succ_le (ih hr)
  | case3 off c cs hc w ih =>
      rcases List.mem_cons.mp hr with rfl | hr
      · exact Nat.le_refl _
      · exact Nat.le_of_add_right_le (ih hr)

end

end Fizzos.Support
