import Mathlib.Data.List.Nodup
import Mathlib.Order.Lattice

/-!
# `Fizzos.Support.StableOrder`: sequences in a stable order

A queue holds elements that have a rank and arrived one after the other: `live` lists them in the
order of their arrival. `StableOrder rank live xs` says that `xs` holds these elements by rank, and
elements of the same rank in the order of their arrival.

A new element goes behind the elements whose rank is not larger (`insert`). The first element can be
taken out (`erase_head`).
-/

set_option autoImplicit false

namespace Fizzos.Support

universe u v

variable {α : Type u} {κ : Type v} [LinearOrder κ]

/-- `a` comes in front of `b`: by the rank, or by the order of the arrival. -/
def Precedes (rank : α → κ) (live : List α) (a b : α) : Prop :=
  rank a < rank b ∨ rank a = rank b ∧ [a, b].Sublist live

/-- The elements of `live` in a stable order. -/
structure StableOrder (rank : α → κ) (live xs : List α) : Prop where
  perm : xs.Perm live
  sorted : xs.Pairwise (Precedes rank live)

namespace Precedes

variable {rank rank' : α → κ} {live live' : List α} {a b : α}

theorem le (h : Precedes rank live a b) : rank a ≤ rank b := by
  rcases h with hlt | ⟨heq, -⟩
  · exact le_of_lt hlt
  · exact le_of_eq heq

/-- More elements that arrive later do not matter. -/
theorem append (h : Precedes rank live a b) : Precedes rank (live ++ live') a b :=
  h.imp_right fun ⟨heq, hsub⟩ => ⟨heq, hsub.trans (List.sublist_append_left live live')⟩

/-- Other elements that are gone do not matter. -/
theorem erase [DecidableEq α] {x : α} (h : Precedes rank live a b) (ha : x ≠ a) (hb : x ≠ b) :
    Precedes rank (live.erase x) a b := by
  refine h.imp_right fun ⟨heq, hsub⟩ => ⟨heq, ?_⟩
  have hnot : x ∉ [a, b] := by
    rw [List.mem_pair, not_or]
    exact ⟨ha, hb⟩
  exact List.erase_of_not_mem hnot ▸ hsub.erase x

theorem congr (h : Precedes rank live a b) (ha : rank' a = rank a) (hb : rank' b = rank b) :
    Precedes rank' live a b := by
  rwa [Precedes, ha, hb]

end Precedes

namespace StableOrder

variable {rank rank' : α → κ} {live xs l r : List α} {x : α}

theorem nil (rank : α → κ) : StableOrder rank [] [] := ⟨.nil, .nil⟩

/-- The ranks of other elements do not matter. -/
theorem congr (h : StableOrder rank live xs) (heq : ∀ x ∈ xs, rank' x = rank x) :
    StableOrder rank' live xs :=
  ⟨h.perm, h.sorted.imp_of_mem fun ha hb hab => hab.congr (heq _ ha) (heq _ hb)⟩

/-- A new element, behind all elements whose rank is not larger. -/
theorem insert (h : StableOrder rank live (l ++ r)) (hl : ∀ a ∈ l, rank a ≤ rank x)
    (hr : ∀ b, r.head? = some b → rank x < rank b) :
    StableOrder rank (live ++ [x]) (l ++ x :: r) := by
  have hr' : ∀ b ∈ r, rank x < rank b := by
    cases r with
    | nil => exact fun b hb => absurd hb List.not_mem_nil
    | cons c r =>
        have hc := hr c rfl
        have hbehind := (List.pairwise_cons.mp (List.pairwise_append.mp h.sorted).2.1).1
        intro b hb
        rcases List.mem_cons.mp hb with rfl | hb
        · exact hc
        · exact lt_of_lt_of_le hc (hbehind b hb).le
  constructor
  · have hcons : (x :: (l ++ r)).Perm (live ++ [x]) :=
      (List.Perm.cons x h.perm).trans (List.perm_append_singleton x live).symm
    exact List.perm_middle.trans hcons
  · have hsorted : (l ++ r).Pairwise (Precedes rank (live ++ [x])) := h.sorted.imp Precedes.append
    obtain ⟨hsl, hsr, hcross⟩ := List.pairwise_append.mp hsorted
    have hcons : (x :: r).Pairwise (Precedes rank (live ++ [x])) :=
      List.pairwise_cons.mpr ⟨fun b hb => .inl (hr' b hb), hsr⟩
    refine List.pairwise_append.mpr ⟨hsl, hcons, fun a ha b hb => ?_⟩
    rcases List.mem_cons.mp hb with rfl | hb
    · -- `a` arrived before the new element
      rcases lt_or_eq_of_le (hl a ha) with hlt | heq
      · exact .inl hlt
      · have hlive : a ∈ live := h.perm.mem_iff.mp (List.mem_append_left r ha)
        exact .inr ⟨heq, (List.singleton_sublist.mpr hlive).append (List.Sublist.refl [b])⟩
    · exact hcross a ha b hb

/-- The first element is gone. -/
theorem erase_head [DecidableEq α] (h : StableOrder rank live (x :: xs))
    (hnodup : (x :: xs).Nodup) : StableOrder rank (live.erase x) xs := by
  have hx := (List.nodup_cons.mp hnodup).1
  constructor
  · have hperm := h.perm.erase x
    rwa [List.erase_cons_head] at hperm
  · refine (List.pairwise_cons.mp h.sorted).2.imp_of_mem fun {a b} ha hb hab => hab.erase ?_ ?_
    · exact fun heq => hx (heq ▸ ha)
    · exact fun heq => hx (heq ▸ hb)

end StableOrder

end Fizzos.Support
