import Fizzos.Lib.Accesses
import Mathlib.Data.Int.Order.Basic
import Mathlib.Data.Nat.Find

/-!
# `Fizzos.Proofs.Strncmp`: the characters that `strncmp` compares

`strncmp` stops at the first place where a string ends or the characters differ, and behind `n`
turns at the latest (`strncmpLog_eq`). It tests the characters before the count, so behind `n` turns
it looks at the characters at `n`, and returns their difference. So it is right when it stops
earlier (`strncmp_right_iff`).
-/

set_option autoImplicit false

namespace Fizzos.Proofs

open Fizzos.Lib
open Fizzos.Support

/-- The strings agree on `n` characters, or are equal up to a `'\0'` before. -/
def AgreeOn (s1 s2 : Bytes) (n : Nat) : Prop :=
  (∀ i < n, s1 i = s2 i) ∨ ∃ m < n, s1 m = 0 ∧ ∀ i ≤ m, s1 i = s2 i

/-- The characters at `i` are the first ones that differ. -/
def FirstDiff (s1 s2 : Bytes) (i : Nat) : Prop :=
  s1 i ≠ s2 i ∧ ∀ j < i, s1 j = s2 j ∧ s1 j ≠ 0

/-- `strncmp` compares at most `n` characters. -/
structure StrncmpRight (s1 s2 : Bytes) (n : Nat) : Prop where
  zero : strncmp s1 s2 n = 0 ↔ AgreeOn s1 s2 n
  sign : ∀ i < n, FirstDiff s1 s2 i →
    (strncmp s1 s2 n).sign = ((s1 i).toInt - (s2 i).toInt).sign
  inside : ∀ i ∈ (strncmpLog s1 s2 0 n).log, i < n

/-- The loop stops at `k`: a string ends, or the characters differ. -/
def LoopEnds (s1 s2 : Bytes) (k : Nat) : Prop := s1 k = 0 ∨ s2 k = 0 ∨ s1 k ≠ s2 k

section
variable {s1 s2 : Bytes} {k n stop : Nat}

theorem not_loopEnds : ¬ LoopEnds s1 s2 k ↔ s1 k ≠ 0 ∧ s2 k ≠ 0 ∧ s1 k = s2 k := by
  unfold LoopEnds
  rw [not_or, not_or, not_not]

/-- The loop goes on to the first place where it stops, or to the end of its turns. -/
theorem strncmpLog_eq (hlo : k ≤ stop) (hgoes : ∀ j, k ≤ j → j < stop → ¬ LoopEnds s1 s2 j)
    (hstop : stop < k + n ∧ LoopEnds s1 s2 stop ∨ stop = k + n) :
    strncmpLog s1 s2 k n
      = ⟨(s1 stop).toInt - (s2 stop).toInt, List.range' k (stop - k + 1)⟩ := by
  induction n generalizing k with
  | zero =>
      obtain rfl : stop = k := by omega
      rw [Nat.sub_self]
      rfl
  | succ n ih =>
      rw [strncmpLog]
      -- The turn at `k` is the last one, or the loop goes on with `n` turns.
      by_cases hk : stop = k
      · subst hk
        have hends : LoopEnds s1 s2 stop := by
          rcases hstop with hstop | hstop
          · exact hstop.2
          · omega
        rw [if_neg (mt not_loopEnds.mpr (not_not.mpr hends)), Nat.sub_self]
        rfl
      · have hsame := not_loopEnds.mp (hgoes k (Nat.le_refl k) (by omega))
        have hrest : strncmpLog s1 s2 (k + 1) n
            = ⟨(s1 stop).toInt - (s2 stop).toInt, List.range' (k + 1) (stop - (k + 1) + 1)⟩ :=
          ih (by omega) (fun j hj => hgoes j (by omega))
            (hstop.imp (fun h => ⟨by omega, h.2⟩) fun h => by omega)
        rw [if_pos hsame, hrest, show stop - k + 1 = stop - (k + 1) + 1 + 1 by omega,
          List.range'_succ]
        rfl

/-- The result and the log, for a whole call. -/
theorem strncmp_eq (hgoes : ∀ j < stop, ¬ LoopEnds s1 s2 j)
    (hstop : stop < n ∧ LoopEnds s1 s2 stop ∨ stop = n) :
    strncmp s1 s2 n = (s1 stop).toInt - (s2 stop).toInt ∧
      (strncmpLog s1 s2 0 n).log = List.range' 0 (stop + 1) := by
  have hlog : strncmpLog s1 s2 0 n
      = ⟨(s1 stop).toInt - (s2 stop).toInt, List.range' 0 (stop - 0 + 1)⟩ :=
    strncmpLog_eq (Nat.zero_le _) (fun j _ => hgoes j) (by rwa [Nat.zero_add])
  have hvalue := strncmpLog_value s1 s2 0 n
  simp only [Nat.zero_add] at hvalue
  exact ⟨hvalue.symm.trans (congrArg Logged.value hlog), congrArg Logged.log hlog⟩

/-- In front of the end, the strings agree up to `n` when they agree at the place of the stop. -/
theorem agreeOn_iff (hgoes : ∀ j < stop, ¬ LoopEnds s1 s2 j) (hlt : stop < n)
    (hstop : LoopEnds s1 s2 stop) : AgreeOn s1 s2 n ↔ s1 stop = s2 stop := by
  have hsame (j : Nat) (hj : j < stop) := not_loopEnds.mp (hgoes j hj)
  constructor
  · rintro (h | ⟨m, _, hend, h⟩)
    · exact h stop hlt
    · -- A `'\0'` in front of the stop would have stopped the loop.
      refine h stop (Nat.le_of_not_lt fun hm => ?_)
      exact (hsame m hm).1 hend
  · intro heq
    -- Of the three reasons to stop, equal characters leave a `'\0'` in both strings.
    have hend : s1 stop = 0 := by
      rcases hstop with h | h | h
      · exact h
      · exact heq.trans h
      · exact absurd heq h
    refine .inr ⟨stop, hlt, hend, fun i hi => ?_⟩
    rcases Nat.lt_or_eq_of_le hi with hlt' | rfl
    · exact (hsame i hlt').2.2
    · exact heq

/-- The first difference is the place of the stop. -/
theorem firstDiff_eq (hgoes : ∀ j < stop, ¬ LoopEnds s1 s2 j) (hstop : LoopEnds s1 s2 stop)
    (hdiff : FirstDiff s1 s2 k) : k = stop := by
  rcases Nat.lt_trichotomy k stop with hlt | heq | hlt
  · exact absurd (not_loopEnds.mp (hgoes k hlt)).2.2 hdiff.1
  · exact heq
  · obtain ⟨heq, hne⟩ := hdiff.2 stop hlt
    exact absurd ⟨hne, heq ▸ hne, heq⟩ (mt not_loopEnds.mpr (not_not.mpr hstop))

end

/-- `strncmp` keeps to `n` characters when it stops in front of them all being equal. Otherwise the
result is the difference of the characters at `n`, which it should not look at. -/
theorem strncmp_right_iff (s1 s2 : Bytes) (n : Nat) :
    StrncmpRight s1 s2 n ↔ ∃ k < n, LoopEnds s1 s2 k := by
  constructor
  · -- behind `n` turns it would look at the characters at `n`
    intro hright
    by_contra hnone
    have hgoes : ∀ j < n, ¬ LoopEnds s1 s2 j := fun j hj hstop => hnone ⟨j, hj, hstop⟩
    have hlog := (strncmp_eq hgoes (.inr rfl)).2
    refine Nat.lt_irrefl n (hright.inside n ?_)
    rw [hlog]
    exact List.mem_range'_1.mpr ⟨Nat.zero_le n, by omega⟩
  · -- The loop ends at the first such index, in front of `n`.
    intro hstops
    classical
    obtain ⟨hlt, hstop⟩ := Nat.find_spec hstops
    have hgoes : ∀ j < Nat.find hstops, ¬ LoopEnds s1 s2 j :=
      fun j hj hat => Nat.find_min hstops hj ⟨by omega, hat⟩
    obtain ⟨hvalue, hlog⟩ := strncmp_eq hgoes (.inl ⟨hlt, hstop⟩)
    refine ⟨?_, fun i _ hdiff => ?_, fun i hi => ?_⟩
    · rw [hvalue, sub_eq_zero_iff, agreeOn_iff hgoes hlt hstop]
    · rw [hvalue, firstDiff_eq hgoes hstop hdiff]
    · rw [hlog, List.mem_range'_1] at hi
      omega

/-- `"ab"` and `"ac"` agree on one character, but `strncmp` compares the second one, too: its loop
looks at the characters in front of the count. -/
theorem strncmp_compares_second :
    ¬ StrncmpRight (CString.bytes ⟨[0x61, 0x62], by decide⟩)
      (CString.bytes ⟨[0x61, 0x63], by decide⟩) 1 := by
  intro hright
  have hagree : AgreeOn (CString.bytes ⟨[0x61, 0x62], by decide⟩)
      (CString.bytes ⟨[0x61, 0x63], by decide⟩) 1 := .inl (by decide)
  exact absurd (hright.zero.mpr hagree) (by decide)

end Fizzos.Proofs
