import Fizzos.Support.Bytes
import Mathlib.Data.List.GetD
import Mathlib.Logic.Function.Basic

/-!
# `Fizzos.Lib.Fizzstr`: strings of `lib/fizzstr.c`

A string is the memory behind a `char*`. A `char` is signed.

`strncmp` tests its count after the two characters. So it looks at `n + 1` characters, and equal
strings of `n` characters compare equal only when the next characters are equal, too
(`strncmp_eq_zero_iff`).
-/

set_option autoImplicit false

namespace Fizzos.Lib

open Fizzos.Support

/-- `strncmp`. -/
def strncmp : Bytes → Bytes → Nat → Int
  | s1, s2, 0 => (s1 0).toInt - (s2 0).toInt
  | s1, s2, n + 1 =>
      if s1 0 ≠ 0 ∧ s2 0 ≠ 0 ∧ s1 0 = s2 0 then
        strncmp (fun k => s1 (k + 1)) (fun k => s2 (k + 1)) n
      else (s1 0).toInt - (s2 0).toInt

/-- The first loop of `strncpy` stops here: at the first `'\0'` before `n`, or at `n`. -/
def strnlen (src : Bytes) (n : Nat) : Nat :=
  ((List.range n).find? fun i => decide (src i = 0)).getD n

/-- `strncpy` to `dest + off`. -/
def strncpy (dest : Bytes) (off : Nat) (src : Bytes) (n : Nat) : Bytes := fun k =>
  if off ≤ k ∧ k < off + n then if k - off < strnlen src n then src (k - off) else 0
  else dest k

/-- `strlen`. The loop gives up at 100 characters, and returns -1 as a `size_t`. -/
def strlen (s : Bytes) : Nat :=
  ((List.range 100).find? fun i => decide (s i = 0)).getD (2 ^ 32 - 1)

/-- A string that ends: its characters in front of the `'\0'`. -/
structure CString where
  chars : List (BitVec 8)
  nonzero : ∀ c ∈ chars, c ≠ 0

/-- The memory behind the `char*`. -/
def CString.bytes (str : CString) : Bytes := fun k => str.chars.getD k 0

/-- `strcpy` to `dest + off`, for the characters of a string that ends. -/
def strcpy (dest : Bytes) (off : Nat) : List (BitVec 8) → Bytes
  | [] => Function.update dest off 0
  | c :: rest => strcpy (Function.update dest off c) (off + 1) rest

/-- `memcmp`. -/
def memcmp : Bytes → Bytes → Nat → Int
  | _, _, 0 => 0
  | s1, s2, n + 1 =>
      if s1 0 ≠ s2 0 then if (s1 0).toInt - (s2 0).toInt > 0 then 1 else -1
      else memcmp (fun k => s1 (k + 1)) (fun k => s2 (k + 1)) n

/-- `memset(buf + off, v, n)`. -/
def memset (buf : Bytes) (off : Nat) (v : BitVec 8) (n : Nat) : Bytes := fun k =>
  if off ≤ k ∧ k < off + n then v else buf k

/-- `memset(buf + off, 0, n)`. -/
def memsetZero (buf : Bytes) (off n : Nat) : Bytes := fun k =>
  if off ≤ k ∧ k < off + n then 0 else buf k

section
variable {s1 s2 src dest : Bytes} {n off k : Nat}

/-- Two `char`s that compare equal. -/
theorem sub_eq_zero_iff {a b : BitVec 8} : a.toInt - b.toInt = 0 ↔ a = b := by
  constructor
  · intro h
    exact BitVec.eq_of_toInt_eq (by omega)
  · rintro rfl
    omega

/-- `strncmp` with a string that ends at `n` compares `n + 1` characters. -/
theorem strncmp_eq_zero_iff (hnul : ∀ i < n, s2 i ≠ 0) (hend : s2 n = 0) :
    strncmp s1 s2 n = 0 ↔ ∀ i ≤ n, s1 i = s2 i := by
  induction n generalizing s1 s2 with
  | zero =>
      rw [strncmp, sub_eq_zero_iff]
      constructor
      · intro h i hi
        rwa [Nat.le_zero.mp hi]
      · exact fun h => h 0 (Nat.le_refl 0)
  | succ n ih =>
      have hfirst := hnul 0 (Nat.succ_pos n)
      rw [strncmp]
      split
      · rename_i hsame
        rw [ih (fun i hi => hnul (i + 1) (Nat.succ_lt_succ hi)) hend]
        constructor
        · intro h i hi
          cases i with
          | zero => exact hsame.2.2
          | succ i => exact h i (Nat.le_of_succ_le_succ hi)
        · exact fun h i hi => h (i + 1) (Nat.succ_le_succ hi)
      · rename_i hdiff
        rw [sub_eq_zero_iff]
        constructor
        · intro h
          exact absurd ⟨h ▸ hfirst, hfirst, h⟩ hdiff
        · exact fun h => h 0 (Nat.zero_le _)

/-- `strlen` is right below 100 characters. -/
theorem strlen_eq (str : CString) :
    strlen str.bytes = if str.chars.length < 100 then str.chars.length else 2 ^ 32 - 1 := by
  have hnul : ∀ i < str.chars.length, str.bytes i ≠ 0 := by
    intro i hi
    rw [CString.bytes, List.getD_eq_getElem _ _ hi]
    exact str.nonzero _ (List.getElem_mem hi)
  rw [strlen]
  by_cases hlen : str.chars.length < 100
  · have hend : str.bytes str.chars.length = 0 := List.getD_eq_default _ _ (Nat.le_refl _)
    have hfind : (List.range 100).find? (fun i => decide (str.bytes i = 0))
        = some str.chars.length := by
      rw [List.find?_range_eq_some]
      exact ⟨by simpa using hend, List.mem_range.mpr hlen, fun i hi => by simpa using hnul i hi⟩
    rw [if_pos hlen, hfind]
    rfl
  · have hfind : (List.range 100).find? (fun i => decide (str.bytes i = 0)) = none := by
      refine List.find?_eq_none.mpr fun i hi => ?_
      have hi' := List.mem_range.mp hi
      simpa using hnul i (by omega)
    rw [if_neg hlen, hfind]
    rfl

/-- `strcpy` writes the characters and the `'\0'`, and nothing else. -/
theorem strcpy_apply (dest : Bytes) (off : Nat) (chars : List (BitVec 8)) (k : Nat) :
    strcpy dest off chars k
      = if off ≤ k ∧ k < off + (chars.length + 1) then chars.getD (k - off) 0 else dest k := by
  induction chars generalizing dest off with
  | nil =>
      rw [strcpy, Function.update_apply]
      by_cases hk : k = off
      · rw [if_pos hk, if_pos (by simp [hk])]
        rfl
      · rw [if_neg hk, if_neg (by simp only [List.length_nil]; omega)]
  | cons c rest ih =>
      rw [strcpy, ih, Function.update_apply, List.length_cons]
      by_cases hk : k = off
      · rw [if_neg (by omega), if_pos hk, if_pos (by omega), hk, Nat.sub_self, List.getD_cons_zero]
      · by_cases hin : off ≤ k ∧ k < off + (rest.length + 1 + 1)
        · obtain ⟨j, rfl⟩ : ∃ j, k = off + 1 + j := ⟨k - (off + 1), by omega⟩
          rw [if_pos (by omega), if_pos hin, Nat.add_sub_cancel_left,
            show off + 1 + j - off = j + 1 by omega, List.getD_cons_succ]
        · rw [if_neg (by omega), if_neg hk, if_neg hin]

/-- `memcmp` gives zero for equal bytes only. -/
theorem memcmp_eq_zero_iff : memcmp s1 s2 n = 0 ↔ ∀ i < n, s1 i = s2 i := by
  induction n generalizing s1 s2 with
  | zero => exact iff_of_true rfl fun i hi => absurd hi (Nat.not_lt_zero i)
  | succ n ih =>
      rw [memcmp]
      split
      · rename_i hdiff
        refine iff_of_false (fun h => ?_) fun h => hdiff (h 0 (Nat.succ_pos n))
        split at h <;> omega
      · rename_i hsame
        rw [ih]
        constructor
        · intro h i hi
          cases i with
          | zero => exact Classical.not_not.mp hsame
          | succ i => exact h i (Nat.lt_of_succ_lt_succ hi)
        · exact fun h i hi => h (i + 1) (Nat.succ_lt_succ hi)

/-- Without a `'\0'` the whole of `n` characters is copied. -/
theorem strnlen_eq (hnul : ∀ i < n, src i ≠ 0) : strnlen src n = n := by
  have hnone : (List.range n).find? (fun i => decide (src i = 0)) = none := by
    refine List.find?_eq_none.mpr fun i hi => ?_
    simpa using hnul i (List.mem_range.mp hi)
  rw [strnlen, hnone]
  rfl

/-- A copied character. -/
theorem strncpy_at (hnul : ∀ i < n, src i ≠ 0) (hlo : off ≤ k) (hhi : k < off + n) :
    strncpy dest off src n k = src (k - off) := by
  rw [strncpy, if_pos ⟨hlo, hhi⟩, strnlen_eq hnul, if_pos (by omega)]

/-- Bytes outside of the `n` characters. -/
theorem strncpy_of_ne (h : k < off ∨ off + n ≤ k) : strncpy dest off src n k = dest k :=
  if_neg (by omega)

end

end Fizzos.Lib
