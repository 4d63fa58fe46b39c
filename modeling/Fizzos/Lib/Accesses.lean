import Fizzos.Lib.Fizzstr
import Fizzos.Support.Logged

/-!
# `Fizzos.Lib.Accesses`: where functions of `lib/fizzstr.c` read and write

`memcpy` works on the whole memory, so its two ranges can overlap. Addresses and counts are 32 bits
wide, and `src + n` can wrap.

`strncmpLog` is `strncmp` with a log of the indices of the characters it looks at. It looks at both
strings at each of them: the `return` reads the two characters that the loop has stopped at.
-/

set_option autoImplicit false

namespace Fizzos.Lib

open Fizzos.Support

/-- The memory of a process. -/
abbrev Memory := BitVec 32 → BitVec 8

/-- `for (; n > 0; n--)` of `memcpy`. -/
def memcpyDown (dest src : BitVec 32) : Nat → Memory → Memory
  | 0, m => m
  | n + 1, m =>
      let i := BitVec.ofNat 32 n
      memcpyDown dest src n (Function.update m (dest + i) (m (src + i)))

/-- `for (int i = 0; i < n; i++)` of `memcpy`, from `i` on. The number of turns is `n - i`. -/
def memcpyUp (dest src : BitVec 32) : Nat → Nat → Memory → Memory
  | _, 0, m => m
  | i, turns + 1, m =>
      let k := BitVec.ofNat 32 i
      memcpyUp dest src (i + 1) turns (Function.update m (dest + k) (m (src + k)))

/-- `memcpy`: what it returns, and the memory. -/
def memcpy (dest src n : BitVec 32) (m : Memory) : BitVec 32 × Memory :=
  if dest ≥ src ∧ dest < src + n then (dest, memcpyDown dest src n.toNat m)
  else (dest, memcpyUp dest src 0 n.toNat m)

/-- `strncmp` behind `k` turns, with `n` turns left. It logs the indices of the characters. -/
def strncmpLog (s1 s2 : Bytes) : Nat → Nat → Logged Nat Int
  | k, 0 => do
      .tell [k]
      pure ((s1 k).toInt - (s2 k).toInt)
  | k, n + 1 => do
      .tell [k]
      if s1 k ≠ 0 ∧ s2 k ≠ 0 ∧ s1 k = s2 k then strncmpLog s1 s2 (k + 1) n
      else pure ((s1 k).toInt - (s2 k).toInt)

/-- The log does not change the result. -/
theorem strncmpLog_value (s1 s2 : Bytes) (k n : Nat) :
    (strncmpLog s1 s2 k n).value = strncmp (fun i => s1 (k + i)) (fun i => s2 (k + i)) n := by
  induction n generalizing k with
  | zero => rfl
  | succ n ih =>
      have hnext (s : Bytes) : (fun i => s (k + 1 + i)) = fun i => s (k + (i + 1)) :=
        funext fun i => congrArg s (by omega)
      rw [strncmpLog, strncmp, Logged.bind_value]
      split
      · rename_i hsame
        rw [ih, hnext s1, hnext s2]
        exact (if_pos hsame).symm
      · rename_i hdiff
        exact (if_neg hdiff).symm

end Fizzos.Lib
