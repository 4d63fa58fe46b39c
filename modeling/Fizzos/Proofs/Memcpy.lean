import Fizzos.Lib.Accesses
import Fizzos.Support.Copies

/-!
# `Fizzos.Proofs.Memcpy`: copies between overlapping ranges

`memcpy` copies from the back when `dest` is inside of the source, and from the front otherwise.
Each loop copies byte by byte in an order (`memcpyDown_eq`, `memcpyUp_eq`), and a range is copied
when no byte is written before it is read (`copyBytesIn_copies`).

A source that ends at the end of the address space makes `src + n` zero, and the test of `memcpy`
fails. Then `dest` is not behind the source, so the loop from the front is right (`apart_of_test`).
-/

set_option autoImplicit false

namespace Fizzos.Proofs

open Fizzos.Lib
open Fizzos.Support

section
variable {dest src : BitVec 32} {n i k turns : Nat} {m m₀ : Memory}

/-- An address behind the start of a range that does not wrap. -/
theorem toNat_add_index (hdest : dest.toNat + n ≤ 2 ^ 32) (hk : k < n) :
    (dest + BitVec.ofNat 32 k).toNat = dest.toNat + k := by
  rw [BitVec.toNat_add, BitVec.toNat_ofNat, Nat.mod_eq_of_lt (by omega : k < 2 ^ 32),
    Nat.mod_eq_of_lt (by omega)]

/-- Two such addresses differ when their numbers do. -/
theorem add_index_ne (hdest : dest.toNat + n ≤ 2 ^ 32) (hsrc : src.toNat + n ≤ 2 ^ 32) {j : Nat}
    (hk : k < n) (hj : j < n) (hne : dest.toNat + k ≠ src.toNat + j) :
    src + BitVec.ofNat 32 j ≠ dest + BitVec.ofNat 32 k := by
  intro heq
  have hnat := congrArg BitVec.toNat heq
  rw [toNat_add_index hsrc hj, toNat_add_index hdest hk] at hnat
  exact hne hnat.symm

/-- The copy of a range, byte by byte in this order. -/
def copyBytesIn (dest src : BitVec 32) (m : Memory) (order : List Nat) : Memory :=
  copyEach (fun k => dest + BitVec.ofNat 32 k) (fun k => src + BitVec.ofNat 32 k) m order

theorem memcpyDown_eq (dest src : BitVec 32) (n : Nat) (m : Memory) :
    memcpyDown dest src n m = copyBytesIn dest src m (List.range n).reverse := by
  induction n generalizing m with
  | zero => rfl
  | succ n ih =>
      rw [memcpyDown, ih, List.range_succ, List.reverse_concat]
      rfl

theorem memcpyUp_eq (dest src : BitVec 32) (i turns : Nat) (m : Memory) :
    memcpyUp dest src i turns m = copyBytesIn dest src m (List.range' i turns) := by
  induction turns generalizing i m with
  | zero => rfl
  | succ turns ih =>
      rw [memcpyUp, ih, List.range'_succ]
      rfl

/-- A range is copied when no byte is written before it is read. -/
theorem copyBytesIn_copies {order : List Nat} (hdest : dest.toNat + n ≤ 2 ^ 32)
    (hsrc : src.toNat + n ≤ 2 ^ 32) (hmem : ∀ k, k ∈ order ↔ k < n) (hnodup : order.Nodup)
    (hread : order.Pairwise fun j k => dest.toNat + j ≠ src.toNat + k) :
    (∀ k < n, copyBytesIn dest src m order (dest + BitVec.ofNat 32 k)
    = m (src + BitVec.ofNat 32 k)) ∧
    ∀ a : BitVec 32, a.toNat < dest.toNat ∨ dest.toNat + n ≤ a.toNat →
      copyBytesIn dest src m order a = m a := by
  constructor
  · intro k hk
    refine copyEach_at (hnodup.imp_of_mem fun {j i} hj hi hne => ?_)
      (hread.imp_of_mem fun {j i} hj hi hne => ?_) ((hmem k).mpr hk)
    · exact add_index_ne hdest hdest ((hmem i).mp hi) ((hmem j).mp hj) (by omega)
    · exact (add_index_ne hdest hsrc ((hmem j).mp hj) ((hmem i).mp hi) hne).symm
  · rintro a ha
    refine copyEach_of_ne fun k hk heq => ?_
    rw [heq, toNat_add_index hdest ((hmem k).mp hk)] at ha
    have := (hmem k).mp hk
    omega

/-- The test of `memcpy` fails when `dest` is not inside of the source. -/
theorem apart_of_test {n : BitVec 32} (hdest : dest.toNat + n.toNat ≤ 2 ^ 32)
    (hsrc : src.toNat + n.toNat ≤ 2 ^ 32) (htest : ¬ (dest ≥ src ∧ dest < src + n)) :
    dest.toNat ≤ src.toNat ∨ src.toNat + n.toNat ≤ dest.toNat := by
  rw [ge_iff_le, BitVec.le_def, BitVec.lt_def, BitVec.toNat_add] at htest
  by_cases hend : src.toNat + n.toNat = 2 ^ 32
  · -- `src + n` is 0, and `dest` is not behind a source that ends here
    exact .inl (by omega)
  · rw [Nat.mod_eq_of_lt (by omega)] at htest
    omega

end

/-- `memcpy` copies between any two ranges that do not wrap around, also overlapping ones: it starts
at the back when it would read what it has written. The destination gets the old bytes of the
source, and nothing outside of it changes. -/
theorem memcpy_copies (dest src n : BitVec 32) (m : Memory)
    (hdest : dest.toNat + n.toNat ≤ 2 ^ 32) (hsrc : src.toNat + n.toNat ≤ 2 ^ 32) :
    (∀ k < n.toNat,
      (memcpy dest src n m).2 (dest + BitVec.ofNat 32 k) = m (src + BitVec.ofNat 32 k)) ∧
    ∀ a : BitVec 32, a.toNat < dest.toNat ∨ dest.toNat + n.toNat ≤ a.toNat →
      (memcpy dest src n m).2 a = m a := by
  rw [memcpy]
  split
  · -- from the back: the bytes that are still to be read are in front of the one that is written
    rename_i htest
    have hle : src.toNat ≤ dest.toNat := BitVec.le_def.mp htest.1
    rw [memcpyDown_eq]
    have hnodup : (List.range n.toNat).reverse.Nodup :=
      (List.reverse_perm _).nodup_iff.mpr List.nodup_range
    refine copyBytesIn_copies hdest hsrc (fun k => by simp) hnodup ?_
    exact List.pairwise_reverse.mpr (List.pairwise_lt_range.imp fun hlt => by omega)
  · rename_i htest
    have hapart := apart_of_test hdest hsrc htest
    rw [memcpyUp_eq, ← List.range_eq_range']
    refine copyBytesIn_copies hdest hsrc (fun k => by simp) List.nodup_range ?_
    -- From the front: a byte that is still to be read is not among those written.
    refine List.pairwise_lt_range.imp_of_mem fun {j k} hj hk hlt => ?_
    have hj' := List.mem_range.mp hj
    have hk' := List.mem_range.mp hk
    omega

/-- Four bytes that are moved by one: the last one is not the first one again. -/
theorem memcpy_copies_overlap :
    (memcpy 0x1001 0x1000 4 fun a => a.setWidth 8).2 0x1004 = 3 :=
  (memcpy_copies 0x1001 0x1000 4 _ (by decide) (by decide)).1 3 (by decide)

end Fizzos.Proofs
