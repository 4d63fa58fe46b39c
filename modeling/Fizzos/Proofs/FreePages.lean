import Fizzos.Proofs.Cow
import Mathlib.Algebra.Group.Action.Defs
import Mathlib.Algebra.Order.BigOperators.Group.Finset

/-!
# `Fizzos.Proofs.FreePages`: when `get_free_page` returns

`get_free_page` stops with a `PANIC` exactly when all counters of the pool are zero
(`getFreePage_iff`). `freeCount` is the number of free pages by these counters. With the blocks
that are out it is the size of the pool, so each call takes one away (`Owns.freeCount_get`).
-/

set_option autoImplicit false

namespace Fizzos.Proofs

open Fizzos.Kernel
open Fizzos.LibKernel
open Fizzos.Support
open BuddyInv (hold)

/-- The counter of some order of the pool is positive. -/
def HasFree (b : Buddy) (P : Pool) : Prop := ∃ o ≤ MAX_ORDER, 0 < (b.area P o).nrFree

/-- The number of pages on the free lists of a pool. -/
def freeCount (b : Buddy) (P : Pool) : Int :=
  ∑ o ∈ Finset.range (MAX_ORDER + 1), (b.area P o).nrFree * 2 ^ o

section
variable {totalMemSize : Nat} {b b' : Buddy} {out others : Pool → Multiset Block}
  {own : Pool → Multiset Nat} {fr : FreeLists} {P : Pool} {flag addr : Nat} {current : Tid}

theorem hasFree_of_freeCount (h : 0 < freeCount b P) : HasFree b P := by
  by_contra hnone
  refine absurd h (Int.not_lt.mpr (Finset.sum_nonpos fun o ho => ?_))
  have hle : (b.area P o).nrFree ≤ 0 :=
    Int.not_lt.mp fun hpos => hnone ⟨o, Nat.le_of_lt_succ (Finset.mem_range.mp ho), hpos⟩
  exact Int.mul_nonpos_of_nonpos_of_nonneg hle (Int.le_of_lt (Int.pow_pos (by decide)))

/-- The search of `alloc_pages` stops when all counters are zero. -/
theorem allocFrom_none (order : Nat) (current : Tid) (n : Nat) :
    ∀ o, (∀ q, o ≤ q → q < o + n → ¬0 < (b.area P q).nrFree) →
      b.allocFrom P order current n o = .error .panic := by
  induction n with
  | zero => exact fun o _ => rfl
  | succ n ih =>
      intro o hnone
      have hzero : ¬(b.area P o).nrFree > 0 := hnone o (Nat.le_refl o) (by omega)
      rw [Buddy.allocFrom, if_neg hzero]
      exact ih (o + 1) fun q hle hlt => hnone q (by omega) (by omega)

/-- `get_free_page` returns exactly when the pool has a free block. -/
theorem getFreePage_iff (h : Owns totalMemSize b others own) (htotal : totalMemSize ≤ 2 ^ 30)
    (flag : Nat) (current : Tid) :
    (∃ r, b.getFreePage flag current = .ok r) ↔ HasFree b (poolOfFlag flag) := by
  obtain ⟨fr, h⟩ := h
  have hlt : totalMemSize < 2 ^ 32 := by omega
  have hr := poolRanges hlt
  constructor
  · rintro ⟨r, hok⟩
    by_contra hnone
    have hpanic : b.allocPages flag 0 current = .error .panic := by
      rw [Buddy.allocPages, ASSERT_true (Nat.zero_le MAX_ORDER), ok_bind]
      exact allocFrom_none _ _ _ _ fun q _ hlt hpos => hnone ⟨q, by omega, hpos⟩
    rw [Buddy.getFreePage, Buddy.getFreePages, hpanic] at hok
    cases hok
  · rintro ⟨o, ho, hpos⟩
    rcases h.getFreePage htotal flag current with ⟨-, hpanic⟩ | ⟨idx, b', -, hok, -⟩
    · -- a `PANIC` means that the lists are empty, and the counters are their lengths
      rcases h.buddy.allocPages hr flag (Nat.zero_le MAX_ORDER) current with
        ⟨-, hempty⟩ | ⟨idx, b', -, hok, -⟩
      · rw [h.buddy.rep.nrFree _ o ho, hempty o (Nat.zero_le o) ho] at hpos
        exact absurd hpos (by simp)
      · rw [hok] at hpanic
        cases hpanic
    · exact ⟨_, hok⟩

/-- The pages of the blocks on the lists. -/
theorem weight_freeBlocks (f : Nat → List Nat) (n : Nat) :
    (Tiles.weight (freeBlocks f n) : Int)
      = ∑ o ∈ Finset.range n, ((f o).length : Int) * 2 ^ o := by
  induction n with
  | zero => rfl
  | succ n ih =>
      have hlast : ((f n : Multiset Nat).map (Block.mk · n)).map (fun b => 2 ^ b.order)
          = Multiset.replicate (f n).length (2 ^ n) := by
        rw [Multiset.map_map]
        exact Multiset.map_const' (f n : Multiset Nat) (2 ^ n)
      rw [Finset.sum_range_succ, ← ih, freeBlocks, Tiles.weight, Multiset.map_add,
        Multiset.sum_add, hlast, Multiset.sum_replicate, smul_eq_mul, Nat.cast_add, Nat.cast_mul,
        Nat.cast_pow]
      rfl

/-- The free pages and the pages that are out are all pages of the pool. -/
theorem freeCount_eq {lo hi : Pool → Nat} (h : BuddyInv lo hi b fr out) (P : Pool) :
    freeCount b P + Tiles.weight (out P) = (hi P - lo P : Nat) := by
  have hweight := (h.tiles P).weight_eq
  have hsum : freeCount b P = Tiles.weight (freeBlocks (fr P) (MAX_ORDER + 1)) := by
    rw [weight_freeBlocks]
    refine Finset.sum_congr rfl fun o ho => ?_
    rw [h.rep.nrFree P o (Nat.le_of_lt_succ (Finset.mem_range.mp ho))]
  rw [hsum, ← hweight, Tiles.weight, Tiles.weight, Tiles.weight, Multiset.map_add, Multiset.sum_add,
    Nat.cast_add]

/-- `get_free_page` takes one page of its pool. -/
theorem Owns.freeCount_get (h : Owns totalMemSize b others own) (htotal : totalMemSize ≤ 2 ^ 30)
    (hok : b.getFreePage flag current = .ok (addr, b')) (P : Pool) :
    freeCount b' P = freeCount b P - if P = poolOfFlag flag then 1 else 0 := by
  obtain ⟨fr, h⟩ := h
  rcases h.getFreePage htotal flag current with ⟨hpanic, -⟩ | ⟨idx, b₁, fr', hok', -, h', -⟩
  · rw [hpanic] at hok
    cases hok
  · obtain ⟨-, rfl⟩ : pageAddr idx = addr ∧ b₁ = b' := by simpa using hok'.symm.trans hok
    have hbefore := freeCount_eq h.buddy P
    have hafter := freeCount_eq h'.buddy P
    by_cases hP : P = poolOfFlag flag
    · subst hP
      rw [if_pos rfl]
      rw [hold, Function.update_self, Tiles.weight, Multiset.map_cons, Multiset.sum_cons,
        Nat.cast_add] at hafter
      rw [Tiles.weight] at hbefore
      have hone : ((2 ^ (Block.mk idx 0).order : Nat) : Int) = 1 := rfl
      omega
    · rw [if_neg hP]
      rw [hold, Function.update_of_ne hP] at hafter
      omega

end

end Fizzos.Proofs
