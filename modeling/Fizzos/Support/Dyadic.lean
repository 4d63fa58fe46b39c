import Mathlib.Algebra.BigOperators.Group.Finset.Piecewise
import Mathlib.Data.Nat.Bitwise
import Mathlib.Data.Nat.Find
import Mathlib.Data.Multiset.Count
import Mathlib.Data.Multiset.Filter
import Mathlib.Data.Multiset.Range
import Mathlib.Data.Multiset.UnionInter
import Mathlib.Order.Interval.Finset.Nat

/-!
# `Fizzos.Support.Dyadic`: aligned blocks of powers of two

A block has a first index and an order `o`, and covers `2 ^ o` indices. It is aligned when
its first index is a multiple of its size. The two aligned halves of an aligned block are
buddies: they differ in one bit.

`Tiles lo hi top bs` says that the multiset `bs` of aligned blocks covers each index from `lo`
to `hi` exactly once. Because the blocks are counted, a tiling has no block twice and no
overlap. Splitting a block into buddies and merging buddies keep a tiling
(`Tiles.split`, `Tiles.merge`). A tiling without a pair of buddies below the top order has
only blocks of the top order (`Tiles.order_eq_top`): this is why merging whenever possible
brings the coarsest tiling back.
-/

set_option autoImplicit false

namespace Fizzos.Support

/-! ### Buddies -/

section Buddies

variable {i o : Nat}

/-- A multiple of `2 ^ (o + 1)` has bit `o` clear. -/
theorem testBit_of_dvd (h : 2 ^ (o + 1) ∣ i) : i.testBit o = false := by
  obtain ⟨m, rfl⟩ := h
  rw [Nat.testBit_two_pow_mul]
  simp

/-- The buddy of the lower half is the upper half. -/
theorem xor_two_pow_of_dvd (h : 2 ^ (o + 1) ∣ i) : i ^^^ 2 ^ o = i + 2 ^ o := by
  have hbit := testBit_of_dvd h
  have hor : i + 2 ^ o = i ||| 2 ^ o := by
    obtain ⟨m, rfl⟩ := h
    exact Nat.two_pow_add_eq_or_of_lt (Nat.pow_lt_pow_right (by decide) (by omega)) m
  rw [hor]
  refine Nat.eq_of_testBit_eq fun j => ?_
  by_cases hj : o = j
  · subst hj
    simp [hbit]
  · simp [hj]

/-- The buddy of the upper half is the lower half. -/
theorem add_xor_two_pow_of_dvd (h : 2 ^ (o + 1) ∣ i) : (i + 2 ^ o) ^^^ 2 ^ o = i := by
  rw [← xor_two_pow_of_dvd h, Nat.xor_assoc, Nat.xor_self, Nat.xor_zero]

/-- Clearing bit `o` of the lower half changes nothing. -/
theorem ldiff_two_pow_of_dvd (h : 2 ^ (o + 1) ∣ i) : Nat.ldiff i (2 ^ o) = i := by
  have hbit := testBit_of_dvd h
  refine Nat.eq_of_testBit_eq fun j => ?_
  rw [Nat.testBit_ldiff, Nat.testBit_two_pow]
  by_cases hj : o = j
  · subst hj
    simp [hbit]
  · simp [hj]

/-- Clearing bit `o` of the upper half gives the lower half. -/
theorem add_ldiff_two_pow_of_dvd (h : 2 ^ (o + 1) ∣ i) :
    Nat.ldiff (i + 2 ^ o) (2 ^ o) = i := by
  have hbit := testBit_of_dvd h
  rw [← xor_two_pow_of_dvd h]
  refine Nat.eq_of_testBit_eq fun j => ?_
  rw [Nat.testBit_ldiff, Nat.testBit_xor, Nat.testBit_two_pow]
  by_cases hj : o = j
  · subst hj
    simp [hbit]
  · simp [hj]

/-- An aligned index is the lower or the upper half of an aligned block of the next order. -/
theorem half_cases (h : 2 ^ o ∣ i) :
    2 ^ (o + 1) ∣ i ∨ ∃ b, 2 ^ (o + 1) ∣ b ∧ i = b + 2 ^ o := by
  obtain ⟨m, rfl⟩ := h
  rcases Nat.even_or_odd' m with ⟨k, rfl | rfl⟩
  · exact .inl ⟨k, by rw [Nat.pow_succ, Nat.mul_assoc]⟩
  · refine .inr ⟨2 ^ (o + 1) * k, Dvd.intro _ rfl, ?_⟩
    rw [Nat.pow_succ, Nat.mul_assoc, Nat.mul_succ]

/-- Both halves have the same number among the pairs of their order. -/
theorem add_shiftRight_of_dvd (h : 2 ^ (o + 1) ∣ i) :
    (i + 2 ^ o) >>> (o + 1) = i >>> (o + 1) := by
  obtain ⟨m, rfl⟩ := h
  have hlt : 2 ^ o < 2 ^ (o + 1) := Nat.pow_lt_pow_right (by decide) (by omega)
  rw [Nat.shiftRight_eq_div_pow, Nat.shiftRight_eq_div_pow,
    Nat.mul_add_div (Nat.two_pow_pos _), Nat.div_eq_of_lt hlt,
    Nat.mul_div_cancel_left _ (Nat.two_pow_pos _)]
  rfl

/-- The number of a pair gives its lower half back. -/
theorem shiftRight_mul_of_dvd (h : 2 ^ (o + 1) ∣ i) : i >>> (o + 1) * 2 ^ (o + 1) = i := by
  rw [Nat.shiftRight_eq_div_pow]
  exact Nat.div_mul_cancel h

end Buddies

/-! ### Blocks -/

/-- An aligned block is meant to start at a multiple of `2 ^ order`. -/
structure Block where
  idx : Nat
  order : Nat
  deriving DecidableEq, Repr

namespace Block

/-- The block covers the index `p`. -/
def Covers (b : Block) (p : Nat) : Prop := b.idx ≤ p ∧ p < b.idx + 2 ^ b.order

instance (b : Block) (p : Nat) : Decidable (b.Covers p) :=
  inferInstanceAs (Decidable (_ ∧ _))

/-- A block covers its first index. -/
theorem covers_idx (b : Block) : b.Covers b.idx :=
  ⟨Nat.le_refl _, Nat.lt_add_of_pos_right (Nat.two_pow_pos _)⟩

/-- The halves of a block cover what it covers, once. -/
theorem covers_succ (i o p : Nat) :
    (Block.mk i (o + 1)).Covers p ↔ (Block.mk i o).Covers p ∨
    (Block.mk (i + 2 ^ o) o).Covers p := by
  simp only [Covers, Nat.pow_succ]
  omega

theorem not_covers_both (i o p : Nat) :
    ¬((Block.mk i o).Covers p ∧ (Block.mk (i + 2 ^ o) o).Covers p) := by
  simp only [Covers]
  omega

/-- In units of `u`: an interval of one unit that meets an interval of whole units lies in
it. -/
private theorem unit_subset {u n m w p q : Nat} (hp : u * n ≤ p ∧ p < u * n + u)
    (hp' : u * m ≤ p ∧ p < u * m + u * w) (hq : u * n ≤ q ∧ q < u * n + u) :
    u * m ≤ q ∧ q < u * m + u * w := by
  have hlo : m ≤ n := by
    by_contra hlt
    have hmul := Nat.mul_le_mul_left u (show n + 1 ≤ m by omega)
    rw [Nat.mul_succ] at hmul
    omega
  have hhi : n + 1 ≤ m + w := by
    by_contra hlt
    have hmul := Nat.mul_le_mul_left u (show m + w ≤ n by omega)
    rw [Nat.mul_add] at hmul
    omega
  have hmulLo := Nat.mul_le_mul_left u hlo
  have hmulHi := Nat.mul_le_mul_left u hhi
  rw [Nat.mul_succ, Nat.mul_add] at hmulHi
  omega

/-- Of two aligned blocks that overlap, the one of the higher order contains the other. -/
theorem covers_of_order_le {b c : Block} (hb : 2 ^ b.order ∣ b.idx) (hc : 2 ^ c.order ∣ c.idx)
    (hle : b.order ≤ c.order) {p : Nat} (hbp : b.Covers p) (hcp : c.Covers p) {q : Nat}
    (hq : b.Covers q) : c.Covers q := by
  obtain ⟨n, hn⟩ := hb
  obtain ⟨m, hm⟩ := hc
  obtain ⟨d, hd⟩ := Nat.exists_eq_add_of_le hle
  have hpow : 2 ^ c.order = 2 ^ b.order * 2 ^ d := by rw [hd, Nat.pow_add]
  simp only [Covers, hn, hm, hpow, Nat.mul_assoc] at hbp hcp hq ⊢
  exact unit_subset hbp hcp hq

end Block

/-! ### Tilings -/

/-- The aligned blocks cover each index from `lo` to `hi` exactly once. -/
structure Tiles (lo hi top : Nat) (bs : Multiset Block) : Prop where
  aligned : ∀ b ∈ bs, 2 ^ b.order ∣ b.idx
  inside : ∀ b ∈ bs, b.order ≤ top ∧ lo ≤ b.idx ∧ b.idx + 2 ^ b.order ≤ hi
  once : ∀ p, lo ≤ p → p < hi → bs.countP (Block.Covers · p) = 1

namespace Tiles

variable {lo hi top : Nat} {bs : Multiset Block} {b c : Block}

/-- A block covers only indices of the range. -/
theorem covers_range (h : Tiles lo hi top bs) (hb : b ∈ bs) {p : Nat} (hp : b.Covers p) :
    lo ≤ p ∧ p < hi := by
  obtain ⟨-, hlo, hhi⟩ := h.inside b hb
  obtain ⟨h₁, h₂⟩ := hp
  omega

/-- Every index of the range is in a block. -/
theorem exists_covers (h : Tiles lo hi top bs) {p : Nat} (hlo : lo ≤ p) (hhi : p < hi) :
    ∃ b ∈ bs, b.Covers p := by
  have hpos : 0 < bs.countP (Block.Covers · p) := by rw [h.once p hlo hhi]; decide
  exact Multiset.countP_pos.mp hpos

/-- A block that is taken out of the tiling overlaps no other block. -/
theorem not_covers_of_cons (h : Tiles lo hi top (b ::ₘ bs)) (hc : c ∈ bs) {p : Nat}
    (hbp : b.Covers p) : ¬c.Covers p := by
  intro hcp
  obtain ⟨hlo, hhi⟩ := h.covers_range (Multiset.mem_cons_self b bs) hbp
  have honce := h.once p hlo hhi
  have hpos : 0 < bs.countP (Block.Covers · p) := Multiset.countP_pos.mpr ⟨c, hc, hcp⟩
  simp only [Multiset.countP_cons, hbp, if_true] at honce
  omega

/-- No block is there twice. -/
theorem not_mem_of_cons (h : Tiles lo hi top (b ::ₘ bs)) : b ∉ bs :=
  fun hb => h.not_covers_of_cons hb b.covers_idx b.covers_idx

theorem nodup (h : Tiles lo hi top bs) : bs.Nodup := by
  rw [Multiset.nodup_iff_ne_cons_cons]
  intro b t heq
  rw [heq] at h
  exact h.not_mem_of_cons (Multiset.mem_cons_self b t)

/-- Different blocks do not overlap. -/
theorem disjoint (h : Tiles lo hi top bs) (hb : b ∈ bs) (hc : c ∈ bs) (hne : b ≠ c) {p : Nat}
    (hbp : b.Covers p) : ¬c.Covers p := by
  obtain ⟨t, rfl⟩ := Multiset.exists_cons_of_mem hb
  exact h.not_covers_of_cons ((Multiset.mem_cons.mp hc).resolve_left (Ne.symm hne)) hbp

/-- Two blocks with the same first index are one block. -/
theorem eq_of_idx (h : Tiles lo hi top bs) (hb : b ∈ bs) (hc : c ∈ bs)
    (hidx : b.idx = c.idx) : b = c := by
  by_contra hne
  exact h.disjoint hb hc hne b.covers_idx (hidx ▸ c.covers_idx)

/-- The number of indices of the blocks. -/
def weight (bs : Multiset Block) : Nat := (bs.map fun b => 2 ^ b.order).sum

/-- The indices that a block in the range covers. -/
theorem card_covers (h : Tiles lo hi top bs) (hb : b ∈ bs) :
    ((Finset.Ico lo hi).filter fun p => b.Covers p).card = 2 ^ b.order := by
  have hset : ((Finset.Ico lo hi).filter fun p => b.Covers p)
      = Finset.Ico b.idx (b.idx + 2 ^ b.order) := by
    ext p
    rw [Finset.mem_filter, Finset.mem_Ico, Finset.mem_Ico]
    exact ⟨fun hp => hp.2, fun hp => ⟨h.covers_range hb hp, hp⟩⟩
  rw [hset, Nat.card_Ico, Nat.add_sub_cancel_left]

/-- Indices are counted once for each block that covers them. -/
theorem sum_countP (cs : Multiset Block) (S : Finset Nat) :
    ∑ p ∈ S, cs.countP (Block.Covers · p)
      = (cs.map fun b => (S.filter fun p => b.Covers p).card).sum := by
  induction cs using Multiset.induction with
  | empty => simp
  | cons b cs ih =>
      simp only [Multiset.countP_cons, Finset.sum_add_distrib, ih, Multiset.map_cons,
        Multiset.sum_cons, Finset.card_filter]
      exact Nat.add_comm _ _

/-- The blocks of a tiling have as many indices as the range. -/
theorem weight_eq (h : Tiles lo hi top bs) : weight bs = hi - lo := by
  have hone : ∑ p ∈ Finset.Ico lo hi, bs.countP (Block.Covers · p) = hi - lo := by
    rw [Finset.sum_const_nat fun p hp => h.once p (Finset.mem_Ico.mp hp).1 (Finset.mem_Ico.mp hp).2,
      Nat.card_Ico, Nat.mul_one]
  rw [← hone, sum_countP, weight]
  exact congrArg Multiset.sum (Multiset.map_congr rfl fun b hb => (h.card_covers hb).symm)

/-- Split a block into its halves. -/
theorem split {i o : Nat} (h : Tiles lo hi top (⟨i, o + 1⟩ ::ₘ bs)) :
    Tiles lo hi top (⟨i, o⟩ ::ₘ ⟨i + 2 ^ o, o⟩ ::ₘ bs) where
  aligned b hb := by
    have hdvd : 2 ^ (o + 1) ∣ i := h.aligned _ (Multiset.mem_cons_self _ _)
    have hhalf : 2 ^ o ∣ i := (Nat.pow_dvd_pow 2 (Nat.le_succ o)).trans hdvd
    rcases Multiset.mem_cons.mp hb with rfl | hb
    · exact hhalf
    rcases Multiset.mem_cons.mp hb with rfl | hb
    · exact (Nat.dvd_add_right hhalf).mpr (Nat.dvd_refl _)
    · exact h.aligned b (Multiset.mem_cons_of_mem hb)
  inside b hb := by
    obtain ⟨htop, hlo, hhi⟩ := h.inside _ (Multiset.mem_cons_self _ _)
    simp only [Nat.pow_succ] at htop hlo hhi
    rcases Multiset.mem_cons.mp hb with rfl | hb
    · exact ⟨by simp only; omega, hlo, by simp only; omega⟩
    rcases Multiset.mem_cons.mp hb with rfl | hb
    · exact ⟨by simp only; omega, by simp only; omega, by simp only; omega⟩
    · exact h.inside b (Multiset.mem_cons_of_mem hb)
  once p hlo hhi := by
    have honce := h.once p hlo hhi
    -- A point of the block is in one of the halves, and in no more than one.
    have hcovers := Block.covers_succ i o p
    have hnot := Block.not_covers_both i o p
    simp only [Multiset.countP_cons] at honce ⊢
    by_cases h₁ : (Block.mk i o).Covers p
    · have h₂ : ¬(Block.mk (i + 2 ^ o) o).Covers p := fun h₂ => hnot ⟨h₁, h₂⟩
      simpa [h₁, h₂, hcovers] using honce
    · by_cases h₂ : (Block.mk (i + 2 ^ o) o).Covers p <;>
        simpa [h₁, h₂, hcovers] using honce

/-- Merge two buddies into the block that they are the halves of. -/
theorem merge {i o : Nat} (h : Tiles lo hi top (⟨i, o⟩ ::ₘ ⟨i + 2 ^ o, o⟩ ::ₘ bs))
    (hdvd : 2 ^ (o + 1) ∣ i) (htop : o + 1 ≤ top) :
    Tiles lo hi top (⟨i, o + 1⟩ ::ₘ bs) where
  aligned b hb := by
    rcases Multiset.mem_cons.mp hb with rfl | hb
    · exact hdvd
    · exact h.aligned b (Multiset.mem_cons_of_mem (Multiset.mem_cons_of_mem hb))
  inside b hb := by
    rcases Multiset.mem_cons.mp hb with rfl | hb
    · obtain ⟨-, hlo, -⟩ := h.inside _ (Multiset.mem_cons_self _ _)
      obtain ⟨-, -, hhi⟩ := h.inside _ (Multiset.mem_cons_of_mem (Multiset.mem_cons_self _ _))
      simp only at hlo hhi
      refine ⟨htop, hlo, ?_⟩
      simp only [Nat.pow_succ]
      omega
    · exact h.inside b (Multiset.mem_cons_of_mem (Multiset.mem_cons_of_mem hb))
  once p hlo hhi := by
    have honce := h.once p hlo hhi
    have hcovers := Block.covers_succ i o p
    simp only [Multiset.countP_cons] at honce ⊢
    by_cases h₁ : (Block.mk i o).Covers p
    · by_cases h₂ : (Block.mk (i + 2 ^ o) o).Covers p <;>
        simp only [h₁, h₂, hcovers, if_true, if_false, or_true, true_or] at honce ⊢ <;> omega
    · by_cases h₂ : (Block.mk (i + 2 ^ o) o).Covers p <;>
        simp only [h₁, h₂, hcovers, if_true, if_false, or_true, or_self] at honce ⊢ <;> omega

/-- A multiple of `u` that is not behind an interval of one unit is not behind its start. -/
theorem le_of_dvd_of_lt_add {u a b : Nat} (ha : u ∣ a) (hb : u ∣ b) (h : a < b + u) : a ≤ b := by
  obtain ⟨m, rfl⟩ := ha
  obtain ⟨n, rfl⟩ := hb
  by_contra hlt
  have hmn : n < m := Nat.lt_of_mul_lt_mul_left (show u * n < u * m by omega)
  have hmul := Nat.mul_le_mul_left u (show n + 1 ≤ m from hmn)
  rw [Nat.mul_succ] at hmul
  omega

/-- An aligned block that meets the range lies in it, when the ends are aligned too. -/
theorem range_of_covers {u lo hi i p : Nat} (hlo : u ∣ lo) (hhi : u ∣ hi) (hi' : u ∣ i)
    (hp : lo ≤ p ∧ p < hi) (hcov : i ≤ p ∧ p < i + u) : lo ≤ i ∧ i + u ≤ hi := by
  constructor
  · exact le_of_dvd_of_lt_add hlo hi' (by omega)
  · have hend : u ∣ i + u := (Nat.dvd_add_right hi').mpr (Nat.dvd_refl u)
    exact le_of_dvd_of_lt_add hend hhi (by omega)

/-- A tiling without two buddies below the top order has blocks of the top order only. -/
theorem order_eq_top (h : Tiles lo hi top bs) (hlo : 2 ^ top ∣ lo) (hhi : 2 ^ top ∣ hi)
    (hbuddy : ∀ i o, o < top → 2 ^ (o + 1) ∣ i → ¬(⟨i, o⟩ ∈ bs ∧ ⟨i + 2 ^ o, o⟩ ∈ bs)) :
    ∀ b ∈ bs, b.order = top := by
  by_contra hlow
  -- take a block of the least order: the block of its buddy has the same order
  have hex : ∃ o, ∃ b ∈ bs, b.order = o ∧ o < top := by
    simp only [not_forall] at hlow
    obtain ⟨b, hb, hne⟩ := hlow
    exact ⟨b.order, b, hb, rfl, by have := (h.inside b hb).1; omega⟩
  classical
  obtain ⟨⟨i, o⟩, hb, hbo, hlt⟩ := Nat.find_spec hex
  simp only at hbo
  have hleast : ∀ c ∈ bs, o ≤ c.order := by
    intro c hc
    have hctop := (h.inside c hc).1
    by_contra hco
    exact Nat.find_min hex (m := c.order) (by omega) ⟨c, hc, rfl, by omega⟩
  rw [← hbo] at hlt
  have hdvd := h.aligned _ hb
  have hrange := h.covers_range hb (Block.covers_idx _)
  simp only at hdvd hrange
  have htopdvd : 2 ^ (o + 1) ∣ 2 ^ top := Nat.pow_dvd_pow 2 hlt
  have hsucc : 2 ^ (o + 1) = 2 ^ o + 2 ^ o := by rw [Nat.pow_succ]; omega
  have hpos := Nat.two_pow_pos o
  -- `base` is the block of both buddies, and `j` is the buddy of `i`
  have hcover : ∀ base j, 2 ^ (o + 1) ∣ base → 2 ^ o ∣ j → base ≤ i → i < base + 2 ^ (o + 1) →
      base ≤ j → j < base + 2 ^ (o + 1) → i ≠ j → Block.mk j o ∈ bs := by
    intro base j hbase hj hbi hib hbj hjb hne
    obtain ⟨hlo', hhi'⟩ := range_of_covers (htopdvd.trans hlo) (htopdvd.trans hhi) hbase hrange
      ⟨hbi, hib⟩
    obtain ⟨c, hc, hcj⟩ := h.exists_covers (p := j) (by omega) (by omega)
    rcases Nat.eq_or_lt_of_le (hleast c hc) with heq | hgt
    · have hcdvd := h.aligned c hc
      rw [← heq] at hcdvd
      obtain ⟨hcj₁, hcj₂⟩ := hcj
      rw [← heq] at hcj₂
      have hidx : c.idx = j := Nat.le_antisymm hcj₁ (le_of_dvd_of_lt_add hj hcdvd hcj₂)
      rw [← hidx, heq]
      exact hc
    · have hci : c.Covers i := Block.covers_of_order_le (b := ⟨base, o + 1⟩) hbase
        (h.aligned c hc) hgt ⟨hbj, hjb⟩ hcj ⟨hbi, hib⟩
      have hsame : c ≠ ⟨i, o⟩ := by
        rintro rfl
        exact Nat.lt_irrefl _ hgt
      exact absurd (Block.covers_idx ⟨i, o⟩) (h.disjoint hc hb hsame hci)
  rcases half_cases hdvd with hlower | ⟨base, hbase, rfl⟩
  · refine hbuddy i o hlt hlower ⟨hb, ?_⟩
    exact hcover i (i + 2 ^ o) hlower ((Nat.dvd_add_right hdvd).mpr (Nat.dvd_refl _))
      (Nat.le_refl _) (by omega) (by omega) (by omega) (by omega)
  · refine hbuddy base o hlt hbase ⟨?_, hb⟩
    exact hcover base base hbase ((Nat.pow_dvd_pow 2 (Nat.le_succ o)).trans hbase) (by omega)
      (by omega) (Nat.le_refl _) (by omega) (by omega)

/-- A tiling by blocks of the top order has every aligned one. -/
theorem mem_iff_of_order_eq_top (h : Tiles lo hi top bs) (htop : ∀ b ∈ bs, b.order = top)
    (i : Nat) :
    ⟨i, top⟩ ∈ bs ↔ 2 ^ top ∣ i ∧ lo ≤ i ∧ i < hi := by
  constructor
  · intro hb
    have hrange := h.covers_range hb (Block.covers_idx _)
    exact ⟨h.aligned _ hb, hrange⟩
  · rintro ⟨hdvd, hlo', hhi'⟩
    obtain ⟨c, hc, hci⟩ := h.exists_covers hlo' hhi'
    have hcdvd := h.aligned c hc
    obtain ⟨h₁, h₂⟩ := hci
    rw [htop c hc] at hcdvd h₂
    have hidx : c.idx = i := Nat.le_antisymm h₁ (le_of_dvd_of_lt_add hdvd hcdvd h₂)
    rw [← hidx, ← htop c hc]
    exact hc

/-- Two tilings, one behind the other. -/
theorem append {mid : Nat} {cs : Multiset Block} (hb : Tiles lo mid top bs)
    (hc : Tiles mid hi top cs) (hlo : lo ≤ mid) (hhi : mid ≤ hi) :
    Tiles lo hi top (bs + cs) where
  aligned b hmem := (Multiset.mem_add.mp hmem).elim (hb.aligned b) (hc.aligned b)
  inside b hmem := by
    rcases Multiset.mem_add.mp hmem with hmem | hmem
    · obtain ⟨htop, h₁, h₂⟩ := hb.inside b hmem
      exact ⟨htop, h₁, h₂.trans hhi⟩
    · obtain ⟨htop, h₁, h₂⟩ := hc.inside b hmem
      exact ⟨htop, hlo.trans h₁, h₂⟩
  once p h₁ h₂ := by
    rw [Multiset.countP_add]
    rcases Nat.lt_or_ge p mid with hlt | hge
    · have hzero : cs.countP (Block.Covers · p) = 0 := Multiset.countP_eq_zero.mpr
        fun c hmem hcov => absurd (hc.covers_range hmem hcov).1 (Nat.not_le.mpr hlt)
      rw [hb.once p h₁ hlt, hzero]
    · have hzero : bs.countP (Block.Covers · p) = 0 := Multiset.countP_eq_zero.mpr
        fun b hmem hcov => absurd (hb.covers_range hmem hcov).2 (Nat.not_lt.mpr hge)
      rw [hc.once p hge h₂, hzero]

/-- One block is a tiling of what it covers. -/
theorem single (h : 2 ^ top ∣ lo) : Tiles lo (lo + 2 ^ top) top {⟨lo, top⟩} where
  aligned b hb := by
    obtain rfl := Multiset.mem_singleton.mp hb
    exact h
  inside b hb := by
    obtain rfl := Multiset.mem_singleton.mp hb
    exact ⟨Nat.le_refl _, Nat.le_refl _, Nat.le_refl _⟩
  once p h₁ h₂ := by
    have hcov : (Block.mk lo top).Covers p := ⟨h₁, h₂⟩
    rw [← Multiset.cons_zero, Multiset.countP_cons, if_pos hcov, Multiset.countP_zero]

theorem empty (lo top : Nat) : Tiles lo lo top 0 where
  aligned _ hb := absurd hb (Multiset.notMem_zero _)
  inside _ hb := absurd hb (Multiset.notMem_zero _)
  once p h₁ h₂ := by omega

/-- The coarsest tiling: the blocks `s .. s + n - 1` of the top order. -/
theorem ofRange (s n top : Nat) :
    Tiles (2 ^ top * s) (2 ^ top * (s + n)) top
      ((List.range' s n).map fun k => Block.mk (2 ^ top * k) top) := by
  induction n with
  | zero => exact empty _ _
  | succ n ih =>
      rw [List.range'_1_concat, List.map_append, ← Multiset.coe_add]
      have hlast : 2 ^ top * (s + (n + 1)) = 2 ^ top * (s + n) + 2 ^ top := by
        rw [← Nat.add_assoc, Nat.mul_succ]
      rw [hlast]
      refine ih.append (single (Dvd.intro _ rfl)) ?_ (Nat.le_add_right _ _)
      exact Nat.mul_le_mul_left _ (Nat.le_add_right s n)

end Tiles

end Fizzos.Support
