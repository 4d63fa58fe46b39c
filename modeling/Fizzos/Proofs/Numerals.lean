import Fizzos.Lib.Fizzlib
import Mathlib.Data.Nat.Digits.Lemmas

/-!
# `Fizzos.Proofs.Numerals`: what `itoa` and `uitoa` write

The first loop counts the digits of the value, so the second loop ends at the first character:
`storeValue` writes the digits of the absolute value and nothing else (`storeValue_wrote`). For a
negative value each remainder is negative, and its character is in front of `'0'`. This happens for
the least `int32_t` only, which `itoa` cannot negate (`itoa_wrote`).
-/

set_option autoImplicit false

namespace Fizzos.Proofs

open Fizzos.Lib
open Fizzos.Support

/-- The characters for the digits of `n`, from the first one on. `sign` is the sign of the value. -/
def digitText (sign : Int) (radix n : Nat) : List (BitVec 8) :=
  if n = 0 then [0x30] else (Nat.digits radix n).reverse.map fun d : Nat => digitChar (sign * d)

/-- The numeral of a number. -/
def signedText (radix : Nat) (v : Int) : List (BitVec 8) :=
  if v < 0 then 0x2d :: digitText 1 radix v.natAbs else digitText 1 radix v.natAbs

/-- The least `int32_t`. -/
def INT_MIN : Int := -2 ^ 31

/-- What `itoa` writes. -/
def itoaText (radix : Nat) (v : Int) : List (BitVec 8) :=
  if v = INT_MIN then 0x2d :: digitText (-1) radix v.natAbs else signedText radix v

/-! ### The loops -/

section
variable {radix n fuel : Nat} {sign : Int} {m : CharMem}

/-- A digit, and the value behind the division. -/
theorem sign_divMod (hsign : sign = 1 ∨ sign = -1) (n radix : Nat) :
    (sign * n).tmod radix = sign * (n % radix : Nat) ∧
      (sign * n).tdiv radix = sign * (n / radix : Nat) := by
  rcases hsign with rfl | rfl
  · simp only [one_mul]
    exact ⟨(Int.natCast_mod n radix).symm ▸ Int.tmod_eq_emod_of_nonneg (Int.natCast_nonneg n),
      Int.ofNat_tdiv n radix⟩
  · simp only [neg_one_mul]
    exact ⟨by rw [Int.neg_tmod, Int.tmod_eq_emod_of_nonneg (Int.natCast_nonneg n), Int.natCast_mod],
      by rw [Int.neg_tdiv, Int.ofNat_tdiv]⟩

theorem sign_mul_eq_zero (hsign : sign = 1 ∨ sign = -1) : sign * n = 0 ↔ n = 0 := by
  rcases hsign with rfl | rfl <;> simp

/-- The first loop counts the digits. -/
theorem countDigits_eq (hsign : sign = 1 ∨ sign = -1) (hradix : 1 < radix)
    (hfuel : (Nat.digits radix n).length ≤ fuel) :
    countDigits radix fuel (sign * n) = .ok (Nat.digits radix n).length := by
  induction fuel generalizing n with
  | zero =>
      have hnil : Nat.digits radix n = [] := List.eq_nil_of_length_eq_zero (Nat.le_zero.mp hfuel)
      have hzero : sign * (n : Int) = 0 :=
        (sign_mul_eq_zero hsign).mpr (Nat.digits_eq_nil_iff_eq_zero.mp hnil)
      rw [countDigits, if_pos hzero, hnil]
      rfl
  | succ fuel ih =>
      by_cases hn : n = 0
      · subst hn
        rw [countDigits, if_pos ((sign_mul_eq_zero hsign).mpr rfl), Nat.digits_zero]
        rfl
      · have hdigits := Nat.digits_def' hradix (Nat.pos_of_ne_zero hn)
        rw [hdigits, List.length_cons] at hfuel ⊢
        rw [countDigits, if_neg (fun h => hn ((sign_mul_eq_zero hsign).mp h))]
        simp only [(sign_divMod hsign n radix).2, ih (Nat.le_of_succ_le_succ hfuel), ok_bind]
        rfl

/-- The second loop stores the digits. -/
theorem storeDigits_wrote (hsign : sign = 1 ∨ sign = -1) (hradix : 1 < radix) (dest : Int)
    (m : CharMem) (hfuel : (Nat.digits radix n).length ≤ fuel) :
    ∃ m', storeDigits radix dest fuel (Nat.digits radix n).length (sign * n) m = .ok m' ∧
      Stored.Wrote m m' dest
        ((Nat.digits radix n).reverse.map fun d : Nat => digitChar (sign * d)) := by
  induction fuel generalizing n m with
  | zero =>
      have hnil : Nat.digits radix n = [] := List.eq_nil_of_length_eq_zero (Nat.le_zero.mp hfuel)
      have hzero : sign * (n : Int) = 0 :=
        (sign_mul_eq_zero hsign).mpr (Nat.digits_eq_nil_iff_eq_zero.mp hnil)
      rw [storeDigits, if_pos hzero, hnil]
      exact ⟨m, rfl, Stored.Wrote.nil m dest⟩
  | succ fuel ih =>
      by_cases hn : n = 0
      · subst hn
        rw [storeDigits, if_pos ((sign_mul_eq_zero hsign).mpr rfl), Nat.digits_zero]
        exact ⟨m, rfl, Stored.Wrote.nil m dest⟩
      · have hdigits := Nat.digits_def' hradix (Nat.pos_of_ne_zero hn)
        rw [hdigits, List.length_cons] at hfuel ⊢
        obtain ⟨hmod, hdiv⟩ := sign_divMod hsign n radix
        rw [storeDigits, if_neg (fun h => hn ((sign_mul_eq_zero hsign).mp h))]
        have hidx : (((Nat.digits radix (n / radix)).length + 1 : Nat) : Int) - 1 =
            (Nat.digits radix (n / radix)).length := by omega
        simp only [hmod, hdiv, hidx]
        obtain ⟨m', hok, hwrote⟩ := ih (m.store (dest + (Nat.digits radix (n / radix)).length)
          (digitChar (sign * (n % radix : Nat)))) (Nat.le_of_succ_le_succ hfuel)
        refine ⟨m', hok, ?_⟩
        -- the last digit is stored first, and the others in front of it
        rw [List.reverse_cons, List.map_append, List.map_singleton]
        refine Stored.Wrote.prepend ?_ hwrote
        rw [List.length_map, List.length_reverse]
        exact Stored.Wrote.store m _ _

/-- A 32-bit value has at most 32 digits. -/
theorem length_digits_le (hradix : 1 < radix) (hn : n < 2 ^ 32) :
    (Nat.digits radix n).length ≤ 32 := by
  rw [Nat.digits_length_le_iff hradix]
  exact Nat.lt_of_lt_of_le hn (Nat.pow_le_pow_left hradix 32)

theorem length_digitText (hn : n ≠ 0) :
    (digitText sign radix n).length = (Nat.digits radix n).length := by
  rw [digitText, if_neg hn, List.length_map, List.length_reverse]

theorem digitText_length (sign : Int) (hradix : 1 < radix) (hn : n < 2 ^ 32) :
    0 < (digitText sign radix n).length ∧ (digitText sign radix n).length ≤ 32 := by
  by_cases hzero : n = 0
  · rw [digitText, if_pos hzero]
    exact ⟨Nat.one_pos, by decide⟩
  · rw [length_digitText hzero]
    exact ⟨List.length_pos_iff.mpr (Nat.digits_ne_nil_iff_ne_zero.mpr hzero),
      length_digits_le hradix hn⟩

/-- What `itoa` and `uitoa` have in common writes the digits. -/
theorem storeValue_wrote (hsign : sign = 1 ∨ sign = -1) (hradix : 1 < radix) (hn : n < 2 ^ 32)
    (m : CharMem) (dest count : Int) (hcount : n = 0 → count = 0) :
    ∃ m', storeValue m (sign * n) dest radix count =
        .ok (count + (digitText sign radix n).length, m') ∧
      Stored.Wrote m m' dest (digitText sign radix n) := by
  by_cases hzero : n = 0
  · -- 0 has a branch of its own, and no sign in front
    subst hzero
    rw [storeValue, if_pos ((sign_mul_eq_zero hsign).mpr rfl), hcount rfl]
    exact ⟨_, rfl, Stored.Wrote.store m dest _⟩
  · have hlen := length_digits_le hradix hn
    obtain ⟨m', hok, hwrote⟩ := storeDigits_wrote hsign hradix dest m hlen
    rw [storeValue, if_neg (fun h => hzero ((sign_mul_eq_zero hsign).mp h)),
      countDigits_eq hsign hradix hlen, ok_bind, hok, length_digitText hzero, digitText,
      if_neg hzero]
    exact ⟨m', rfl, hwrote⟩

end

/-! ### The functions -/

section
variable {radix : Nat} {v : Int}

theorem itoaText_length (hradix : 1 < radix) (hlo : INT_MIN ≤ v) (hhi : v < 2 ^ 31) :
    0 < (itoaText radix v).length ∧ (itoaText radix v).length ≤ 33 := by
  have hmin : INT_MIN = -2 ^ 31 := rfl
  have habs : v.natAbs < 2 ^ 32 := by omega
  have hlen (sign : Int) := digitText_length sign hradix habs
  unfold itoaText signedText
  split
  · exact ⟨Nat.succ_pos _, Nat.succ_le_succ (hlen (-1)).2⟩
  · split
    · exact ⟨Nat.succ_pos _, Nat.succ_le_succ (hlen 1).2⟩
    · exact ⟨(hlen 1).1, Nat.le_succ_of_le (hlen 1).2⟩

/-- `uitoa` writes the numeral. -/
theorem uitoa_wrote (hradix : 1 < radix) {n : Nat} (hn : n < 2 ^ 32) (m : CharMem) (dest : Int) :
    ∃ m', uitoa m n dest radix = .ok ((digitText 1 radix n).length, m') ∧
      Stored.Wrote m m' dest (digitText 1 radix n) := by
  obtain ⟨m', hok, hwrote⟩ := storeValue_wrote (.inl rfl) hradix hn m dest 0 fun _ => rfl
  rw [one_mul, zero_add] at hok
  exact ⟨m', hok, hwrote⟩

/-- `itoa` writes the numeral, but for the least value. -/
theorem itoa_wrote (hradix : 1 < radix) (hlo : INT_MIN ≤ v) (hhi : v < 2 ^ 31) (m : CharMem)
    (dest : Int) : ∃ m', itoa m v dest radix = .ok ((itoaText radix v).length, m') ∧
      Stored.Wrote m m' dest (itoaText radix v) := by
  have hmin : INT_MIN = -2 ^ 31 := rfl
  have habs : v.natAbs < 2 ^ 32 := by omega
  by_cases hneg : v < 0
  · -- the value that is left behind the negation
    obtain ⟨sign, hsign, hvalue, htext⟩ : ∃ sign : Int, (sign = 1 ∨ sign = -1) ∧
        wrap32 (-v) = sign * v.natAbs ∧
          itoaText radix v = 0x2d :: digitText sign radix v.natAbs := by
      by_cases hleast : v = INT_MIN
      -- the least value is its own negation, and its digits are negative
      · exact ⟨-1, .inr rfl, by rw [hleast]; rfl, by rw [itoaText, if_pos hleast]⟩
      · exact ⟨1, .inl rfl, by rw [wrap32_eq (by omega) (by omega)]; omega,
          by rw [itoaText, if_neg hleast, signedText, if_pos hneg]⟩
    obtain ⟨m', hok, hwrote⟩ := storeValue_wrote hsign hradix habs (m.store dest 0x2d) (dest + 1) 1
      fun hzero => by omega
    rw [itoa, if_pos hneg, hvalue, hok, htext]
    refine ⟨m', ?_, (Stored.Wrote.store m dest 0x2d).append hwrote⟩
    rw [List.length_cons, Nat.cast_succ, add_comm]
  · obtain ⟨m', hok, hwrote⟩ := storeValue_wrote (.inl rfl) hradix habs m dest 0 fun _ => rfl
    have hvalue : (1 : Int) * v.natAbs = v := by omega
    have htext : itoaText radix v = digitText 1 radix v.natAbs := by
      rw [itoaText, if_neg (by omega), signedText, if_neg hneg]
    rw [hvalue, zero_add] at hok
    rw [itoa, if_neg hneg, htext]
    exact ⟨m', hok, hwrote⟩

end

end Fizzos.Proofs
