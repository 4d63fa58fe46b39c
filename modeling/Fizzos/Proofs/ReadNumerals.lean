import Fizzos.Proofs.Numerals

/-!
# `Fizzos.Proofs.ReadNumerals`: the numerals of `itoa` and `uitoa` can be read back

`readNumeral` is the value of a text in a radix. A numeral is canonical when it has no zero in
front; each number has a canonical numeral, and `uitoa` writes it (`uitoa_reads_back`).

`itoa` cannot negate the least value. Its digits become negative then, and their characters are in
front of `'0'` (`itoa_right_iff`).
-/

set_option autoImplicit false

namespace Fizzos.Proofs

open Fizzos.Lib
open Fizzos.Support

/-- The digit of a character. The letters are lower-case ones. -/
def digitOf (c : BitVec 8) : Option Nat :=
  if 0x30 ≤ c.toNat ∧ c.toNat ≤ 0x39 then some (c.toNat - 0x30)
  else if 0x61 ≤ c.toNat ∧ c.toNat ≤ 0x7a then some (c.toNat - 0x61 + 10)
  else none

/-- One more character of a numeral, behind the value `v`. -/
def readDigit (radix v : Nat) (c : BitVec 8) : Option Nat := do
  let d ← digitOf c
  if d < radix then some (radix * v + d) else none

/-- The value of a text, if all of its characters are digits in this radix. -/
def readNumeral (radix : Nat) (text : List (BitVec 8)) : Option Nat :=
  text.foldlM (readDigit radix) 0

/-- `text` is the canonical numeral of `n`. -/
structure Canonical (radix : Nat) (text : List (BitVec 8)) (n : Nat) : Prop where
  value : readNumeral radix text = some n
  nonempty : text ≠ []
  leading : text.head? = some 0x30 → text = [0x30]

/-- The numeral of a signed number has a `'-'` in front when the number is negative. -/
def SignedCanonical (radix : Nat) (text : List (BitVec 8)) (v : Int) : Prop :=
  if v < 0 then ∃ digits, text = 0x2d :: digits ∧ Canonical radix digits v.natAbs
  else Canonical radix text v.natAbs

section
variable {radix n d v : Nat} {text digits : List (BitVec 8)}

/-- The character of a digit. -/
theorem digitChar_toNat (hd : d < 36) :
    (digitChar (1 * d)).toNat = if d < 10 then d + 0x30 else d + 0x57 := by
  rw [one_mul, digitChar]
  split
  · rw [if_neg (by omega), BitVec.toNat_ofInt]
    omega
  · rw [if_pos (by omega), BitVec.toNat_ofInt]
    omega

/-- The character of a digit is this digit. -/
theorem digitOf_digitChar (hd : d < 36) : digitOf (digitChar (1 * d)) = some d := by
  rw [digitOf, digitChar_toNat hd]
  by_cases hten : d < 10
  · rw [if_pos hten, if_pos (by omega), Nat.add_sub_cancel]
  · rw [if_neg hten, if_neg (by omega), if_pos (by omega)]
    exact congrArg some (by omega)

/-- The character of a negative digit is none. -/
theorem digitOf_neg (hpos : 0 < d) (hd : d < 36) : digitOf (digitChar (-1 * d)) = none := by
  -- `'0' - d` is below `'0'`, and too large to wrap around.
  have hchar : (digitChar (-1 * d)).toNat = 0x30 - d := by
    rw [digitChar, if_neg (by omega), BitVec.toNat_ofInt]
    omega
  rw [digitOf, hchar, if_neg (by omega), if_neg (by omega)]

/-- A list of digits, the last one first, is read back. -/
theorem readNumeral_digits (hradix : radix ≤ 36) {ds : List Nat} (hds : ∀ d ∈ ds, d < radix) :
    readNumeral radix (ds.reverse.map fun d : Nat => digitChar (1 * d))
      = some (Nat.ofDigits radix ds) := by
  induction ds with
  | nil => rfl
  | cons d ds ih =>
      have hd := hds d List.mem_cons_self
      -- The first digit of the list is the last character, which is read behind all others.
      have hprefix := ih fun e he => hds e (List.mem_cons_of_mem d he)
      rw [readNumeral] at hprefix ⊢
      rw [List.reverse_cons, List.map_append, List.foldlM_append, hprefix, Nat.ofDigits_cons,
        add_comm]
      simp only [List.map_cons, List.map_nil, Option.bind_eq_bind, Option.bind_some,
        List.foldlM_cons, List.foldlM_nil, readDigit, digitOf_digitChar (by omega : d < 36),
        if_pos hd]
      rfl

/-- The numeral of a positive number starts with a digit that is not zero. -/
theorem digitText_cons (sign : Int) (hradix : 1 < radix) (hn : n ≠ 0) :
    ∃ d rest, 0 < d ∧ d < radix ∧
      digitText sign radix n = digitChar (sign * (d : Nat)) :: rest := by
  have hne : Nat.digits radix n ≠ [] := Nat.digits_ne_nil_iff_ne_zero.mpr hn
  have hreverse : (Nat.digits radix n).reverse
      = (Nat.digits radix n).getLast hne :: (Nat.digits radix n).dropLast.reverse := by
    rw [← List.reverse_concat, List.dropLast_append_getLast hne]
  refine ⟨(Nat.digits radix n).getLast hne,
    (Nat.digits radix n).dropLast.reverse.map fun d : Nat => digitChar (sign * d),
    Nat.pos_of_ne_zero (Nat.getLast_digit_ne_zero radix hn),
    Nat.digits_lt_base hradix (List.getLast_mem hne), ?_⟩
  rw [digitText, if_neg hn, hreverse, List.map_cons]

/-- `digitText` is the canonical numeral. -/
theorem digitText_canonical (hlo : 1 < radix) (hhi : radix ≤ 36) (n : Nat) :
    Canonical radix (digitText 1 radix n) n := by
  by_cases hn : n = 0
  · subst hn
    rw [digitText, if_pos rfl]
    refine ⟨?_, List.cons_ne_nil _ _, fun _ => rfl⟩
    have hdigit : digitOf 0x30 = some 0 := rfl
    rw [readNumeral, List.foldlM_cons, readDigit, hdigit]
    simp [show 0 < radix by omega]
  · obtain ⟨d, rest, hpos, hd, hcons⟩ := digitText_cons 1 hlo hn
    refine ⟨?_, by rw [hcons]; exact List.cons_ne_nil _ _, fun hzero => ?_⟩
    · rw [digitText, if_neg hn, readNumeral_digits hhi fun d => Nat.digits_lt_base hlo,
        Nat.ofDigits_digits]
    · -- the first character stands for a digit that is not zero
      rw [hcons, List.head?_cons, Option.some.injEq] at hzero
      have hdigit := digitOf_digitChar (by omega : d < 36)
      rw [hzero] at hdigit
      exact absurd (Option.some.inj hdigit) (Nat.ne_of_lt hpos)

/-- The negative digits cannot be read. -/
theorem readNumeral_negative (hlo : 1 < radix) (hhi : radix ≤ 36) (hn : n ≠ 0) :
    readNumeral radix (digitText (-1) radix n) = none := by
  obtain ⟨d, rest, hpos, hd, hcons⟩ := digitText_cons (-1) hlo hn
  rw [hcons, readNumeral, List.foldlM_cons, readDigit, digitOf_neg hpos (by omega)]
  rfl

end

/-- `uitoa` writes the canonical numeral of every value in every radix from 2 to 36, and nothing
else. The digits come out last one first, and the second loop turns them around. -/
theorem uitoa_reads_back (value : BitVec 32) (radix : Nat) (hlo : 2 ≤ radix) (hhi : radix ≤ 36)
    (m : CharMem) (dest : Int) :
    ∃ text m', Canonical radix text value.toNat ∧
      uitoa m value.toNat dest radix = .ok (text.length, m') ∧ Stored.Wrote m m' dest text := by
  obtain ⟨m', hok, hwrote⟩ := uitoa_wrote hlo value.isLt m dest
  exact ⟨_, m', digitText_canonical hlo hhi _, hok, hwrote⟩

/-- 255 in radix 16. -/
theorem uitoa_reads_back_ff :
    ∃ text m', Canonical 16 text 255 ∧
      uitoa ⟨fun _ => 0, []⟩ 255 0 16 = .ok (text.length, m') ∧
      Stored.Wrote ⟨fun _ => 0, []⟩ m' 0 text :=
  uitoa_reads_back 255 16 (by decide) (by decide) _ 0

/-- What `itoa` is to write for a value. -/
def ItoaRight (value : BitVec 32) (radix : Nat) (m : CharMem) (dest : Int) : Prop :=
  ∃ text m', SignedCanonical radix text value.toInt ∧
    itoa m value.toInt dest radix = .ok (text.length, m') ∧ Stored.Wrote m m' dest text

/-- The digits of the least value are negative ones. -/
theorem not_itoaRight {value : BitVec 32} {radix : Nat} (hlo : 2 ≤ radix) (hhi : radix ≤ 36)
    (m : CharMem) (dest : Int) (hleast : value.toInt = INT_MIN) :
    ¬ ItoaRight value radix m dest := by
  rintro ⟨text, m'', hcanonical, hok', hwrote'⟩
  rw [hleast] at hcanonical hok'
  obtain ⟨m', hok, hwrote⟩ := itoa_wrote hlo (Int.le_refl INT_MIN) (by decide) m dest
  rw [hok, Except.ok.injEq, Prod.mk.injEq, Nat.cast_inj] at hok'
  obtain ⟨hlen, rfl⟩ := hok'
  obtain rfl := hwrote.unique hwrote' hlen
  -- the text behind the sign cannot be read
  rw [itoaText, if_pos rfl, SignedCanonical, if_pos (by decide)] at hcanonical
  obtain ⟨digits, htext, hdigits⟩ := hcanonical
  obtain rfl := (List.cons.inj htext).2
  have hnone := readNumeral_negative hlo hhi (by decide : INT_MIN.natAbs ≠ 0)
  exact absurd (hnone.symm.trans hdigits.value) (by simp)

/-- `itoa` writes a minus and the numeral of the absolute value, for every value but the least one.
This one is its own negative in 32 bits, so `uitoa` gets no digit of it right. -/
theorem itoa_right_iff (value : BitVec 32) (radix : Nat) (hlo : 2 ≤ radix) (hhi : radix ≤ 36)
    (m : CharMem) (dest : Int) : ItoaRight value radix m dest ↔ value.toInt ≠ INT_MIN := by
  refine ⟨fun hright hleast => not_itoaRight hlo hhi m dest hleast hright, fun hleast => ?_⟩
  have hmin : INT_MIN ≤ value.toInt := BitVec.le_toInt value
  obtain ⟨m', hok, hwrote⟩ := itoa_wrote hlo hmin (BitVec.toInt_lt (x := value)) m dest
  refine ⟨itoaText radix value.toInt, m', ?_, hok, hwrote⟩
  rw [itoaText, if_neg hleast, signedText, SignedCanonical]
  split
  · exact ⟨_, rfl, digitText_canonical hlo hhi _⟩
  · exact digitText_canonical hlo hhi _

/-- -255 in radix 16. -/
theorem itoa_right_iff_ff :
    ItoaRight (-255) 16 ⟨fun _ => 0, []⟩ 0 ↔ (-255 : BitVec 32).toInt ≠ INT_MIN :=
  itoa_right_iff (-255) 16 (by decide) (by decide) _ 0

/-- The least value in radix 10. Its negative is the same value, so each digit is added to `'0'`
with a minus in front. -/
theorem itoa_wrong_least : ¬ ItoaRight (BitVec.intMin 32) 10 ⟨fun _ => 0, []⟩ 0 :=
  not_itoaRight (by decide) (by decide) _ 0 (by decide)

end Fizzos.Proofs
