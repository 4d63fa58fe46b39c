import Fizzos.LibKernel.Printk
import Fizzos.Proofs.Numerals

/-!
# `Fizzos.Proofs.Printk`: how far `vsnprint` writes

A format string is a list of pieces. `vsnprint` looks at `size` in front of a piece only, and at 500
behind a conversion. It stores a whole piece, and a `%s` also a `'\0'` behind it (`loop_piece`). A
string of 100 characters or more is stored, but `strlen` gives -1 for it: the next piece overwrites
the last character in front of the string.

`keptText` is the text that stands in front of `dest_idx` when all pieces fit, and there is none
when one of them does not. With a text, the loop writes it and stays in the buffer. Without one,
every end of the loop has left the buffer (`vsnprintLoop_keptText`). So the output is bounded
exactly when there is a text and it is the start of the full one (`vsnprint_bounded_iff`). Without
strings that are too long for `strlen`, this is a condition on lengths (`PiecesFit`).
-/

set_option autoImplicit false

namespace Fizzos.Proofs

open Fizzos.Lib
open Fizzos.LibKernel
open Fizzos.Support

/-! ### Formats -/

/-- The conversions. -/
inductive Conv
  | d
  | s
  | c
  | x

def Conv.letter : Conv → BitVec 8
  | .d => 0x64
  | .s => 0x73
  | .c => 0x63
  | .x => 0x78

/-- A plain character, or a conversion. -/
inductive Piece
  | plain (c : BitVec 8) (hc : c ≠ PERCENT ∧ c ≠ 0)
  | conv (k : Conv)

namespace Piece

/-- The characters of a piece in the format string. -/
def chars : Piece → List (BitVec 8)
  | plain c _ => [c]
  | conv k => [PERCENT, k.letter]

/-- The arguments that are read, behind a piece. -/
def next (ap : Nat) : Piece → Nat
  | plain _ _ => ap
  | conv _ => ap + 1

variable (va : VaList) (ap : Nat)

/-- The formatted text of a piece. -/
def text : Piece → List (BitVec 8)
  | plain c _ => [c]
  | conv .d => signedText 10 (va.word ap).toInt
  | conv .s => (va.str (va.word ap)).chars
  | conv .c => [(va.word ap).setWidth 8]
  | conv .x => digitText 1 16 (va.word ap).toNat

/-- The text that `vsnprint` has for a piece: `itoa` is wrong for the least number. -/
def shown (p : Piece) : List (BitVec 8) :=
  match p with
  | conv .d => itoaText 10 (va.word ap).toInt
  | p => p.text va ap

/-- The `%s` of a string that is too long for `strlen`. -/
def IsLong : Piece → Prop
  | conv .s => 100 ≤ (va.str (va.word ap)).chars.length
  | _ => False

instance (p : Piece) : Decidable (p.IsLong va ap) := by
  unfold IsLong
  split <;> infer_instance

/-- The text in front of `dest_idx` behind a piece. -/
def after (kept : List (BitVec 8)) (p : Piece) : List (BitVec 8) :=
  if p.IsLong va ap then kept.dropLast else kept ++ p.shown va ap

/-- `dest_idx` stays below this number. -/
def limit : Piece → Nat
  | plain _ _ => 2 ^ 31
  | conv _ => 500

/-- A piece fits behind a text: there is room for it, a character to take back if it is too long for
`strlen`, and `dest_idx` stays below its limit. -/
def Fits (size : Nat) (kept : List (BitVec 8)) (p : Piece) : Prop :=
  kept.length + (p.shown va ap).length ≤ size ∧ (p.IsLong va ap → kept ≠ []) ∧
    (p.after va ap kept).length < p.limit

instance (size : Nat) (kept : List (BitVec 8)) (p : Piece) : Decidable (p.Fits va ap size kept) :=
  inferInstanceAs (Decidable (_ ∧ _ ∧ _))

end Piece

/-- The format string of the pieces. -/
def formatOf (ps : List Piece) : List (BitVec 8) := ps.flatMap Piece.chars

/-- The full formatted text. -/
def fullText (va : VaList) : Nat → List Piece → List (BitVec 8)
  | _, [] => []
  | ap, p :: ps => p.text va ap ++ fullText va (p.next ap) ps

/-- The text in front of `dest_idx` at the end. The pieces behind `size` are not looked at. -/
def keptText (size : Nat) (va : VaList) :
    Nat → List (BitVec 8) → List Piece → Option (List (BitVec 8))
  | _, kept, [] => some kept
  | ap, kept, p :: ps =>
      if size ≤ kept.length then some kept
      else if p.Fits va ap size kept then keptText size va (p.next ap) (p.after va ap kept) ps
      else none

/-- All stores went to `dest[0..size]`. -/
def InBuffer (size : Nat) (m : CharMem) : Prop := m.InRange fun a : Int => 0 ≤ a ∧ a ≤ size

/-- `vsnprint` returns a number up to `size` and has written only to `dest[0..size]`: so many
characters of the full text, and a `'\0'`. -/
def Bounded (size : Nat) (va : VaList) (mem : Int → BitVec 8) (ps : List Piece) : Prop :=
  ∃ m t, vsnprint ⟨mem, []⟩ size (formatOf ps) va = .ok ((t.length : Int), m) ∧ t.length ≤ size ∧
    InBuffer size m ∧ m.mem t.length = 0 ∧ t <+: fullText va 0 ps ∧
    ∀ k (hk : k < t.length), m.mem k = t[k]

/-! ### One piece -/

section
variable {va : VaList} {size ap : Nat} {p : Piece} {s s' : PrintState} {rest : List (BitVec 8)}

/-- `strcpy` writes the characters and the `'\0'`. -/
theorem strcpyTo_wrote (m : CharMem) (off : Int) (chars : List (BitVec 8)) :
    Stored.Wrote m (strcpyTo m off chars) off (chars ++ [0]) := by
  induction chars generalizing m off with
  | nil => exact Stored.Wrote.store m off 0
  | cons c rest ih => exact (Stored.Wrote.store m off c).append (ih (m.store off c) (off + 1))

/-- What is stored for a piece. -/
def Piece.stored (va : VaList) (ap : Nat) (p : Piece) : List (BitVec 8) :=
  match p with
  | .conv .s => p.text va ap ++ [0]
  | p => p.shown va ap

/-- What is added to `dest_idx` for a piece. -/
def Piece.advance (va : VaList) (ap : Nat) (p : Piece) : Int :=
  match p with
  | .conv .s => strlen (va.str (va.word ap)).bytes
  | p => (p.shown va ap).length

/-- The `switch` finds the conversion. -/
theorem convert_wrote (va : VaList) (k : Conv) (s : PrintState) :
    ∃ m, Stored.Wrote s.dest m s.destIdx ((Piece.conv k).stored va s.ap) ∧
      convert va k.letter s = .ok { s with
        dest := m, destIdx := wrap32 (s.destIdx + (Piece.conv k).advance va s.ap)
        ap := s.ap + 1 } := by
  have hint := BitVec.le_toInt (va.word s.ap)
  have hint' := BitVec.toInt_lt (x := va.word s.ap)
  cases k with
  | d =>
      obtain ⟨m, hok, hwrote⟩ := itoa_wrote (show 1 < 10 by decide) hint hint' s.dest s.destIdx
      exact ⟨m, hwrote, congrArg (· >>= _) hok⟩
  | s => exact ⟨_, strcpyTo_wrote _ _ _, rfl⟩
  | c => exact ⟨_, Stored.Wrote.store _ _ _, rfl⟩
  | x =>
      obtain ⟨m, hok, hwrote⟩ :=
        uitoa_wrote (show 1 < 16 by decide) (va.word s.ap).isLt s.dest s.destIdx
      exact ⟨m, hwrote, congrArg (· >>= _) hok⟩

/-- The loop takes one piece. -/
theorem loop_piece (va : VaList) (hbelow : below s.destIdx size)
    (hflag : s.flag = false) (p : Piece) (rest : List (BitVec 8)) :
    ∃ m, Stored.Wrote s.dest m s.destIdx (p.stored va s.ap) ∧
      vsnprintLoop size va (p.chars ++ rest) s =
        if wrap32 (s.destIdx + p.advance va s.ap) < p.limit then
          vsnprintLoop size va rest
            ⟨m, wrap32 (s.destIdx + p.advance va s.ap), false, p.next s.ap⟩
        else PANIC := by
  cases p with
  | plain c hc =>
      refine ⟨_, Stored.Wrote.store _ _ c, ?_⟩
      have hlt := wrap32_lt (s.destIdx + 1)
      have hlimit : wrap32 (s.destIdx + 1) < ((2 ^ 31 : Nat) : Int) := hlt
      refine Eq.trans ?_ (if_pos hlimit).symm
      show vsnprintLoop size va (c :: rest) s = _
      rw [vsnprintLoop, if_pos hbelow, if_pos ⟨hc.1, hflag⟩, hflag]
      rfl
  | conv k =>
      obtain ⟨m, hwrote, hok⟩ := convert_wrote va k { s with flag := true }
      refine ⟨m, hwrote, ?_⟩
      have hletter : k.letter ≠ PERCENT := by cases k <;> decide
      show vsnprintLoop size va (PERCENT :: k.letter :: rest) s = _
      -- two turns: the `'%'` sets the flag, and the letter is the conversion
      rw [vsnprintLoop, if_pos hbelow, if_neg (fun h => h.1 rfl), if_pos rfl, vsnprintLoop,
        if_pos hbelow, if_neg (fun h => Bool.noConfusion h.2), if_neg hletter, ASSERT_true rfl,
        ok_bind, hok, ok_bind]
      exact (ite_not _ _ _).symm.trans (if_congr (by simp [Piece.limit]) rfl rfl)

/-- Behind `size` the loop ends. -/
theorem loop_stop {format : List (BitVec 8)} (hbelow : ¬below s.destIdx size) :
    vsnprintLoop size va format s = .ok s := by
  cases format with
  | nil => rfl
  | cons c format => rw [vsnprintLoop, if_neg hbelow]; rfl

/-- The text of a piece is stored, and at most one more character. -/
theorem stored_cases (va : VaList) (ap : Nat) (p : Piece) :
    p.stored va ap = p.shown va ap ++ [0] ∨
      p.stored va ap = p.shown va ap ∧ ¬p.IsLong va ap := by
  cases p with
  | plain c hc => exact .inr ⟨rfl, id⟩
  | conv k =>
      cases k with
      | s => exact .inl rfl
      | d => exact .inr ⟨rfl, id⟩
      | c => exact .inr ⟨rfl, id⟩
      | x => exact .inr ⟨rfl, id⟩

/-- Something is stored for each piece. -/
theorem stored_pos (va : VaList) (ap : Nat) (p : Piece) : 0 < (p.stored va ap).length := by
  cases p with
  | plain c hc => exact Nat.one_pos
  | conv k =>
      cases k with
      | s => exact List.length_append.symm ▸ Nat.succ_pos _
      | d => exact (itoaText_length (by decide) (BitVec.le_toInt _) BitVec.toInt_lt).1
      | c => exact Nat.one_pos
      | x => exact (digitText_length 1 (by decide) (va.word ap).isLt).1

/-- The length is added, but for a string that is too long for `strlen`. -/
theorem advance_cases (va : VaList) (ap : Nat) (p : Piece) :
    p.IsLong va ap ∧ p.advance va ap = 2 ^ 32 - 1 ∨
      ¬p.IsLong va ap ∧ p.advance va ap = (p.shown va ap).length ∧
        (p.shown va ap).length < 100 := by
  cases p with
  | plain c hc => exact .inr ⟨id, rfl, by show 1 < 100; decide⟩
  | conv k =>
      cases k with
      | s =>
          have hlen := strlen_eq (va.str (va.word ap))
          by_cases hlong : 100 ≤ (va.str (va.word ap)).chars.length
          · rw [if_neg (Nat.not_lt.mpr hlong)] at hlen
            exact .inl ⟨hlong, congrArg Nat.cast hlen⟩
          · rw [if_pos (Nat.not_le.mp hlong)] at hlen
            exact .inr ⟨hlong, congrArg Nat.cast hlen, Nat.not_le.mp hlong⟩
      | d =>
          have hlen := itoaText_length (show 1 < 10 by decide) (BitVec.le_toInt (va.word ap))
            BitVec.toInt_lt
          exact .inr ⟨id, rfl, Nat.lt_of_le_of_lt hlen.2 (by decide)⟩
      | c => exact .inr ⟨id, rfl, by show 1 < 100; decide⟩
      | x =>
          have hlen := digitText_length 1 (show 1 < 16 by decide) (va.word ap).isLt
          exact .inr ⟨id, rfl, Nat.lt_of_le_of_lt hlen.2 (by decide)⟩

end

/-! ### The loop -/

/-- The loop has kept a text and has stayed in the buffer. -/
structure Keeps (size : Nat) (kept : List (BitVec 8)) (s : PrintState) : Prop where
  idx : s.destIdx = kept.length
  room : kept.length ≤ size
  small : kept.length < 2 ^ 31
  flag : s.flag = false
  text : ∀ k (hk : k < kept.length), s.dest.mem k = kept[k]
  stores : InBuffer size s.dest

/-- The loop has left the buffer. -/
def LeftBuffer (size : Nat) (s : PrintState) : Prop :=
  s.destIdx < 0 ∨ size < s.destIdx ∨ ¬InBuffer size s.dest

section
variable {va : VaList} {size : Nat} {p : Piece} {ps : List Piece} {s s' : PrintState}
  {kept : List (BitVec 8)} {m : CharMem}

/-- The start of the loop. -/
theorem Keeps.start (size : Nat) (mem : Int → BitVec 8) :
    Keeps size [] ⟨⟨mem, []⟩, 0, false, 0⟩ where
  idx := rfl
  room := Nat.zero_le _
  small := by decide
  flag := rfl
  text k hk := absurd hk (Nat.not_lt_zero k)
  stores a ha := absurd ha List.not_mem_nil

theorem after_of_long {ap : Nat} (h : p.IsLong va ap) :
    p.after va ap kept = kept.dropLast := if_pos h

theorem after_of_not_long {ap : Nat} (h : ¬p.IsLong va ap) :
    p.after va ap kept = kept ++ p.shown va ap := if_neg h

theorem limit_le (p : Piece) : p.limit ≤ 2 ^ 31 := by
  cases p with
  | plain c hc => exact Nat.le_refl _
  | conv k => show 500 ≤ 2 ^ 31; decide

theorem below_iff (hlo : 0 ≤ s.destIdx) (hhi : s.destIdx < 2 ^ 31) :
    below s.destIdx size ↔ s.destIdx < size := by
  rw [below, Int.emod_eq_of_lt hlo (by omega)]

/-- Outside of the buffer there is no way back, with whatever limit the loop runs. -/
theorem LeftBuffer.loop {bound : Nat} (h : LeftBuffer bound s) (hflag : s.flag = false)
    (hok : vsnprintLoop size va (formatOf ps) s = .ok s') : LeftBuffer bound s' := by
  induction ps generalizing s with
  | nil =>
      cases hok
      exact h
  | cons p ps ih =>
      by_cases hbelow : below s.destIdx size
      · obtain ⟨m, hwrote, hloop⟩ := loop_piece va hbelow hflag p (formatOf ps)
        have hfirst : s.destIdx ∈ m.stores := by
          have hpos := stored_pos va s.ap p
          exact (hwrote.stores _).mpr (.inr ⟨Int.le_refl _, by omega⟩)
        -- the piece is stored at `dest_idx`, so from here on a store outside is on record
        have hout : ¬InBuffer bound m := by
          intro hin
          rcases h with hneg | hbig | hout
          · exact absurd (hin _ hfirst).1 (by omega)
          · exact absurd (hin _ hfirst).2 (by omega)
          · exact hout fun a ha => hin a ((hwrote.stores a).mpr (.inl ha))
        rw [formatOf, List.flatMap_cons, ← formatOf, hloop] at hok
        split at hok
        · exact ih (.inr (.inr hout)) rfl hok
        · exact absurd hok (by simp [PANIC])
      · rw [loop_stop hbelow] at hok
        cases hok
        exact h

/-- The `'\0'` at the end does not come back, either. -/
theorem LeftBuffer.not_inBuffer {bound : Nat} (h : LeftBuffer bound s) :
    ¬InBuffer bound (s.dest.store s.destIdx 0) := by
  intro hin
  obtain ⟨hstores, hlo, hhi⟩ := Stored.inRange_store.mp hin
  rcases h with hneg | hbig | hout
  · omega
  · omega
  · exact hout hstores

/-- A piece that fits. -/
theorem Keeps.step (h : Keeps size kept s) (hfits : p.Fits va s.ap size kept)
    (hwrote : Stored.Wrote s.dest m s.destIdx (p.stored va s.ap)) :
    wrap32 (s.destIdx + p.advance va s.ap) = (p.after va s.ap kept).length ∧
      Keeps size (p.after va s.ap kept) ⟨m, (p.after va s.ap kept).length, false, p.next s.ap⟩ := by
  obtain ⟨hroom, hback, hlimit⟩ := hfits
  have hidx := h.idx
  have hsize := h.room
  have hsmall := h.small
  rw [h.idx] at hwrote
  have hlimit' := limit_le p
  have hstored : (p.stored va s.ap).length ≤ (p.shown va s.ap).length + 1 := by
    rcases stored_cases va s.ap p with heq | ⟨heq, -⟩
    · rw [heq, List.length_append, List.length_singleton]
    · rw [heq]; exact Nat.le_succ _
  -- What the piece adds to the stores lies below `size`.
  have hin : InBuffer size m := by
    intro a ha
    rcases (hwrote.stores a).mp ha with ha | ⟨hlo, hhi⟩
    · exact h.stores a ha
    · omega
  have htext : ∀ k (hk : k < kept.length), m.mem k = kept[k] := by
    intro k hk
    rw [hwrote.outside k (.inl (by omega)), h.text k hk]
  rcases advance_cases va s.ap p with ⟨hlong, hadv⟩ | ⟨hshort, hadv, -⟩
  · -- the last character is taken back
    have hne : 0 < kept.length := List.length_pos_iff.mpr (hback hlong)
    rw [after_of_long hlong] at hlimit ⊢
    have hlen : kept.dropLast.length = kept.length - 1 := List.length_dropLast
    refine ⟨?_, rfl, by omega, by omega, rfl, fun k hk => ?_, hin⟩
    · rw [hadv, hidx, wrap32_above (by omega) (by omega)]
      omega
    · rw [List.getElem_dropLast]
      exact htext k (by omega)
  · rw [after_of_not_long hshort] at hlimit ⊢
    rw [List.length_append] at hlimit
    refine ⟨?_, rfl, ?_, ?_, rfl, fun k hk => ?_, hin⟩
    · rw [hadv, hidx, List.length_append, wrap32_eq (by omega) (by omega)]
      omega
    · rwa [List.length_append]
    · rw [List.length_append]
      omega
    · rw [List.length_append] at hk
      by_cases hlt : k < kept.length
      · rw [List.getElem_append_left hlt]
        exact htext k hlt
      · -- the `'\0'` of a `%s` is behind the text
        have hk' : k - kept.length < (p.shown va s.ap).length := by omega
        have hprefix : p.shown va s.ap <+: p.stored va s.ap := by
          rcases stored_cases va s.ap p with heq | ⟨heq, -⟩
          · exact heq ▸ List.prefix_append _ _
          · exact heq ▸ List.prefix_rfl
        have hput := hwrote.text (k - kept.length) (Nat.lt_of_lt_of_le hk' hprefix.length_le)
        rw [show (kept.length : Int) + ((k - kept.length : Nat) : Int) = k by omega] at hput
        rw [hput, List.getElem_append_right (by omega), hprefix.getElem hk']

/-- A piece that does not fit. -/
theorem Keeps.leave (h : Keeps size kept s) (hlt : kept.length < size)
    (hfits : ¬p.Fits va s.ap size kept)
    (hwrote : Stored.Wrote s.dest m s.destIdx (p.stored va s.ap))
    (hlimit : wrap32 (s.destIdx + p.advance va s.ap) < p.limit) :
    LeftBuffer size ⟨m, wrap32 (s.destIdx + p.advance va s.ap), false, p.next s.ap⟩ := by
  have hidx := h.idx
  have hsmall := h.small
  rw [h.idx] at hwrote
  unfold LeftBuffer
  -- The text of the piece ends in the buffer, or it runs over its end.
  by_cases hroom : kept.length + (p.shown va s.ap).length ≤ size
  · -- the count is wrong: it stays below the limit only if it wraps around
    refine .inl (show wrap32 (s.destIdx + p.advance va s.ap) < 0 from ?_)
    have hlimit' := limit_le p
    rcases advance_cases va s.ap p with ⟨hlong, hadv⟩ | ⟨hshort, hadv, hlen⟩
    · rw [hadv, hidx, wrap32_above (by omega) (by omega)] at hlimit ⊢
      by_contra hpos
      refine hfits ⟨hroom, fun _ => List.length_pos_iff.mp (by omega), ?_⟩
      rw [after_of_long hlong, List.length_dropLast]
      omega
    · have hover : p.limit ≤ kept.length + (p.shown va s.ap).length := by
        refine Nat.not_lt.mp fun hlt => hfits ⟨hroom, fun hlong => absurd hlong hshort, ?_⟩
        rwa [after_of_not_long hshort, List.length_append]
      rw [hadv, hidx] at hlimit ⊢
      by_cases hwrap : (kept.length : Int) + (p.shown va s.ap).length < 2 ^ 31
      · rw [wrap32_eq (by omega) hwrap] at hlimit
        omega
      · rw [wrap32_above (by omega) (by omega)]
        omega
  · rcases stored_cases va s.ap p with heq | ⟨heq, hshort⟩
    · -- the '\0' is behind the buffer
      refine .inr (.inr fun hin => ?_)
      have hend := (hwrote.stores (kept.length + (p.shown va s.ap).length)).mpr <| .inr
        ⟨by omega, by rw [heq, List.length_append, List.length_singleton]; omega⟩
      exact absurd (hin _ hend).2 (by omega)
    · -- the text may just fit, but the count is behind the buffer
      rcases advance_cases va s.ap p with ⟨hlong, -⟩ | ⟨-, hadv, hlen⟩
      · exact absurd hlong hshort
      · rw [hadv, hidx]
        by_cases hwrap : (kept.length : Int) + (p.shown va s.ap).length < 2 ^ 31
        · rw [wrap32_eq (by omega) hwrap]
          refine .inr (.inl (show (size : Int) < kept.length + (p.shown va s.ap).length from ?_))
          omega
        · rw [wrap32_above (by omega) (by omega)]
          refine .inl (show (kept.length : Int) + (p.shown va s.ap).length - 2 ^ 32 < 0 from ?_)
          omega

/-- The run lemma: with a text that is kept, the loop keeps it. Without one, the loop leaves the
buffer, if it ends at all. -/
theorem vsnprintLoop_keptText (va : VaList) (ps : List Piece) (h : Keeps size kept s) :
    (∃ t, keptText size va s.ap kept ps = some t ∧
      ∃ s', vsnprintLoop size va (formatOf ps) s = .ok s' ∧ Keeps size t s') ∨
    keptText size va s.ap kept ps = none ∧
      ∀ s', vsnprintLoop size va (formatOf ps) s = .ok s' → LeftBuffer size s' := by
  induction ps generalizing s kept with
  | nil => exact .inl ⟨kept, rfl, s, rfl, h⟩
  | cons p ps ih =>
      have hidx := h.idx
      have hsmall := h.small
      have hbelow : below s.destIdx size ↔ kept.length < size := by
        rw [below_iff (by omega) (by omega), hidx]
        exact Int.ofNat_lt
      rw [keptText]
      by_cases hlt : kept.length < size
      · obtain ⟨m, hwrote, hloop⟩ := loop_piece va (hbelow.mpr hlt) h.flag p (formatOf ps)
        rw [if_neg (Nat.not_le.mpr hlt), formatOf, List.flatMap_cons, ← formatOf, hloop]
        -- A piece that fits is kept whole. One that does not goes past the end, or stops in a
        -- `PANIC`.
        by_cases hfits : p.Fits va s.ap size kept
        · obtain ⟨hadv, hkeeps⟩ := h.step hfits hwrote
          rw [if_pos hfits, hadv, if_pos (Int.ofNat_lt.mpr hfits.2.2)]
          exact ih hkeeps
        · rw [if_neg hfits]
          refine .inr ⟨rfl, fun s' hok => ?_⟩
          split at hok
          · rename_i hlimit
            exact (h.leave hlt hfits hwrote hlimit).loop rfl hok
          · exact absurd hok (by simp [PANIC])
      · rw [if_pos (Nat.not_lt.mp hlt), loop_stop (hbelow.not.mpr hlt)]
        exact .inl ⟨kept, rfl, s, rfl, h⟩

end

/-! ### The whole output -/

section
variable {va : VaList} {size ap : Nat} {ps : List Piece} {kept : List (BitVec 8)}

/-- No `%s` is too long for `strlen`. -/
def AllShort (va : VaList) : Nat → List Piece → Prop
  | _, [] => True
  | ap, p :: ps => ¬p.IsLong va ap ∧ AllShort va (p.next ap) ps

/-- Each piece that starts in front of `size` ends at `size` or before, in front of its limit, and
is not the `%d` of the least number. `len` is the length of the text before. -/
def PiecesFit (size : Nat) (va : VaList) : Nat → Nat → List Piece → Prop
  | _, _, [] => True
  | ap, len, p :: ps =>
      size ≤ len ∨ p.shown va ap = p.text va ap ∧ len + (p.text va ap).length ≤ size ∧
        len + (p.text va ap).length < p.limit ∧
        PiecesFit size va (p.next ap) (len + (p.text va ap).length) ps

/-- Wrong digits are as many as the right ones. -/
theorem shown_length (va : VaList) (ap : Nat) (p : Piece) :
    (p.shown va ap).length = (p.text va ap).length := by
  cases p with
  | plain c hc => rfl
  | conv k =>
      cases k with
      | d =>
          show (itoaText 10 _).length = (signedText 10 _).length
          by_cases hleast : (va.word ap).toInt = INT_MIN
          · rw [itoaText, if_pos hleast, hleast]
            rfl
          · rw [itoaText, if_neg hleast]
      | s => rfl
      | c => rfl
      | x => rfl

/-- Without a string that is too long, no character is taken back. -/
theorem prefix_keptText (hshort : AllShort va ap ps) {t : List (BitVec 8)}
    (ht : keptText size va ap kept ps = some t) : kept <+: t := by
  induction ps generalizing ap kept with
  | nil =>
      cases ht
      exact List.prefix_rfl
  | cons p ps ih =>
      rw [keptText] at ht
      split at ht
      · cases ht
        exact List.prefix_rfl
      · split at ht
        · rw [after_of_not_long hshort.1] at ht
          exact (List.prefix_append _ _).trans (ih hshort.2 ht)
        · exact absurd ht (Option.some_ne_none t).symm

/-- Then the text that is kept is right exactly when the pieces fit. -/
theorem keptText_prefix_iff (hshort : AllShort va ap ps) :
    (∃ t, keptText size va ap kept ps = some t ∧ t <+: kept ++ fullText va ap ps) ↔
      PiecesFit size va ap kept.length ps := by
  induction ps generalizing ap kept with
  | nil => exact iff_of_true ⟨kept, rfl, List.prefix_append _ _⟩ trivial
  | cons p ps ih =>
      have hlen := shown_length va ap p
      have hafter : p.after va ap kept = kept ++ p.shown va ap := after_of_not_long hshort.1
      rw [keptText, PiecesFit, fullText]
      by_cases hend : size ≤ kept.length
      · rw [if_pos hend]
        exact iff_of_true ⟨kept, rfl, List.prefix_append _ _⟩ (.inl hend)
      rw [if_neg hend, or_iff_right hend]
      by_cases hfits : p.Fits va ap size kept
      · obtain ⟨hroom, -, hlimit⟩ := hfits
        rw [hafter, List.length_append] at hlimit
        rw [if_pos ⟨hroom, fun hlong => absurd hlong hshort.1, by rwa [hafter, List.length_append]⟩,
          hafter]
        by_cases hshown : p.shown va ap = p.text va ap
        · rw [hshown, ← List.append_assoc, ih hshort.2, List.length_append]
          exact ⟨fun hrest => ⟨rfl, by omega, by omega, hrest⟩, fun h => h.2.2.2⟩
        · refine iff_of_false ?_ fun h => hshown h.1
          -- the wrong digits stay in the text
          rintro ⟨t, ht, hprefix⟩
          have hwrong := (prefix_keptText hshort.2 ht).trans hprefix
          rw [List.prefix_append_right_inj] at hwrong
          have hpiece := List.prefix_of_prefix_length_le hwrong (List.prefix_append _ _)
            (Nat.le_of_eq hlen)
          exact hshown (hpiece.eq_of_length hlen)
      · rw [if_neg hfits]
        refine iff_of_false (fun ⟨t, ht, _⟩ => absurd ht (Option.some_ne_none t).symm) fun h => ?_
        refine hfits ⟨by omega, fun hlong => absurd hlong hshort.1, ?_⟩
        rw [hafter, List.length_append]
        omega

theorem vsnprint_eq_ok {dest m : CharMem} {format : List (BitVec 8)} {r : Int} :
    vsnprint dest size format va = .ok (r, m) ↔
      ∃ s, vsnprintLoop size va format ⟨dest, 0, false, 0⟩ = .ok s ∧
        r = s.destIdx ∧ m = s.dest.store s.destIdx 0 := by
  rw [vsnprint, bind_eq_ok]
  refine exists_congr fun s => and_congr_right fun _ => ?_
  rw [pure_eq_ok, Except.ok.injEq, Prod.mk.injEq, eq_comm, @eq_comm _ m]

/-- With a text that is kept, this text is the output. -/
theorem Keeps.bounded_iff {mem : Int → BitVec 8} {t : List (BitVec 8)} {s : PrintState}
    (h : Keeps size t s) (hok : vsnprintLoop size va (formatOf ps) ⟨⟨mem, []⟩, 0,
    false, 0⟩ = .ok s) : Bounded size va mem ps ↔ t <+: fullText va 0 ps := by
  have hidx := h.idx
  have hout : ∀ k (hk : k < t.length), (s.dest.store s.destIdx 0).mem k = t[k] := by
    intro k hk
    rw [Stored.store_mem_of_ne (by omega), h.text k hk]
  constructor
  · rintro ⟨m, t', hok', -, -, -, hprefix, htext⟩
    obtain ⟨s', hloop, hlen, rfl⟩ := vsnprint_eq_ok.mp hok'
    obtain rfl : s = s' := Except.ok.inj (hok.symm.trans hloop)
    -- the count gives the length of the text, and the memory its characters
    have hsame : t' = t := by
      refine List.ext_getElem (by omega) fun k hk hk' => ?_
      rw [← htext k hk, hout k hk']
    exact hsame ▸ hprefix
  · intro hprefix
    refine ⟨s.dest.store s.destIdx 0, t, vsnprint_eq_ok.mpr ⟨s, hok, hidx.symm, rfl⟩, h.room,
      Stored.inRange_store.mpr ⟨h.stores, ?_⟩, ?_, hprefix, hout⟩
    · have hroom := h.room
      omega
    · rw [hidx]
      exact Stored.store_mem_self

/-- Outside of the buffer, the output is not bounded. -/
theorem LeftBuffer.not_bounded {mem : Int → BitVec 8}
    (hleft : ∀ s, vsnprintLoop size va (formatOf ps) ⟨⟨mem, []⟩, 0, false, 0⟩ = .ok s →
      LeftBuffer size s) : ¬Bounded size va mem ps := by
  rintro ⟨m, t, hok, -, hin, -⟩
  obtain ⟨s, hloop, -, rfl⟩ := vsnprint_eq_ok.mp hok
  exact (hleft s hloop).not_inBuffer hin

/-- The output is bounded exactly when there is a text that is kept, and it is the start of the full
text. When no string is too long for `strlen`, this is so exactly when the pieces fit. -/
theorem vsnprint_bounded_iff (size : BitVec 32) (va : VaList) (mem : Int → BitVec 8)
    (ps : List Piece) :
    (Bounded size.toNat va mem ps ↔
      ∃ t, keptText size.toNat va 0 [] ps = some t ∧ t <+: fullText va 0 ps) ∧
    (AllShort va 0 ps → (Bounded size.toNat va mem ps ↔ PiecesFit size.toNat va 0 0 ps)) := by
  have hiff : Bounded size.toNat va mem ps ↔
      ∃ t, keptText size.toNat va 0 [] ps = some t ∧ t <+: fullText va 0 ps := by
    rcases vsnprintLoop_keptText va ps (Keeps.start size.toNat mem) with
      ⟨t, ht, s, hok, hkeeps⟩ | ⟨hnone, hleft⟩
    · rw [hkeeps.bounded_iff hok]
      exact ⟨fun hprefix => ⟨t, ht, hprefix⟩, fun ⟨t', ht', hprefix⟩ =>
        Option.some.inj (ht'.symm.trans ht) ▸ hprefix⟩
    · refine iff_of_false (LeftBuffer.not_bounded hleft) fun ⟨t, ht, _⟩ => ?_
      exact absurd (hnone.symm.trans ht) (Option.some_ne_none t).symm
  exact ⟨hiff, fun hshort => hiff.trans (keptText_prefix_iff hshort)⟩

end

/-- `""`. -/
def emptyString : CString := ⟨[], List.forall_mem_nil _⟩

/-- The number 10 for each argument. -/
def tenArgs : VaList := ⟨fun _ => 10, fun _ => emptyString⟩

/-- The format `"a%d"`. -/
def letterAndNumber : List Piece := [.plain 0x61 (by decide), .conv .d]

/-- With room for `"a10"`. -/
theorem vsnprint_bounded_iff_ten : Bounded 5 tenArgs (fun _ => 0) letterAndNumber :=
  ((vsnprint_bounded_iff 5 tenArgs (fun _ => 0) letterAndNumber).2 ⟨id, id, trivial⟩).mpr
    (.inr ⟨rfl, by decide, by decide, .inr ⟨rfl, by decide, by decide, trivial⟩⟩)

/-- With a size of 2, the loop still starts with `"%d"`: the count is 3. What is compared with the
size is the place at which a piece starts. -/
theorem number_leaves_buffer : ¬Bounded 2 tenArgs (fun _ => 0) letterAndNumber := by
  rintro ⟨m, t, hok, hlen, -⟩
  have hcount : (vsnprint ⟨fun _ => 0, []⟩ 2 (formatOf letterAndNumber) tenArgs).map Prod.fst =
      .ok 3 := rfl
  rw [hok] at hcount
  have hthree : (t.length : Int) = 3 := Except.ok.inj hcount
  omega

end Fizzos.Proofs
