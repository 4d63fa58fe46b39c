import Fizzos.LibKernel.Print
import Mathlib.Data.List.Infix

/-!
# `Fizzos.Proofs.PutChar`: the cursor on the screen

From a cursor on the screen, `put_char` moves it to where it belongs (`nextPos`) and stores to the
screen only, with one exception (`putChar_step`). A backspace at the first cell takes 1 from 0: the
store goes to the offset `0xfffe`, far behind the limit of the video segment, and the kernel hangs
in the handler of the fault (`backspace_first`). So a sequence of characters stays on the screen
exactly when no backspace comes at the first cell (`typeChars_onScreen_iff`).
-/

set_option autoImplicit false

namespace Fizzos.Proofs

open Fizzos.LibKernel
open Fizzos.Support

/-- A sequence of calls of `put_char`. -/
def typeChars (s : Screen) (cs : List (BitVec 8)) : Except Halt Screen := cs.foldlM putChar s

/-- The cursor is on the screen, and the stores went to the screen. -/
structure OnScreen (s : Screen) : Prop where
  cursor : s.cursor.toNat < 2000
  stores : s.video.InRange (· < 4000)

/-- The start of the next line, or of the last one when the screen rolls. -/
def nextLine (p : Nat) : Nat := if (p / 80 + 1) * 80 < 2000 then (p / 80 + 1) * 80 else 1920

/-- Where the cursor belongs behind a character. -/
def nextPos (p : Nat) (c : BitVec 8) : Nat :=
  if c = 0xd ∨ c = 0xa then nextLine p
  else if c = 0x8 then p - 1
  else if p + 1 < 2000 then p + 1
  else 1920

/-- No backspace comes when the cursor belongs to the first cell. -/
def NoBackspaceAtStart (p : Nat) (cs : List (BitVec 8)) : Prop :=
  ∀ pre post, cs = pre ++ 0x8 :: post → pre.foldl nextPos p ≠ 0

/-! ### The cursor as a number -/

section
variable {x : BitVec 16}

theorem toNat_shl_one (h : x.toNat < 2 ^ 15) : (x <<< 1).toNat = 2 * x.toNat := by
  rw [BitVec.toNat_shiftLeft, Nat.shiftLeft_eq]
  omega

theorem toNat_succ (h : x.toNat < 2 ^ 16 - 1) : (x + 1).toNat = x.toNat + 1 := by
  bv_omega

theorem toNat_shr_one : (x >>> 1).toNat = x.toNat / 2 := by
  rw [BitVec.toNat_ushiftRight, Nat.shiftRight_eq_div_pow]

/-- `jl` for a number without a sign. -/
theorem slt_2000 (h : x.toNat < 2 ^ 15) : x.slt 2000 = decide (x.toNat < 2000) := by
  rw [BitVec.slt_eq_decide, BitVec.toInt_eq_toNat_of_lt (by omega)]
  exact decide_eq_decide.mpr Int.ofNat_lt

end

/-! ### The branches -/

section
variable {s : Screen} {c : BitVec 8}

/-- `.roll_screen` stores to the screen. -/
theorem rollScreen_stores {v : Video} (h : v.InRange (· < 4000)) :
    (rollScreen v).video.InRange (· < 4000) := by
  -- two loops: the rows that move, and the last row
  refine Stored.inRange_foldl (fun m i hi hm => ?_) (Stored.inRange_foldl
    (fun m i hi hm => Stored.inRange_foldl (fun m' b hb hm' => ?_) hm) h)
  · have hi := List.mem_range.mp hi
    exact Stored.inRange_store.mpr ⟨Stored.inRange_store.mpr ⟨hm, by omega⟩, by omega⟩
  · have hi := List.mem_range.mp hi
    have hb := List.mem_range.mp hb
    exact Stored.inRange_store.mpr ⟨hm', by omega⟩

theorem toNat_line (hcursor : s.cursor.toNat ≤ 2000) :
    (s.cursor - s.cursor % 80 + 80).toNat = (s.cursor.toNat / 80 + 1) * 80 := by
  have hmod : (s.cursor % 80).toNat = s.cursor.toNat % 80 := BitVec.toNat_umod
  have hsub : (s.cursor - s.cursor % 80).toNat = s.cursor.toNat - s.cursor.toNat % 80 := by
    rw [BitVec.toNat_sub_of_le (by rw [BitVec.le_def, hmod]; exact Nat.mod_le _ _), hmod]
  have hadd : (s.cursor - s.cursor % 80 + 80).toNat
      = s.cursor.toNat - s.cursor.toNat % 80 + 80 := by
    rw [BitVec.toNat_add, hsub]
    exact Nat.mod_eq_of_lt (by simp; omega)
  omega

/-- A line feed, also behind the last cell. -/
theorem lineFeed_cursor (hcursor : s.cursor.toNat ≤ 2000) :
    (lineFeed s).cursor.toNat = nextLine s.cursor.toNat := by
  have hline := toNat_line hcursor
  have hslt := slt_2000 (x := s.cursor - s.cursor % 80 + 80) (by omega)
  rw [hline] at hslt
  unfold lineFeed nextLine
  by_cases hlt : (s.cursor.toNat / 80 + 1) * 80 < 2000
  · simp only [hslt, hlt, decide_true, if_true]
    exact hline
  · simp only [hslt, hlt, decide_false, if_false, Bool.false_eq_true]
    rfl

theorem lineFeed_stores (h : s.video.InRange (· < 4000)) : (lineFeed s).video.InRange
    (· < 4000) := by
  unfold lineFeed
  dsimp only
  split
  · exact h
  · exact rollScreen_stores h

/-- A store below the limit of the segment. -/
theorem storeGs_ok {v : Video} {bx : BitVec 16} (h : bx.toNat ≤ VIDEO_LIMIT) (b : BitVec 8) :
    storeGs v bx b = .ok (v.store bx.toNat b) := if_pos h

/-- A backspace behind the first cell blanks the cell before the cursor. -/
theorem backspace_eq (h : s.cursor.toNat < 2000) (hpos : s.cursor.toNat ≠ 0) :
    backspace s = .ok ⟨s.cursor - 1, (s.video.store (2 * (s.cursor.toNat - 1)) 0x20).store
      (2 * (s.cursor.toNat - 1) + 1) 0x07⟩ := by
  have hlimit : VIDEO_LIMIT = 0x7fff := rfl
  have hdec : (s.cursor - 1).toNat = s.cursor.toNat - 1 := by bv_omega
  have hcell : ((s.cursor - 1) <<< 1).toNat = 2 * (s.cursor.toNat - 1) := by
    rw [toNat_shl_one (by omega), hdec]
  have hattr : ((s.cursor - 1) <<< 1 + 1).toNat = 2 * (s.cursor.toNat - 1) + 1 := by
    rw [toNat_succ (by omega), hcell]
  have hback : ((s.cursor - 1) <<< 1 + 1) >>> 1 = s.cursor - 1 := by
    apply BitVec.eq_of_toNat_eq
    rw [toNat_shr_one, hattr, hdec]
    omega
  rw [backspace, storeGs_ok (by omega), ok_bind]
  dsimp only
  rw [storeGs_ok (by omega), ok_bind, hcell, hattr, hback]
  rfl

/-- At the first cell, a backspace stores behind the video segment. -/
theorem backspace_first (hzero : s.cursor.toNat = 0) : backspace s = .error .hang := by
  have hcursor : s.cursor = 0 := BitVec.eq_of_toNat_eq hzero
  rw [backspace, hcursor]
  rfl

/-- Another character goes to its cell. -/
theorem putOther_eq (h : s.cursor.toNat < 2000) (cl : BitVec 8) :
    putOther cl s = .ok (
      let video := (s.video.store (2 * s.cursor.toNat) cl).store (2 * s.cursor.toNat + 1) 0x07
      if s.cursor.toNat + 1 < 2000 then ⟨s.cursor + 1, video⟩
      else lineFeed ⟨s.cursor + 1, video⟩) := by
  have hlimit : VIDEO_LIMIT = 0x7fff := rfl
  have hcell : (s.cursor <<< 1).toNat = 2 * s.cursor.toNat := toNat_shl_one (by omega)
  have hattr : (s.cursor <<< 1 + 1).toNat = 2 * s.cursor.toNat + 1 := by
    rw [toNat_succ (by omega), hcell]
  have hback : (s.cursor <<< 1 + 1) >>> 1 = s.cursor := by
    apply BitVec.eq_of_toNat_eq
    rw [toNat_shr_one, hattr]
    omega
  have hnext : (s.cursor + 1).toNat = s.cursor.toNat + 1 := toNat_succ (by omega)
  have hslt := slt_2000 (x := s.cursor + 1) (by omega)
  rw [hnext] at hslt
  rw [putOther, storeGs_ok (by omega), ok_bind]
  dsimp only
  rw [storeGs_ok (by omega), ok_bind, hcell, hattr, hback, hslt]
  simp only [decide_eq_true_eq]
  rfl

/-- The step lemma: without a backspace at the first cell `put_char` returns, the cursor goes to its
next place, and the stores go to the screen. -/
theorem putChar_step (h : s.cursor.toNat < 2000) (hback : ¬(c = 0x8 ∧ s.cursor.toNat = 0)) :
    ∃ s', putChar s c = .ok s' ∧ s'.cursor.toNat = nextPos s.cursor.toNat c ∧
      (s.video.InRange (· < 4000) → s'.video.InRange (· < 4000)) := by
  have hnext : (s.cursor + 1).toNat = s.cursor.toNat + 1 := toNat_succ (by omega)
  have hcell {b a : BitVec 8} {p : Nat} (hp : p < 2000) (hs : s.video.InRange (· < 4000)) :
      ((s.video.store (2 * p) b).store (2 * p + 1) a).InRange (· < 4000) :=
    Stored.inRange_store.mpr ⟨Stored.inRange_store.mpr ⟨hs, by omega⟩, by omega⟩
  unfold putChar nextPos
  by_cases hcr : c = 0xd
  · rw [if_pos hcr, if_pos (.inl hcr)]
    exact ⟨_, rfl, lineFeed_cursor h.le, lineFeed_stores⟩
  by_cases hlf : c = 0xa
  · rw [if_neg hcr, if_pos hlf, if_pos (.inr hlf)]
    exact ⟨_, rfl, lineFeed_cursor h.le, lineFeed_stores⟩
  rw [if_neg hcr, if_neg hlf, if_neg (not_or.mpr ⟨hcr, hlf⟩)]
  by_cases hbs : c = 0x8
  · have hpos : s.cursor.toNat ≠ 0 := fun hzero => hback ⟨hbs, hzero⟩
    have hdec : (s.cursor - 1).toNat = s.cursor.toNat - 1 := by bv_omega
    rw [if_pos hbs, if_pos hbs]
    exact ⟨_, backspace_eq h hpos, hdec, hcell (by omega)⟩
  rw [if_neg hbs, if_neg hbs]
  refine ⟨_, putOther_eq h c, ?_⟩
  by_cases hlt : s.cursor.toNat + 1 < 2000
  · simp only [hlt, if_true]
    exact ⟨hnext, hcell h⟩
  · simp only [hlt, if_false]
    -- the last cell: the cursor goes to 2000 and on to the next line
    refine ⟨?_, fun hs => lineFeed_stores (hcell h hs)⟩
    rw [lineFeed_cursor (by show (s.cursor + 1).toNat ≤ 2000; omega)]
    show nextLine (s.cursor + 1).toNat = 1920
    rw [hnext, show s.cursor.toNat + 1 = 2000 by omega]
    rfl

/-- The next place is on the screen. -/
theorem nextPos_lt {p : Nat} (h : p < 2000) (c : BitVec 8) : nextPos p c < 2000 := by
  unfold nextPos nextLine
  split_ifs <;> omega

/-- A backspace at the first cell stops the kernel. -/
theorem putChar_first (hzero : s.cursor.toNat = 0) : putChar s 0x8 = .error .hang :=
  backspace_first hzero

end

/-! ### Sequences of characters -/

section
variable {s : Screen} {cs : List (BitVec 8)}

theorem typeChars_append (pre post : List (BitVec 8)) :
    typeChars s (pre ++ post) = typeChars s pre >>= fun s => typeChars s post :=
  List.foldlM_append

/-- The run lemma: the cursor is where it belongs. -/
theorem typeChars_step (h : OnScreen s) (hback : NoBackspaceAtStart s.cursor.toNat cs) :
    ∃ s', typeChars s cs = .ok s' ∧ OnScreen s' ∧
      s'.cursor.toNat = cs.foldl nextPos s.cursor.toNat := by
  induction cs generalizing s with
  | nil => exact ⟨s, rfl, h, rfl⟩
  | cons c cs ih =>
      have hfirst : ¬(c = 0x8 ∧ s.cursor.toNat = 0) := by
        rintro ⟨rfl, hzero⟩
        exact hback [] cs rfl hzero
      obtain ⟨s₁, hput, hpos, hstores⟩ := putChar_step h.cursor hfirst
      have hon : OnScreen s₁ := ⟨by rw [hpos]; exact nextPos_lt h.cursor c, hstores h.stores⟩
      have hrest : NoBackspaceAtStart s₁.cursor.toNat cs := by
        rintro pre post rfl
        rw [hpos]
        exact hback (c :: pre) post rfl
      obtain ⟨s₂, htype, hon', hpos'⟩ := ih hon hrest
      refine ⟨s₂, ?_, hon', hpos'.trans (by rw [hpos]; rfl)⟩
      rw [typeChars, List.foldlM_cons, hput]
      exact htype

/-- Each call returns, and the cursor and the stores are on the screen behind it, exactly when no
backspace comes at the first cell. -/
theorem typeChars_onScreen_iff (hcursor : s.cursor.toNat < 2000) (hnew : s.video.stores = []) :
    (∀ pre post, cs = pre ++ post → ∃ s', typeChars s pre = .ok s' ∧ OnScreen s') ↔
      NoBackspaceAtStart s.cursor.toNat cs := by
  have hstart : OnScreen s := by
    refine ⟨hcursor, fun o ho => ?_⟩
    rw [hnew] at ho
    exact absurd ho List.not_mem_nil
  constructor
  · intro hon pre
    -- by induction on the length: before this backspace there is none at the first cell
    induction hlen : pre.length using Nat.strongRecOn generalizing pre with
    | ind n ih =>
        rintro post rfl hzero
        have hpre : NoBackspaceAtStart s.cursor.toNat pre := by
          rintro pre' post' rfl
          refine ih pre'.length ?_ pre' rfl (post' ++ 0x8 :: post) (by simp)
          rw [← hlen, List.length_append, List.length_cons]
          omega
        obtain ⟨s₁, hfront, -, hcell⟩ := typeChars_step hstart hpre
        obtain ⟨s₂, hret, -⟩ := hon (pre ++ [0x8]) post (by simp)
        have hlast : typeChars s₁ [0x8] = .error .hang := by
          rw [typeChars, List.foldlM_cons, putChar_first (hcell.trans hzero)]
          rfl
        rw [typeChars_append, hfront, ok_bind, hlast] at hret
        cases hret
  · rintro hback pre post rfl
    have hpre : NoBackspaceAtStart s.cursor.toNat pre := by
      rintro pre' post' rfl
      exact hback pre' (post' ++ post) (by simp)
    obtain ⟨s', hret, hon, -⟩ := typeChars_step hstart hpre
    exact ⟨s', hret, hon⟩

end

/-- A blank screen, with the cursor at the first cell. -/
def blankScreen : Screen := ⟨0, ⟨fun _ => 0x20, []⟩⟩

/-- A character and its backspace. -/
theorem typeChars_onScreen_iff_two :
    (∀ pre post, [0x41, 0x8] = pre ++ post →
      ∃ s', typeChars blankScreen pre = .ok s' ∧ OnScreen s') ↔ NoBackspaceAtStart 0 [0x41, 0x8] :=
  typeChars_onScreen_iff (by decide) rfl

/-- A backspace on a blank screen. The position goes from 0 to `0xffff`, and the store is behind the
limit of the video segment, so the call does not return. -/
theorem backspace_leaves_screen :
    ¬∀ pre post, [0x8] = pre ++ post → ∃ s', typeChars blankScreen pre = .ok s' ∧ OnScreen s' := by
  intro hon
  obtain ⟨s', hret, -⟩ := hon [0x8] [] rfl
  have hhang : typeChars blankScreen [0x8] = .error .hang := rfl
  rw [hhang] at hret
  cases hret

end Fizzos.Proofs
