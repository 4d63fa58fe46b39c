import Fizzos.Proofs.Ioqueue

/-!
# `Fizzos.Proofs.Getline`: a line and the caller's buffer

`ioqueue_getline` copies what fits of the first line, and drops the rest of it. It returns the
number of bytes in front of the newline plus one, also when the newline did not fit. So the result
is one too many for a line that is cut (`getline_respects_iff`).
-/

set_option autoImplicit false

namespace Fizzos.Proofs

open Fizzos.Device
open Fizzos.Kernel
open Fizzos.Support

/-- A call writes what fits of the first line, and returns the number of bytes that it wrote. -/
structure Respects (q : Ioqueue) (count ret : Int) (dest : List Byte) : Prop where
  whole : count = -1 → dest = firstLine q.content
  fits : count ≠ -1 → dest = (firstLine q.content).take count.toNat ∧ (dest.length : Int) ≤ count
  ret : ret = dest.length

/-- `ioqueue_getline` returns, and respects the buffer of the caller. -/
def GetlineRespects (q : Ioqueue) (count : Int) (current : Tid) : Prop :=
  ∃ ret dest q', ioqueueGetline q count current = .ok (ret, dest, q') ∧ Respects q count ret dest

section
variable {l : List Byte} {count : Int}

theorem length_firstLine (l : List Byte) : (firstLine l).length = (beforeNewline l).length + 1 :=
  List.length_append

/-- What fits of a line with its newline, in numbers. -/
theorem length_fitting (hcount : count = -1 ∨ 1 ≤ count) :
    (((fitting count 0 (beforeNewline l)).length + 1 : Nat) : Int)
        = (fitting count 0 (firstLine l)).length ↔
      count = -1 ∨ ((firstLine l).length : Int) ≤ count := by
  have hlen := length_firstLine l
  rw [fitting, fitting]
  by_cases hlim : count = -1
  · rw [if_pos hlim, if_pos hlim, hlen]
    exact iff_of_true rfl (.inl hlim)
  · have hpos : 1 ≤ count := hcount.resolve_left hlim
    rw [if_neg hlim, if_neg hlim, List.length_take, List.length_take, hlen]
    omega

end

/-- For every content of the queue with a newline, and for every count: the call respects the buffer
exactly when the first line fits in it, or when there is no limit. -/
theorem getline_respects_iff {n : Nat} (hn : n < 2 ^ 31) {s : KeyboardState}
    (hs : (ioqueueSystem n).Reachable s) (hmem : NEWLINE ∈ s.queue.content) {count : Int}
    (hcount : count = -1 ∨ 1 ≤ count) (current : Tid) :
    GetlineRespects s.queue count current ↔
      count = -1 ∨ ((firstLine s.queue.content).length : Int) ≤ count := by
  obtain ⟨h, hq⟩ := (ioqueueSystem_inductive hn).reachable hs
  obtain ⟨q', h', hget, -⟩ := hq.getline (hq.content ▸ hmem) count current
  rw [← hq.content] at hget
  have hret := length_fitting (l := s.queue.content) hcount
  constructor
  · rintro ⟨ret, dest, q₁, hget₁, hrespects⟩
    -- the result counts the newline, so it is the number of bytes only if the newline is one
    rw [hget] at hget₁
    cases hget₁
    exact hret.mp hrespects.ret
  · intro hfit
    refine ⟨_, _, q', hget, fun hlim => ?_, fun hlim => ?_, hret.mpr hfit⟩
    · rw [fitting, if_pos hlim]
    · rw [fitting, if_neg hlim, Int.natCast_zero, Int.sub_zero]
      refine ⟨rfl, ?_⟩
      rw [List.length_take]
      omega

/-- The keyboard queue holds any line that fits. -/
theorem exists_line {l : List Byte} (hl : l.length ≤ 100) :
    ∃ q, (ioqueueSystem 100).Reachable ⟨q, l⟩ ∧ q.content = l := by
  have hrun : ∃ q, (ioqueueSystem 100).Reachable ⟨q, l⟩ := by
    induction l using List.reverseRecOn with
    | nil =>
        obtain ⟨q, hinit⟩ := exists_keyboard
        exact ⟨q, .init hinit⟩
    | append_singleton l c ih =>
        rw [List.length_append, List.length_singleton] at hl
        obtain ⟨q, hs⟩ := ih (by omega)
        obtain ⟨h, hq⟩ := (ioqueueSystem_inductive (by decide)).reachable hs
        have henabled : KeyboardState.Enabled ⟨q, l⟩ (.putchar c 0) := trivial
        have hroom : l.length < 100 := by omega
        obtain ⟨q', h', hnext, -⟩ := hq.next henabled
        -- a character goes to the end of a line that is not full
        have hline : lineAfter 100 l (.putchar c 0) = l ++ [c] := if_pos hroom
        rw [hline] at hnext
        exact ⟨q', hs.step (a := .putchar c 0) henabled hnext⟩
  obtain ⟨q, hs⟩ := hrun
  obtain ⟨h, hq⟩ := (ioqueueSystem_inductive (by decide)).reachable hs
  exact ⟨q, hs, hq.content⟩

/-- A line of two characters fits in four bytes. -/
theorem getline_respects_iff_four : ∃ s : KeyboardState,
    s.queue.content = [0x61, 0x62, NEWLINE] ∧ GetlineRespects s.queue 4 0 := by
  obtain ⟨q, hs, hcontent⟩ := exists_line (l := [0x61, 0x62, NEWLINE]) (by decide)
  have hmem : NEWLINE ∈ q.content := by
    rw [hcontent]
    decide
  have hfit : ((firstLine q.content).length : Int) ≤ 4 := by
    rw [hcontent]
    decide
  exact ⟨⟨q, [0x61, 0x62, NEWLINE]⟩, hcontent,
    (getline_respects_iff (by decide) hs hmem (.inr (by decide)) 0).mpr (.inr hfit)⟩

/-- With room for two bytes, the call writes the two characters and returns 3. The result counts the
newline, also when it was not copied. -/
theorem getline_cut : ∃ s q', (ioqueueSystem 100).Reachable s ∧
    s.queue.content = [0x61, 0x62, NEWLINE] ∧
    ioqueueGetline s.queue 2 0 = .ok (3, [0x61, 0x62], q') ∧ ¬GetlineRespects s.queue 2 0 := by
  obtain ⟨q, hs, hcontent⟩ := exists_line (l := [0x61, 0x62, NEWLINE]) (by decide)
  obtain ⟨h, hq⟩ := (ioqueueSystem_inductive (by decide)).reachable hs
  have hmem : NEWLINE ∈ [0x61, 0x62, NEWLINE] := by decide
  obtain ⟨q', h', hget, -⟩ := hq.getline hmem 2 0
  have hcut : ioqueueGetline q 2 0 = .ok (3, [0x61, 0x62], q') := hget
  refine ⟨⟨q, [0x61, 0x62, NEWLINE]⟩, q', hs, hcontent, hcut, ?_⟩
  rintro ⟨ret, dest, q₁, hget₁, hrespects⟩
  rw [hcut] at hget₁
  cases hget₁
  exact absurd hrespects.ret (by decide)

end Fizzos.Proofs
