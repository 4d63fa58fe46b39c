import Fizzos.Proofs.ExecFiles

/-!
# `Fizzos.Proofs.FlushFiles`: the files that a program leaves open

`flush_old_files` tests a bit of `close_on_exec` with `(close_on_exec & (1 << i)) == 1`. The value
is 0 or `1 << i`, so the test is true for the bit 0 only (`flushOldFiles_eq`). A mask without other
bits is handled as it should be, and any other mask is left behind (`flushes_exactly_iff`).
-/

set_option autoImplicit false

namespace Fizzos.Proofs

open Fizzos.Fs
open Fizzos.Kernel

/-- `file_close` of each file of a list. -/
def closeFiles (t : FileTable) (root : Nat) (files : List Nat) : Except Halt FileTable :=
  files.foldlM (fun t file => fileClose t root file) t

/-- The files of the descriptors in `close_on_exec`. -/
def filesOnExec (f : FilesStruct) : List Nat :=
  ((List.range 32).filter f.closeOnExec.testBit).map f.fdArray

/-- `flush_old_files` closes the files of the descriptors in `close_on_exec`, whenever `file_close`
returns for all of them, takes their bits from `open_fds`, and leaves `close_on_exec` empty. -/
def FlushesExactly (f : FilesStruct) : Prop :=
  ∀ t root t', closeFiles t root (filesOnExec f) = .ok t' →
    flushOldFiles t root f = .ok
      ({ f with openFds := f.openFds &&& (0xffffffff ^^^ f.closeOnExec), closeOnExec := 0 }, t')

section
variable {t : FileTable} {root coe : Nat} {f : FilesStruct}

/-- A bit above bit 0 does not pass the test. -/
theorem flush_test {i : Nat} (hi : i ≠ 0) : ¬coe &&& (1 <<< i) = 1 := by
  -- 1 has the bit 0, and `1 << i` does not
  intro htest
  have hbit : (coe &&& (1 <<< i)).testBit 0 = true := by
    rw [htest]
    rfl
  rw [Nat.testBit_and, Nat.one_shiftLeft, Nat.testBit_two_pow, decide_eq_false hi,
    Bool.and_false] at hbit
  cases hbit

/-- Behind bit 0 the loop does nothing. -/
theorem flushLoop_behind {is : List Nat} (his : 0 ∉ is) :
    flushLoop root is coe f t = .ok (coe, f, t) := by
  induction is with
  | nil => rfl
  | cons i rest ih =>
      have hi : i ≠ 0 := fun hzero => his (hzero ▸ List.mem_cons_self)
      rw [flushLoop, if_neg (flush_test hi)]
      exact ih fun hmem => his (List.mem_cons_of_mem i hmem)

/-- What `flush_old_files` does. -/
theorem flushOldFiles_eq (t : FileTable) (root : Nat) (f : FilesStruct) :
    flushOldFiles t root f =
      if f.closeOnExec.testBit 0 then do
        let t ← fileClose t root (f.fdArray 0)
        pure ({ f with
            openFds := f.openFds &&& 0xfffffffe, closeOnExec := f.closeOnExec &&& 0xfffffffe }, t)
      else .ok (f, t) := by
  have hrange : List.range 32 = 0 :: List.range' 1 31 := rfl
  have hbehind : 0 ∉ List.range' 1 31 := by decide
  have htest : f.closeOnExec &&& 1 <<< 0 = 1 ↔ f.closeOnExec.testBit 0 = true := by
    rw [Nat.testBit_zero, decide_eq_true_eq, Nat.shiftLeft_zero, Nat.and_one_is_mod]
  rw [flushOldFiles, hrange, flushLoop]
  by_cases hbit : f.closeOnExec.testBit 0 = true
  · rw [if_pos (htest.mpr hbit), if_pos hbit]
    cases fileClose t root (f.fdArray 0) with
    | error e => rfl
    | ok t' =>
        rw [ok_bind, ok_bind, flushLoop_behind hbehind]
        rfl
  · rw [if_neg (mt htest.mp hbit), if_neg hbit, flushLoop_behind hbehind]
    rfl

/-- With more references to each file than there are files to close, `file_close` returns. -/
theorem closeFiles_returns {files : List Nat}
    (hcount : ∀ g, (files.length : Int) < (t.file g).count ∧ (t.file g).count < 2 ^ 31) :
    ∃ t', closeFiles t root files = .ok t' := by
  induction files generalizing t with
  | nil => exact ⟨t, rfl⟩
  | cons g rest ih =>
      obtain ⟨hlo, hhi⟩ := hcount g
      rw [List.length_cons] at hcount hlo
      have hpos : (t.file g).count > 0 := by omega
      have hlast : ¬(t.file g).count - 1 = 0 := by omega
      have hwrap : wrap32 ((t.file g).count - 1) = (t.file g).count - 1 :=
        wrap32_eq (by omega) (by omega)
      have hclose : fileClose t root g = .ok
          { t with file := Function.update t.file g { t.file g with count :=
            (t.file g).count - 1 } } := by
        simp only [fileClose, ASSERT_true hpos, ok_bind, atomicDecAndSete, hwrap,
          decide_eq_false hlast]
        rfl
      -- each file still has more users than there are files left
      rw [closeFiles, List.foldlM_cons, hclose, ok_bind]
      refine ih fun e => ?_
      obtain ⟨hlo', hhi'⟩ := hcount e
      show (rest.length : Int) < (Function.update t.file g _ e).count ∧
        (Function.update t.file g _ e).count < 2 ^ 31
      by_cases he : e = g
      · rw [he, Function.update_self]
        show (rest.length : Int) < (t.file g).count - 1 ∧ (t.file g).count - 1 < 2 ^ 31
        omega
      · rw [Function.update_of_ne he]
        omega

/-- A mask without the bits above bit 0. -/
theorem le_one_of_and (hcoe : coe < 2 ^ 32) (hand : coe &&& 0xfffffffe = 0) : coe ≤ 1 := by
  have hhalf : coe / 2 &&& 2 ^ 31 - 1 = 0 := by
    rw [show 2 ^ 31 - 1 = 0xfffffffe / 2 from rfl, ← Nat.and_div_two, hand]
  rw [Nat.and_two_pow_sub_one_eq_mod] at hhalf
  omega

end

/-- A table in which each file has many users. -/
def manyUsers : FileTable where
  dirs := rootMounted [] 1
  file := fun _ => ⟨100, 0, 0⟩

/-- For all masks and every `fd_array`: `flush_old_files` is right exactly when `close_on_exec` has
no bit above bit 0. The test compares the bit with 1, which finds bit 0 only. -/
theorem flushes_exactly_iff {f : FilesStruct} (hopen : f.openFds < 2 ^ 32)
    (hsub : f.closeOnExec &&& f.openFds = f.closeOnExec) : FlushesExactly f ↔
    f.closeOnExec ≤ 1 := by
  constructor
  · intro h
    have hlen : (filesOnExec f).length ≤ 32 := by
      rw [filesOnExec, List.length_map]
      exact (List.length_filter_le _ _).trans_eq List.length_range
    -- a table for which all calls of `file_close` return
    obtain ⟨t', hclose⟩ : ∃ t', closeFiles manyUsers 0 (filesOnExec f) = .ok t' := by
      refine closeFiles_returns fun g => ?_
      show ((filesOnExec f).length : Int) < 100 ∧ (100 : Int) < 2 ^ 31
      omega
    have hflush := h manyUsers 0 t' hclose
    rw [flushOldFiles_eq] at hflush
    have hwidth : f.closeOnExec < 2 ^ 32 := hsub ▸ Nat.lt_of_le_of_lt Nat.and_le_right hopen
    by_cases hbit : f.closeOnExec.testBit 0 = true
    · -- the other bits stay in `close_on_exec`
      rw [if_pos hbit] at hflush
      obtain ⟨t₁, -, hret⟩ := bind_eq_ok.mp hflush
      exact le_one_of_and hwidth (congrArg (fun r => r.1.closeOnExec) (Except.ok.inj hret))
    · rw [if_neg hbit] at hflush
      have hcoe : f.closeOnExec = 0 := congrArg (fun r => r.1.closeOnExec) (Except.ok.inj hflush)
      omega
  · intro hcoe t root t' hclose
    rcases Nat.le_one_iff_eq_zero_or_eq_one.mp hcoe with hzero | hone
    · have hbits : (List.range 32).filter (Nat.testBit 0) = [] := by decide
      have hmask : f.openFds &&& 0xffffffff = f.openFds :=
        Nat.and_two_pow_sub_one_of_lt_two_pow hopen
      rw [filesOnExec, hzero, hbits, List.map_nil] at hclose
      cases hclose
      rw [flushOldFiles_none hzero, hzero, Nat.xor_zero, hmask, ← hzero]
    · have hbits : (List.range 32).filter (Nat.testBit 1) = [0] := by decide
      rw [filesOnExec, hone, hbits] at hclose
      replace hclose : (fileClose t root (f.fdArray 0) >>= pure) = .ok t' := hclose
      rw [bind_pure] at hclose
      rw [flushOldFiles_eq, hone, if_pos (by decide), hclose, ok_bind]
      rfl

/-- A program with the descriptor 0 in both masks. -/
theorem flushes_exactly_iff_first : FlushesExactly ⟨none, 1, 0b111, id⟩ :=
  (flushes_exactly_iff (f := ⟨none, 1, 0b111, id⟩) (by decide) (by decide)).mpr (Nat.le_refl 1)

/-- With the descriptor 3 in both masks nothing is closed, and both masks stay as they are. The bit
is compared with 1, and its value is 8. -/
theorem flush_misses_three :
    (∀ t root, flushOldFiles t root ⟨none, 0b1000, 0b1111, id⟩
      = .ok (⟨none, 0b1000, 0b1111, id⟩, t)) ∧
    ¬FlushesExactly ⟨none, 0b1000, 0b1111, id⟩ := by
  have hsame : ∀ t root, flushOldFiles t root ⟨none, 0b1000, 0b1111, id⟩
      = .ok (⟨none, 0b1000, 0b1111, id⟩, t) := by
    intro t root
    rw [flushOldFiles_eq]
    rfl
  refine ⟨hsame, fun h => ?_⟩
  obtain ⟨t', hclose⟩ : ∃ t',
      closeFiles manyUsers 0 (filesOnExec ⟨none, 0b1000, 0b1111, id⟩) = .ok t' :=
    closeFiles_returns fun _ => (by decide : (1 : Int) < 100 ∧ (100 : Int) < 2 ^ 31)
  have hflush := h manyUsers 0 t' hclose
  rw [hsame] at hflush
  have hcoe : 0b1000 = 0 := congrArg (fun r => r.1.closeOnExec) (Except.ok.inj hflush)
  exact absurd hcoe (by decide)

end Fizzos.Proofs
