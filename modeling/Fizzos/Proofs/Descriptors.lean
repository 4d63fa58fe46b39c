import Fizzos.Fs.Descriptors
import Fizzos.Proofs.OpenPath

/-!
# `Fizzos.Proofs.Descriptors`: which descriptors the calls accept

An open descriptor is below 32 and has its bit set. The bit test alone does not tell 32 from 0, and
the calls do not compare with 32. So they take a descriptor from 32 on for the open one that it
wraps to, and read behind `fd_array` (`validates_iff`).
-/

set_option autoImplicit false

namespace Fizzos.Proofs

open Fizzos.Device
open Fizzos.Fs
open Fizzos.Kernel
open Fizzos.Support

/-- The process has the descriptor open. -/
def IsOpenFd (files : FdTable) (fd : Int) : Prop :=
  0 ≤ fd ∧ fd < P_MAX_FILE_COUNT ∧ files.openFds.testBit fd.toNat = true

/-- The calls accept open descriptors only. -/
structure Validates (io : Io) (rootDir : Nat) (fd : Int) : Prop where
  badf : (∃ io', sysClose io rootDir fd = .ok (-EBADF, io')) ↔ ¬IsOpenFd io.files fd
  close : ∀ i, closeIndex io.files.openFds fd = some i → IsOpenFd io.files i
  transfer : ∀ i, transferIndex io.files.openFds fd = .ok (some i) → IsOpenFd io.files i

section
variable {openFds : Nat} {fd i : Int}

theorem fdBit_eq_zero : openFds &&& fdBit fd = 0 ↔ openFds.testBit (fd % 32).toNat = false := by
  rw [Nat.and_comm, fdBit, bit_and_eq_zero]

/-- The bit that a descriptor below 32 is tested for is its own. -/
theorem fd_mod (hlo : 0 ≤ fd) (hhi : fd < 32) : fd % 32 = fd := Int.emod_eq_of_lt hlo hhi

/-- `sys_read` and `sys_write` go on exactly when the descriptor is not negative and the bit that it
wraps to is set. -/
theorem transferIndex_eq_some : transferIndex openFds fd = .ok (some i) ↔
    fd = i ∧ 0 ≤ fd ∧ openFds.testBit (fd % 32).toNat = true := by
  rw [transferIndex]
  by_cases hneg : fd < 0
  · rw [if_pos hneg, pure_eq_ok, Except.ok.injEq]
    exact iff_of_false (by simp) fun h => absurd h.2.1 (by omega)
  · rw [if_neg hneg, bind_eq_ok]
    simp only [ASSERT_eq_ok, Ne, fdBit_eq_zero, Bool.not_eq_false, pure_eq_ok, Except.ok.injEq,
      Option.some.injEq, exists_const]
    constructor
    · rintro ⟨hset, rfl⟩
      exact ⟨rfl, by omega, hset⟩
    · rintro ⟨rfl, -, hset⟩
      exact ⟨hset, rfl⟩

/-- `sys_close` goes on below 64 only. -/
theorem closeIndex_eq_some : closeIndex openFds fd = some i ↔
    fd = i ∧ 0 ≤ fd ∧ fd < 64 ∧ openFds.testBit (fd % 32).toNat = true := by
  have hmax : (MAX_FILE_COUNT : Int) = 64 := rfl
  rw [closeIndex]
  split
  next hbad =>
    refine iff_of_false (by simp) ?_
    rintro ⟨-, hlo, hhi, hset⟩
    rcases hbad with hneg | hlarge | hclear
    · omega
    · omega
    · rw [fdBit_eq_zero, hset] at hclear
      cases hclear
  next hgood =>
    rw [not_or, not_or, fdBit_eq_zero, Bool.not_eq_false] at hgood
    rw [Option.some.injEq]
    exact ⟨fun heq => ⟨heq, by omega, by omega, hgood.2.2⟩, fun h => h.1⟩

theorem closeIndex_eq_none : closeIndex openFds fd = none ↔
    ¬(0 ≤ fd ∧ fd < 64 ∧ openFds.testBit (fd % 32).toNat = true) := by
  rw [Option.eq_none_iff_forall_ne_some]
  constructor
  · exact fun h hgood => h fd (closeIndex_eq_some.mpr ⟨rfl, hgood⟩)
  · exact fun h i hsome => h (closeIndex_eq_some.mp hsome).2

end

section
variable {io io' : Io} {rootDir : Nat} {fd ret : Int}

/-- `sys_close` returns `-EBADF` from its check only. -/
theorem sysClose_badf : (∃ io', sysClose io rootDir fd = .ok (-EBADF, io')) ↔
    closeIndex io.files.openFds fd = none := by
  rw [sysClose]
  cases hindex : closeIndex io.files.openFds fd with
  | none => exact iff_of_true ⟨io, rfl⟩ rfl
  | some i =>
      refine iff_of_false ?_ (by simp)
      rintro ⟨io', hok⟩
      dsimp only at hok
      obtain ⟨f, -, hok⟩ := bind_eq_ok.mp hok
      obtain ⟨table, -, hok⟩ := bind_eq_ok.mp hok
      obtain ⟨files, -, hok⟩ := bind_eq_ok.mp hok
      have hret := congrArg Prod.fst (Except.ok.inj hok)
      exact absurd hret (show ¬(0 : Int) = -EBADF by decide)

end

/-- For every descriptor and every mask, the calls accept open descriptors only, exactly when the
descriptor is below 32 or the bit that it wraps to is clear. -/
theorem validates_iff (io : Io) (rootDir : Nat) (fd : Int) :
    Validates io rootDir fd ↔
      fd < 32 ∨ io.files.openFds.testBit (fd % 32).toNat = false := by
  have hmax : (P_MAX_FILE_COUNT : Int) = 32 := rfl
  constructor
  · intro h
    by_contra hwrong
    rw [not_or, Bool.not_eq_false] at hwrong
    have hopen := h.transfer fd (transferIndex_eq_some.mpr ⟨rfl, by omega, hwrong.2⟩)
    exact absurd hopen.2.1 (by omega)
  · intro hcond
    -- the check that goes on has an open descriptor
    have hopen : 0 ≤ fd → io.files.openFds.testBit (fd % 32).toNat = true →
        IsOpenFd io.files fd := by
      intro hlo hset
      rcases hcond with hlt | hclear
      · rw [fd_mod hlo hlt] at hset
        exact ⟨hlo, by omega, hset⟩
      · rw [hset] at hclear
        cases hclear
    refine ⟨?_, fun i hi => ?_, fun i hi => ?_⟩
    · rw [sysClose_badf, closeIndex_eq_none, not_iff_not]
      constructor
      · exact fun h => hopen h.1 h.2.2
      · rintro ⟨hlo, hhi, hset⟩
        rw [fd_mod hlo (by omega)]
        exact ⟨hlo, by omega, hset⟩
    · obtain ⟨rfl, hlo, -, hset⟩ := closeIndex_eq_some.mp hi
      exact hopen hlo hset
    · obtain ⟨rfl, hlo, hset⟩ := transferIndex_eq_some.mp hi
      exact hopen hlo hset

/-- A process that has only the descriptor 0 open. -/
def onlyStdin : Io where
  table := rootOpen.table
  fMode := fun _ => FT_KEYBOARD
  keyboard := ⟨mutexLockInit, condInit, condInit, 0, fun _ => 0, 101, 100, 0⟩
  files := ⟨1, fun i => if i = 0 then some 0 else none⟩

/-- `sys_close` and `sys_read` take 32 for an open descriptor of it, and read behind `fd_array`. The
bit of 32 is the one of 0, and `sys_close` compares with the size of the other table. -/
theorem descriptor_32_accepted : sysClose onlyStdin 64 32 = .error .outOfBounds ∧
    sysRead onlyStdin 32 (fun _ => 0) 1 (fun _ => 0) 0 = .error .outOfBounds ∧
    ¬Validates onlyStdin 64 32 := by
  refine ⟨rfl, rfl, fun h => ?_⟩
  have hopen := h.transfer 32 rfl
  exact absurd hopen.2.1 (by decide)

end Fizzos.Proofs
