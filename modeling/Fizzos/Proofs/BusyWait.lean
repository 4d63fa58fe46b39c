import Fizzos.Device.IdeTransfer

/-!
# `Fizzos.Proofs.BusyWait`: polling the drive

`busy_wait` counts down from 30000 in steps of 10, in a `uint16_t`. The counter is compared with 0
as an `int`, and is never below it (`busyWaitLoop_succ`). So the count does not end the loop, and
the wait returns exactly when the drive stops being busy (`busyWait_returns`).

`GivesUp` is what a wait with a limit of 3000 polls does. The code does this for the drives that
stop being busy within the limit, and for no others (`busyWait_givesUp_iff`).
-/

set_option autoImplicit false

namespace Fizzos.Proofs

open Fizzos.Device

/-- The drive is busy at poll `k`. -/
def Busy (status : Nat → BitVec 8) (k : Nat) : Prop := status k &&& BIT_STAT_BSY ≠ 0

/-- The drive has data, or wants it, at the read behind poll `k`. -/
def drqBehind (status : Nat → BitVec 8) (k : Nat) : Bool :=
  decide (status (k + 1) &&& BIT_STAT_DRQ ≠ 0)

/-- `k` is the first poll at which the drive is not busy. -/
def FirstReady (status : Nat → BitVec 8) (k : Nat) : Prop :=
  (∀ j < k, Busy status j) ∧ ¬Busy status k

instance (status : Nat → BitVec 8) (k : Nat) : Decidable (Busy status k) :=
  inferInstanceAs (Decidable (_ ≠ _))

section
variable {status : Nat → BitVec 8} {fuel timeLimit k polls : Nat} {answer : Bool}

/-- A poll. The `uint16_t` is never below 0, so the limit does not end the loop. -/
theorem busyWaitLoop_succ (status : Nat → BitVec 8) (fuel timeLimit k : Nat) :
    busyWaitLoop status (fuel + 1) timeLimit k =
      if Busy status k then
        busyWaitLoop status fuel ((timeLimit + 2 ^ 16 - 10) % 2 ^ 16) (k + 1)
      else .ok (drqBehind status k, k + 1) := by
  have hcount : (((timeLimit + 2 ^ 16 - 10) % 2 ^ 16 : Nat) : Int) ≥ 0 := Int.natCast_nonneg _
  rw [busyWaitLoop, if_pos hcount]
  by_cases hk : Busy status k
  · rw [if_pos hk, if_neg hk]
  · rw [if_neg hk, if_pos (not_not.mp hk)]
    rfl

/-- The loop polls up to the first time that the drive is not busy. -/
theorem busyWaitLoop_ok (hfirst : FirstReady status (k + polls)) (hfuel : polls < fuel) :
    busyWaitLoop status fuel timeLimit k = .ok (drqBehind status (k + polls), k + polls + 1) := by
  induction polls generalizing fuel timeLimit k with
  | zero =>
      obtain ⟨fuel, rfl⟩ : ∃ n, fuel = n + 1 := ⟨fuel - 1, by omega⟩
      rw [Nat.add_zero] at hfirst
      rw [busyWaitLoop_succ, if_neg hfirst.2]
      rfl
  | succ polls ih =>
      -- the drive is busy at poll `k`, and its first ready poll is one nearer from `k + 1`
      obtain ⟨fuel, rfl⟩ : ∃ n, fuel = n + 1 := ⟨fuel - 1, by omega⟩
      rw [busyWaitLoop_succ, if_pos (hfirst.1 k (by omega))]
      rw [← Nat.add_assoc, Nat.add_right_comm] at hfirst ⊢
      exact ih hfirst (by omega)

/-- A loop that returns has seen the drive not busy. -/
theorem busyWaitLoop_eq_ok (hok : busyWaitLoop status fuel timeLimit k = .ok (answer, polls))
    (hbusy : ∀ j < k, Busy status j) :
    ∃ j, FirstReady status j ∧ answer = drqBehind status j ∧ polls = j + 1 := by
  induction fuel generalizing timeLimit k with
  | zero => cases hok
  | succ fuel ih =>
      rw [busyWaitLoop_succ] at hok
      by_cases hk : Busy status k
      · rw [if_pos hk] at hok
        -- the polls below `k + 1` are those below `k`, and `k`
        refine ih hok fun j hj => ?_
        rcases Nat.lt_succ_iff_lt_or_eq.mp hj with hlt | rfl
        · exact hbusy j hlt
        · exact hk
      · rw [if_neg hk] at hok
        cases hok
        exact ⟨k, ⟨hbusy, hk⟩, rfl, rfl⟩

/-- There is one first poll. -/
theorem FirstReady.unique {j : Nat} (hj : FirstReady status j) (hk : FirstReady status k) :
    j = k := by
  rcases Nat.lt_trichotomy j k with hlt | heq | hgt
  · exact absurd (hk.1 j hlt) hj.2
  · exact heq
  · exact absurd (hj.1 k hgt) hk.2

theorem exists_firstReady (hk : ¬Busy status k) : ∃ j ≤ k, FirstReady status j := by
  induction k using Nat.strong_induction_on with
  | _ k ih =>
      by_cases hearlier : ∃ j < k, ¬Busy status j
      · obtain ⟨j, hlt, hj⟩ := hearlier
        obtain ⟨i, hi, hfirst⟩ := ih j hlt hj
        exact ⟨i, by omega, hfirst⟩
      · exact ⟨k, Nat.le_refl k, fun j hj => by_contra fun h => hearlier ⟨j, hj, h⟩, hk⟩

/-- The wait, when the drive stops being busy. -/
theorem busyWait_ok (hfirst : FirstReady status k) (hfuel : k < fuel) :
    busyWait status fuel = .ok (drqBehind status k, k + 1) := by
  rw [← Nat.zero_add k] at hfirst ⊢
  exact busyWaitLoop_ok hfirst hfuel

/-- A wait returns exactly when the drive stops being busy at some poll, however late. -/
theorem busyWait_returns : (∃ fuel r, busyWait status fuel = .ok r) ↔ ∃ k, ¬Busy status k := by
  constructor
  · rintro ⟨fuel, ⟨answer, polls⟩, hok⟩
    obtain ⟨j, hfirst, -⟩ := busyWaitLoop_eq_ok hok fun j hj => absurd hj (Nat.not_lt_zero j)
    exact ⟨j, hfirst.2⟩
  · rintro ⟨k, hk⟩
    obtain ⟨j, -, hfirst⟩ := exists_firstReady hk
    exact ⟨j + 1, _, busyWait_ok hfirst (Nat.lt_succ_self j)⟩

/-- A wait for a drive that is ready at once. -/
theorem busyWait_ready (fuel : Nat) (hready : ¬Busy status 0 ∧ drqBehind status 0 = true) :
    busyWait status (fuel + 1) = .ok (true, 1) := by
  rw [busyWait_ok ⟨fun j hj => absurd hj (Nat.not_lt_zero j), hready.1⟩
    (Nat.succ_pos fuel), hready.2]

end

/-! ### The limit -/

/-- The number of polls in 30000 in steps of 10. -/
def POLLS : Nat := 3000

/-- A wait that gives up: it returns after at most 3000 polls, with DRQ when the drive stops being
busy within the limit, and with false otherwise. -/
def GivesUp (status : Nat → BitVec 8) : Prop :=
  ∃ fuel answer polls, busyWait status fuel = .ok (answer, polls) ∧ polls ≤ POLLS ∧
    (∀ k < POLLS, FirstReady status k → answer = drqBehind status k) ∧
    ((∀ k < POLLS, Busy status k) → answer = false)

/-- The drive is never ready: busy, or without DRQ. -/
def NeverReady (status : Nat → BitVec 8) : Prop :=
  ∀ k, Busy status k ∨ drqBehind status k = false

/-- `ide_read` and `ide_write` reach their error branch when a drive is never ready. -/
def ReachesError (status : Nat → BitVec 8) : Prop :=
  NeverReady status → ∀ hd lba buf secCnt, 1 ≤ secCnt → lba + secCnt - 1 ≤ MAX_LBA →
    ∃ fuel, ideReadPorts ⟨hd, lba, buf, secCnt, fun _ => status⟩ fuel = .error .panic ∧
      ideWritePorts ⟨hd, lba, buf, secCnt, fun _ => status⟩ fuel = .error .panic

section
variable {status : Nat → BitVec 8} {k : Nat}

/-- The first wait of a call has the answer false. -/
theorem transferLoop_panics {call : IdeCall} {cmd fuel polls : Nat}
    {data : IdeDisk → Nat → Nat → PortOp} (hcnt : 1 ≤ call.secCnt) (hlba : call.lba ≤ MAX_LBA)
    (hwait : busyWait (call.status 0) fuel = .ok (false, polls)) (rounds : Nat) :
    transferLoop call cmd data fuel (rounds + 1) 0 0 = .error .panic := by
  have hmax : MAX_LBA = 163839 := rfl
  have hfirst : (call.lba + 0) % 2 ^ 32 ≤ MAX_LBA := by omega
  rw [transferLoop, if_pos (Nat.lt_of_succ_le hcnt)]
  simp only [selectSector, ASSERT_true hfirst, ok_bind, pure_eq_ok, hwait]
  rfl

/-- A drive that stops being busy with DRQ clear leads to the error branch. -/
theorem reachesError_of_firstReady (hfirst : FirstReady status k) : ReachesError status := by
  intro hnever hd lba buf secCnt hcnt hmax
  have hdrq : drqBehind status k = false := (hnever k).resolve_left hfirst.2
  have hwait := busyWait_ok hfirst (Nat.lt_succ_self k)
  rw [hdrq] at hwait
  have hlba : lba ≤ MAX_LBA := by omega
  have hpos : secCnt > 0 := hcnt
  refine ⟨k + 1, ?_, ?_⟩
  · rw [ideReadPorts, if_neg (Nat.not_lt.mpr hlba), ASSERT_true hpos, ok_bind,
      transferLoop_panics hcnt hlba hwait]
    rfl
  · rw [ideWritePorts, ASSERT_true hlba, ok_bind, ASSERT_true hpos, ok_bind,
      transferLoop_panics hcnt hlba hwait]
    rfl

end

/-- The wait gives up, and a drive that is never ready leads to the error branch, exactly for the
drives that stop being busy at one of the first 3000 polls. -/
theorem busyWait_givesUp_iff (status : Nat → BitVec 8) :
    GivesUp status ∧ ReachesError status ↔ ∃ k < POLLS, ¬Busy status k := by
  constructor
  · rintro ⟨⟨fuel, answer, polls, hok, hle, -⟩, -⟩
    obtain ⟨j, hfirst, -, rfl⟩ := busyWaitLoop_eq_ok hok fun j hj => absurd hj (Nat.not_lt_zero j)
    exact ⟨j, hle, hfirst.2⟩
  · rintro ⟨k, hlt, hk⟩
    obtain ⟨j, hle, hfirst⟩ := exists_firstReady hk
    refine ⟨⟨j + 1, _, _, busyWait_ok hfirst (Nat.lt_succ_self j), by omega, ?_, ?_⟩,
      reachesError_of_firstReady hfirst⟩
    -- the first ready poll of the limit is the one that the wait has found
    · intro i _ hi
      rw [hi.unique hfirst]
    · exact fun hbusy => absurd (hbusy k hlt) hk

/-- A drive that stays busy: the wait does not return, and `ide_read` does not reach its error
branch. The counter is unsigned, so it is never below 0. -/
theorem busyWait_stuck :
    (∀ fuel, busyWait (fun _ => 0x80) fuel = .error .hang) ∧
      ¬GivesUp (fun _ => 0x80) ∧ ¬ReachesError (fun _ => 0x80) := by
  have hbusy : ∀ k, Busy (fun _ => 0x80) k := fun _ => by
    show (0x80 : BitVec 8) &&& BIT_STAT_BSY ≠ 0
    decide
  have hloop : ∀ fuel timeLimit k, busyWaitLoop (fun _ => 0x80) fuel timeLimit k
      = .error .hang := by
    intro fuel
    induction fuel with
    | zero => exact fun _ _ => rfl
    | succ fuel ih =>
        intro timeLimit k
        rw [busyWaitLoop_succ, if_pos (hbusy k)]
        exact ih _ _
  have hwait : ∀ fuel, busyWait (fun _ => 0x80) fuel = .error .hang := fun fuel => hloop fuel _ _
  refine ⟨hwait, ?_, fun hreach => ?_⟩
  · rintro ⟨fuel, answer, polls, hok, -⟩
    rw [hwait] at hok
    cases hok
  -- a drive that stays busy is never ready, and `ide_read` hangs in its first wait
  · obtain ⟨fuel, hread, -⟩ :=
      hreach (fun k => .inl (hbusy k)) ⟨0x1f0, 1⟩ 0 0 1 (Nat.le_refl 1) (Nat.zero_le _)
    simp only [ideReadPorts, transferLoop, hwait] at hread
    cases hread

end Fizzos.Proofs
