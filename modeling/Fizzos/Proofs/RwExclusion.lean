import Fizzos.Proofs.RwLock
import Mathlib.Data.Finset.Card

/-!
# `Fizzos.Proofs.RwExclusion`: who is inside a read-write lock

`RwCounted` says what `count` counts: the open read sections, or one writer. It holds in every
reachable state, so a writer is alone inside (`rwlock_exclusion`).

The assertion of `rwlock_write_release` also asks for `ready_write`. Only a writer that goes to
sleep sets it, so a writer that finds the lock free and the flag clear cannot leave again.
`RwState.Marked` excludes such rounds, and then no assertion fails (`rwlock_marked_asserts`).
-/

set_option autoImplicit false

namespace Fizzos.Proofs

open Fizzos.Kernel
open Fizzos.Support

/-- `count` is the number of open read sections, or it stands for one writer. An `int` wraps
around after `2 ^ 31 - 1` read sections, and then nobody comes in any more. -/
def RwCounted (s : RwState) : Prop :=
  (s.writers = [] ∧ s.lock.count = wrap32 s.readers.length ∧ s.readers.length ≤ 2 ^ 31) ∨
  (∃ w, s.writers = [w] ∧ s.readers = [] ∧ s.lock.count = -1)

/-- Fewer than `2 ^ 31` holders are counted by an `int`. -/
theorem wrap32_length {n : Nat} (h : n < 2 ^ 31) : wrap32 n = n :=
  wrap32_eq (by omega) (by omega)

/-- One more is a negative count, which the code takes for a writer. -/
theorem wrap32_two_pow : wrap32 ((2 ^ 31 : Nat) : Int) = -2 ^ 31 := rfl

/-- After the overflow `count` is as small as it can be. -/
theorem length_cases {n : Nat} (h : n ≤ 2 ^ 31) :
    (n < 2 ^ 31 ∧ wrap32 n = n) ∨ (n = 2 ^ 31 ∧ wrap32 n = -2 ^ 31) := by
  rcases Nat.lt_or_eq_of_le h with hlt | heq
  · exact .inl ⟨hlt, wrap32_length hlt⟩
  · exact .inr ⟨heq, heq ▸ wrap32_two_pow⟩

namespace RwCounted

variable {s s' : RwState} {t : Tid}

/-- With `count ≥ 0` no writer is inside, and `count` is the number of read sections. -/
theorem of_nonneg (h : RwCounted s) (hcount : 0 ≤ s.lock.count) :
    s.writers = [] ∧ s.lock.count = s.readers.length ∧ s.readers.length < 2 ^ 31 := by
  rcases h with ⟨hw, hc, hlen⟩ | ⟨w, -, -, hc⟩
  · rcases length_cases hlen with ⟨hlt, hwrap⟩ | ⟨-, hwrap⟩
    · exact ⟨hw, hc.trans hwrap, hlt⟩
    · omega
  · omega

theorem start : RwCounted RwState.start := .inl (by simp [RwState.start, rwlockInit, wrap32])

/-- A reader that comes in is counted. -/
theorem tryRead (h : RwCounted s) : RwCounted (s.tryRead t) := by
  by_cases hcond : s.lock.count < 0 ∨ s.lock.readyWrite = true
  · rw [tryRead_sleep hcond]
    exact h
  · obtain ⟨hw, hcount, hlt⟩ := h.of_nonneg (by omega)
    rw [tryRead_enter hcond]
    refine .inl ⟨hw, ?_, hlt⟩
    show wrap32 (s.lock.count + 1) = wrap32 (s.readers.length + 1 : Nat)
    rw [hcount, Nat.cast_succ]

/-- A writer that comes in was alone. -/
theorem tryWrite (h : RwCounted s) : RwCounted (s.tryWrite t) := by
  by_cases hfree : s.lock.count = 0
  · obtain ⟨hw, hcount, -⟩ := h.of_nonneg hfree.ge
    have hnil : s.readers = [] := List.length_eq_zero_iff.mp (by omega)
    rw [tryWrite_enter hfree]
    exact .inr ⟨t, congrArg (t :: ·) hw, hnil, rfl⟩
  · rw [tryWrite_sleep hfree]
    exact h

theorem readRelease (h : RwCounted s) (hmem : t ∈ s.readers) (hstep : s.readRelease t = .ok s') :
    RwCounted s' := by
  simp only [RwState.readRelease, bind_eq_ok, pure_eq_ok, Except.ok.injEq] at hstep
  obtain ⟨⟨l', woken⟩, hrelease, rfl⟩ := hstep
  obtain ⟨hpos, hcount, -⟩ := rwlockReadRelease_ok hrelease
  obtain ⟨hw, hlen, hlt⟩ := h.of_nonneg hpos.le
  have herase : (s.readers.erase t).length = s.readers.length - 1 := List.length_erase_of_mem hmem
  refine .inl ⟨hw, ?_, ?_⟩
  · show l'.count = wrap32 ((s.readers.erase t).length : Nat)
    rw [hcount, hlen, herase, Nat.cast_sub (by omega), Nat.cast_one]
  · show (s.readers.erase t).length ≤ 2 ^ 31
    omega

theorem writeRelease (h : RwCounted s) (hmem : t ∈ s.writers)
    (hstep : s.writeRelease t = .ok s') : RwCounted s' := by
  simp only [RwState.writeRelease, bind_eq_ok, pure_eq_ok, Except.ok.injEq] at hstep
  obtain ⟨⟨l', woken⟩, hrelease, rfl⟩ := hstep
  obtain ⟨-, hfree, -⟩ := rwlockWriteRelease_ok hrelease
  rcases h with ⟨hw, -, -⟩ | ⟨w, hw, hr, -⟩
  · rw [hw] at hmem
    exact absurd hmem (by simp)
  · obtain rfl : t = w := by simpa [hw] using hmem
    refine .inl ⟨?_, ?_, ?_⟩
    · show s.writers.erase t = []
      simp [hw]
    · show l'.count = wrap32 (s.readers.length : Nat)
      rw [hfree, hr]
      rfl
    · show s.readers.length ≤ 2 ^ 31
      simp [hr]

/-- Every action keeps the count. -/
theorem next {a : RwAct} (h : RwCounted s) (henabled : s.Enabled a) (hnext : s.next a = .ok s') :
    RwCounted s' := by
  cases a with
  | readAcquire t =>
      cases hnext
      exact h.tryRead
  | readRelease t => exact h.readRelease henabled.2 hnext
  | writeAcquire t =>
      cases hnext
      exact h.tryWrite
  | writeRelease t => exact h.writeRelease henabled.2 hnext
  | retry t =>
      simp only [RwState.next] at hnext
      cases hphase : s.phase t with
      | idle =>
          rw [hphase] at hnext
          cases hnext
          exact h
      | readWait =>
          rw [hphase] at hnext
          cases hnext
          exact h.tryRead
      | writeWait =>
          rw [hphase] at hnext
          cases hnext
          exact h.tryWrite

end RwCounted

/-- The count agrees with the holders in every run. -/
theorem rwSystem_counted : rwSystem.Inductive RwCounted where
  init hinit := by
    cases hinit
    exact RwCounted.start
  step h henabled hnext := h.next henabled hnext

/-- Exclusion, in every reachable state. `count` is -1 exactly when one writer and nobody else is
inside. It is `n ≥ 0` exactly when `n` read sections are open and no writer is inside, for each
`n` that an `int` can hold. When no thread has two read sections open, and there are no more
readers than pids, this is the number of threads that read. So a writer is alone inside. -/
theorem rwlock_exclusion {s : RwState} (hs : rwSystem.Reachable s) :
    (s.lock.count = -1 ↔ (∃ w, s.writers = [w]) ∧ s.readers = []) ∧
    (∀ n : Nat, n < 2 ^ 31 → (s.lock.count = n ↔ s.readers.length = n ∧ s.writers = [])) ∧
    (s.readers.Nodup → s.readers.length ≤ MAX_PID →
      ∀ n : Nat, s.lock.count = n ↔ s.readers.toFinset.card = n ∧ s.writers = []) ∧
    ∀ w ∈ s.writers, s.writers = [w] ∧ s.readers = [] := by
  have h := rwSystem_counted.reachable hs
  have hcount : ∀ n : Nat, n < 2 ^ 31 →
      (s.lock.count = n ↔ s.readers.length = n ∧ s.writers = []) := by
    intro n hn
    constructor
    · intro heq
      obtain ⟨hw, hlen, -⟩ := h.of_nonneg (by omega)
      exact ⟨by omega, hw⟩
    · rintro ⟨rfl, hw⟩
      rcases h with ⟨-, hc, -⟩ | ⟨w, hw', -⟩
      · exact hc.trans (wrap32_length hn)
      · exact absurd (hw.symm.trans hw') (by simp)
  refine ⟨⟨fun heq => ?_, ?_⟩, hcount, fun hnodup hlen n => ?_, fun w hw => ?_⟩
  · rcases h with ⟨-, hc, hlen⟩ | ⟨w, hw, hr, -⟩
    · -- no number of read sections wraps to -1
      rcases length_cases hlen with ⟨-, hwrap⟩ | ⟨-, hwrap⟩ <;> omega
    · exact ⟨⟨w, hw⟩, hr⟩
  · rintro ⟨⟨w, hw⟩, -⟩
    rcases h with ⟨hw', -⟩ | ⟨w', -, -, hc⟩
    · exact absurd (hw'.symm.trans hw) (by simp)
    · exact hc
  · rw [List.toFinset_card_of_nodup hnodup]
    have hmax : MAX_PID < 2 ^ 31 := by decide
    by_cases hn : n < 2 ^ 31
    · exact hcount n hn
    · constructor
      · intro heq
        have hlt := (h.of_nonneg (by omega)).2
        omega
      · rintro ⟨rfl, -⟩
        omega
  · rcases h with ⟨hw', -⟩ | ⟨w', hw', hr, -⟩
    · rw [hw'] at hw
      exact absurd hw (by simp)
    · obtain rfl : w = w' := by simpa [hw'] using hw
      exact ⟨hw', hr⟩

/-- A writer takes the free lock: it is alone. Two readers take it: `count` is two. -/
theorem rwlock_exclusion_writer :
    (∃ s, rwSystem.Reachable s ∧ s.lock.count = -1 ∧ (∃ w, s.writers = [w]) ∧ s.readers = []) ∧
      ∃ s, rwSystem.Reachable s ∧ s.lock.count = 2 ∧ s.readers.toFinset.card = 2 ∧
        s.writers = [] := by
  have hwrite : rwSystem.Reachable ([.writeAcquire 1].foldl rwSystem.after RwState.start) :=
    (System.Reachable.init rfl).runs (by decide)
  have hread : rwSystem.Reachable
      ([.readAcquire 1, .readAcquire 2].foldl rwSystem.after RwState.start) :=
    (System.Reachable.init rfl).runs (by decide)
  exact ⟨⟨_, hwrite, by decide, (rwlock_exclusion hwrite).1.mp (by decide)⟩, _, hread, by decide,
    ((rwlock_exclusion hread).2.2.1 (by decide) (by decide) 2).mp (by decide)⟩

/-- A thread that takes the lock twice as a reader counts twice: `count` is 2, and one thread is
inside. -/
theorem rwlock_nested_read :
    ¬∀ s, rwSystem.Reachable s → (s.lock.count = -1 ↔ (∃ w, s.writers = [w]) ∧ s.readers = []) ∧
      ∀ n : Nat, s.lock.count = n ↔ s.readers.toFinset.card = n ∧ s.writers = [] := by
  intro hall
  have henter : rwSystem.enabled RwState.start (.readAcquire 1) := rfl
  have honce := System.Reachable.step (.init rfl) henter rfl
  have hagain : rwSystem.enabled (RwState.start.tryRead 1) (.readAcquire 1) := rfl
  have htwice := System.Reachable.step honce hagain rfl
  have hcount : ((RwState.start.tryRead 1).tryRead 1).lock.count = (2 : Nat) := rfl
  obtain ⟨hcard, -⟩ := ((hall _ htwice).2 2).mp hcount
  exact absurd hcard (by decide)

/-! ### The assertions -/

end Fizzos.Proofs

namespace Fizzos.Kernel.RwState

variable (s : RwState)

/-- A round of the loop of `rwlock_write_acquire` that finds the lock free. -/
def TakesWrite : RwAct → Prop
  | .writeAcquire _ => s.lock.count = 0
  | .retry t => s.phase t = .writeWait ∧ s.lock.count = 0
  | _ => False

/-- A round of the loop of `rwlock_read_acquire` that lets the reader in. -/
def TakesRead : RwAct → Prop
  | .readAcquire _ => ¬(s.lock.count < 0 ∨ s.lock.readyWrite = true)
  | .retry t => s.phase t = .readWait ∧ ¬(s.lock.count < 0 ∨ s.lock.readyWrite = true)
  | _ => False

/-- A writer that comes in finds `ready_write` set, and a reader that comes in does not overflow
`count`. -/
def Marked (a : RwAct) : Prop :=
  (s.TakesWrite a → s.lock.readyWrite = true) ∧
    (s.TakesRead a → s.readers.length + 1 < 2 ^ 31)

instance (a : RwAct) : Decidable (s.TakesWrite a) :=
  match a with
  | .writeAcquire _ => Int.instDecidableEq s.lock.count 0
  | .retry _ => @instDecidableAnd _ _ (instDecidableEqRwPhase _ _) (Int.instDecidableEq _ _)
  | .readAcquire _ | .readRelease _ | .writeRelease _ => instDecidableFalse

instance (a : RwAct) : Decidable (s.TakesRead a) :=
  match a with
  | .readAcquire _ => inferInstanceAs (Decidable ¬_)
  | .retry _ => inferInstanceAs (Decidable (_ ∧ ¬_))
  | .readRelease _ | .writeAcquire _ | .writeRelease _ => instDecidableFalse

instance (a : RwAct) : Decidable (s.Marked a) := inferInstanceAs (Decidable (_ ∧ _))

end Fizzos.Kernel.RwState

namespace Fizzos.Proofs

open Fizzos.Kernel
open Fizzos.Support

/-- A release that finds its mode in `count` returns. -/
theorem exists_rwlockReadRelease {l : RwLock} (hcount : l.count > 0) :
    ∃ r, rwlockReadRelease l = .ok r := by
  simp only [rwlockReadRelease, ASSERT_true hcount, ok_bind]
  split
  · split <;> exact ⟨_, rfl⟩
  · exact ⟨_, rfl⟩

/-- `write_release` returns when the writer is counted and marked. -/
theorem exists_rwlockWriteRelease {l : RwLock} (hcount : l.count = -1)
    (hready : l.readyWrite = true) : ∃ r, rwlockWriteRelease l = .ok r := by
  have hassert : l.count = -1 ∧ l.readyWrite = true := ⟨hcount, hready⟩
  simp only [rwlockWriteRelease, ASSERT_true hassert, ok_bind]
  split <;> exact ⟨_, rfl⟩

/-- A writer inside has `ready_write` set, and `count` did not overflow. -/
structure RwMarked (s : RwState) : Prop where
  counted : RwCounted s
  ready : s.writers ≠ [] → s.lock.readyWrite = true
  readers_lt : s.readers.length < 2 ^ 31

namespace RwMarked

variable {s s' : RwState} {t : Tid}

theorem start : RwMarked RwState.start :=
  ⟨RwCounted.start, fun h => absurd rfl h, by simp [RwState.start]⟩

/-- A reader comes in when no writer is in and none is marked. The count goes up by one, and it has
to fit into the `int`. -/
theorem tryRead (h : RwMarked s)
    (hlen : ¬(s.lock.count < 0 ∨ s.lock.readyWrite = true) → s.readers.length + 1 < 2 ^ 31) :
    RwMarked (s.tryRead t) := by
  have hcounted := h.counted.tryRead (t := t)
  by_cases hcond : s.lock.count < 0 ∨ s.lock.readyWrite = true
  · rw [tryRead_sleep hcond] at hcounted ⊢
    exact ⟨hcounted, h.ready, h.readers_lt⟩
  · rw [tryRead_enter hcond] at hcounted ⊢
    exact ⟨hcounted, h.ready, hlen hcond⟩

/-- A writer comes in when the count is zero, and then it has to be marked, or a reader could come
in behind it. -/
theorem tryWrite (h : RwMarked s) (hready : s.lock.count = 0 → s.lock.readyWrite = true) :
    RwMarked (s.tryWrite t) := by
  have hcounted := h.counted.tryWrite (t := t)
  by_cases hfree : s.lock.count = 0
  · rw [tryWrite_enter hfree] at hcounted ⊢
    exact ⟨hcounted, fun _ => hready hfree, h.readers_lt⟩
  · rw [tryWrite_sleep hfree] at hcounted ⊢
    exact ⟨hcounted, fun _ => rfl, h.readers_lt⟩

theorem readRelease (h : RwMarked s) (hmem : t ∈ s.readers) (hstep : s.readRelease t = .ok s') :
    RwMarked s' := by
  have hcounted := h.counted.readRelease hmem hstep
  simp only [RwState.readRelease, bind_eq_ok, pure_eq_ok, Except.ok.injEq] at hstep
  obtain ⟨⟨l', woken⟩, hrelease, rfl⟩ := hstep
  obtain ⟨-, -, hready, -⟩ := rwlockReadRelease_ok hrelease
  have herase : (s.readers.erase t).length ≤ s.readers.length := List.length_erase_le
  exact ⟨hcounted, fun hw => hready.trans (h.ready hw), Nat.lt_of_le_of_lt herase h.readers_lt⟩

theorem writeRelease (h : RwMarked s) (hmem : t ∈ s.writers)
    (hstep : s.writeRelease t = .ok s') : RwMarked s' := by
  have hcounted := h.counted.writeRelease hmem hstep
  simp only [RwState.writeRelease, bind_eq_ok, pure_eq_ok, Except.ok.injEq] at hstep
  obtain ⟨⟨l', woken⟩, hrelease, rfl⟩ := hstep
  obtain ⟨-, hfree, -⟩ := rwlockWriteRelease_ok hrelease
  -- the lock is free again, so nobody writes
  have hnone := (hcounted.of_nonneg hfree.ge).1
  exact ⟨hcounted, fun hw => absurd hnone hw, h.readers_lt⟩

/-- Every marked action keeps the invariant. -/
theorem next {a : RwAct} (h : RwMarked s) (henabled : s.Enabled a) (hmarked : s.Marked a)
    (hnext : s.next a = .ok s') : RwMarked s' := by
  obtain ⟨hwrite, hread⟩ := hmarked
  cases a with
  | readAcquire t =>
      cases hnext
      exact h.tryRead hread
  | readRelease t => exact h.readRelease henabled.2 hnext
  | writeAcquire t =>
      cases hnext
      exact h.tryWrite hwrite
  | writeRelease t => exact h.writeRelease henabled.2 hnext
  | retry t =>
      simp only [RwState.next] at hnext
      cases hphase : s.phase t with
      | idle =>
          rw [hphase] at hnext
          cases hnext
          exact h
      | readWait =>
          rw [hphase] at hnext
          cases hnext
          exact h.tryRead fun hcond => hread ⟨hphase, hcond⟩
      | writeWait =>
          rw [hphase] at hnext
          cases hnext
          exact h.tryWrite fun hfree => hwrite ⟨hphase, hfree⟩

/-- With the invariant no assertion fails. -/
theorem exists_next (h : RwMarked s) {a : RwAct} (henabled : s.Enabled a) :
    ∃ s', s.next a = .ok s' := by
  cases a with
  | readAcquire t => exact ⟨_, rfl⟩
  | writeAcquire t => exact ⟨_, rfl⟩
  | retry t =>
      simp only [RwState.next]
      cases s.phase t <;> exact ⟨_, rfl⟩
  | readRelease t =>
      have hpos : 0 < s.readers.length := List.length_pos_of_mem henabled.2
      have hcount : s.lock.count > 0 := by
        rcases h.counted with ⟨-, hc, -⟩ | ⟨w, -, hr, -⟩
        · rw [hc, wrap32_length h.readers_lt]
          omega
        · simp [hr] at hpos
      obtain ⟨r, hr⟩ := exists_rwlockReadRelease hcount
      exact ⟨_, by simp only [RwState.next, RwState.readRelease, hr, ok_bind]; rfl⟩
  | writeRelease t =>
      have hne : s.writers ≠ [] := List.ne_nil_of_mem henabled.2
      have hcount : s.lock.count = -1 := by
        rcases h.counted with ⟨hw, -⟩ | ⟨w, -, -, hc⟩
        · exact absurd hw hne
        · exact hc
      obtain ⟨r, hr⟩ := exists_rwlockWriteRelease hcount (h.ready hne)
      exact ⟨_, by simp only [RwState.next, RwState.writeRelease, hr, ok_bind]; rfl⟩

end RwMarked

/-- In every run in which writers find `ready_write` set, the mark is right. -/
theorem rwSystem_marked : (rwSystem.restrict RwState.Marked).Inductive RwMarked where
  init hinit := by
    cases hinit
    exact RwMarked.start
  step h henabled hnext := h.next henabled.1 henabled.2 hnext

/-- The steps that are not marked are of two kinds: a writer that takes the free lock without a
mark, and a reader that makes the count too large. -/
theorem not_marked {s : RwState} {a : RwAct} (h : ¬s.Marked a) :
    (s.TakesWrite a ∧ s.lock.readyWrite ≠ true) ∨
      (s.TakesRead a ∧ ¬s.readers.length + 1 < 2 ^ 31) := by
  rcases not_and_or.mp h with hwrite | hread
  · exact .inl (Classical.not_imp.mp hwrite)
  · exact .inr (Classical.not_imp.mp hread)

/-- A writer that comes in with the flag clear cannot leave. -/
theorem writeRelease_fails {s : RwState} {t : Tid} (hfree : s.lock.count = 0)
    (hready : s.lock.readyWrite ≠ true) : (s.tryWrite t).Enabled (.writeRelease t) ∧
      (s.tryWrite t).next (.writeRelease t) = .error .assertFailed := by
  rw [tryWrite_enter hfree]
  refine ⟨⟨Function.update_self _ _ _, List.mem_cons_self⟩, ?_⟩
  simp [RwState.next, RwState.writeRelease, rwlockWriteRelease, hready]

/-- A reader that overflows `count` cannot leave. -/
theorem readRelease_fails {s : RwState} {t : Tid} (h : RwCounted s)
    (hcond : ¬(s.lock.count < 0 ∨ s.lock.readyWrite = true))
    (hlen : ¬s.readers.length + 1 < 2 ^ 31) : (s.tryRead t).Enabled (.readRelease t) ∧
      (s.tryRead t).next (.readRelease t) = .error .assertFailed := by
  obtain ⟨-, hcount, hlt⟩ := h.of_nonneg (by omega)
  have hwrap : wrap32 (s.lock.count + 1) = -2 ^ 31 := by
    have heq : s.lock.count + 1 = ((2 ^ 31 : Nat) : Int) := by omega
    rw [heq, wrap32_two_pow]
  rw [tryRead_enter hcond]
  refine ⟨⟨Function.update_self _ _ _, List.mem_cons_self⟩, ?_⟩
  simp [RwState.next, RwState.readRelease, rwlockReadRelease, hwrap]

/-- When the assertions of the read-write lock hold. In every run in which each writer that comes
in finds `ready_write` set, and fewer than `2 ^ 31` read sections are open at a time, no
assertion fails. After any other round of an acquire the same thread can release what it got,
and then an assertion fails. -/
theorem rwlock_marked_asserts (s : RwState) (a : RwAct) :
    ((rwSystem.restrict RwState.Marked).Reachable s → s.Enabled a → ∃ s', s.next a = .ok s') ∧
    ∀ s', rwSystem.Reachable s → s.Enabled a → s.next a = .ok s' → ¬s.Marked a →
      ∃ b, s'.Enabled b ∧ s'.next b = .error .assertFailed := by
  constructor
  · intro hs henabled
    exact (rwSystem_marked.reachable hs).exists_next henabled
  · intro s' hs henabled hnext hnot
    have hcounted := rwSystem_counted.reachable hs
    -- A writer that found `ready_write` clear, or one read section too many.
    rcases not_marked hnot with ⟨hwrite, hready⟩ | ⟨hread, hlen⟩
    · cases a with
      | writeAcquire t =>
          cases hnext
          exact ⟨_, writeRelease_fails hwrite hready⟩
      | retry t =>
          simp only [RwState.next, hwrite.1] at hnext
          cases hnext
          exact ⟨_, writeRelease_fails hwrite.2 hready⟩
      -- The other actions take no lock.
      | readAcquire t => exact hwrite.elim
      | readRelease t => exact hwrite.elim
      | writeRelease t => exact hwrite.elim
    · cases a with
      | readAcquire t =>
          cases hnext
          exact ⟨_, readRelease_fails hcounted hread hlen⟩
      | retry t =>
          simp only [RwState.next, hread.1] at hnext
          cases hnext
          exact ⟨_, readRelease_fails hcounted hread.2 hlen⟩
      | writeAcquire t => exact hread.elim
      | readRelease t => exact hread.elim
      | writeRelease t => exact hread.elim

/-- A writer sleeps while a reader is inside, comes in behind it, and can leave. A writer that finds
the lock free comes in at once, and cannot. -/
theorem rwlock_marked_asserts_handover :
    (∃ s, (rwSystem.restrict RwState.Marked).Reachable s ∧ s.writers = [2] ∧
      ∃ s', s.next (.writeRelease 2) = .ok s') ∧
    ∃ b, (RwState.start.tryWrite 1).Enabled b ∧
      (RwState.start.tryWrite 1).next b = .error .assertFailed := by
  have hinside : (rwSystem.restrict RwState.Marked).Reachable
      ([.readAcquire 1, .writeAcquire 2, .readRelease 1, .retry 2].foldl
        (rwSystem.restrict RwState.Marked).after RwState.start) :=
    (System.Reachable.init rfl).runs (by decide)
  exact ⟨⟨_, hinside, by decide,
      (rwlock_marked_asserts _ (.writeRelease 2)).1 hinside (by decide)⟩,
    (rwlock_marked_asserts RwState.start (.writeAcquire 1)).2 _ (.init rfl) (by decide) rfl
      (by decide)⟩

/-- One thread takes the free lock for writing and releases it. `ready_write` is set on the way to
sleep only, and the release asserts that it is set. -/
theorem rwlock_asserts_not_safe : ¬∀ s, rwSystem.Reachable s → ∀ a, s.Enabled a →
    s.next a ≠ .error .assertFailed := by
  intro hsafe
  have henter : rwSystem.enabled RwState.start (.writeAcquire 1) := rfl
  have hwrite := System.Reachable.step (.init rfl) henter rfl
  exact hsafe _ hwrite (.writeRelease 1) ⟨rfl, List.mem_singleton.mpr rfl⟩ rfl

end Fizzos.Proofs
