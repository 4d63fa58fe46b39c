import Fizzos.Kernel.RwLock
import Fizzos.Support.Enumerates

/-!
# `Fizzos.Proofs.RwLock`: nobody sleeps at a free read-write lock

`RwInvariant` holds in every reachable state of `rwSystem` (`rwSystem_inductive`). Its last
two fields are the point: at a free lock (`count = 0`), a writer that sleeps has a woken
writer before it, and a reader that sleeps has a woken thread before it. A release keeps
them because it wakes the first thread of the list that it finds. A thread that goes to sleep
at a free lock is a reader that saw `ready_write`, and then `ready` gives the writer.

The lock tests in `rwlock_read_release` and `rwlock_write_release` are assertions. A state
behind a failed one is not reachable, so the step lemmas may use them.
-/

set_option autoImplicit false

namespace Fizzos.Proofs

open Fizzos.Kernel
open Fizzos.Support

/-- The invariant of the lock and its threads. -/
structure RwInvariant (s : RwState) : Prop where
  /-- The read list holds the sleeping readers. -/
  readers_asleep :
    Enumerates s.lock.readWaiterList fun t => s.phase t = .readWait ∧ s.blocked t = true
  /-- The write list holds the sleeping writers. -/
  writers_asleep :
    Enumerates s.lock.writeWaiterList fun t => s.phase t = .writeWait ∧ s.blocked t = true
  count_lt : s.lock.count < 2 ^ 31
  /-- A writer inside is alone, and `count` says so. -/
  writing : s.writers = [] ∨ ∃ w, s.writers = [w] ∧ s.lock.count = -1
  /-- `ready_write` belongs to a writer. -/
  ready : s.lock.readyWrite = true → s.writers ≠ [] ∨ ∃ t, s.phase t = .writeWait
  /-- At a free lock a sleeping writer has a woken one before it. -/
  free_write : s.lock.count = 0 → s.lock.writeWaiterList ≠ [] →
    ∃ t, s.phase t = .writeWait ∧ s.blocked t = false
  /-- At a free lock a sleeping reader has a woken thread before it. -/
  free_read : s.lock.count = 0 → s.lock.readWaiterList ≠ [] → ∃ t, s.Pending t

/-! ### What one action does -/

/-- A reader that stays out goes to sleep on the read list. -/
theorem tryRead_sleep {s : RwState} {t : Tid}
    (h : s.lock.count < 0 ∨ s.lock.readyWrite = true) :
    s.tryRead t = { s with
      lock := { s.lock with readWaiterList := s.lock.readWaiterList ++ [t] }
      phase := Function.update s.phase t .readWait
      blocked := Function.update s.blocked t true } := by
  simp [RwState.tryRead, rwlockReadTry, h]

/-- A reader that comes in counts itself. -/
theorem tryRead_enter {s : RwState} {t : Tid}
    (h : ¬(s.lock.count < 0 ∨ s.lock.readyWrite = true)) :
    s.tryRead t = { s with
      lock := { s.lock with count := wrap32 (s.lock.count + 1) }
      phase := Function.update s.phase t .idle
      readers := t :: s.readers } := by
  simp [RwState.tryRead, rwlockReadTry, h]

/-- A writer that stays out sets `ready_write` and goes to sleep on the write list. -/
theorem tryWrite_sleep {s : RwState} {t : Tid} (h : s.lock.count ≠ 0) :
    s.tryWrite t = { s with
      lock := { s.lock with
        readyWrite := true, writeWaiterList := s.lock.writeWaiterList ++ [t] }
      phase := Function.update s.phase t .writeWait
      blocked := Function.update s.blocked t true } := by
  simp [RwState.tryWrite, rwlockWriteTry, h]

/-- A writer that comes in makes `count` negative. -/
theorem tryWrite_enter {s : RwState} {t : Tid} (h : s.lock.count = 0) :
    s.tryWrite t = { s with
      lock := { s.lock with count := -1 }
      phase := Function.update s.phase t .idle
      writers := t :: s.writers } := by
  simp [RwState.tryWrite, rwlockWriteTry, h]
  decide

/-- `rwlock_read_release` that returns found a reader inside. If the lock is free now, it has
woken the first writer, or the first reader when no writer sleeps. -/
theorem rwlockReadRelease_ok {l l' : RwLock} {woken : List Tid}
    (h : rwlockReadRelease l = .ok (l', woken)) :
    0 < l.count ∧ l'.count = wrap32 (l.count - 1) ∧ l'.readyWrite = l.readyWrite ∧
      ((l'.count ≠ 0 ∧ woken = [] ∧ l'.writeWaiterList = l.writeWaiterList ∧
          l'.readWaiterList = l.readWaiterList) ∨
        (∃ w, woken = [w] ∧ l.writeWaiterList = w :: l'.writeWaiterList ∧
          l'.readWaiterList = l.readWaiterList) ∨
        (∃ r, woken = [r] ∧ l.writeWaiterList = [] ∧ l'.writeWaiterList = [] ∧
          l.readWaiterList = r :: l'.readWaiterList) ∨
        (woken = [] ∧ l'.writeWaiterList = [] ∧ l'.readWaiterList = [] ∧
          l.writeWaiterList = [] ∧ l.readWaiterList = [])) := by
  simp only [rwlockReadRelease, bind_eq_ok, ASSERT_eq_ok] at h
  obtain ⟨_, hpos, h⟩ := h
  refine ⟨hpos, ?_⟩
  -- Only the last reader wakes somebody.
  by_cases hzero : wrap32 (l.count - 1) = 0
  · rw [if_pos hzero] at h
    cases hw : l.writeWaiterList with
    | cons w ws =>
        simp only [hw, pure_eq_ok, Except.ok.injEq, Prod.mk.injEq] at h
        obtain ⟨rfl, rfl⟩ := h
        exact ⟨rfl, rfl, .inr (.inl ⟨w, rfl, rfl, rfl⟩)⟩
    | nil =>
        cases hr : l.readWaiterList with
        | cons r rs =>
            simp only [hw, hr, pure_eq_ok, Except.ok.injEq, Prod.mk.injEq] at h
            obtain ⟨rfl, rfl⟩ := h
            exact ⟨rfl, rfl, .inr (.inr (.inl ⟨r, rfl, rfl, rfl, rfl⟩))⟩
        | nil =>
            simp only [hw, hr, pure_eq_ok, Except.ok.injEq, Prod.mk.injEq] at h
            obtain ⟨rfl, rfl⟩ := h
            exact ⟨rfl, rfl, .inr (.inr (.inr ⟨rfl, rfl, rfl, rfl, rfl⟩))⟩
  · rw [if_neg hzero] at h
    simp only [pure_eq_ok, Except.ok.injEq, Prod.mk.injEq] at h
    obtain ⟨rfl, rfl⟩ := h
    exact ⟨rfl, rfl, .inl ⟨hzero, rfl, rfl, rfl⟩⟩

/-- `rwlock_write_release` that returns found a writer inside. It has woken the first writer,
or all readers when no writer sleeps. -/
theorem rwlockWriteRelease_ok {l l' : RwLock} {woken : List Tid}
    (h : rwlockWriteRelease l = .ok (l', woken)) :
    l.count = -1 ∧ l'.count = 0 ∧
      ((∃ w, woken = [w] ∧ l.writeWaiterList = w :: l'.writeWaiterList ∧
          l'.readWaiterList = l.readWaiterList) ∨
        (l.writeWaiterList = [] ∧ l'.writeWaiterList = [] ∧ l'.readyWrite = false ∧
          woken = l.readWaiterList ∧ l'.readWaiterList = [])) := by
  simp only [rwlockWriteRelease, bind_eq_ok, ASSERT_eq_ok] at h
  obtain ⟨_, ⟨hcount, _⟩, h⟩ := h
  have hzero : wrap32 (l.count + 1) = 0 := by rw [hcount]; rfl
  refine ⟨hcount, ?_⟩
  cases hw : l.writeWaiterList with
  | cons w ws =>
      simp only [hw, hzero, pure_eq_ok, Except.ok.injEq, Prod.mk.injEq] at h
      obtain ⟨rfl, rfl⟩ := h
      exact ⟨rfl, .inl ⟨w, rfl, rfl, rfl⟩⟩
  | nil =>
      simp only [hw, hzero, pure_eq_ok, Except.ok.injEq, Prod.mk.injEq] at h
      obtain ⟨rfl, rfl⟩ := h
      exact ⟨rfl, .inr ⟨rfl, rfl, rfl, rfl, rfl⟩⟩

theorem unblockAll_eq_true {blocked : Tid → Bool} {woken : List Tid} {t : Tid} :
    unblockAll blocked woken t = true ↔ blocked t = true ∧ t ∉ woken := by
  simp [unblockAll]

theorem unblockAll_eq_false {blocked : Tid → Bool} {woken : List Tid} {t : Tid} :
    unblockAll blocked woken t = false ↔ blocked t = false ∨ t ∈ woken := by
  rw [← Bool.not_eq_true, unblockAll_eq_true, not_and_or, not_not, Bool.not_eq_true]

/-! ### The invariant over one action -/

namespace RwInvariant

variable {s s' : RwState} {t : Tid}

/-- A thread that can take a step is on no list. -/
theorem not_asleep (hawake : s.phase t = .idle ∨ s.blocked t = false) (p : RwPhase)
    (hp : p ≠ .idle) : ¬(s.phase t = p ∧ s.blocked t = true) := by
  rintro ⟨hphase, hblocked⟩
  rcases hawake with hidle | hrun
  · exact hp (hphase.symm.trans hidle)
  · rw [hrun] at hblocked
    cases hblocked

/-- While a writer sleeps or is woken and the lock is free, some thread is pending. -/
theorem pending_of_writeWait (h : RwInvariant s) (hfree : s.lock.count = 0) {w : Tid}
    (hw : s.phase w = .writeWait) : ∃ u, s.phase u = .writeWait ∧ s.blocked u = false := by
  cases hblocked : s.blocked w with
  | false => exact ⟨w, hw, hblocked⟩
  | true => exact h.free_write hfree (h.writers_asleep.ne_nil ⟨hw, hblocked⟩)

/-- `rwlock_read_acquire` keeps the invariant. -/
theorem tryRead (h : RwInvariant s) (hawake : s.phase t = .idle ∨ s.blocked t = false)
    (hphase : s.phase t ≠ .writeWait) : RwInvariant (s.tryRead t) := by
  have hnot := not_asleep hawake .readWait (by decide)
  have hwriter : ∀ u, s.phase u = .writeWait → u ≠ t := by
    rintro u hu rfl
    exact hphase hu
  -- The reader sleeps behind a writer, running or ready; else it enters.
  by_cases hcond : s.lock.count < 0 ∨ s.lock.readyWrite = true
  · rw [tryRead_sleep hcond]
    refine
      { readers_asleep := (h.readers_asleep.push hnot).congr fun u => ?_
        writers_asleep := h.writers_asleep.congr fun u => ?_
        count_lt := h.count_lt
        writing := h.writing
        ready := fun hready => (h.ready hready).imp_right ?_
        free_write := fun hfree hne => ?_
        free_read := fun hfree _ => ?_ }
    · by_cases hu : u = t <;> simp [hu]
    · by_cases hu : u = t
      · simp [hu, hphase]
      · simp [hu]
    · rintro ⟨w, hw⟩
      exact ⟨w, by simpa [hwriter w hw] using hw⟩
    · obtain ⟨w, hw, hrun⟩ := h.free_write hfree hne
      exact ⟨w, by simpa [hwriter w hw] using hw, by simpa [hwriter w hw] using hrun⟩
    · -- a reader that sleeps at a free lock saw `ready_write`
      have hready : s.lock.readyWrite = true := by
        refine hcond.resolve_left ?_
        rw [show s.lock.count = 0 from hfree]
        decide
      rcases h.ready hready with hwriters | ⟨w, hw⟩
      · rcases h.writing with hnone | ⟨w, -, hcount⟩
        · exact absurd hnone hwriters
        · rw [show s.lock.count = 0 from hfree] at hcount
          cases hcount
      · obtain ⟨u, hu, hrun⟩ := h.pending_of_writeWait hfree hw
        exact ⟨u, by simp [hwriter u hu, hu], by simpa [hwriter u hu] using hrun⟩
  · have hcount : 0 ≤ s.lock.count := by
      by_contra hneg
      exact hcond (.inl (by omega))
    -- The count is not negative here, so one more reader does not make it zero.
    have hne : wrap32 (s.lock.count + 1) ≠ 0 := by
      have hlt := h.count_lt
      unfold wrap32
      rw [Int.bmod_def]
      split <;> omega
    rw [tryRead_enter hcond]
    refine
      { readers_asleep := h.readers_asleep.congr fun u => ?_
        writers_asleep := h.writers_asleep.congr fun u => ?_
        count_lt := wrap32_lt _
        writing := ?_
        ready := fun hready => absurd hready fun hr => hcond (.inr hr)
        free_write := fun hfree => absurd hfree hne
        free_read := fun hfree => absurd hfree hne }
    · by_cases hu : u = t
      · subst hu
        simpa using fun hp => not_and.mp hnot hp
      · simp [hu]
    · by_cases hu : u = t
      · simp [hu, hphase]
      · simp [hu]
    · rcases h.writing with hnone | ⟨w, -, hw⟩
      · exact .inl hnone
      · omega

/-- `rwlock_write_acquire` keeps the invariant. -/
theorem tryWrite (h : RwInvariant s) (hawake : s.phase t = .idle ∨ s.blocked t = false)
    (hphase : s.phase t ≠ .readWait) : RwInvariant (s.tryWrite t) := by
  have hnot := not_asleep hawake .writeWait (by decide)
  -- The writer enters a free lock alone. Else it sleeps and announces itself.
  by_cases hfree : s.lock.count = 0
  · rw [tryWrite_enter hfree]
    refine
      { readers_asleep := h.readers_asleep.congr fun u => ?_
        writers_asleep := h.writers_asleep.congr fun u => ?_
        count_lt := show (-1 : Int) < 2 ^ 31 by decide
        writing := .inr ⟨t, ?_, rfl⟩
        ready := fun _ => .inl (List.cons_ne_nil _ _)
        free_write := fun hzero => absurd hzero (show (-1 : Int) ≠ 0 by decide)
        free_read := fun hzero => absurd hzero (show (-1 : Int) ≠ 0 by decide) }
    · by_cases hu : u = t
      · simp [hu, hphase]
      · simp [hu]
    · by_cases hu : u = t
      · subst hu
        simpa using fun hp => not_and.mp hnot hp
      · simp [hu]
    · rcases h.writing with hnone | ⟨w, -, hw⟩
      · rw [show ({ s with lock := _, phase := _, writers := t :: s.writers } :
          RwState).writers = t :: s.writers from rfl, hnone]
      · omega
  · rw [tryWrite_sleep hfree]
    refine
      { readers_asleep := h.readers_asleep.congr fun u => ?_
        writers_asleep := (h.writers_asleep.push hnot).congr fun u => ?_
        count_lt := h.count_lt
        writing := h.writing
        ready := fun _ => .inr ⟨t, Function.update_self _ _ _⟩
        free_write := fun hzero => absurd hzero hfree
        free_read := fun hzero => absurd hzero hfree }
    · by_cases hu : u = t
      · simp [hu, hphase]
      · simp [hu]
    · by_cases hu : u = t <;> simp [hu]

/-- The list whose first thread is woken. -/
theorem asleep_pop {phase : Tid → RwPhase} {blocked : Tid → Bool} {p : RwPhase} {w : Tid}
    {ws : List Tid} (h : Enumerates (w :: ws) fun u => phase u = p ∧ blocked u = true) :
    Enumerates ws fun u => phase u = p ∧ unblockAll blocked [w] u = true :=
  h.pop.congr fun u => by simp [unblockAll_eq_true, and_assoc]

/-- The list of the threads that are not woken. -/
theorem asleep_of_woken {phase : Tid → RwPhase} {blocked : Tid → Bool} {p : RwPhase}
    {woken xs : List Tid} (h : Enumerates xs fun u => phase u = p ∧ blocked u = true)
    (hwoken : ∀ u ∈ woken, phase u ≠ p) :
    Enumerates xs fun u => phase u = p ∧ unblockAll blocked woken u = true :=
  h.congr fun u => by
    rw [unblockAll_eq_true]
    constructor
    · rintro ⟨hp, hb⟩
      exact ⟨hp, hb, fun hmem => hwoken u hmem hp⟩
    · rintro ⟨hp, hb, -⟩
      exact ⟨hp, hb⟩

/-- A release wakes the first writer: it is pending now. -/
theorem wakeWriter (h : RwInvariant s) {l' : RwLock} {w : Tid} {readers writers : List Tid}
    (hlt : l'.count < 2 ^ 31) (hwriters : writers = [])
    (hw : s.lock.writeWaiterList = w :: l'.writeWaiterList)
    (hr : l'.readWaiterList = s.lock.readWaiterList) :
    RwInvariant { s with lock := l', blocked := unblockAll s.blocked [w], readers, writers } := by
  have hasleep := hw ▸ h.writers_asleep
  have hphase : s.phase w = .writeWait := hasleep.head.1
  have hrun : unblockAll s.blocked [w] w = false :=
    unblockAll_eq_false.mpr (.inr List.mem_cons_self)
  exact
    { readers_asleep := hr ▸ asleep_of_woken h.readers_asleep (by simp [hphase])
      writers_asleep := asleep_pop hasleep
      count_lt := hlt
      writing := .inl hwriters
      ready := fun _ => .inr ⟨w, hphase⟩
      free_write := fun _ _ => ⟨w, hphase, hrun⟩
      free_read := fun _ _ => ⟨w, by simp [hphase], hrun⟩ }

/-- `rwlock_read_release` keeps the invariant. -/
theorem readRelease (h : RwInvariant s) (hstep : s.readRelease t = .ok s') :
    RwInvariant s' := by
  simp only [RwState.readRelease, bind_eq_ok, pure_eq_ok, Except.ok.injEq] at hstep
  obtain ⟨⟨l', woken⟩, hrelease, rfl⟩ := hstep
  obtain ⟨hpos, hcount, hready, hwoken⟩ := rwlockReadRelease_ok hrelease
  have hlt : l'.count < 2 ^ 31 := hcount ▸ wrap32_lt _
  have hwriters : s.writers = [] := by
    rcases h.writing with hnone | ⟨w, -, hw⟩
    · exact hnone
    · omega
  have hready' : l'.readyWrite = true → s.writers ≠ [] ∨ ∃ u, s.phase u = .writeWait :=
    fun hr => h.ready (hready ▸ hr)
  -- Other readers stay, a writer is woken, a reader is woken, or nobody waits.
  rcases hwoken with ⟨hne, rfl, hw, hr⟩ | ⟨w, rfl, hw, hr⟩ | ⟨r, rfl, hw, hw', hr⟩ |
    ⟨rfl, hw', hr', hw, hr⟩
  · exact
      { readers_asleep := hr ▸ asleep_of_woken h.readers_asleep (by simp)
        writers_asleep := hw ▸ asleep_of_woken h.writers_asleep (by simp)
        count_lt := hlt
        writing := .inl hwriters
        ready := hready'
        free_write := fun hzero => absurd hzero hne
        free_read := fun hzero => absurd hzero hne }
  · exact h.wakeWriter hlt hwriters hw hr
  · have hasleep := hr ▸ h.readers_asleep
    have hphase : s.phase r = .readWait := hasleep.head.1
    have hrun : unblockAll s.blocked [r] r = false :=
      unblockAll_eq_false.mpr (.inr List.mem_cons_self)
    exact
      { readers_asleep := asleep_pop hasleep
        writers_asleep := (hw'.trans hw.symm) ▸ asleep_of_woken h.writers_asleep
          (by simp [hphase])
        count_lt := hlt
        writing := .inl hwriters
        ready := hready'
        free_write := fun _ hne => absurd hw' hne
        free_read := fun _ _ => ⟨r, by simp [hphase], hrun⟩ }
  · exact
      { readers_asleep := (hr'.trans hr.symm) ▸ asleep_of_woken h.readers_asleep (by simp)
        writers_asleep := (hw'.trans hw.symm) ▸ asleep_of_woken h.writers_asleep (by simp)
        count_lt := hlt
        writing := .inl hwriters
        ready := hready'
        free_write := fun _ hne => absurd hw' hne
        free_read := fun _ hne => absurd hr' hne }

/-- `rwlock_write_release` keeps the invariant. -/
theorem writeRelease (h : RwInvariant s) (hmem : t ∈ s.writers)
    (hstep : s.writeRelease t = .ok s') : RwInvariant s' := by
  simp only [RwState.writeRelease, bind_eq_ok, pure_eq_ok, Except.ok.injEq] at hstep
  obtain ⟨⟨l', woken⟩, hrelease, rfl⟩ := hstep
  obtain ⟨-, hfree, hwoken⟩ := rwlockWriteRelease_ok hrelease
  have hlt : l'.count < 2 ^ 31 := by rw [hfree]; decide
  have hwriters : s.writers.erase t = [] := by
    rcases h.writing with hnone | ⟨w, hone, -⟩
    · rw [hnone]; rfl
    · rw [hone, List.mem_singleton] at hmem
      rw [hone, hmem]
      simp
  -- The first writer is woken, or all readers when no writer sleeps.
  rcases hwoken with ⟨w, rfl, hw, hr⟩ | ⟨hw, hw', hready, rfl, hr'⟩
  · exact h.wakeWriter hlt hwriters hw hr
  · refine
      { readers_asleep := hr'.symm ▸ Enumerates.nil fun u => ?_
        writers_asleep := (hw'.trans hw.symm) ▸ asleep_of_woken h.writers_asleep fun u hu => ?_
        count_lt := hlt
        writing := .inl hwriters
        ready := fun hr => absurd hr (by simp [hready])
        free_write := fun _ hne => absurd hw' hne
        free_read := fun _ hne => absurd hr' hne }
    · rintro ⟨hphase, hblocked⟩
      rw [unblockAll_eq_true] at hblocked
      exact hblocked.2 ((h.readers_asleep.mem_iff u).mpr ⟨hphase, hblocked.1⟩)
    · rw [((h.readers_asleep.mem_iff u).mp hu).1]
      decide

/-- The state after `rwlock_init`. -/
theorem start : RwInvariant RwState.start where
  readers_asleep := Enumerates.nil fun _ => by simp [RwState.start]
  writers_asleep := Enumerates.nil fun _ => by simp [RwState.start]
  count_lt := by decide
  writing := .inl rfl
  ready h := by cases h
  free_write _ h := absurd rfl h
  free_read _ h := absurd rfl h

/-- Every action keeps the invariant. -/
theorem next {a : RwAct} (h : RwInvariant s) (henabled : s.Enabled a)
    (hnext : s.next a = .ok s') : RwInvariant s' := by
  cases a with
  | readAcquire t =>
      cases hnext
      have hidle : s.phase t = .idle := henabled
      exact h.tryRead (.inl hidle) (by simp [hidle])
  | readRelease t => exact h.readRelease hnext
  | writeAcquire t =>
      cases hnext
      have hidle : s.phase t = .idle := henabled
      exact h.tryWrite (.inl hidle) (by simp [hidle])
  | writeRelease t => exact h.writeRelease henabled.2 hnext
  | retry t =>
      obtain ⟨-, hrun⟩ : s.Pending t := henabled
      simp only [RwState.next] at hnext
      -- A thread that has been woken tries again from the top of its call.
      cases hphase : s.phase t with
      | idle =>
          rw [hphase] at hnext
          cases hnext
          exact h
      | readWait =>
          rw [hphase] at hnext
          cases hnext
          exact h.tryRead (.inr hrun) (by simp [hphase])
      | writeWait =>
          rw [hphase] at hnext
          cases hnext
          exact h.tryWrite (.inr hrun) (by simp [hphase])

end RwInvariant

/-- `RwInvariant` is inductive. -/
theorem rwSystem_inductive : rwSystem.Inductive RwInvariant where
  init hinit := by
    cases hinit
    exact RwInvariant.start
  step h henabled hnext := h.next henabled hnext

/-- No stranded waiter. In every reachable state, at a free lock without a woken thread both
wait lists are empty, and `ready_write` has a writer that is inside, asleep on the write
list, or woken. -/
theorem rwlock_no_stranded_waiter {s : RwState} (hs : rwSystem.Reachable s) :
    (s.lock.count = 0 → (∀ t, ¬s.Pending t) →
      s.lock.readWaiterList = [] ∧ s.lock.writeWaiterList = []) ∧
    (s.lock.readyWrite = true →
      (∃ t, t ∈ s.writers) ∨ (∃ t, t ∈ s.lock.writeWaiterList) ∨
        ∃ t, s.phase t = .writeWait ∧ s.Pending t) := by
  have h := rwSystem_inductive.reachable hs
  constructor
  · intro hfree hnone
    constructor
    · by_contra hne
      obtain ⟨t, ht⟩ := h.free_read hfree hne
      exact hnone t ht
    · by_contra hne
      obtain ⟨t, hphase, hrun⟩ := h.free_write hfree hne
      exact hnone t ⟨by simp [hphase], hrun⟩
  · intro hready
    rcases h.ready hready with hwriters | ⟨t, ht⟩
    · exact .inl (List.exists_mem_of_ne_nil _ hwriters)
    · cases hblocked : s.blocked t with
      | true => exact .inr (.inl ⟨t, (h.writers_asleep.mem_iff t).mpr ⟨ht, hblocked⟩⟩)
      | false => exact .inr (.inr ⟨t, ht, by simp [ht], hblocked⟩)

/-- A reader enters, a writer falls asleep, the reader leaves: the lock is free, and the woken
writer is the one that `ready_write` promises. -/
theorem rwlock_no_stranded_waiter_woken_writer :
    ∃ s, rwSystem.Reachable s ∧ s.lock.count = 0 ∧ s.lock.readyWrite = true ∧
      ((∃ t, t ∈ s.writers) ∨ (∃ t, t ∈ s.lock.writeWaiterList) ∨
        ∃ t, s.phase t = .writeWait ∧ s.Pending t) := by
  have henter : rwSystem.enabled RwState.start (.readAcquire 1) := rfl
  have hread := System.Reachable.step (.init rfl) henter rfl
  have hwait : rwSystem.enabled (RwState.start.tryRead 1) (.writeAcquire 2) := rfl
  have hwrite := System.Reachable.step hread hwait rfl
  have hleave : rwSystem.enabled ((RwState.start.tryRead 1).tryWrite 2) (.readRelease 1) :=
    ⟨rfl, List.mem_singleton.mpr rfl⟩
  have hrelease := System.Reachable.step hwrite hleave rfl
  exact ⟨_, hrelease, rfl, rfl, (rwlock_no_stranded_waiter hrelease).2 rfl⟩

end Fizzos.Proofs
