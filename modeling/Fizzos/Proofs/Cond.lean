import Fizzos.Kernel.Cond
import Fizzos.Proofs.Mutex

/-!
# `Fizzos.Proofs.Cond`: waiting on a condition gives the mutex away once

The region of `cond_wait` is a `mutex_release` without interference, so it is a run of
`mutexSystem` in which only the caller takes steps (`MutexInvariant.release`). Everything that is
known about the mutex stays known.

`CondInvariant` adds the threads in `cond_wait`. A thread that sleeps there has released the
mutex once, and it counts that back when it comes out of `mutex_acquire`. With one acquire to
give back it holds nothing while it sleeps. With more than one it takes the mutex to sleep
(`condSystem_wait_nested`).
-/

set_option autoImplicit false

namespace Fizzos.Proofs

open Fizzos.Kernel
open Fizzos.Support

/-! ### `mutex_release` with interrupts off -/

section
variable {s : MutexState} {t : Tid}

/-- A thread that goes where it is. -/
theorem goto_eq_self {pc : MutexPc} (h : s.pc t = pc) : s.goto t pc = s := by
  subst h
  simp [MutexState.goto]

/-- A thread that goes on in a call. -/
theorem MutexInvariant.goOn (h : MutexInvariant s) {s' : MutexState} (hpc : s.pc t ≠ .outside)
    (hrun : s.blocked t = false) (hstep : s.step t = .ok s') : MutexInvariant s' :=
  h.next (a := .step t) ⟨hpc, hrun⟩ trivial hstep

/-- The owner outside of any call finds its name in the mutex. -/
theorem MutexInvariant.owner (h : MutexInvariant s) (hout : s.pc t = .outside)
    (hpos : 0 < s.depth t) :
    s.lock.holder = some t ∧ s.lock.isLock = true ∧ s.lock.repeat.toNat = s.depth t := by
  obtain ⟨owner, howned⟩ := h.owned
  obtain rfl : owner = some t := MutexInvariant.Owned.eq_of_holds howned (.inl hpos)
  have hview := howned.view t rfl
  rw [hout] at hview
  exact ⟨hview.2, howned.isLock, howned.count⟩

/-- A release with interrupts off returns, and it is a run of the accesses of
`mutex_release`. -/
theorem MutexInvariant.release (h : MutexInvariant s) (hout : s.pc t = .outside)
    (hrun : s.blocked t = false) (hpos : 0 < s.depth t) :
    ∃ lock popped, mutexRelease s.lock t = .ok (lock, popped) ∧
      (∀ w, popped = some w → s.pc w = .acqSleep) ∧
      MutexInvariant { s with
        lock, blocked := unblockPopped s.blocked popped
        depth := Function.update s.depth t (s.depth t - 1) } := by
  obtain ⟨hholder, hlock, hcount⟩ := h.owner hout hpos
  have h₁ : MutexInvariant (s.goto t .relAssert) :=
    h.next (a := .release t) ⟨hout, hpos⟩ trivial rfl
  have h₂ : MutexInvariant (s.goto t .relDec) :=
    h₁.goOn (t := t) (by simp [MutexState.goto]) hrun
      (by simp [MutexState.step, MutexState.goto, hholder])
  have hassert : ASSERT (s.lock.holder = some t) = .ok () := ASSERT_true hholder
  by_cases hlast : s.lock.repeat - 1 = 0
  · have h₃ : MutexInvariant { s.goto t .relHolder with
        lock := { s.lock with «repeat» := s.lock.repeat - 1 }
        depth := Function.update s.depth t (s.depth t - 1) } :=
      h₂.goOn (t := t) (by simp [MutexState.goto]) hrun
        (by simp [MutexState.step, MutexState.goto, hlast])
    have h₄ : MutexInvariant { s.goto t .relXchg with
        lock := { s.lock with holder := none, «repeat» := s.lock.repeat - 1 }
        depth := Function.update s.depth t (s.depth t - 1) } :=
      h₃.goOn (t := t) (by simp [MutexState.goto]) hrun
        (by simp [MutexState.step, MutexState.goto])
    -- the exchange, and the pop of a waiter
    have h₅ : MutexInvariant { s.goto t (s.lock.waitList.head?.elim .outside .relUnblock) with
        lock := { s.lock with holder := none, «repeat» := s.lock.repeat - 1
                              isLock := false, waitList := s.lock.waitList.tail }
        depth := Function.update s.depth t (s.depth t - 1) } :=
      h₄.goOn (t := t) (by simp [MutexState.goto]) hrun
        (by simp [MutexState.step, MutexState.goto, mutexUnlock, hlock])
    refine ⟨{ s.lock with
      holder := none, «repeat» := s.lock.repeat - 1, isLock := false
      waitList := s.lock.waitList.tail }, s.lock.waitList.head?, ?_, fun w hw => ?_, ?_⟩
    · simp only [mutexRelease, hassert, ok_bind, if_pos hlast, mutexUnlock, ASSERT_true hlock,
        pure_eq_ok]
    · have hmem : w ∈ s.lock.waitList := List.mem_of_head? hw
      exact ((h.waiters.asleep.mem_iff w).mp hmem).1
    · cases hhead : s.lock.waitList.head? with
      | none =>
          rw [hhead, Option.elim_none, goto_eq_self hout] at h₅
          exact h₅
      | some w =>
          rw [hhead, Option.elim_some] at h₅
          have h₆ : MutexInvariant { s.goto t .outside with
              lock := { s.lock with holder := none, «repeat» := s.lock.repeat - 1
                                    isLock := false, waitList := s.lock.waitList.tail }
              blocked := Function.update s.blocked w false
              depth := Function.update s.depth t (s.depth t - 1) } :=
            h₅.goOn (t := t) (by simp [MutexState.goto]) hrun
              (by simp [MutexState.step, MutexState.goto])
          rw [goto_eq_self hout] at h₆
          exact h₆
  · have h₃ : MutexInvariant { s.goto t .outside with
        lock := { s.lock with «repeat» := s.lock.repeat - 1 }
        depth := Function.update s.depth t (s.depth t - 1) } :=
      h₂.goOn (t := t) (by simp [MutexState.goto]) hrun
        (by simp [MutexState.step, MutexState.goto, hlast])
    rw [goto_eq_self hout] at h₃
    refine ⟨_, none, ?_, by simp, h₃⟩
    simp only [mutexRelease, hassert, ok_bind, if_neg hlast, pure_eq_ok]

/-- A thread that is not in `mutex_acquire` sleeps, or wakes up. -/
theorem MutexInvariant.setBlocked (h : MutexInvariant s) (hpc : s.pc t ≠ .acqSleep) (b : Bool) :
    MutexInvariant (s.setBlocked t b) := by
  obtain ⟨⟨owner, howned⟩, hwaiters⟩ := h
  have hne : ∀ u, s.pc u = .acqSleep → u ≠ t := by
    rintro u hu rfl
    exact hpc hu
  have hblocked : ∀ u, s.pc u = .acqSleep → (s.setBlocked t b).blocked u = s.blocked u :=
    fun u hu => Function.update_of_ne (hne u hu) _ _
  refine ⟨⟨owner, howned.isLock, howned.count, howned.free, howned.view, howned.other⟩, ?_⟩
  refine
    { asleep := hwaiters.asleep.congr fun u => ?_
      popped := fun v u hv => ?_
      popped_once := hwaiters.popped_once
      rescue := fun hfree hlist => ?_ }
  · refine and_congr_right fun hu => ?_
    rw [hblocked u hu]
    rfl
  · obtain ⟨hu, hb⟩ := hwaiters.popped v u hv
    exact ⟨hu, (hblocked u hu).trans hb⟩
  · obtain ⟨u, hu⟩ := hwaiters.rescue hfree hlist
    refine ⟨u, hu.imp_left fun ⟨hsleep, hwoken⟩ => ⟨hsleep, hwoken.imp_right fun hrun => ?_⟩⟩
    exact (hblocked u hsleep).trans hrun

end

/-! ### The threads in `cond_wait` -/

/-- A place in `mutex_acquire`. -/
def InAcquire : MutexPc → Prop
  | .acqCheck | .acqRepeat | .acqTry _ | .acqSleep | .acqHolder | .acqOne => True
  | _ => False

/-- What is known of a thread at a place of `cond_wait`: where it is in the mutex, and its
depth. -/
def PlaceView (place : CondPlace) (pc : MutexPc) (d : Nat) : Prop :=
  match place with
  | .outside => True
  | .asleep depth => depth < 2 ^ 32 ∧ pc = .outside ∧ d + 1 = depth
  | .acquiring depth =>
      (depth < 2 ^ 32 ∧ InAcquire pc ∧ d + 1 = depth) ∨ (pc = .outside ∧ 0 < d ∧ d = depth)

/-- The invariant of the mutex, the condition and the threads. -/
structure CondInvariant (s : CondState) : Prop where
  mutex : MutexInvariant s.mutex
  /-- The list holds the sleeping threads. -/
  asleep : Enumerates s.cond.waitList fun t =>
    (∃ d, s.place t = .asleep d) ∧ s.mutex.blocked t = true
  view : ∀ t, PlaceView (s.place t) (s.mutex.pc t) (s.mutex.depth t)
  /-- A thread that is `BLOCKED` sleeps in one of the two functions. -/
  blocked : ∀ t, s.mutex.blocked t = true →
    s.mutex.pc t = .acqSleep ∨ ∃ d, s.place t = .asleep d
  /-- The list is in the order of the waits. -/
  since_lt : ∀ t ∈ s.cond.waitList, s.since t < s.clock
  sorted : s.cond.waitList.Pairwise fun t u => s.since t < s.since u

/-- What a step of `t` in the mutex leaves alone. -/
structure MutexFrame (t : Tid) (s s' : MutexState) : Prop where
  pc : ∀ u, u ≠ t → s'.pc u = s.pc u
  depth : ∀ u, u ≠ t → s'.depth u = s.depth u
  blocked : ∀ u, s'.blocked u = true → s.blocked u = true ∨ s'.pc u = .acqSleep
  kept : ∀ u, s.pc u ≠ .acqSleep → s'.pc u ≠ .acqSleep → s'.blocked u = s.blocked u

section
variable {s s' : MutexState} {t : Tid}

/-- A step that changes no `BLOCKED`. -/
theorem MutexFrame.of_blocked (hpc : ∀ u, u ≠ t → s'.pc u = s.pc u)
    (hdepth : ∀ u, u ≠ t → s'.depth u = s.depth u) (hblocked : s'.blocked = s.blocked) :
    MutexFrame t s s' where
  pc := hpc
  depth := hdepth
  blocked u hu := .inl (hblocked ▸ hu)
  kept _ _ _ := by rw [hblocked]

/-- A move of one thread leaves the others where they are. -/
theorem MutexFrame.goto (pc : MutexPc) : MutexFrame t s (s.goto t pc) :=
  .of_blocked (fun _ hu => Function.update_of_ne hu _ _) (fun _ _ => rfl) rfl

/-- The frame of one access. -/
theorem MutexInvariant.step_frame (h : MutexInvariant s) (hstep : s.step t = .ok s') :
    MutexFrame t s s' := by
  have hother : ∀ {pc : MutexPc} {u : Tid}, u ≠ t → (s.goto t pc).pc u = s.pc u :=
    fun hu => Function.update_of_ne hu _ _
  unfold MutexState.step at hstep
  cases hpc : s.pc t with
  | acqTry woken =>
      cases hlock : s.lock.isLock with
      | true =>
          simp only [hpc, mutexTry, if_pos hlock, pure_eq_ok, Except.ok.injEq] at hstep
          subst hstep
          -- only the caller goes to sleep
          refine ⟨fun u hu => hother hu, fun _ _ => rfl, fun u hu => ?_, fun u _ hu => ?_⟩
          · by_cases hut : u = t
            · exact .inr (by simp [MutexState.goto, hut])
            · exact .inl (by simpa [hut] using hu)
          · by_cases hut : u = t
            · exact absurd (by simp [MutexState.goto, hut]) hu
            · simp [hut]
      | false =>
          simp only [hpc, mutexTry, hlock, Bool.false_eq_true, if_false, pure_eq_ok,
            Except.ok.injEq] at hstep
          subst hstep
          exact .of_blocked (fun u hu => hother hu) (fun _ _ => rfl) rfl
  | relUnblock w =>
      simp only [hpc, pure_eq_ok, Except.ok.injEq] at hstep
      subst hstep
      -- the popped thread sleeps in `mutex_acquire`
      have hw := (h.waiters.popped t w hpc).1
      refine ⟨fun u hu => hother hu, fun _ _ => rfl, fun u hu => ?_, fun u hu _ => ?_⟩
      · by_cases huw : u = w
        · simp [huw] at hu
        · exact .inl (by simpa [huw] using hu)
      · have huw : u ≠ w := by
          rintro rfl
          exact hu hw
        simp [huw]
  | relXchg =>
      simp only [hpc, mutexUnlock, bind_eq_ok, pure_eq_ok, Except.ok.injEq] at hstep
      obtain ⟨_, ⟨_, -, rfl⟩, rfl⟩ := hstep
      exact .of_blocked (fun u hu => hother hu) (fun _ _ => rfl) rfl
  | relAssert =>
      simp only [hpc, bind_eq_ok, pure_eq_ok, Except.ok.injEq] at hstep
      obtain ⟨_, -, rfl⟩ := hstep
      exact .goto _
  | acqCheck =>
      simp only [hpc, pure_eq_ok] at hstep
      split at hstep <;> cases hstep <;> exact .goto _
  | acqSleep =>
      simp only [hpc, pure_eq_ok, Except.ok.injEq] at hstep
      subst hstep
      exact .goto _
  | outside =>
      simp only [hpc, pure_eq_ok, Except.ok.injEq] at hstep
      subst hstep
      exact .of_blocked (fun _ _ => rfl) (fun _ _ => rfl) rfl
  | acqHolder | relHolder =>
      simp only [hpc, pure_eq_ok, Except.ok.injEq] at hstep
      subst hstep
      exact .of_blocked (fun u hu => hother hu) (fun _ _ => rfl) rfl
  | acqRepeat | acqOne | relDec =>
      simp only [hpc, pure_eq_ok, Except.ok.injEq] at hstep
      subst hstep
      exact .of_blocked (fun u hu => hother hu) (fun u hu => Function.update_of_ne hu _ _) rfl

/-- An access of `mutex_acquire`: the call goes on, or it returns with one more acquire. -/
theorem acquire_step (hpc : InAcquire (s.pc t)) (hstep : s.step t = .ok s') :
    (InAcquire (s'.pc t) ∧ s'.depth t = s.depth t) ∨
      (s'.pc t = .outside ∧ s'.depth t = s.depth t + 1) := by
  unfold MutexState.step at hstep
  cases hcase : s.pc t <;> rw [hcase] at hpc hstep
  case acqCheck =>
    simp only [pure_eq_ok] at hstep
    split at hstep <;> cases hstep <;> exact .inl ⟨by simp [MutexState.goto, InAcquire], rfl⟩
  case acqRepeat | acqOne =>
    cases hstep
    exact .inr ⟨by simp [MutexState.goto], by simp⟩
  case acqTry woken =>
    cases hlock : s.lock.isLock <;>
      simp only [mutexTry, hlock, Bool.false_eq_true, if_true, if_false, pure_eq_ok,
        Except.ok.injEq] at hstep <;>
      subst hstep <;> exact .inl ⟨by simp [MutexState.goto, InAcquire], rfl⟩
  case acqSleep | acqHolder =>
    cases hstep
    exact .inl ⟨by simp [MutexState.goto, InAcquire], rfl⟩
  all_goals exact hpc.elim

end

namespace CondInvariant

variable {s s' : CondState} {t : Tid}

theorem start : CondInvariant CondState.start where
  mutex := MutexInvariant.start
  asleep := Enumerates.nil fun _ => by simp [CondState.start]
  view _ := trivial
  blocked _ h := by cases h
  since_lt _ h := by cases h
  sorted := List.Pairwise.nil

/-- A thread outside of `cond_wait` and asleep nowhere else can run. -/
theorem running (h : CondInvariant s) (hpc : s.mutex.pc t ≠ .acqSleep)
    (hplace : ∀ d, s.place t ≠ .asleep d) : s.mutex.blocked t = false := by
  cases hb : s.mutex.blocked t with
  | false => rfl
  | true =>
      rcases h.blocked t hb with hsleep | ⟨d, hd⟩
      · exact absurd hsleep hpc
      · exact absurd hd (hplace d)

/-- A step in the mutex, of a thread that does not sleep on the condition. -/
theorem mutexStep (h : CondInvariant s) {m : MutexState} (hm : MutexInvariant m)
    (hframe : MutexFrame t s.mutex m) (hrun : s.mutex.blocked t = false)
    (hplace : ∀ d, s.place t ≠ .asleep d)
    (hview : PlaceView (s.place t) (m.pc t) (m.depth t)) :
    CondInvariant { s with mutex := m } := by
  have hne : ∀ u d, s.place u = .asleep d → u ≠ t := by
    rintro u d hu rfl
    exact hplace d hu
  -- who sleeps on the condition is outside of the mutex
  have hasleep : ∀ u d, s.place u = .asleep d → s.mutex.pc u = .outside ∧
      m.pc u = .outside ∧ m.blocked u = s.mutex.blocked u := by
    intro u d hu
    have hview := h.view u
    rw [hu] at hview
    have hpc : m.pc u = .outside := (hframe.pc u (hne u d hu)).trans hview.2.1
    exact ⟨hview.2.1, hpc, hframe.kept u (by simp [hview.2.1]) (by simp [hpc])⟩
  refine
    { mutex := hm
      asleep := h.asleep.congr fun u => ?_
      view := fun u => ?_
      blocked := fun u hu => ?_
      since_lt := h.since_lt
      sorted := h.sorted }
  · refine and_congr_right fun ⟨d, hu⟩ => ?_
    rw [(hasleep u d hu).2.2]
  · by_cases hut : u = t
    · subst hut
      exact hview
    · show PlaceView (s.place u) (m.pc u) (m.depth u)
      rw [hframe.pc u hut, hframe.depth u hut]
      exact h.view u
  · rcases hframe.blocked u hu with hb | hsleep
    · have hut : u ≠ t := by
        rintro rfl
        rw [hrun] at hb
        cases hb
      exact (h.blocked u hb).imp_left fun hpc => (hframe.pc u hut).trans hpc
    · exact .inl hsleep

/-- A woken thread is popped from the list. -/
theorem wakeHead (h : CondInvariant s) {w : Tid} {ws : List Tid}
    (hlist : s.cond.waitList = w :: ws) :
    CondInvariant { s with mutex := s.mutex.setBlocked w false, cond := { waitList := ws } } := by
  have hasleep := hlist ▸ h.asleep
  obtain ⟨⟨d, hd⟩, -⟩ := hasleep.head
  have hview := h.view w
  rw [hd] at hview
  have hpc : s.mutex.pc w ≠ .acqSleep := by simp [hview.2.1]
  have hmem : ∀ u ∈ ws, u ∈ s.cond.waitList := fun u hu => hlist ▸ List.mem_cons_of_mem w hu
  refine
    { mutex := h.mutex.setBlocked hpc false
      asleep := hasleep.pop.congr fun u => ?_
      view := h.view
      blocked := fun u hu => ?_
      since_lt := fun u hu => h.since_lt u (hmem u hu)
      sorted := (hlist ▸ h.sorted : (w :: ws).Pairwise _).of_cons }
  · by_cases huw : u = w <;> simp [MutexState.setBlocked, huw]
  · have hb : s.mutex.blocked u = true := by
      by_cases huw : u = w
      · simp [MutexState.setBlocked, huw] at hu
      · simpa [MutexState.setBlocked, huw] using hu
    exact h.blocked u hb

/-- A signal wakes the first thread of the list. -/
theorem signal (h : CondInvariant s) : CondInvariant s.signal := by
  unfold CondState.signal
  split
  · exact h
  · rename_i hlist
    exact h.wakeHead hlist

/-- The loop of `cond_broadcast`, one thread after the other. -/
theorem wakeAll {ws : List Tid} (h : CondInvariant s) (hlist : s.cond.waitList = ws) :
    CondInvariant (s.wakeAll ws) := by
  induction ws generalizing s with
  | nil => exact h
  | cons w ws ih => exact ih (h.wakeHead hlist) rfl

/-- A thread that has the mutex again returns from `cond_wait`. -/
theorem ret (h : CondInvariant s) {d : Nat} (hd : s.place t = .acquiring d) :
    CondInvariant { s with place := Function.update s.place t .outside } := by
  have hasleep : ∀ u e, Function.update s.place t .outside u = .asleep e ↔
      s.place u = .asleep e := by
    intro u e
    by_cases hut : u = t
    · simp [hut, hd]
    · rw [Function.update_of_ne hut]
  refine
    { mutex := h.mutex
      asleep := h.asleep.congr fun u => by simp only [hasleep]
      view := fun u => ?_
      blocked := fun u hu => by simpa only [hasleep] using h.blocked u hu
      since_lt := h.since_lt
      sorted := h.sorted }
  by_cases hut : u = t
  · simp [hut, PlaceView]
  · simpa [hut] using h.view u

/-- A woken thread calls `mutex_acquire`. -/
theorem wake (h : CondInvariant s) {d : Nat} (hd : s.place t = .asleep d)
    (hrun : s.mutex.blocked t = false) :
    CondInvariant { s with
      mutex := s.mutex.goto t .acqCheck
      place := Function.update s.place t (.acquiring d) } := by
  have hview := h.view t
  rw [hd] at hview
  obtain ⟨hlt, hout, hdepth⟩ := hview
  have hm : MutexInvariant (s.mutex.goto t .acqCheck) :=
    h.mutex.next (a := .acquire t) hout (show s.mutex.depth t + 1 < 2 ^ 32 by omega) rfl
  -- Who is still blocked is another thread, so the list stays as it is.
  have hne : ∀ u, s.mutex.blocked u = true → u ≠ t := by
    rintro u hu rfl
    rw [hrun] at hu
    cases hu
  refine
    { mutex := hm
      asleep := h.asleep.congr fun u => ?_
      view := fun u => ?_
      blocked := fun u hu => ?_
      since_lt := h.since_lt
      sorted := h.sorted }
  · refine and_congr_left fun hu => ?_
    have hut := hne u hu
    simp [hut]
  · by_cases hut : u = t
    · subst hut
      simp only [PlaceView, MutexState.goto, Function.update_self]
      exact .inl ⟨hlt, trivial, hdepth⟩
    · simpa [MutexState.goto, hut] using h.view u
  · have hut := hne u hu
    simpa [MutexState.goto, hut] using h.blocked u hu

/-- `cond_wait` up to the sleep: the caller has released the mutex once, and it is the last on
the list. -/
theorem wait (h : CondInvariant s) (hidle : s.Idle t) (hpos : 0 < s.mutex.depth t) :
    ∃ s', s.wait t = .ok s' ∧ CondInvariant s' ∧ s'.cond.waitList = s.cond.waitList ++ [t] ∧
      s'.mutex.depth t = s.mutex.depth t - 1 := by
  obtain ⟨hout, hplace⟩ := hidle
  have hnot : ∀ d, s.place t ≠ .asleep d := by simp [hplace]
  have hrun := h.running (t := t) (by simp [hout]) hnot
  have hlist : t ∉ s.cond.waitList := fun hmem => by
    obtain ⟨⟨d, hd⟩, -⟩ := (h.asleep.mem_iff t).mp hmem
    exact hnot d hd
  have hne : ∀ u ∈ s.cond.waitList, u ≠ t := by
    rintro u hu rfl
    exact hlist hu
  obtain ⟨lock, popped, hrelease, hpopped, hinv⟩ := h.mutex.release hout hrun hpos
  have hdepth : s.mutex.depth t < 2 ^ 32 := by
    rw [← (h.mutex.owner hout hpos).2.2]
    exact UInt32.toNat_lt _
  -- who was popped sleeps in `mutex_acquire`, and not on the condition
  have hblocked : ∀ u, s.mutex.pc u ≠ .acqSleep →
      unblockPopped s.mutex.blocked popped u = s.mutex.blocked u := by
    intro u hu
    cases popped with
    | none => rfl
    | some w =>
        have huw : u ≠ w := by
          rintro rfl
          exact hu (hpopped u rfl)
        exact Function.update_of_ne huw _ _
  have hmono : ∀ u, unblockPopped s.mutex.blocked popped u = true → s.mutex.blocked u = true := by
    intro u hu
    cases popped with
    | none => exact hu
    | some w =>
        by_cases huw : u = w
        · simp [unblockPopped, huw] at hu
        · simpa [unblockPopped, huw] using hu
  refine ⟨_, by simp only [CondState.wait, ASSERT_true hlist, ok_bind, MutexState.release, hrelease]
                rfl, ?_, rfl, Function.update_self _ _ _⟩
  refine
    { mutex := hinv.setBlocked (by simp [hout]) true
      asleep := (h.asleep.push (by simp [hplace])).congr fun u => ?_
      view := fun u => ?_
      blocked := fun u hu => ?_
      since_lt := fun u hu => ?_
      sorted := ?_ }
  · by_cases hut : u = t
    · simp [MutexState.setBlocked, hut]
    · simp only [MutexState.setBlocked, Function.update_of_ne hut, hut, or_false]
      refine and_congr_right fun hasleep => ?_
      obtain ⟨d, hd⟩ := hasleep
      have hview := h.view u
      rw [hd] at hview
      rw [hblocked u (by simp [hview.2.1])]
  · by_cases hut : u = t
    · subst hut
      simp only [PlaceView, MutexState.setBlocked, Function.update_self]
      exact ⟨hdepth, hout, by omega⟩
    · simpa [MutexState.setBlocked, hut] using h.view u
  · by_cases hut : u = t
    · exact .inr (by simp [hut])
    · simp only [MutexState.setBlocked, Function.update_of_ne hut] at hu ⊢
      exact h.blocked u (hmono u hu)
  · rcases List.mem_append.mp hu with hu | hu
    · simp only [Function.update_of_ne (hne u hu)]
      exact Nat.lt_succ_of_lt (h.since_lt u hu)
    · obtain rfl := List.mem_singleton.mp hu
      simp
  · rw [List.pairwise_append]
    refine ⟨h.sorted.imp_of_mem fun {u v} hu hv hlt => ?_, List.pairwise_singleton _ _, ?_⟩
    · simpa [hne u hu, hne v hv] using hlt
    · intro u hu v hv
      obtain rfl := List.mem_singleton.mp hv
      simpa [hne u hu] using h.since_lt u hu

/-- Every action keeps the invariant. -/
theorem next {a : CondAct} (h : CondInvariant s) (henabled : s.Enabled a) (hfits : CondFits s a)
    (hnext : s.next a = .ok s') : CondInvariant s' := by
  cases a with
  | mutex a =>
      obtain ⟨m, hm, hret⟩ := bind_eq_ok.mp hnext
      obtain rfl := Except.ok.inj hret
      cases a with
      | acquire t =>
          obtain ⟨hout, hplace⟩ := henabled
          have hrun := h.running (t := t) (by simp [hout]) (by simp [hplace])
          have hinv := h.mutex.next (a := .acquire t) hout hfits hm
          cases hm
          exact h.mutexStep hinv (.goto _) hrun (by simp [hplace]) (by simp [hplace, PlaceView])
      | release t =>
          obtain ⟨⟨hout, hplace⟩, hpos⟩ := henabled
          have hrun := h.running (t := t) (by simp [hout]) (by simp [hplace])
          have hinv := h.mutex.next (a := .release t) ⟨hout, hpos⟩ trivial hm
          cases hm
          exact h.mutexStep hinv (.goto _) hrun (by simp [hplace]) (by simp [hplace, PlaceView])
      | step t =>
          obtain ⟨hpc, hrun⟩ : s.mutex.pc t ≠ .outside ∧ s.mutex.blocked t = false := henabled
          have hinv := h.mutex.goOn hpc hrun hm
          have hview := h.view t
          refine h.mutexStep hinv (h.mutex.step_frame hm) hrun (fun d hd => ?_) ?_
          · rw [hd] at hview
            exact hpc hview.2.1
          · -- A thread on its way out of `cond_wait` acquires the mutex at its old depth.
            cases hplace : s.place t with
            | outside => trivial
            | asleep d =>
                rw [hplace] at hview
                exact absurd hview.2.1 hpc
            | acquiring d =>
                rw [hplace] at hview
                rcases hview with ⟨hlt, hacq, hd⟩ | ⟨hout, -⟩
                · rcases acquire_step hacq hm with ⟨hacq', hdepth⟩ | ⟨hout, hdepth⟩
                  · exact .inl ⟨hlt, hacq', by omega⟩
                  · exact .inr ⟨hout, by omega, by omega⟩
                · exact absurd hout hpc
  | wait t =>
      obtain ⟨s'', hok, hinv, -⟩ := h.wait henabled.1 henabled.2
      obtain rfl : s'' = s' := Except.ok.inj (hok.symm.trans hnext)
      exact hinv
  | wake t =>
      obtain ⟨⟨d, hd⟩, hrun⟩ := henabled
      simp only [CondState.next, hd] at hnext
      cases hnext
      exact h.wake hd hrun
  | ret t =>
      obtain ⟨⟨d, hd⟩, -⟩ := henabled
      cases hnext
      exact h.ret hd
  | signal t =>
      cases hnext
      exact h.signal
  | broadcast t =>
      cases hnext
      exact h.wakeAll rfl

/-- No step fails an assertion. -/
theorem exists_next {a : CondAct} (h : CondInvariant s) (henabled : s.Enabled a) :
    ∃ s', s.next a = .ok s' := by
  cases a with
  | mutex a =>
      obtain ⟨m, hm⟩ := h.mutex.next_ok (a := a)
      exact ⟨_, by simp only [CondState.next, hm, ok_bind]; rfl⟩
  | wait t =>
      obtain ⟨s', hok, -⟩ := h.wait henabled.1 henabled.2
      exact ⟨s', hok⟩
  | wake t =>
      obtain ⟨⟨d, hd⟩, -⟩ := henabled
      exact ⟨_, by simp only [CondState.next, hd]; rfl⟩
  | ret t | signal t | broadcast t => exact ⟨_, rfl⟩

/-- `cond_wait` returns with the mutex, as often acquired as before. -/
theorem returns (h : CondInvariant s) {d : Nat} (hd : s.place t = .acquiring d)
    (hout : s.mutex.pc t = .outside) :
    s.mutex.lock.holder = some t ∧ 0 < s.mutex.depth t ∧ s.mutex.depth t = d := by
  have hview := h.view t
  rw [hd, hout] at hview
  rcases hview with ⟨-, hacq, -⟩ | ⟨-, hpos, heq⟩
  · exact hacq.elim
  · exact ⟨(h.mutex.owner hout hpos).1, hpos, heq⟩

/-- A thread on the list has as many acquires left as it had before, less one. -/
theorem sleeping (h : CondInvariant s) (hmem : t ∈ s.cond.waitList) :
    ∃ d, s.place t = .asleep d ∧ s.mutex.pc t = .outside ∧ s.mutex.depth t + 1 = d := by
  obtain ⟨⟨d, hd⟩, -⟩ := (h.asleep.mem_iff t).mp hmem
  have hview := h.view t
  rw [hd] at hview
  exact ⟨d, hd, hview.2⟩

/-- A broadcast wakes the threads of the list, and no others. -/
theorem wakeAll_eq (s : CondState) (ws : List Tid) (hlist : s.cond.waitList = ws) :
    (s.wakeAll ws).cond.waitList = [] ∧
      ∀ u, (s.wakeAll ws).mutex.blocked u = true ↔ s.mutex.blocked u = true ∧ u ∉ ws := by
  induction ws generalizing s with
  | nil => exact ⟨hlist, fun u => by simp [CondState.wakeAll]⟩
  | cons w ws ih =>
      obtain ⟨hnil, hblocked⟩ := ih { s with
        mutex := s.mutex.setBlocked w false, cond := { waitList := ws } } rfl
      refine ⟨hnil, fun u => (hblocked u).trans ?_⟩
      by_cases huw : u = w <;> simp [MutexState.setBlocked, huw]

end CondInvariant

/-- The invariant holds in every run without `2 ^ 32` nested acquires. -/
theorem shallowCondSystem_inductive : shallowCondSystem.Inductive CondInvariant where
  init hinit := by
    cases hinit
    exact CondInvariant.start
  step h henabled hnext := h.next henabled.1 henabled.2 hnext

/-- What a condition promises, in every reachable state of a system that uses one. -/
structure CondSafe (S : System CondState CondAct Halt) : Prop where
  /-- A thread on the list does not hold the mutex. -/
  released : ∀ s, S.Reachable s → ∀ t ∈ s.cond.waitList, ¬s.mutex.Holds t
  /-- `cond_wait` returns with the mutex, as often acquired as before. -/
  returns : ∀ s, S.Reachable s → ∀ t d, s.place t = .acquiring d → s.mutex.pc t = .outside →
    s.mutex.lock.holder = some t ∧ 0 < s.mutex.depth t ∧ s.mutex.depth t = d
  /-- `cond_signal` wakes the thread that has waited longest, and no other. -/
  signal : ∀ s, S.Reachable s → ∀ w ws, s.cond.waitList = w :: ws → ∀ t s',
    S.next s (.signal t) = .ok s' →
      s'.cond.waitList = ws ∧ s.mutex.blocked w = true ∧
      s'.mutex.blocked = Function.update s.mutex.blocked w false ∧
      ∀ u ∈ ws, s.since w < s.since u
  /-- `cond_broadcast` wakes all threads on the list, and no other. -/
  broadcast : ∀ s, S.Reachable s → ∀ t s', S.next s (.broadcast t) = .ok s' →
    s'.cond.waitList = [] ∧
      ∀ u, s'.mutex.blocked u = true ↔ s.mutex.blocked u = true ∧ u ∉ s.cond.waitList
  /-- No assertion of the functions fails. -/
  asserts : ∀ s, S.Reachable s → ∀ a, S.enabled s a → ∃ s', S.next s a = .ok s'

/-- The threads that are woken are still in `cond_wait`. -/
theorem wakeAll_place (s : CondState) (ws : List Tid) : (s.wakeAll ws).place = s.place := by
  induction ws generalizing s with
  | nil => rfl
  | cons w ws ih => exact ih _

/-- So is the one that a signal wakes. -/
theorem signal_place (s : CondState) : s.signal.place = s.place := by
  unfold CondState.signal
  split <;> rfl

/-- Only `cond_wait` puts a thread to sleep on the condition. -/
theorem place_next {s s' : CondState} {a : CondAct} {t : Tid} {d : Nat}
    (hnext : s.next a = .ok s') (hd : s'.place t = .asleep d) :
    s.place t = .asleep d ∨ (a = .wait t ∧ d = s.mutex.depth t) := by
  cases a with
  | mutex a =>
      obtain ⟨m, -, hret⟩ := bind_eq_ok.mp hnext
      obtain rfl := Except.ok.inj hret
      exact .inl hd
  -- The one action that puts a thread to sleep.
  | wait u =>
      obtain ⟨_, -, hnext⟩ := bind_eq_ok.mp hnext
      obtain ⟨m, -, hret⟩ := bind_eq_ok.mp hnext
      obtain rfl := Except.ok.inj hret
      by_cases htu : t = u
      · subst htu
        simp only [Function.update_self] at hd
        exact .inr ⟨rfl, (CondPlace.asleep.inj hd).symm⟩
      · exact .inl (by simpa [htu] using hd)
  | wake u =>
      simp only [CondState.next] at hnext
      split at hnext
      · cases hnext
        by_cases htu : t = u
        · simp [htu] at hd
        · exact .inl (by simpa [htu] using hd)
      · cases hnext
        exact .inl hd
  | ret u =>
      cases hnext
      by_cases htu : t = u
      · simp [htu] at hd
      · exact .inl (by simpa [htu] using hd)
  | signal u =>
      cases hnext
      exact .inl (signal_place s ▸ hd)
  | broadcast u =>
      cases hnext
      exact .inl (wakeAll_place s _ ▸ hd)

/-- Who sleeps on the condition had acquired the mutex once. -/
theorem waitsOnce_inductive : (shallowCondSystem.restrict WaitsOnce).Inductive fun s =>
    CondInvariant s ∧ ∀ t d, s.place t = .asleep d → d = 1 where
  init hinit := by
    cases hinit
    exact ⟨CondInvariant.start, fun t d hd => by cases hd⟩
  step {s s' a} h henabled hnext := by
    obtain ⟨hinv, hone⟩ := h
    obtain ⟨henabled, honce⟩ := henabled
    refine ⟨hinv.next henabled.1 henabled.2 hnext, fun t d hd => ?_⟩
    rcases place_next hnext hd with hold | ⟨rfl, rfl⟩
    · exact hone t d hold
    · exact honce

/-- `cond_wait` at a depth of two and more: the caller sleeps with the mutex in its hands. -/
theorem CondInvariant.wait_nested {s s' : CondState} {t : Tid} (h : CondInvariant s)
    (henabled : s.Enabled (.wait t)) (hnext : s.next (.wait t) = .ok s')
    (hdepth : s.mutex.depth t ≠ 1) : t ∈ s'.cond.waitList ∧ s'.mutex.Holds t := by
  obtain ⟨s'', hok, -, hlist, hleft⟩ := h.wait henabled.1 henabled.2
  obtain rfl : s'' = s' := Except.ok.inj (hok.symm.trans hnext)
  have hpos : 0 < s.mutex.depth t := henabled.2
  exact ⟨by simp [hlist], .inl (by omega)⟩

/-- When waiting on a condition gives the mutex away. In every run in which each `cond_wait` is
called with the mutex acquired exactly once, the condition keeps its promises. A `cond_wait` at
any other depth puts its caller on the list with the mutex in its hands. -/
theorem condSystem_safe_once (t : Tid) :
    CondSafe (shallowCondSystem.restrict WaitsOnce) ∧
    ∀ s s', shallowCondSystem.Reachable s → s.Enabled (.wait t) →
      s.next (.wait t) = .ok s' → s.mutex.depth t ≠ 1 →
      t ∈ s'.cond.waitList ∧ s'.mutex.Holds t := by
  refine ⟨⟨fun s hs t ht hholds => ?_, fun s hs t d hd hout => ?_,
    fun s hs w ws hlist t s' hnext => ?_, fun s hs t s' hnext => ?_, fun s hs a ha => ?_⟩,
    fun s s' hs ha hnext hdepth => ?_⟩
  · obtain ⟨hinv, hone⟩ := waitsOnce_inductive.reachable hs
    obtain ⟨d, hd, hout, hdepth⟩ := hinv.sleeping ht
    have hd1 := hone t d hd
    rcases hholds with hpos | hpc | hpc | hpc | hpc
    · omega
    all_goals
      rw [hout] at hpc
      cases hpc
  · exact (waitsOnce_inductive.reachable hs).1.returns hd hout
  · have hinv := (waitsOnce_inductive.reachable hs).1
    obtain rfl : s.signal = s' := Except.ok.inj hnext
    have hblocked := ((hinv.asleep.mem_iff w).mp (hlist ▸ List.mem_cons_self)).2
    have hsorted := hlist ▸ hinv.sorted
    simp only [CondState.signal, hlist]
    exact ⟨trivial, hblocked, rfl, (List.pairwise_cons.mp hsorted).1⟩
  · obtain rfl : s.wakeAll s.cond.waitList = s' := Except.ok.inj hnext
    exact CondInvariant.wakeAll_eq s _ rfl
  · exact (waitsOnce_inductive.reachable hs).1.exists_next ha.1.1
  · exact (shallowCondSystem_inductive.reachable hs).wait_nested ha hnext hdepth

/-- The thread 1 acquires the mutex. -/
def acquireOnce : List CondAct := .mutex (.acquire 1) :: List.replicate 4 (.mutex (.step 1))

/-- The thread 1 acquires the mutex a second time. -/
def acquireTwice : List CondAct :=
  acquireOnce ++ .mutex (.acquire 1) :: List.replicate 2 (.mutex (.step 1))

/-- The state behind `acquireTwice`. -/
def nestedState : CondState := acquireTwice.foldl shallowCondSystem.after CondState.start

/-- A thread that has acquired the mutex once sleeps without it. One that has acquired it twice
sleeps with it. -/
theorem condSystem_safe_once_one :
    (∃ s, (shallowCondSystem.restrict WaitsOnce).Reachable s ∧ s.cond.waitList = [1] ∧
      ¬s.mutex.Holds 1) ∧
    ∃ s', nestedState.next (.wait 1) = .ok s' ∧ 1 ∈ s'.cond.waitList ∧ s'.mutex.Holds 1 := by
  have hsleeps : (shallowCondSystem.restrict WaitsOnce).Reachable
      ((acquireOnce.concat (.wait 1)).foldl (shallowCondSystem.restrict WaitsOnce).after
        CondState.start) :=
    (System.Reachable.init rfl).runs (by decide +kernel)
  have hnested : shallowCondSystem.Reachable nestedState :=
    (System.Reachable.init rfl).runs (by decide +kernel)
  have hok : (nestedState.next (.wait 1)).isOk = true := by decide +kernel
  have hwait := eq_ok_getD (d := nestedState) hok
  exact ⟨⟨_, hsleeps, by decide +kernel,
      (condSystem_safe_once 1).1.released _ hsleeps 1 (by decide +kernel)⟩,
    _, hwait, (condSystem_safe_once 1).2 _ _ hnested (by decide +kernel) hwait (by decide +kernel)⟩

/-! ### A wait at depth two -/

/-- Without waits the system is the mutex system. -/
theorem condSystem_of_mutex {m : MutexState} (hm : mutexSystem.Reachable m) :
    condSystem.Reachable { CondState.start with mutex := m } := by
  induction hm with
  | init hinit =>
      cases hinit
      exact .init rfl
  | @step m m' a _ henabled hnext ih =>
      have ha : condSystem.enabled { CondState.start with mutex := m } (.mutex a) := by
        cases a with
        | acquire t => exact ⟨henabled, rfl⟩
        | release t => exact ⟨⟨henabled.1, rfl⟩, henabled.2⟩
        | step t => exact henabled
      refine .step ih ha ?_
      show (m.next a >>= _) = _
      rw [show m.next a = .ok m' from hnext]
      rfl

/-- A thread acquires the mutex twice and calls `cond_wait`. The one `mutex_release` in there leaves
`repeat` at 1, so the thread sleeps with the mutex in its hands. -/
theorem condSystem_not_safe : ¬CondSafe condSystem := by
  intro hsafe
  obtain ⟨m, hm⟩ := exists_nested 2
  have hs := condSystem_of_mutex hm.reachable
  have hholder : m.lock.holder = some 0 := hm.owner.resolve_left (by simp)
  have ha : condSystem.enabled { CondState.start with mutex := m } (.wait 0) :=
    ⟨⟨hm.outside, rfl⟩, by rw [hm.depth]; decide⟩
  have hrelease : mutexRelease m.lock 0 = .ok ({ m.lock with «repeat» := 1 }, none) := by
    simp [mutexRelease, hholder, hm.repeat_eq]
  have hwait := System.Reachable.step hs ha
    (by simp only [condSystem, CondState.next, CondState.wait, MutexState.release, hrelease]; rfl)
  refine hsafe.released _ hwait 0 List.mem_cons_self (.inl ?_)
  show 0 < Function.update m.depth 0 (m.depth 0 - 1) 0
  simp [hm.depth]

end Fizzos.Proofs
