import Fizzos.Proofs.Sched
import Mathlib.Data.List.Nodup

/-!
# `Fizzos.Proofs.TimeSlice`: how long a task keeps the processor

The timer counts `ticks` down to 0 and then calls `schedule`, which sets them to `prio` again. So a
task with `ticks ≤ prio` runs for at most `prio + 1` timer interrupts (`slices_bounded`).

But `init_thread` does not set `ticks`, and `get_free_page` does not clear the page. A new task
starts with the ticks that the page has from before, and `do_fork` copies them. `FitsPage` says that
they are at most `prio`. Without it the bound fails for this task (`kthreadCreate_fits_iff`).
-/

set_option autoImplicit false

namespace Fizzos.Proofs

open Fizzos.Kernel
open Fizzos.Support

/-- What `schedule` needs, behind the place where the current task is put away. -/
structure SliceQueue (s : SchedState) : Prop where
  ready : ∀ t ∈ s.readyList, s.state t = some .READY
  nodup : s.readyList.Nodup
  idle : ∃ i, s.idle = some i ∧ s.state i ≠ none

/-- The current task runs. -/
structure SliceInv (s : SchedState) : Prop extends SliceQueue s where
  current : s.state s.current = some .RUNNING

/-- The ticks of every task are at most its priority. -/
def Fits (s : SchedState) : Prop := ∀ t, s.state t ≠ none → s.ticks t ≤ s.prio t

/-- No task comes into being, and ticks grow up to the priority at most. -/
structure Spends (s s' : SchedState) : Prop where
  state : ∀ t, s.state t = none → s'.state t = none
  ticks : ∀ t, s'.ticks t ≤ s.ticks t ∨ s'.ticks t ≤ s.prio t
  prio : s'.prio = s.prio

/-- The page of a new task has no more ticks from before than the task has priority. -/
def FitsPage : SliceAct → Prop
  | .kthreadCreate _ prio ticks => ticks ≤ prio
  | _ => True

/-- The timer interrupts of a call. -/
def timers : SliceAct → Nat
  | .timer => 1
  | _ => 0

section
variable {s s' : SchedState} {t u : Tid} {v : TaskState} {ts : List Tid}

/-- Ticks that go down still fit. -/
theorem Fits.spends (h : Fits s) (hs : Spends s s') : Fits s' := by
  intro t ht
  have hfits := h t (mt (hs.state t) ht)
  rw [hs.prio]
  exact (hs.ticks t).elim (fun hle => UInt32.le_trans hle hfits) id

/-! ### The state of one task -/

@[simp] theorem setState_self : (s.setState t v).state t = some v := Function.update_self _ _ _

/-- The states of the other tasks stay. -/
theorem setState_of_ne (h : u ≠ t) : (s.setState t v).state u = s.state u :=
  Function.update_of_ne h _ _

/-- A task that is there stays there. -/
theorem setState_ne_none (h : s.state u ≠ none) : (s.setState t v).state u ≠ none := by
  by_cases hu : u = t
  · subst hu
    rw [setState_self]
    exact Option.some_ne_none v
  · rwa [setState_of_ne hu]

/-- A task that is not there does not get there. -/
theorem setState_none (ht : s.state t ≠ none) (hu : s.state u = none) :
    (s.setState t v).state u = none := by
  have hne : u ≠ t := fun heq => ht (heq ▸ hu)
  rwa [setState_of_ne hne]

namespace SliceQueue

/-- A task that is not on the list may have any state. -/
theorem setState (h : SliceQueue s) (ht : t ∉ s.readyList) : SliceQueue (s.setState t v) where
  ready u hu := by
    have hne : u ≠ t := fun heq => ht (heq ▸ hu)
    rw [setState_of_ne hne]
    exact h.ready u hu
  nodup := h.nodup
  idle := h.idle.imp fun _ hi => ⟨hi.1, setState_ne_none hi.2⟩

/-- The tasks on the list are ready. -/
theorem not_mem (h : SliceQueue s) (ht : s.state t ≠ some .READY) : t ∉ s.readyList :=
  fun hmem => ht (h.ready t hmem)

/-- `t->state = READY` and a place at the end of the list. -/
theorem pushReady (h : SliceQueue s) (ht : t ∉ s.readyList) :
    SliceQueue ((s.setState t .READY).pushReady t) := by
  have hset : SliceQueue (s.setState t .READY) := h.setState ht
  refine ⟨fun u hu => ?_, ?_, hset.idle⟩
  · rcases List.mem_append.mp hu with hu | hu
    · exact hset.ready u hu
    · rw [List.mem_singleton.mp hu]
      exact setState_self
  · show (s.readyList ++ [t]).Nodup
    rw [List.nodup_append]
    refine ⟨h.nodup, List.nodup_singleton t, fun a ha b hb heq => ht ?_⟩
    rwa [← List.mem_singleton.mp hb, ← heq]

/-- `schedule` takes the first ready task, or `idle`. -/
theorem pickNext (h : SliceQueue s) :
    ∃ s', s.pickNext = .ok s' ∧ SliceInv s' ∧ Spends s s' ∧ s'.ticks = s.ticks ∧
      (∀ t ts, s.readyList = t :: ts → s'.current = t ∧ s'.readyList = ts) := by
  obtain ⟨i, hidle, hknown⟩ := h.idle
  -- Without a ready task it is the turn of `idle`.
  cases hready : s.readyList with
  | nil =>
      refine ⟨{ s.setState i .RUNNING with readyList := [], current := i }, ?_,
        ⟨⟨?_, List.nodup_nil, i, hidle, setState_ne_none hknown⟩, setState_self⟩,
        ⟨fun u hu => setState_none hknown hu, fun u => .inl (UInt32.le_refl _), rfl⟩, rfl, ?_⟩
      · simp [SchedState.pickNext, hready, hidle]
      · intro t ht
        cases ht
      · intro t ts hlist
        cases hlist
  | cons t ts =>
      have ht : s.state t ≠ none := by
        rw [h.ready t (hready ▸ List.mem_cons_self)]
        exact Option.some_ne_none _
      have hnodup : (t :: ts).Nodup := hready ▸ h.nodup
      refine ⟨{ s.setState t .RUNNING with readyList := ts, current := t }, ?_,
        ⟨⟨?_, hnodup.of_cons, i, hidle, setState_ne_none hknown⟩, setState_self⟩,
        ⟨fun u hu => setState_none ht hu, fun u => .inl (UInt32.le_refl _), rfl⟩, rfl, ?_⟩
      · simp [SchedState.pickNext, hready]
      · intro u hu
        have hne : u ≠ t := fun heq => (List.nodup_cons.mp hnodup).1 (heq ▸ hu)
        exact (setState_of_ne hne).trans (h.ready u (hready ▸ List.mem_cons_of_mem _ hu))
      · intro u us hlist
        cases hlist
        exact ⟨rfl, rfl⟩

/-- A task that does not run any more gives the processor away. -/
theorem schedule (h : SliceQueue s) (hstop : s.state s.current ≠ some .RUNNING) :
    ∃ s', s.schedule = .ok s' ∧ SliceInv s' ∧ Spends s s' ∧ s'.ticks = s.ticks := by
  obtain ⟨s', hpick, hinv, hspends, hticks, -⟩ := h.pickNext
  refine ⟨s', ?_, hinv, hspends, hticks⟩
  rw [SchedState.schedule, if_neg hstop]
  exact hpick

end SliceQueue

/-- What a call does. -/
structure SliceStep (s : SchedState) (a : SliceAct) (s' : SchedState) : Prop where
  inv : SliceInv s'
  fits : FitsPage a → Fits s → Fits s'
  /-- The current task pays one tick for each timer interrupt that it survives, if another task is
  ready. -/
  pays : s'.current = s.current → (a = .timer → s.readyList ≠ []) →
    (s'.ticks s.current).toNat + timers a = (s.ticks s.current).toNat

namespace SliceInv

/-- The current task is there. -/
theorem current_known (h : SliceInv s) : s.state s.current ≠ none := by
  rw [h.current]
  exact Option.some_ne_none _

/-- It runs, so it is not on the ready list. -/
theorem current_not_mem (h : SliceInv s) : s.current ∉ s.readyList :=
  h.not_mem (by rw [h.current]; decide)

/-- `schedule` for a task whose time is over. -/
theorem schedule (h : SliceInv s) :
    ∃ s', s.schedule = .ok s' ∧ SliceInv s' ∧ Spends s s' ∧
      ∀ t ts, s.readyList = t :: ts → s'.current = t := by
  have hqueue : SliceQueue
      (({ s with ticks := Function.update s.ticks s.current (s.prio s.current) }.setState
        s.current .READY).pushReady s.current) := by
    have hq : SliceQueue { s with ticks := Function.update s.ticks s.current (s.prio s.current) } :=
      ⟨h.ready, h.nodup, h.idle⟩
    exact hq.pushReady h.current_not_mem
  obtain ⟨s', hpick, hinv, hspends, hticks, hhead⟩ := hqueue.pickNext
  refine ⟨s', ?_, hinv, ⟨fun t ht => ?_, fun t => ?_, hspends.prio⟩, fun t ts hready => ?_⟩
  · rw [SchedState.schedule, if_pos h.current]
    exact hpick
  · exact hspends.state t (setState_none h.current_known ht)
  · rw [hticks]
    show Function.update s.ticks s.current (s.prio s.current) t ≤ s.ticks t ∨
      Function.update s.ticks s.current (s.prio s.current) t ≤ s.prio t
    by_cases ht : t = s.current
    · subst ht
      rw [Function.update_self]
      exact .inr (UInt32.le_refl _)
    · rw [Function.update_of_ne ht]
      exact .inl (UInt32.le_refl _)
  · refine (hhead t (ts ++ [s.current]) ?_).1
    show s.readyList ++ [s.current] = _
    rw [hready, List.cons_append]

/-- One more task on the ready list. -/
theorem wake (h : SliceInv s) (ht : s.state t ≠ some .READY) (hne : t ≠ s.current)
    (hstate : s'.state = (s.setState t .READY).state) (hcur : s'.current = s.current)
    (hidle : s'.idle = s.idle)
    (hlist : s'.readyList = s.readyList ++ [t] ∨ s'.readyList = t :: s.readyList) :
    SliceInv s' := by
  have hnew : t ∉ s.readyList := h.not_mem ht
  have hset : SliceQueue (s.setState t .READY) := h.setState hnew
  -- The new task is the first or the last one of the list.
  have hmem : ∀ u, u ∈ s'.readyList → u = t ∨ u ∈ s.readyList := by
    intro u hu
    rcases hlist with hlist | hlist
    · rw [hlist, List.mem_append, List.mem_singleton] at hu
      exact hu.symm
    · rw [hlist, List.mem_cons] at hu
      exact hu
  refine ⟨⟨fun u hu => ?_, ?_, ?_⟩, ?_⟩
  · rw [hstate]
    rcases hmem u hu with rfl | hu
    · exact setState_self
    · exact hset.ready u hu
  · rcases hlist with hlist | hlist
    · rw [hlist]
      exact (h.toSliceQueue.pushReady hnew).nodup
    · rw [hlist]
      exact List.nodup_cons.mpr ⟨hnew, h.nodup⟩
  · rw [hidle, hstate]
    exact hset.idle
  · rw [hcur, hstate, setState_of_ne hne.symm]
    exact h.current

/-- A call for which the current task gives the processor away. -/
theorem leave {s₁ : SchedState} {a : SliceAct} (hqueue : SliceQueue s₁)
    (hstop : s₁.state s₁.current ≠ some .RUNNING) (hspends : Spends s s₁)
    (hticks : s₁.ticks = s.ticks)
    (ha : timers a = 0) (hnext : s₁.schedule = .ok s') : SliceStep s a s' := by
  obtain ⟨s₂, hret, hinv, hspends', hticks'⟩ := hqueue.schedule hstop
  obtain rfl : s₂ = s' := Except.ok.inj (hret.symm.trans hnext)
  refine ⟨hinv, fun _ hfits => (hfits.spends hspends).spends hspends', fun _ _ => ?_⟩
  rw [hticks', hticks, ha, Nat.add_zero]

/-- A task that blocks or ends gives the processor to the next one. -/
theorem threadBlock (h : SliceInv s) {a : SliceAct} (hv : v ≠ .RUNNING) (ha : timers a = 0)
    (hnext : (s.setState s.current v).schedule = .ok s') : SliceStep s a s' := by
  refine leave (h.setState h.current_not_mem) ?_
    ⟨fun _ hu => setState_none h.current_known hu, fun _ => .inl (UInt32.le_refl _),
      rfl⟩ rfl ha hnext
  show (s.setState s.current v).state s.current ≠ _
  rw [setState_self]
  exact fun heq => hv (Option.some.inj heq)

/-- A task that yields goes to the end of the list first. -/
theorem threadYield (h : SliceInv s) {a : SliceAct} (ha : timers a = 0)
    (hnext : s.threadYield = .ok s') : SliceStep s a s' := by
  refine leave (h.pushReady h.current_not_mem) ?_
    ⟨fun _ hu => setState_none h.current_known hu, fun _ => .inl (UInt32.le_refl _),
      rfl⟩ rfl ha hnext
  show (s.setState s.current .READY).state s.current ≠ _
  rw [setState_self]
  decide

/-- A task that is woken goes to the end of the list. -/
theorem threadUnblock (h : SliceInv s) (ht : s.state t = some .BLOCKED) :
    SliceStep s (.threadUnblock t) (s.threadUnblock t) := by
  have hne : t ≠ s.current := by
    rintro rfl
    rw [h.current] at ht
    cases ht
  have hknown : s.state t ≠ none := by
    rw [ht]
    exact Option.some_ne_none _
  refine ⟨h.wake (by rw [ht]; decide) hne rfl rfl rfl (.inl rfl), fun _ hfits => ?_, fun _ _ => rfl⟩
  exact hfits.spends
    ⟨fun _ hu => setState_none hknown hu, fun _ => .inl (UInt32.le_refl _), rfl⟩

/-- A timer interrupt takes one tick, or the processor. -/
theorem intrTimerHandler (h : SliceInv s) (hnext : s.intrTimerHandler = .ok s') :
    SliceStep s .timer s' := by
  rw [SchedState.intrTimerHandler] at hnext
  by_cases hzero : s.ticks s.current = 0
  · rw [if_pos hzero] at hnext
    obtain ⟨s₂, hret, hinv, hspends, hhead⟩ := h.schedule
    obtain rfl : s₂ = s' := Except.ok.inj (hret.symm.trans hnext)
    refine ⟨hinv, fun _ hfits => hfits.spends hspends, fun hcur hothers => ?_⟩
    -- the first ready task is another one
    obtain ⟨t, ts, hready⟩ := List.exists_cons_of_ne_nil (hothers rfl)
    refine absurd ?_ h.current_not_mem
    rw [← hcur, hhead t ts hready, hready]
    exact List.mem_cons_self
  · rw [if_neg hzero] at hnext
    cases hnext
    have hpos : 0 < (s.ticks s.current).toNat :=
      Nat.pos_of_ne_zero fun heq => hzero (UInt32.toNat_inj.mp heq)
    have hone : 1 ≤ s.ticks s.current := by
      rw [UInt32.le_iff_toNat_le]
      exact hpos
    have hless : (s.ticks s.current - 1).toNat + 1 = (s.ticks s.current).toNat := by
      rw [UInt32.toNat_sub_of_le _ _ hone]
      exact Nat.sub_add_cancel hpos
    refine ⟨⟨⟨h.ready, h.nodup, h.idle⟩, h.current⟩, fun _ hfits => ?_, fun _ _ => ?_⟩
    · refine hfits.spends ⟨fun _ hu => hu, fun t => .inl ?_, rfl⟩
      show Function.update s.ticks s.current (s.ticks s.current - 1) t ≤ s.ticks t
      by_cases ht : t = s.current
      · subst ht
        rw [Function.update_self, UInt32.le_iff_toNat_le]
        omega
      · rw [Function.update_of_ne ht]
        exact UInt32.le_refl _
    · show (Function.update s.ticks s.current (s.ticks s.current - 1) s.current).toNat + 1 = _
      rw [Function.update_self]
      exact hless

/-! ### New tasks -/

/-- A page that is no task is neither the current one nor on the list. -/
theorem unused_ne (h : SliceInv s) (ht : s.Unused t) :
    t ≠ s.current ∧ s.state t ≠ some .READY := by
  constructor
  · rintro rfl
    rw [SchedState.Unused, h.current] at ht
    rcases ht with ht | ht <;> cases ht
  · intro hready
    rw [SchedState.Unused, hready] at ht
    rcases ht with ht | ht <;> cases ht

/-- A new thread goes to the end of the list, with the ticks of its page. -/
theorem kthreadCreate (h : SliceInv s) (ht : s.Unused t) (prio ticks : UInt32) :
    SliceStep s (.kthreadCreate t prio ticks) (s.kthreadCreate t prio ticks) := by
  obtain ⟨hne, hready⟩ := h.unused_ne ht
  refine ⟨h.wake hready hne rfl rfl rfl (.inl rfl), fun hpage hfits u hu => ?_, fun _ _ => ?_⟩
  · show Function.update s.ticks t ticks u ≤ Function.update s.prio t prio u
    by_cases hut : u = t
    · subst hut
      rw [Function.update_self, Function.update_self]
      exact hpage
    · rw [Function.update_of_ne hut, Function.update_of_ne hut]
      replace hu : (s.setState t .READY).state u ≠ none := hu
      rw [setState_of_ne hut] at hu
      exact hfits u hu
  · show (Function.update s.ticks t ticks s.current).toNat + 0 = _
    rw [Function.update_of_ne hne.symm, Nat.add_zero]

/-- The child runs at once, with the ticks of its parent. -/
theorem doFork (h : SliceInv s) (ht : s.Unused t) (hnext : s.doFork t = .ok s') :
    SliceStep s (.doFork t) s' := by
  obtain ⟨hne, hready⟩ := h.unused_ne ht
  have hchild : SliceInv ((({ s with
      prio := Function.update s.prio t (s.prio s.current)
      ticks := Function.update s.ticks t (s.ticks s.current) }.setState
        t .READY).setPc t .run).pushReadyFront t) :=
    h.wake hready hne rfl rfl rfl (.inr rfl)
  obtain ⟨s₂, hret, hinv, hspends, hhead⟩ := hchild.schedule
  obtain rfl : s₂ = s' := Except.ok.inj (hret.symm.trans hnext)
  refine ⟨hinv, fun _ hfits => Fits.spends (fun u hu => ?_) hspends, fun hcur _ => ?_⟩
  · show Function.update s.ticks t (s.ticks s.current) u
      ≤ Function.update s.prio t (s.prio s.current) u
    by_cases hut : u = t
    · subst hut
      rw [Function.update_self, Function.update_self]
      exact hfits _ h.current_known
    · rw [Function.update_of_ne hut, Function.update_of_ne hut]
      replace hu : (s.setState t .READY).state u ≠ none := hu
      rw [setState_of_ne hut] at hu
      exact hfits u hu
  · exact absurd ((hhead t s.readyList rfl).symm.trans hcur) hne

/-- Every call keeps the invariant. -/
theorem next (h : SliceInv s) {a : SliceAct} (ha : s.SliceEnabled a)
    (hnext : s.sliceNext a = .ok s') : SliceStep s a s' := by
  cases a with
  | timer => exact h.intrTimerHandler hnext
  | kthreadCreate t prio ticks =>
      cases hnext
      exact h.kthreadCreate ha prio ticks
  | doFork t => exact h.doFork ha hnext
  | threadBlock => exact h.threadBlock (v := .BLOCKED) (by decide) rfl hnext
  | threadUnblock t =>
      cases hnext
      exact h.threadUnblock ha
  | threadYield => exact h.threadYield rfl hnext
  | sysExit => exact h.threadBlock (v := .EXIT) (by decide) rfl hnext

/-- The ready list before `idle` and behind `main`. -/
theorem start (h : s.Start) : SliceInv s := by
  obtain ⟨i, hidle, hne, hready, hstate⟩ := h.idle
  refine ⟨⟨fun t ht => ?_, ?_, i, hidle, ?_⟩, ?_⟩
  · rw [hready, List.mem_singleton] at ht
    rw [hstate, ht, if_neg hne, if_pos rfl]
  · rw [hready]
    exact List.nodup_singleton i
  · rw [hstate, if_neg hne, if_pos rfl]
    exact Option.some_ne_none _
  · rw [hstate, if_pos rfl]

end SliceInv

end

/-! ### Runs -/

/-- The scheduler, where the pages of all tasks fit: those of `main` and `idle`, and those of new
kernel threads. -/
def fitsSystem : System SchedState SliceAct Halt :=
  { sliceSystem.restrict (fun _ a => FitsPage a) with init := fun s => s.Start ∧ Fits s }

/-- The queue is in order and the ticks fit, in every run with pages that fit. -/
theorem fitsSystem_inductive : fitsSystem.Inductive fun s => SliceInv s ∧ Fits s where
  init h := ⟨.start h.1, h.2⟩
  step h ha hnext :=
    have hstep := h.1.next ha.1 hnext
    ⟨hstep.inv, hstep.fits ha.2 h.2⟩

/-- The current task keeps the processor from `s` on, with `n` timer interrupts up to the end of the
last call. At each of them another task is ready: else `schedule` has nobody to give the processor
to. -/
inductive KeepsCpu (s : SchedState) : Nat → SchedState → Prop
  | start : KeepsCpu s 0 s
  | call {n : Nat} {s₁ s₂ : SchedState} {a : SliceAct} : KeepsCpu s n s₁ →
      s₁.current = s.current → s₁.SliceEnabled a → (a = .timer → s₁.readyList ≠ []) →
      s₁.sliceNext a = .ok s₂ → KeepsCpu s (n + timers a) s₂

/-- A task pays one tick for each interrupt. The interrupt that takes the processor away is free. -/
theorem KeepsCpu.pays {s s' : SchedState} {n : Nat} (hinv : SliceInv s) (h : KeepsCpu s n s') :
    SliceInv s' ∧ n ≤ (s.ticks s.current).toNat + 1 ∧
      (s'.current = s.current →
        (s'.ticks s.current).toNat + n = (s.ticks s.current).toNat) := by
  induction h with
  | start => exact ⟨hinv, Nat.zero_le _, fun _ => rfl⟩
  | @call n s₁ s₂ a hkeeps hcur ha hothers hnext ih =>
      obtain ⟨hinv₁, -, hpaid⟩ := ih
      have hstep := hinv₁.next ha hnext
      have hbefore := hpaid hcur
      have hone : timers a ≤ 1 := by cases a <;> simp [timers]
      refine ⟨hstep.inv, by omega, fun hcur₂ => ?_⟩
      have hpays := hstep.pays (hcur₂.trans hcur.symm) hothers
      rw [hcur] at hpays
      omega

/-- A running task has at most as many ticks as priority, and it keeps the processor for `prio + 1`
timer interrupts at most. -/
theorem slices_bounded {s : SchedState} (hs : fitsSystem.Reachable s) :
    (∀ t, s.state t = some .RUNNING → s.ticks t ≤ s.prio t) ∧
      ∀ n s', KeepsCpu s n s' → n ≤ (s.prio s.current).toNat + 1 := by
  obtain ⟨hinv, hfits⟩ := fitsSystem_inductive.reachable hs
  have hrunning : ∀ t, s.state t = some .RUNNING → s.ticks t ≤ s.prio t := by
    intro t ht
    refine hfits t ?_
    rw [ht]
    exact Option.some_ne_none _
  refine ⟨hrunning, fun n s' hkeeps => ?_⟩
  have hle := UInt32.le_iff_toNat_le.mp (hrunning s.current hinv.current)
  exact (hkeeps.pays hinv).2.1.trans (Nat.succ_le_succ hle)

/-- The state at boot is the start of such a run. -/
theorem bootState_fits : fitsSystem.Reachable bootState :=
  .init ⟨bootState_start, fun _ _ => UInt32.le_refl _⟩

/-- A new thread with priority 5, in a page with 3 ticks from before. -/
theorem slices_bounded_three :
    (∀ t, (bootState.kthreadCreate 2 5 3).state t = some .RUNNING →
      (bootState.kthreadCreate 2 5 3).ticks t ≤ (bootState.kthreadCreate 2 5 3).prio t) ∧
      ∀ n s', KeepsCpu (bootState.kthreadCreate 2 5 3) n s' → n ≤ 11 :=
  have hunused : bootState.Unused 2 := .inl rfl
  have hpage : FitsPage (.kthreadCreate 2 5 3) := show (3 : UInt32) ≤ 5 by decide
  slices_bounded (bootState_fits.step (a := SliceAct.kthreadCreate 2 5 3) ⟨hunused, hpage⟩ rfl)

/-- The page of a new thread is full of ones from before. `init_thread` does not set `ticks`, so the
thread begins with more of them than its priority. -/
theorem slices_unbounded :
    ¬∀ s, sliceSystem.Reachable s → ∀ t, s.state t = some .RUNNING → s.ticks t ≤ s.prio t := by
  intro hall
  have hboot : sliceSystem.Reachable bootState := .init bootState_start
  have hunused : bootState.Unused 2 := .inl rfl
  have hcreate := hboot.step (a := SliceAct.kthreadCreate 2 10 0xffffffff) hunused rfl
  -- `main` blocks, and then `idle` does
  have hidle := hcreate.step (a := SliceAct.threadBlock) trivial rfl
  have hthread := hidle.step (a := SliceAct.threadBlock) trivial rfl
  exact absurd (hall _ hthread 2 rfl) (by decide)

/-! ### The page of a new thread -/

/-- The runs from a state on. -/
def sliceFrom (s : SchedState) : System SchedState SliceAct Halt :=
  { sliceSystem.restrict (fun _ a => FitsPage a) with init := fun s₀ => s₀ = s }

/-- The current task blocks, and the first ready task runs. -/
theorem exists_blocks {s₀ s : SchedState} {ts : List Tid} {t : Tid}
    (hs : (sliceFrom s₀).Reachable s) (hinv : SliceInv s) (hready : s.readyList = t :: ts) :
    ∃ s', (sliceFrom s₀).Reachable s' ∧ SliceInv s' ∧ s'.current = t ∧ s'.readyList = ts ∧
      s'.ticks = s.ticks ∧ s'.prio = s.prio := by
  have hqueue : SliceQueue (s.setState s.current .BLOCKED) := hinv.setState hinv.current_not_mem
  have hblock : s.threadBlock = (s.setState s.current .BLOCKED).pickNext := by
    refine if_neg ?_
    show (s.setState s.current .BLOCKED).state s.current ≠ _
    rw [setState_self]
    decide
  obtain ⟨s', hpick, hinv', hspends, hticks, hhead⟩ := hqueue.pickNext
  obtain ⟨hcur, hrest⟩ := hhead t ts hready
  have hs' : (sliceFrom s₀).Reachable s' :=
    hs.step (a := SliceAct.threadBlock) ⟨trivial, trivial⟩ (hblock.trans hpick)
  exact ⟨s', hs', hinv', hcur, hrest, hticks, hspends.prio⟩

/-- When all others block, a ready task runs. -/
theorem exists_runs {s₀ s : SchedState} {us ts : List Tid} {t : Tid}
    (hs : (sliceFrom s₀).Reachable s) (hinv : SliceInv s) (hready : s.readyList = us ++ t :: ts) :
    ∃ s', (sliceFrom s₀).Reachable s' ∧ s'.state t = some .RUNNING ∧ s'.ticks = s.ticks ∧
      s'.prio = s.prio := by
  -- the induction is on the tasks before `t`, and each round blocks the current task
  induction us generalizing s with
  | nil =>
      obtain ⟨s₁, hs₁, hinv₁, hcur, -, hticks, hprio⟩ := exists_blocks hs hinv hready
      refine ⟨s₁, hs₁, ?_, hticks, hprio⟩
      rw [← hcur]
      exact hinv₁.current
  | cons u us ih =>
      obtain ⟨s₁, hs₁, hinv₁, -, hrest, hticks, hprio⟩ := exists_blocks hs hinv hready
      obtain ⟨s', hs', hrun, hticks', hprio'⟩ := ih hs₁ hinv₁ hrest
      exact ⟨s', hs', hrun, hticks'.trans hticks, hprio'.trans hprio⟩

/-- The runs behind a `kthread_create` keep to the bound exactly when the page of the thread
does. -/
theorem kthreadCreate_fits_iff {s : SchedState} {t : Tid} (hs : fitsSystem.Reachable s)
    (ht : s.Unused t) (prio ticks : UInt32) :
    (∀ s', (sliceFrom (s.kthreadCreate t prio ticks)).Reachable s' →
      ∀ u, s'.state u = some .RUNNING → s'.ticks u ≤ s'.prio u) ↔ ticks ≤ prio := by
  obtain ⟨hinv, hfits⟩ := fitsSystem_inductive.reachable hs
  have hcreate := hinv.kthreadCreate ht prio ticks
  constructor
  · intro hall
    have hready : (s.kthreadCreate t prio ticks).readyList = s.readyList ++ t :: [] := rfl
    obtain ⟨s', hs', hrun, hticks, hprio⟩ := exists_runs (.init rfl) hcreate.inv hready
    have hle := hall s' hs' t hrun
    rw [hticks, hprio] at hle
    replace hle : Function.update s.ticks t ticks t ≤ Function.update s.prio t prio t := hle
    rwa [Function.update_self, Function.update_self] at hle
  · intro hpage s' hs' u hu
    have hkeeps : (sliceFrom (s.kthreadCreate t prio ticks)).Inductive
        fun s => SliceInv s ∧ Fits s :=
      ⟨fun hinit => hinit ▸ ⟨hcreate.inv, hcreate.fits hpage hfits⟩, fitsSystem_inductive.step⟩
    refine (hkeeps.reachable hs').2 u ?_
    rw [hu]
    exact Option.some_ne_none _

end Fizzos.Proofs
