import Fizzos.Proofs.TimeSlice

/-!
# `Fizzos.Proofs.ReadyWait`: how long a ready task waits

In front of a ready task are the current task and the tasks ahead of it on the list. Each of them
has the ticks that are left of its slice, and `waitTicks` counts them. A timer interrupt takes one
away. No call adds any: a task that is woken or new goes behind, and the child of `do_fork` runs on
the ticks of its parent, which goes to the end of the list.
-/

set_option autoImplicit false

namespace Fizzos.Proofs

open Fizzos.Kernel
open Fizzos.Support

/-- The ticks of some tasks, and a timer interrupt for each that takes the processor away. -/
def ticksOf (s : SchedState) (ts : List Tid) : Nat := (ts.map fun u => (s.ticks u).toNat + 1).sum

/-- The timer interrupts that the tasks in front of `t` can take. -/
def waitTicks (s : SchedState) (t : Tid) : Nat :=
  (s.ticks s.current).toNat + ticksOf s (s.readyList.takeWhile (· ≠ t))

section
variable {s s' s₁ : SchedState} {t u : Tid} {us ts : List Tid}

/-- The tasks in front of `t` are those up to its first place. -/
theorem takeWhile_front (ht : t ∉ us) (ts : List Tid) : (us ++ t :: ts).takeWhile (· ≠ t) = us := by
  induction us with
  | nil => simp
  | cons u us ih =>
      simp only [List.mem_cons, not_or] at ht
      rw [List.cons_append, List.takeWhile_cons_of_pos (by simpa using Ne.symm ht.1), ih ht.2]

/-- The sum over some tasks depends on the ticks of these tasks. -/
theorem ticksOf_congr (h : ∀ u ∈ us, s'.ticks u = s.ticks u) : ticksOf s' us = ticksOf s us :=
  congrArg List.sum (List.map_congr_left fun u hu => by rw [h u hu])

/-- `t` waits behind the tasks `us`. -/
structure Waiting (s : SchedState) (t : Tid) (us : List Tid) : Prop where
  list : ∃ ts, s.readyList = us ++ t :: ts
  ahead : t ∉ us

namespace Waiting

/-- A task that waits is on the ready list. -/
theorem mem (h : Waiting s t us) : t ∈ s.readyList := by
  obtain ⟨ts, hlist⟩ := h.list
  simp [hlist]

/-- So are the tasks in front of it. -/
theorem subset (h : Waiting s t us) (hu : u ∈ us) : u ∈ s.readyList := by
  obtain ⟨ts, hlist⟩ := h.list
  simp [hlist, hu]

/-- What a task waits for: the ticks that the current task has left, and those of the tasks in
front. -/
theorem waitTicks_eq (h : Waiting s t us) :
    waitTicks s t = (s.ticks s.current).toNat + ticksOf s us := by
  obtain ⟨ts, hlist⟩ := h.list
  rw [waitTicks, hlist, takeWhile_front h.ahead]

/-- Each task of the ready list has its place. -/
theorem of_mem (h : t ∈ s.readyList) : ∃ us, Waiting s t us := by
  obtain ⟨us, ts, hlist, hahead⟩ := List.eq_append_cons_of_mem h
  exact ⟨us, ⟨ts, hlist⟩, hahead⟩

/-- Tasks go to the end of the list. -/
theorem append (h : Waiting s t us) {ws : List Tid} (hlist : s₁.readyList = s.readyList ++ ws) :
    Waiting s₁ t us := by
  obtain ⟨ts, hready⟩ := h.list
  exact ⟨⟨ts ++ ws, by rw [hlist, hready, List.append_assoc, List.cons_append]⟩, h.ahead⟩

/-- The first ready task runs. Its slice was counted on the list. -/
theorem pick (h : Waiting s₁ t us) (hqueue : SliceQueue s₁) (hpick : s₁.pickNext = .ok s') :
    s'.current = t ∨ (t ∈ s'.readyList ∧ waitTicks s' t + 1 ≤ ticksOf s₁ us) := by
  obtain ⟨s₂, hret, -, -, hticks, hhead⟩ := hqueue.pickNext
  obtain rfl : s₂ = s' := Except.ok.inj (hret.symm.trans hpick)
  obtain ⟨ts, hlist⟩ := h.list
  cases us with
  | nil => exact .inl (hhead t ts hlist).1
  | cons u us =>
      obtain ⟨hcur, hready⟩ := hhead u (us ++ t :: ts) hlist
      have hwaiting : Waiting s₂ t us :=
        ⟨⟨ts, hready⟩, fun ht => h.ahead (List.mem_cons_of_mem _ ht)⟩
      refine .inr ⟨hwaiting.mem, ?_⟩
      have hsame : ticksOf s₂ us = ticksOf s₁ us := ticksOf_congr fun _ _ => by rw [hticks]
      rw [hwaiting.waitTicks_eq, hcur, hticks, hsame]
      simp only [ticksOf, List.map_cons, List.sum_cons]
      omega

end Waiting

/-! ### Calls -/

/-- What a call with `n` timer interrupts does for a task that waits. -/
def Advances (s : SchedState) (t : Tid) (n : Nat) (s' : SchedState) : Prop :=
  s'.current = t ∨ (t ∈ s'.readyList ∧ waitTicks s' t + n ≤ waitTicks s t)

/-- The list has got tasks at its end, and the tasks on it have the ticks that they had. -/
structure BehindQueue (s s₁ : SchedState) : Prop where
  list : ∃ ws, s₁.readyList = s.readyList ++ ws
  ticks : ∀ u ∈ s.readyList, s₁.ticks u = s.ticks u

namespace BehindQueue

/-- Tasks that go behind the queue do not change the sum over the tasks in front of `t`. -/
theorem ticksOf_eq (h : BehindQueue s s₁) (hwaiting : Waiting s t us) :
    ticksOf s₁ us = ticksOf s us :=
  ticksOf_congr fun u hu => h.ticks u (hwaiting.subset hu)

/-- The current task goes on. -/
theorem stay (h : BehindQueue s s₁) (ht : t ∈ s.readyList) {n : Nat}
    (hticks : (s₁.ticks s₁.current).toNat + n ≤ (s.ticks s.current).toNat) : Advances s t n s₁ := by
  obtain ⟨us, hwaiting⟩ := Waiting.of_mem ht
  obtain ⟨ws, hlist⟩ := h.list
  have hwaiting₁ := hwaiting.append hlist
  refine .inr ⟨hwaiting₁.mem, ?_⟩
  rw [hwaiting₁.waitTicks_eq, hwaiting.waitTicks_eq, h.ticksOf_eq hwaiting]
  omega

/-- The first ready task runs. -/
theorem leave (h : BehindQueue s s₁) (ht : t ∈ s.readyList) (hqueue : SliceQueue s₁)
    (hpick : s₁.pickNext = .ok s') : Advances s t 1 s' := by
  obtain ⟨us, hwaiting⟩ := Waiting.of_mem ht
  obtain ⟨ws, hlist⟩ := h.list
  obtain hcur | ⟨hmem, hle⟩ := (hwaiting.append hlist).pick hqueue hpick
  · exact .inl hcur
  refine .inr ⟨hmem, ?_⟩
  rw [h.ticksOf_eq hwaiting] at hle
  rw [hwaiting.waitTicks_eq]
  omega

/-- The current task does not run any more, and gives the processor away. -/
theorem schedule (h : BehindQueue s s₁) (ht : t ∈ s.readyList) (hqueue : SliceQueue s₁)
    {v : TaskState}
    (hstate : s₁.state s₁.current = some v) (hv : v ≠ .RUNNING) (hnext : s₁.schedule = .ok s') :
    Advances s t 0 s' := by
  have hstop : s₁.state s₁.current ≠ some .RUNNING := by
    rw [hstate]
    exact fun heq => hv (Option.some.inj heq)
  rw [SchedState.schedule, if_neg hstop] at hnext
  obtain hcur | ⟨hmem, hle⟩ := h.leave ht hqueue hnext
  · exact .inl hcur
  · exact .inr ⟨hmem, by omega⟩

end BehindQueue

namespace SliceInv

/-- The state in front of the second half of `schedule`, for a task that still runs. -/
def putBack (s : SchedState) : SchedState :=
  ({ s with ticks := Function.update s.ticks s.current (s.prio s.current) }.setState
    s.current .READY).pushReady s.current

/-- A task whose time is over goes to the end of the ready list with new ticks, and the queue is in
order. -/
theorem putBack_queue (h : SliceInv s) : SliceQueue (putBack s) := by
  have hq : SliceQueue { s with ticks := Function.update s.ticks s.current (s.prio s.current) } :=
    ⟨h.ready, h.nodup, h.idle⟩
  exact hq.pushReady h.current_not_mem

/-- The current task is not on the ready list. -/
theorem ne_current (h : SliceInv s) (hu : u ∈ s.readyList) : u ≠ s.current := by
  rintro rfl
  exact h.current_not_mem hu

/-- The task that goes back is behind all others. -/
theorem putBack_behind (h : SliceInv s) : BehindQueue s (putBack s) :=
  ⟨⟨[s.current], rfl⟩, fun _ hu => Function.update_of_ne (h.ne_current hu) _ _⟩

/-- A timer interrupt brings each task that waits one tick nearer to its turn. Either it takes a
tick from the current task, or the task in front gets its turn. -/
theorem advance_timer (h : SliceInv s) (ht : t ∈ s.readyList)
    (hnext : s.intrTimerHandler = .ok s') : Advances s t 1 s' := by
  rw [SchedState.intrTimerHandler] at hnext
  by_cases hzero : s.ticks s.current = 0
  · rw [if_pos hzero, SchedState.schedule, if_pos h.current] at hnext
    exact h.putBack_behind.leave ht h.putBack_queue hnext
  · rw [if_neg hzero] at hnext
    cases hnext
    have hpos : 0 < (s.ticks s.current).toNat :=
      Nat.pos_of_ne_zero fun heq => hzero (UInt32.toNat_inj.mp heq)
    have hbehind : BehindQueue s
        { s with ticks := Function.update s.ticks s.current (s.ticks s.current - 1) } :=
      ⟨⟨[], (List.append_nil _).symm⟩, fun _ hu => Function.update_of_ne (h.ne_current hu) _ _⟩
    refine hbehind.stay ht ?_
    show (Function.update s.ticks s.current (s.ticks s.current - 1) s.current).toNat + 1 ≤ _
    have hone : 1 ≤ s.ticks s.current := UInt32.le_iff_toNat_le.mpr hpos
    rw [Function.update_self, UInt32.toNat_sub_of_le _ _ hone]
    exact (Nat.sub_add_cancel hpos).le

/-- The child of `do_fork` runs at once, on the ticks of its parent. -/
theorem advance_doFork (h : SliceInv s) (ht : t ∈ s.readyList) (hu : s.Unused u)
    (hnext : s.doFork u = .ok s') : Advances s t 0 s' := by
  obtain ⟨hne, hready⟩ := h.unused_ne hu
  have hnew : u ∉ s.readyList := h.not_mem hready
  let child := (({ s with
    prio := Function.update s.prio u (s.prio s.current)
    ticks := Function.update s.ticks u (s.ticks s.current) }.setState u .READY).setPc u
      .run).pushReadyFront u
  have hchild : SliceInv child := h.wake hready hne rfl rfl rfl (.inr rfl)
  have hpick : (putBack child).pickNext = .ok s' := by
    have hnext : child.schedule = .ok s' := hnext
    rwa [SchedState.schedule, if_pos hchild.current] at hnext
  obtain ⟨us, hwaiting⟩ := Waiting.of_mem ht
  obtain ⟨ts, hlist⟩ := hwaiting.list
  -- The child is in front of the queue and the parent behind it, so `t` has one more task ahead.
  have hfront : Waiting (putBack child) t (u :: us) := by
    refine ⟨⟨ts ++ [s.current], ?_⟩, ?_⟩
    · show u :: s.readyList ++ [s.current] = _
      rw [hlist, List.cons_append, List.cons_append, List.append_assoc, List.cons_append]
    · rw [List.mem_cons, not_or]
      exact ⟨fun heq => hnew (heq ▸ ht), hwaiting.ahead⟩
  have hself : (putBack child).ticks u = s.ticks s.current :=
    (Function.update_of_ne hne _ _).trans (Function.update_self _ _ _)
  have hothers : ticksOf (putBack child) us = ticksOf s us := ticksOf_congr fun v hv => by
    have hmem := hwaiting.subset hv
    exact (Function.update_of_ne (h.ne_current hmem) _ _).trans
      (Function.update_of_ne (fun heq : v = u => hnew (heq ▸ hmem)) _ _)
  obtain hcur | ⟨hmem, hle⟩ := hfront.pick hchild.putBack_queue hpick
  · exact .inl hcur
  refine .inr ⟨hmem, ?_⟩
  have hsum : ticksOf (putBack child) (u :: us) = (s.ticks s.current).toNat + 1 + ticksOf s us := by
    rw [← hothers, ← hself]
    rfl
  rw [hwaiting.waitTicks_eq]
  omega

/-- Each call brings a ready task nearer to the processor, by its timer interrupts. -/
theorem advance (h : SliceInv s) (ht : t ∈ s.readyList) {a : SliceAct} (ha : s.SliceEnabled a)
    (hnext : s.sliceNext a = .ok s') : Advances s t (timers a) s' := by
  -- The state of the current task is not the queue.
  have hsame (v : TaskState) : BehindQueue s (s.setState s.current v) :=
    ⟨⟨[], (List.append_nil _).symm⟩, fun _ _ => rfl⟩
  cases a with
  | timer => exact h.advance_timer ht hnext
  | kthreadCreate u prio ticks =>
      cases hnext
      obtain ⟨hne, hready⟩ := h.unused_ne ha
      have hnew : u ∉ s.readyList := h.not_mem hready
      have hbehind : BehindQueue s (s.kthreadCreate u prio ticks) :=
        ⟨⟨[u], rfl⟩, fun v hv => Function.update_of_ne (fun heq : v = u => hnew (heq ▸ hv)) _ _⟩
      refine hbehind.stay ht ?_
      show (Function.update s.ticks u ticks s.current).toNat + 0 ≤ _
      rw [Function.update_of_ne hne.symm, Nat.add_zero]
  | doFork u => exact h.advance_doFork ht ha hnext
  | threadBlock =>
      exact (hsame .BLOCKED).schedule ht (h.setState h.current_not_mem) setState_self
        (by decide) hnext
  | threadUnblock u =>
      cases hnext
      have hbehind : BehindQueue s (s.threadUnblock u) := ⟨⟨[u], rfl⟩, fun _ _ => rfl⟩
      exact hbehind.stay ht (Nat.le_refl _)
  | threadYield =>
      have hbehind : BehindQueue s ((s.setState s.current .READY).pushReady s.current) :=
        ⟨⟨[s.current], rfl⟩, fun _ _ => rfl⟩
      exact hbehind.schedule ht (h.pushReady h.current_not_mem) setState_self (by decide) hnext
  | sysExit =>
      exact (hsame .EXIT).schedule ht (h.setState h.current_not_mem) setState_self (by decide) hnext

end SliceInv

end

/-- The invariant holds in every run, for any order of timer interrupts and system calls. -/
theorem sliceSystem_inductive : sliceSystem.Inductive SliceInv where
  init := SliceInv.start
  step h ha hnext := (h.next ha hnext).inv

/-! ### Results -/

/-- No task starves. A task on the ready list runs before the timer has interrupted more often than
`waitTicks` says: once for each tick that is left of the current task, and once more than that for
each task ahead on the list. No other call prolongs this, for any run of the scheduler. -/
theorem ready_runs {s : SchedState} (hs : sliceSystem.Reachable s) {t : Tid} (ht : t ∈ s.readyList)
    {acts : List SliceAct} (hruns : sliceSystem.Runs s acts)
    (htimers : waitTicks s t < (acts.map timers).sum) :
    ∃ n ≤ acts.length, ((acts.take n).foldl sliceSystem.after s).current = t := by
  have hinv := sliceSystem_inductive.reachable hs
  exact System.Runs.reaches (I := fun s => SliceInv s ∧ t ∈ s.readyList)
    (fun {s s' a} h ha hnext => by
      obtain hgoal | ⟨hmem, hle⟩ := h.1.advance h.2 ha hnext
      · exact .inl hgoal
      · exact .inr ⟨⟨(h.1.next ha hnext).inv, hmem⟩, hle⟩)
    ⟨hinv, ht⟩ hruns htimers

instance (s : SchedState) (a : SliceAct) : Decidable (sliceSystem.enabled s a) := by
  cases a <;> unfold sliceSystem SchedState.SliceEnabled SchedState.Unused <;> infer_instance

/-- The main task makes a thread, behind `idle`, and then only the timer interrupts. -/
theorem ready_runs_thread :
    ∃ n ≤ (List.replicate 22 SliceAct.timer).length,
      (((List.replicate 22 SliceAct.timer).take n).foldl sliceSystem.after
        (bootState.kthreadCreate 2 5 3)).current = 2 := by
  have hunused : sliceSystem.enabled bootState (.kthreadCreate 2 5 3) :=
    show bootState.Unused 2 from .inl rfl
  have hboot : sliceSystem.Reachable bootState := .init bootState_start
  exact @ready_runs (bootState.kthreadCreate 2 5 3) (hboot.step hunused rfl) 2 (by decide) _
    (by decide +kernel) (by decide)

end Fizzos.Proofs
