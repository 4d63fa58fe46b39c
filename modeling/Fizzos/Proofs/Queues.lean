import Fizzos.Kernel.Sched
import Fizzos.Support.Enumerates

/-!
# `Fizzos.Proofs.Queues`: where a task can be

The view of the scheduler that the queue invariant is about: the ready list, the wait lists,
the tasks that a `mutex_release` has popped, and the states. The processor and the locks
behind the wait lists are forgotten.

A task that waits is at one spot: on a wait list, or popped by another task. `QueueInv` says
that the blocked tasks other than `idle` are the tasks at a spot, each at one spot and once,
and that the ready list holds the ready tasks. There is one lemma for each way a task moves.
-/

set_option autoImplicit false

namespace Fizzos.Proofs

open Fizzos.Kernel
open Fizzos.Support

/-- The lists of the scheduler. -/
structure Queues where
  ready : List Tid
  state : Tid → Option TaskState
  wait : WaitPlace → List Tid
  popped : Tid → Option Tid

/-- Where a task can wait. -/
inductive Spot where
  | place (w : WaitPlace)
  /-- Popped by the task `v`. -/
  | popped (v : Tid)

namespace Queues

/-- The task `t` waits at a spot. -/
def At (q : Queues) (t : Tid) : Spot → Prop
  | .place w => t ∈ q.wait w
  | .popped v => q.popped v = some t

def setState (q : Queues) (t : Tid) (v : TaskState) : Queues :=
  { q with state := Function.update q.state t (some v) }

def setWait (q : Queues) (w : WaitPlace) (xs : List Tid) : Queues :=
  { q with wait := Function.update q.wait w xs }

def setPopped (q : Queues) (v : Tid) (o : Option Tid) : Queues :=
  { q with popped := Function.update q.popped v o }

def setReady (q : Queues) (xs : List Tid) : Queues := { q with ready := xs }

end Queues

/-- The queue invariant. -/
structure QueueInv (q : Queues) (idle : Tid) : Prop where
  ready : Enumerates q.ready fun t => q.state t = some .READY
  wait_nodup : ∀ w, (q.wait w).Nodup
  /-- A task at a spot is blocked, and it is not `idle`. -/
  blocked : ∀ t p, q.At t p → q.state t = some .BLOCKED ∧ t ≠ idle
  unique : ∀ t p p', q.At t p → q.At t p' → p = p'
  /-- A blocked task other than `idle` is at a spot. -/
  spot : ∀ t, q.state t = some .BLOCKED → t ≠ idle → ∃ p, q.At t p
  idle_alive : q.state idle ≠ none ∧ q.state idle ≠ some .EXIT
  /-- A task that has popped another one is alive. -/
  popped_alive : ∀ v t, q.popped v = some t → q.state v ≠ none ∧ q.state v ≠ some .EXIT

/-! ### The ready list -/

section Ready

variable {ready : List Tid} {state : Tid → Option TaskState} {t : Tid}

/-- The ready tasks after a state changes to `READY`. -/
theorem ready_update_ready (u : Tid) :
    Function.update state t (some TaskState.READY) u = some .READY ↔
      state u = some .READY ∨ u = t := by
  by_cases hu : u = t <;> simp [hu]

/-- The ready tasks after a state changes to another state. -/
theorem ready_update_of_ne {v : TaskState} (hv : v ≠ .READY) (u : Tid) :
    Function.update state t (some v) u = some .READY ↔ state u = some .READY ∧ u ≠ t := by
  by_cases hu : u = t <;> simp [hu, hv]

theorem ready_push (h : Enumerates ready fun u => state u = some .READY)
    (ht : state t ≠ some .READY) :
    Enumerates (ready ++ [t])
      fun u => Function.update state t (some TaskState.READY) u = some .READY :=
  (h.push ht).congr fun u => (ready_update_ready u).symm

theorem ready_push_front (h : Enumerates ready fun u => state u = some .READY)
    (ht : state t ≠ some .READY) :
    Enumerates (t :: ready)
      fun u => Function.update state t (some TaskState.READY) u = some .READY where
  nodup := List.nodup_cons.mpr ⟨fun hmem => ht ((h.mem_iff t).mp hmem), h.nodup⟩
  mem_iff u := by
    rw [List.mem_cons, h.mem_iff, ready_update_ready]
    exact or_comm

theorem ready_pop (h : Enumerates (t :: ready) fun u => state u = some .READY)
    {v : TaskState} (hv : v ≠ .READY) :
    Enumerates ready fun u => Function.update state t (some v) u = some .READY :=
  h.pop.congr fun u => (ready_update_of_ne hv u).symm

theorem ready_keep (h : Enumerates ready fun u => state u = some .READY)
    (ht : state t ≠ some .READY) {v : TaskState} (hv : v ≠ .READY) :
    Enumerates ready fun u => Function.update state t (some v) u = some .READY :=
  h.congr fun u => by
    rw [ready_update_of_ne hv, iff_self_and]
    rintro hu rfl
    exact ht hu

end Ready

namespace QueueInv

variable {q : Queues} {idle t : Tid}

/-- A task at a spot is on no ready list and does not run. -/
theorem not_at (h : QueueInv q idle) (ht : q.state t ≠ some .BLOCKED) (p : Spot) :
    ¬q.At t p := fun hat => ht (h.blocked t p hat).1

/-- A task that waits nowhere gets a new state, and the ready list follows. -/
theorem restate (h : QueueInv q idle) {v : TaskState} {xs : List Tid}
    (ht : ∀ p, ¬q.At t p)
    (hready : Enumerates xs fun u => Function.update q.state t (some v) u = some .READY)
    (hblocked : v = .BLOCKED → t = idle)
    (hexit : v = .EXIT → t ≠ idle ∧ q.popped t = none) :
    QueueInv ((q.setState t v).setReady xs) idle where
  ready := hready
  wait_nodup := h.wait_nodup
  blocked u p hat := by
    -- No task at a spot is `t`, so its state is the old one.
    have hut : u ≠ t := by
      rintro rfl
      exact ht p (by cases p <;> exact hat)
    have hold := h.blocked u p (by cases p <;> exact hat)
    simpa [Queues.setState, Queues.setReady, hut] using hold
  unique u p p' hp hp' := h.unique u p p' (by cases p <;> exact hp) (by cases p' <;> exact hp')
  spot u hu hidle := by
    by_cases hut : u = t
    · subst hut
      simp only [Queues.setState, Queues.setReady, Function.update_self,
        Option.some.injEq] at hu
      exact absurd (hblocked hu) hidle
    · obtain ⟨p, hp⟩ := h.spot u (by simpa [Queues.setState, Queues.setReady, hut] using hu) hidle
      exact ⟨p, by cases p <;> exact hp⟩
  idle_alive := by
    by_cases hidle : idle = t
    · subst hidle
      simpa [Queues.setState, Queues.setReady] using fun hv => (hexit hv).1
    · simpa [Queues.setState, Queues.setReady, hidle] using h.idle_alive
  popped_alive u x hx := by
    by_cases hut : u = t
    · subst hut
      simp only [Queues.setState, Queues.setReady, Function.update_self]
      refine ⟨by simp, fun hv => ?_⟩
      rw [Option.some.injEq] at hv
      rw [show q.popped u = some x from hx] at hexit
      exact absurd (hexit hv).2 (by simp)
    · simpa [Queues.setState, Queues.setReady, hut] using h.popped_alive u x hx

/-- The running task goes to the back of the ready list. -/
theorem requeue (h : QueueInv q idle) (ht : q.state t = some .RUNNING) :
    QueueInv ((q.setState t .READY).setReady (q.ready ++ [t])) idle :=
  h.restate (h.not_at (by simp [ht])) (ready_push h.ready (by simp [ht])) (by simp) (by simp)

/-- The first ready task runs. -/
theorem dispatch (h : QueueInv q idle) {ts : List Tid} (hready : q.ready = t :: ts) :
    QueueInv ((q.setState t .RUNNING).setReady ts) idle := by
  have hhead := (hready ▸ h.ready).head
  exact h.restate (h.not_at (by simp [hhead])) (ready_pop (hready ▸ h.ready) (by decide))
    (by simp) (by simp)

/-- `idle` runs because no task is ready. -/
theorem dispatch_idle (h : QueueInv q idle) (hready : q.ready = []) :
    QueueInv ((q.setState idle .RUNNING).setReady []) idle := by
  have hstate : q.state idle ≠ some .READY := fun hs => h.ready.ne_nil hs hready
  refine h.restate (fun p hat => (h.blocked idle p hat).2 rfl) ?_ (by simp) (by simp)
  exact hready ▸ ready_keep h.ready hstate (by decide)

/-- The running task exits. -/
theorem exit (h : QueueInv q idle) (ht : q.state t = some .RUNNING) (hidle : t ≠ idle)
    (hpopped : q.popped t = none) : QueueInv ((q.setState t .EXIT).setReady q.ready) idle :=
  h.restate (h.not_at (by simp [ht])) (ready_keep h.ready (by simp [ht]) (by decide))
    (by simp) (fun _ => ⟨hidle, hpopped⟩)

/-- `idle` blocks itself. -/
theorem block_idle (h : QueueInv q idle) (ht : q.state idle = some .RUNNING) :
    QueueInv ((q.setState idle .BLOCKED).setReady q.ready) idle :=
  h.restate (h.not_at (by simp [ht])) (ready_keep h.ready (by simp [ht]) (by decide))
    (fun _ => rfl) (by simp)

/-- A new task at the back of the ready list. -/
theorem spawn (h : QueueInv q idle) (ht : q.state t = none ∨ q.state t = some .EXIT) :
    QueueInv ((q.setState t .READY).setReady (q.ready ++ [t])) idle := by
  have hne : ∀ v : TaskState, v ≠ .EXIT → q.state t ≠ some v := by
    intro v hv hs
    rcases ht with ht | ht <;> rw [ht] at hs <;> cases hs
    exact hv rfl
  exact h.restate (h.not_at (hne _ (by decide))) (ready_push h.ready (hne _ (by decide)))
    (by simp) (by simp)

/-- A new task at the front of the ready list. -/
theorem spawn_front (h : QueueInv q idle)
    (ht : q.state t = none ∨ q.state t = some .EXIT) :
    QueueInv ((q.setState t .READY).setReady (t :: q.ready)) idle := by
  have hne : ∀ v : TaskState, v ≠ .EXIT → q.state t ≠ some v := by
    intro v hv hs
    rcases ht with ht | ht <;> rw [ht] at hs <;> cases hs
    exact hv rfl
  exact h.restate (h.not_at (hne _ (by decide))) (ready_push_front h.ready (hne _ (by decide)))
    (by simp) (by simp)

/-- The running task goes to sleep on a wait list. -/
theorem park (h : QueueInv q idle) (ht : q.state t = some .RUNNING) (hidle : t ≠ idle)
    (w : WaitPlace) :
    QueueInv ((q.setWait w (q.wait w ++ [t])).setState t .BLOCKED) idle := by
  have hnot := h.not_at (t := t) (by simp [ht])
  -- The spots of the others stay, and `t` gets its only one.
  have hat : ∀ u p, ((q.setWait w (q.wait w ++ [t])).setState t .BLOCKED).At u p ↔
      q.At u p ∨ (u = t ∧ p = .place w) := by
    intro u p
    cases p with
    | popped v => simp [Queues.At, Queues.setWait, Queues.setState]
    | place w' =>
        by_cases hw : w' = w
        · subst hw
          simp [Queues.At, Queues.setWait, Queues.setState]
        · simp [Queues.At, Queues.setWait, Queues.setState, hw]
  refine
    { ready := ready_keep h.ready (by simp [ht]) (by decide)
      wait_nodup := fun w' => ?_
      blocked := fun u p hp => ?_
      unique := fun u p p' hp hp' => ?_
      spot := fun u hu hne => ?_
      idle_alive := ?_
      popped_alive := fun v u hv => ?_ }
  · by_cases hw : w' = w
    · subst hw
      simpa [Queues.setWait, Queues.setState, List.nodup_append] using
        ⟨h.wait_nodup w', fun a ha hat => hnot (.place w') (hat ▸ ha)⟩
    · simpa [Queues.setWait, Queues.setState, hw] using h.wait_nodup w'
  · rcases (hat u p).mp hp with hold | ⟨rfl, -⟩
    · have hut : u ≠ t := by
        rintro rfl
        exact hnot p hold
      simpa [Queues.setWait, Queues.setState, hut] using h.blocked u p hold
    · simpa [Queues.setWait, Queues.setState] using hidle
  · rcases (hat u p).mp hp with hold | ⟨rfl, rfl⟩
    · rcases (hat u p').mp hp' with hold' | ⟨rfl, -⟩
      · exact h.unique u p p' hold hold'
      · exact absurd hold (hnot p)
    · rcases (hat u p').mp hp' with hold' | ⟨-, rfl⟩
      · exact absurd hold' (hnot p')
      · rfl
  · by_cases hut : u = t
    · exact ⟨.place w, (hat u _).mpr (.inr ⟨hut, rfl⟩)⟩
    · obtain ⟨p, hp⟩ := h.spot u
        (by simpa [Queues.setWait, Queues.setState, hut] using hu) hne
      exact ⟨p, (hat u p).mpr (.inl hp)⟩
  · simpa [Queues.setWait, Queues.setState, Function.update_of_ne (Ne.symm hidle)]
      using h.idle_alive
  · have hold := h.popped_alive v u hv
    by_cases hvt : v = t
    · simp [Queues.setWait, Queues.setState, hvt]
    · simpa [Queues.setWait, Queues.setState, hvt] using hold

/-- A waiting task leaves its spot and becomes ready. -/
private theorem leave (h : QueueInv q idle) {q' : Queues} {p₀ : Spot} (ht : q.At t p₀)
    (hat : ∀ u p, q'.At u p ↔ q.At u p ∧ u ≠ t) (hnodup : ∀ w, (q'.wait w).Nodup)
    (hready : q'.ready = q.ready ++ [t])
    (hstate : q'.state = Function.update q.state t (some .READY)) : QueueInv q' idle := by
  obtain ⟨hblocked, hidle⟩ := h.blocked t p₀ ht
  refine
    { ready := ?_
      wait_nodup := hnodup
      blocked := fun u p hp => ?_
      unique := fun u p p' hp hp' => h.unique u p p' ((hat u p).mp hp).1 ((hat u p').mp hp').1
      spot := fun u hu hne => ?_
      idle_alive := ?_
      popped_alive := fun v u hv => ?_ }
  · rw [hready, hstate]
    exact ready_push h.ready (by simp [hblocked])
  · obtain ⟨hold, hut⟩ := (hat u p).mp hp
    simpa [hstate, hut] using h.blocked u p hold
  · -- `t` is ready now, so a task that is blocked is another one
    have hut : u ≠ t := by
      rintro rfl
      simp [hstate] at hu
    obtain ⟨p, hp⟩ := h.spot u (by simpa [hstate, hut] using hu) hne
    exact ⟨p, (hat u p).mpr ⟨hp, hut⟩⟩
  · rw [hstate, Function.update_of_ne (Ne.symm hidle)]
    exact h.idle_alive
  · have hold := h.popped_alive v u ((hat u (.popped v)).mp hv).1
    by_cases hvt : v = t
    · simp [hstate, hvt]
    · simpa [hstate, hvt] using hold

/-- The first task of a wait list is unblocked. -/
theorem wake (h : QueueInv q idle) {w : WaitPlace} {ts : List Tid}
    (hw : q.wait w = t :: ts) :
    QueueInv (((q.setWait w ts).setState t .READY).setReady (q.ready ++ [t])) idle := by
  have ht : q.At t (.place w) := by simp [Queues.At, hw]
  have hnodup := hw ▸ h.wait_nodup w
  refine h.leave ht (fun u p => ?_) (fun w' => ?_) rfl rfl
  · -- `t` is at this one spot only.
    have helse : p ≠ .place w → q.At u p → u ≠ t := by
      rintro hp hat rfl
      exact hp (h.unique u p _ hat ht)
    cases p with
    | popped v =>
        rw [show ((q.setWait w ts).setState t .READY |>.setReady _).At u (.popped v) ↔
          q.At u (.popped v) from Iff.rfl, iff_self_and]
        exact helse (by simp)
    | place w' =>
        by_cases hw' : w' = w
        · subst hw'
          simp only [Queues.At, Queues.setWait, Queues.setState, Queues.setReady,
            Function.update_self, hw, List.mem_cons]
          have hnot := (List.nodup_cons.mp hnodup).1
          constructor
          · exact fun hmem => ⟨.inr hmem, fun heq => hnot (heq ▸ hmem)⟩
          · exact fun ⟨hmem, hne⟩ => hmem.resolve_left hne
        · simp only [Queues.At, Queues.setWait, Queues.setState, Queues.setReady,
            Function.update_of_ne hw', iff_self_and]
          exact helse (by simpa using hw')
  · by_cases hw' : w' = w
    · subst hw'
      simpa [Queues.setWait, Queues.setState, Queues.setReady] using hnodup.of_cons
    · simpa [Queues.setWait, Queues.setState, Queues.setReady, hw'] using h.wait_nodup w'

/-- The task that `v` has popped is unblocked. -/
theorem unblock (h : QueueInv q idle) {v : Tid} (hv : q.popped v = some t) :
    QueueInv (((q.setState t .READY).setReady (q.ready ++ [t])).setPopped v none) idle := by
  have ht : q.At t (.popped v) := hv
  refine h.leave ht (fun u p => ?_) h.wait_nodup rfl rfl
  have helse : p ≠ .popped v → q.At u p → u ≠ t := by
    rintro hp hat rfl
    exact hp (h.unique u p _ hat ht)
  cases p with
  | place w => exact (iff_self_and.mpr (helse (by simp)) : q.At u (.place w) ↔ _)
  | popped v' =>
      by_cases hv' : v' = v
      · subst hv'
        simp only [Queues.At, Queues.setPopped, Queues.setState, Queues.setReady,
          Function.update_self, hv, Option.some.injEq]
        constructor
        · intro hnone
          cases hnone
        · exact fun ⟨heq, hne⟩ => absurd heq.symm hne
      · simp only [Queues.At, Queues.setPopped, Queues.setState, Queues.setReady,
          Function.update_of_ne hv', iff_self_and]
        exact helse (by simpa using hv')

/-- The task `v` pops the first task of a wait list. -/
theorem pop (h : QueueInv q idle) {w : WaitPlace} {ts : List Tid} {v : Tid}
    (hw : q.wait w = t :: ts) (hv : q.popped v = none)
    (halive : q.state v ≠ none ∧ q.state v ≠ some .EXIT) :
    QueueInv ((q.setWait w ts).setPopped v (some t)) idle := by
  have ht : q.At t (.place w) := by simp [Queues.At, hw]
  have hnodup := hw ▸ h.wait_nodup w
  -- `t` moves from the list to the hand of `v`, and the other spots stay.
  have hat : ∀ u p, ((q.setWait w ts).setPopped v (some t)).At u p ↔
      (q.At u p ∧ u ≠ t) ∨ (u = t ∧ p = .popped v) := by
    intro u p
    have helse : ∀ p, p ≠ .place w → q.At u p → u ≠ t := by
      rintro p hp hat rfl
      exact hp (h.unique u p _ hat ht)
    cases p with
    | popped v' =>
        by_cases hv' : v' = v
        · subst hv'
          simp [Queues.At, Queues.setWait, Queues.setPopped, hv, eq_comm]
        · have hsame := helse (.popped v') (by simp)
          simpa [Queues.At, Queues.setWait, Queues.setPopped, hv'] using hsame
    | place w' =>
        by_cases hw' : w' = w
        · subst hw'
          simp only [Queues.At, Queues.setWait, Queues.setPopped, Function.update_self, hw,
            List.mem_cons, reduceCtorEq, and_false, or_false]
          have hnot := (List.nodup_cons.mp hnodup).1
          constructor
          · exact fun hmem => ⟨.inr hmem, fun heq => hnot (heq ▸ hmem)⟩
          · exact fun ⟨hmem, hne⟩ => hmem.resolve_left hne
        · have hsame := helse (.place w') (by simpa using hw')
          simpa [Queues.At, Queues.setWait, Queues.setPopped, hw'] using hsame
  refine
    { ready := h.ready
      wait_nodup := fun w' => ?_
      blocked := fun u p hp => ?_
      unique := fun u p p' hp hp' => ?_
      spot := fun u hu hne => ?_
      idle_alive := h.idle_alive
      popped_alive := fun v' u hv' => ?_ }
  · by_cases hw' : w' = w
    · subst hw'
      simpa [Queues.setWait, Queues.setPopped] using hnodup.of_cons
    · simpa [Queues.setWait, Queues.setPopped, hw'] using h.wait_nodup w'
  · rcases (hat u p).mp hp with ⟨hold, -⟩ | ⟨rfl, -⟩
    · exact h.blocked u p hold
    · exact h.blocked u _ ht
  · rcases (hat u p).mp hp with ⟨hold, hut⟩ | ⟨rfl, rfl⟩
    · rcases (hat u p').mp hp' with ⟨hold', -⟩ | ⟨rfl, -⟩
      · exact h.unique u p p' hold hold'
      · exact absurd rfl hut
    · rcases (hat u p').mp hp' with ⟨-, hut⟩ | ⟨-, rfl⟩
      · exact absurd rfl hut
      · rfl
  · by_cases hut : u = t
    · exact ⟨.popped v, (hat u _).mpr (.inr ⟨hut, rfl⟩)⟩
    · obtain ⟨p, hp⟩ := h.spot u hu hne
      exact ⟨p, (hat u p).mpr (.inl ⟨hp, hut⟩)⟩
  · by_cases heq : v' = v
    · exact heq ▸ halive
    · rcases (hat u (.popped v')).mp hv' with ⟨hold, -⟩ | ⟨-, hsame⟩
      · exact h.popped_alive v' u hold
      · exact absurd (Spot.popped.inj hsame) heq

end QueueInv

end Fizzos.Proofs
