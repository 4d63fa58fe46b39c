import Fizzos.Proofs.Queues

/-!
# `Fizzos.Proofs.Sched`: the scheduler keeps its queues

`SchedInv` is the queue invariant of the lists of a state, with exactly one running task, the
current one. `schedule_spec` is the heart: `schedule` returns and restores the invariant from
a state where the current task still runs, and from one where nothing runs because the
current task has just been put away. Every function that gives up the processor is a
preparation for `schedule`, and every function that wakes a task is one of the moves of
`Fizzos.Proofs.Queues`.
-/

set_option autoImplicit false

namespace Fizzos.Proofs

open Fizzos.Kernel
open Fizzos.Support

/-- The lists of a state. -/
def queuesOf (s : SchedState) : Queues where
  ready := s.readyList
  state := s.state
  wait := s.waitList
  popped v := (s.pc v).popped

/-! ### The lists after an assignment -/

section Lists

variable (s : SchedState) (t : Tid)

/-- A new state is a new state of the abstract queues. -/
theorem queuesOf_setState (v : TaskState) :
    queuesOf (s.setState t v) = (queuesOf s).setState t v := rfl

/-- The ready list gets a task at its end. -/
theorem queuesOf_pushReady :
    queuesOf (s.pushReady t) = (queuesOf s).setReady (s.readyList ++ [t]) := rfl

/-- The ready list gets a task at its front, as in `do_fork`. -/
theorem queuesOf_pushReadyFront :
    queuesOf (s.pushReadyFront t) = (queuesOf s).setReady (t :: s.readyList) := rfl

/-- A task on its way may have another one in its hands, which it has popped. -/
theorem queuesOf_setPc (pc : SchedPc) :
    queuesOf (s.setPc t pc) = (queuesOf s).setPopped t pc.popped := by
  have hpopped : (fun v => ((Function.update s.pc t pc) v).popped)
      = Function.update (fun v => (s.pc v).popped) t pc.popped := by
    funext v
    by_cases hv : v = t <;> simp [hv]
  simp only [queuesOf, Queues.setPopped, SchedState.setPc, hpopped]
  rfl

/-- A semaphore has one waiting list. -/
theorem queuesOf_setSem (i : Nat) (x : Sem) :
    queuesOf (s.setSem i x) = (queuesOf s).setWait (.sem i) x.waitList := by
  have hwait : (s.setSem i x).waitList
      = Function.update s.waitList (.sem i) x.waitList := by
    funext w
    cases w with
    | sem j => by_cases hj : j = i <;> simp [SchedState.waitList, SchedState.setSem, hj]
    | mutex m => simp [SchedState.waitList, SchedState.setSem]
    | cond c => simp [SchedState.waitList, SchedState.setSem]
  simp only [queuesOf, Queues.setWait, hwait]
  rfl

/-- A mutex has one waiting list. -/
theorem queuesOf_setMutex (m : Nat) (x : MutexLock) :
    queuesOf (s.setMutex m x) = (queuesOf s).setWait (.mutex m) x.waitList := by
  have hwait : (s.setMutex m x).waitList
      = Function.update s.waitList (.mutex m) x.waitList := by
    funext w
    cases w with
    | sem i => simp [SchedState.waitList, SchedState.setMutex]
    | mutex j => by_cases hj : j = m <;> simp [SchedState.waitList, SchedState.setMutex, hj]
    | cond c => simp [SchedState.waitList, SchedState.setMutex]
  simp only [queuesOf, Queues.setWait, hwait]
  rfl

/-- A condition has one waiting list. -/
theorem queuesOf_setCond (c : Nat) (x : Cond) :
    queuesOf (s.setCond c x) = (queuesOf s).setWait (.cond c) x.waitList := by
  have hwait : (s.setCond c x).waitList
      = Function.update s.waitList (.cond c) x.waitList := by
    funext w
    cases w with
    | sem i => simp [SchedState.waitList, SchedState.setCond]
    | mutex m => simp [SchedState.waitList, SchedState.setCond]
    | cond j => by_cases hj : j = c <;> simp [SchedState.waitList, SchedState.setCond, hj]
  simp only [queuesOf, Queues.setWait, hwait]
  rfl

/-- A wait list that is written back changes nothing. -/
theorem setWait_self (q : Queues) (w : WaitPlace) {xs : List Tid} (h : xs = q.wait w) :
    q.setWait w xs = q := by
  simp [Queues.setWait, h]

/-- A task that keeps what it has in its hands. -/
theorem setPopped_self (q : Queues) (v : Tid) {o : Option Tid} (h : o = q.popped v) :
    q.setPopped v o = q := by
  simp [Queues.setPopped, h]

end Lists

/-- Exactly the current task runs. -/
def OneRunning (s : SchedState) : Prop := ∀ t, s.state t = some .RUNNING ↔ t = s.current

/-- The invariant of the scheduler. -/
structure SchedInv (s : SchedState) (i : Tid) : Prop where
  idle : s.idle = some i
  idle_pc : s.pc i = .run
  queues : QueueInv (queuesOf s) i
  running : OneRunning s

/-- When nothing runs, the first ready task or `idle` is next. -/
theorem pickNext_spec {s : SchedState} {i : Tid} (hidle : s.idle = some i)
    (hpc : s.pc i = .run) (hq : QueueInv (queuesOf s) i)
    (hstop : ∀ t, s.state t ≠ some .RUNNING) :
    ∃ s', s.pickNext = .ok s' ∧ SchedInv s' i := by
  have hone : ∀ (t : Tid) (rest : List Tid), OneRunning
      { s.setState t .RUNNING with readyList := rest, current := t } := by
    intro t rest u
    by_cases hu : u = t
    · simp [SchedState.setState, hu]
    · simpa [SchedState.setState, hu] using hstop u
  cases hready : s.readyList with
  | nil =>
      refine ⟨{ s.setState i .RUNNING with readyList := [], current := i }, ?_, ?_⟩
      · simp [SchedState.pickNext, hready, hidle]
      · exact ⟨hidle, hpc, hq.dispatch_idle hready, hone i []⟩
  | cons t ts =>
      refine ⟨{ s.setState t .RUNNING with readyList := ts, current := t }, ?_, ?_⟩
      · simp [SchedState.pickNext, hready]
      · exact ⟨hidle, hpc, hq.dispatch hready, hone t ts⟩

/-- `schedule` finds a next task, whether the current one still runs or was put away. -/
theorem schedule_spec {s : SchedState} {i : Tid} (hidle : s.idle = some i)
    (hpc : s.pc i = .run) (hq : QueueInv (queuesOf s) i)
    (hrun : OneRunning s ∨ ∀ t, s.state t ≠ some .RUNNING) :
    ∃ s', s.schedule = .ok s' ∧ SchedInv s' i := by
  unfold SchedState.schedule
  rcases hrun with hone | hstop
  · have hcur : s.state s.current = some .RUNNING := (hone _).mpr rfl
    rw [if_pos hcur]
    refine pickNext_spec hidle hpc (hq.requeue hcur) fun t => ?_
    by_cases ht : t = s.current
    · simp [SchedState.setState, SchedState.pushReady, ht]
    · simpa [SchedState.setState, SchedState.pushReady, ht] using mt (hone t).mp ht
  · rw [if_neg (hstop s.current)]
    exact pickNext_spec hidle hpc hq hstop

namespace SchedInv

variable {s : SchedState} {i : Tid}

/-- The current task runs. -/
theorem current_running (h : SchedInv s i) : s.state s.current = some .RUNNING :=
  (h.running _).mpr rfl

/-- Once the current task has another state, nothing runs. -/
theorem stopped (h : SchedInv s i) {v : TaskState} (hv : v ≠ .RUNNING) (t : Tid) :
    (s.setState s.current v).state t ≠ some .RUNNING := by
  by_cases ht : t = s.current
  · simpa [SchedState.setState, ht] using hv
  · simpa [SchedState.setState, ht] using mt (h.running t).mp ht

/-! ### Steps that keep the lists -/

/-- A task goes on at a place where it has popped nobody, as before. -/
theorem setPc (h : SchedInv s i) {t : Tid} {pc : SchedPc} (ht : t ≠ i)
    (hold : (s.pc t).popped = none) (hnew : pc.popped = none) : SchedInv (s.setPc t pc) i where
  idle := h.idle
  idle_pc := by simpa [SchedState.setPc, Ne.symm ht] using h.idle_pc
  queues := by
    rw [queuesOf_setPc, hnew, setPopped_self _ _ hold.symm]
    exact h.queues
  running := h.running

/-- A mutex changes, but not its wait list. -/
theorem setMutex (h : SchedInv s i) {m : Nat} {x : MutexLock}
    (hx : x.waitList = (s.mutex m).waitList) : SchedInv (s.setMutex m x) i where
  idle := h.idle
  idle_pc := h.idle_pc
  queues := by
    rw [queuesOf_setMutex, setWait_self _ _ hx]
    exact h.queues
  running := h.running

/-- A semaphore changes, but not its wait list. -/
theorem setSem (h : SchedInv s i) {j : Nat} {x : Sem}
    (hx : x.waitList = (s.sem j).waitList) : SchedInv (s.setSem j x) i where
  idle := h.idle
  idle_pc := h.idle_pc
  queues := by
    rw [queuesOf_setSem, setWait_self _ _ hx]
    exact h.queues
  running := h.running

/-! ### Steps that wake a task -/

/-- A blocked task becomes ready, and still one task runs. -/
theorem running_unblock (h : SchedInv s i) {t : Tid} {p : Spot} (ht : (queuesOf s).At t p) :
    OneRunning (s.setState t .READY) := by
  intro u
  have hstate : s.state t = some .BLOCKED := (h.queues.blocked t p ht).1
  have hne : t ≠ s.current := by
    rintro rfl
    rw [h.current_running] at hstate
    cases hstate
  by_cases hu : u = t
  · simp [SchedState.setState, hu, hne]
  · simpa [SchedState.setState, hu] using h.running u

/-- The first task of a wait list is unblocked. -/
theorem wake (h : SchedInv s i) {s₁ : SchedState} {w : WaitPlace} {t : Tid} {ts : List Tid}
    (hw : s.waitList w = t :: ts) (hq : queuesOf s₁ = (queuesOf s).setWait w ts)
    (hidle : s₁.idle = s.idle) (hpc : s₁.pc = s.pc) (hcur : s₁.current = s.current) :
    SchedInv (s₁.threadUnblock t) i where
  idle := hidle.trans h.idle
  idle_pc := by
    rw [show (s₁.threadUnblock t).pc = s.pc from hpc]
    exact h.idle_pc
  queues := by
    have hready : s₁.readyList = s.readyList := congrArg Queues.ready hq
    rw [SchedState.threadUnblock, queuesOf_pushReady, queuesOf_setState, hq,
      show (s₁.setState t .READY).readyList = s.readyList from hready]
    exact h.queues.wake hw
  running := by
    have hstate : s₁.state = s.state := congrArg Queues.state hq
    have hone := h.running_unblock (t := t) (p := .place w)
      (show t ∈ s.waitList w by rw [hw]; exact List.mem_cons_self)
    intro u
    rw [show (s₁.threadUnblock t).current = s.current from hcur,
      show (s₁.threadUnblock t).state = (s.setState t .READY).state by
        simp [SchedState.threadUnblock, SchedState.pushReady, SchedState.setState, hstate]]
    exact hone u

/-- `sema_post` pops a task and unblocks it. -/
theorem semaPop (h : SchedInv s i) {s' : SchedState} {j : Nat}
    (hpop : s.semaPop j = .ok s') : SchedInv s' i := by
  simp only [SchedState.semaPop, semaPostPop, bind_eq_ok] at hpop
  cases hw : (s.sem j).waitList with
  | nil => simp [hw] at hpop
  | cons t ts =>
      simp only [hw, Except.ok.injEq, pure_eq_ok] at hpop
      obtain ⟨_, rfl, rfl⟩ := hpop
      exact h.wake (w := .sem j) hw (queuesOf_setSem s j _) rfl rfl rfl

/-- `cond_signal`. -/
theorem condSignal (h : SchedInv s i) (c : Nat) : SchedInv (s.condSignal c) i := by
  unfold SchedState.condSignal
  cases hw : (s.cond c).waitList with
  | nil => exact h
  | cons t ts => exact h.wake (w := .cond c) hw (queuesOf_setCond s c _) rfl rfl rfl

/-- The loop of `cond_broadcast`. -/
theorem condWakeAll (c : Nat) (xs : List Tid) :
    ∀ {s : SchedState}, SchedInv s i → (s.cond c).waitList = xs →
      SchedInv (s.condWakeAll c xs) i := by
  induction xs with
  | nil => exact fun h _ => h
  | cons t ts ih =>
      intro s h hw
      refine ih (h.wake (w := .cond c) hw (queuesOf_setCond s c _) rfl rfl rfl) ?_
      simp [SchedState.threadUnblock, SchedState.pushReady, SchedState.setState,
        SchedState.setCond]

/-! ### Steps that give up the processor -/

/-- The current task goes to sleep on a wait list. -/
theorem sleep (h : SchedInv s i) {s₁ : SchedState} {w : WaitPlace} (hne : s.current ≠ i)
    (hq : queuesOf s₁ = (queuesOf s).setWait w (s.waitList w ++ [s.current]))
    (hidle : s₁.idle = s.idle) (hpc : s₁.pc i = s.pc i) (hcur : s₁.current = s.current) :
    ∃ s', s₁.threadBlock = .ok s' ∧ SchedInv s' i := by
  have hstate : s₁.state = s.state := congrArg Queues.state hq
  refine schedule_spec (hidle.trans h.idle) (hpc.trans h.idle_pc) ?_ (.inr fun t => ?_)
  · rw [queuesOf_setState, hq, hcur]
    exact h.queues.park h.current_running hne w
  · have hstop := h.stopped (v := .BLOCKED) (by decide) t
    rwa [show (s₁.setState s₁.current .BLOCKED).state
      = (s.setState s.current .BLOCKED).state by simp [SchedState.setState, hstate, hcur]]

/-- `idle` goes to sleep. -/
theorem idleBlock (h : SchedInv s i) (hcur : s.current = i) :
    ∃ s', s.threadBlock = .ok s' ∧ SchedInv s' i := by
  refine schedule_spec h.idle h.idle_pc ?_ (.inr (h.stopped (by decide)))
  rw [queuesOf_setState, hcur]
  exact h.queues.block_idle (hcur ▸ h.current_running)

/-- `thread_yield`. -/
theorem threadYield (h : SchedInv s i) : ∃ s', s.threadYield = .ok s' ∧ SchedInv s' i := by
  refine schedule_spec h.idle h.idle_pc ?_ (.inr (h.stopped (by decide)))
  exact h.queues.requeue h.current_running

/-- `sys_exit`. -/
theorem sysExit (h : SchedInv s i) (hne : s.current ≠ i) (hpc : s.pc s.current = .run) :
    ∃ s', s.sysExit = .ok s' ∧ SchedInv s' i := by
  refine schedule_spec h.idle h.idle_pc ?_ (.inr (h.stopped (by decide)))
  refine h.queues.exit h.current_running hne ?_
  simp [queuesOf, hpc, SchedPc.popped]

/-- `intr_timer_handler`. -/
theorem intrTimerHandler (h : SchedInv s i) :
    ∃ s', s.intrTimerHandler = .ok s' ∧ SchedInv s' i := by
  unfold SchedState.intrTimerHandler
  by_cases hticks : s.ticks s.current = 0
  · rw [if_pos hticks]
    exact schedule_spec h.idle h.idle_pc h.queues (.inl h.running)
  · rw [if_neg hticks]
    exact ⟨_, rfl, h.idle, h.idle_pc, h.queues, h.running⟩

/-! ### Steps that make a task -/

/-- A page that is not in use is not the current task, and not `idle`. -/
theorem unused_ne (h : SchedInv s i) {t : Tid} (ht : s.Unused t) : t ≠ s.current ∧ t ≠ i := by
  constructor
  · rintro rfl
    rcases ht with ht | ht <;> rw [h.current_running] at ht <;> cases ht
  · rintro rfl
    exact ht.elim h.queues.idle_alive.1 h.queues.idle_alive.2

/-- A page that is not in use has popped nobody. -/
theorem unused_popped (h : SchedInv s i) {t : Tid} (ht : s.Unused t) :
    (s.pc t).popped = none := by
  cases hpopped : (s.pc t).popped with
  | none => rfl
  | some u =>
      obtain ⟨hsome, hexit⟩ := h.queues.popped_alive t u hpopped
      exact absurd ht (not_or.mpr ⟨hsome, hexit⟩)

/-- A new task is ready, and still one task runs. -/
theorem running_spawn (h : SchedInv s i) {t : Tid} (ht : s.Unused t) :
    OneRunning (s.setState t .READY) := by
  intro u
  by_cases hu : u = t
  · simp [SchedState.setState, hu, (h.unused_ne ht).1]
  · simpa [SchedState.setState, hu] using h.running u

/-- `kthread_create`. -/
theorem kthreadCreate (h : SchedInv s i) {t : Tid} (ht : s.Unused t) (prio ticks : UInt32) :
    SchedInv (s.kthreadCreate t prio ticks) i where
  idle := h.idle
  idle_pc := by
    simpa [SchedState.kthreadCreate, SchedState.pushReady, SchedState.setPc,
      SchedState.setState, Ne.symm (h.unused_ne ht).2] using h.idle_pc
  queues := by
    rw [SchedState.kthreadCreate, queuesOf_pushReady, queuesOf_setPc, setPopped_self]
    · exact h.queues.spawn ht
    · exact (h.unused_popped ht).symm
  running := h.running_spawn ht

/-- `do_fork`. -/
theorem doFork (h : SchedInv s i) {t : Tid} (ht : s.Unused t) :
    ∃ s', s.doFork t = .ok s' ∧ SchedInv s' i := by
  refine schedule_spec h.idle ?_ ?_ (.inl (h.running_spawn ht))
  · simpa [SchedState.pushReadyFront, SchedState.setPc, SchedState.setState,
      Ne.symm (h.unused_ne ht).2] using h.idle_pc
  · rw [queuesOf_pushReadyFront, queuesOf_setPc, setPopped_self]
    · exact h.queues.spawn_front ht
    · exact (h.unused_popped ht).symm

/-! ### The functions of the locks -/

/-- `sema_wait`. -/
theorem semaWait (h : SchedInv s i) (hne : s.current ≠ i) (j : Nat) :
    ∃ s', s.semaWait j = .ok s' ∧ SchedInv s' i := by
  unfold SchedState.semaWait Kernel.semaWait
  cases hge : (atomicDecAndSetge (s.sem j).count).2 with
  | true =>
      simp only [hge, if_true, pure_eq_ok]
      exact ⟨_, rfl, h.setSem rfl⟩
  | false =>
      simp only [hge, Bool.false_eq_true, if_false]
      exact h.sleep (w := .sem j) hne (queuesOf_setSem s j _) rfl rfl rfl

/-- The increment of `sema_post`. -/
theorem semaPost (h : SchedInv s i) (hne : s.current ≠ i) (hpc : s.pc s.current = .run)
    (j : Nat) : SchedInv (s.semaPost j) i := by
  unfold SchedState.semaPost semaPostInc
  cases hg : (atomicIncAndSetg (s.sem j).count).2 with
  | true =>
      simp only [hg, Bool.not_true]
      exact h.setSem rfl
  | false =>
      simp only [hg, Bool.not_false]
      have hsem : SchedInv (s.setSem j { s.sem j with
          count := (atomicIncAndSetg (s.sem j).count).1 }) i := h.setSem rfl
      refine hsem.setPc hne ?_ rfl
      rw [show (s.setSem j _).pc s.current = .run from hpc]
      rfl

/-- `sema_post` from an interrupt handler. -/
theorem intrPost (h : SchedInv s i) {s' : SchedState} {j : Nat}
    (hpost : s.intrPost j = .ok s') : SchedInv s' i := by
  unfold SchedState.intrPost semaPostInc at hpost
  cases hg : (atomicIncAndSetg (s.sem j).count).2 with
  | true =>
      simp only [hg, Bool.not_true, pure_eq_ok, Except.ok.injEq] at hpost
      exact hpost ▸ h.setSem rfl
  | false =>
      simp only [hg, Bool.not_false] at hpost
      have hsem : SchedInv (s.setSem j { s.sem j with
          count := (atomicIncAndSetg (s.sem j).count).1 }) i := h.setSem rfl
      exact hsem.semaPop hpost

/-- The exchange of a locked mutex puts the current task to sleep. -/
theorem tryLocked (h : SchedInv s i) {m : Nat} {woken : Bool}
    (hpc : s.pc s.current = .mutex m (.acqTry woken)) (hlock : (s.mutex m).isLock = true) :
    ∃ s', s.mutexStep m (.acqTry woken) = .ok s' ∧ SchedInv s' i := by
  have hne : s.current ≠ i := by
    rintro hcur
    rw [hcur, h.idle_pc] at hpc
    cases hpc
  have hq : queuesOf ((s.setMutex m { s.mutex m with
      waitList := (s.mutex m).waitList ++ [s.current] }).setPc s.current (.mutex m .acqSleep))
      = (queuesOf s).setWait (.mutex m) (s.waitList (.mutex m) ++ [s.current]) := by
    rw [queuesOf_setPc, queuesOf_setMutex, setPopped_self]
    · rfl
    · simp [queuesOf, Queues.setWait, SchedPc.popped, hpc]
  simp only [SchedState.mutexStep, mutexTry, if_pos hlock]
  exact h.sleep (w := .mutex m) hne hq rfl (Function.update_of_ne (Ne.symm hne) _ _) rfl

/-- The next access of the current task to a mutex. -/
theorem mutexStep (h : SchedInv s i) {s' : SchedState} {m : Nat} {pc : MutexPc}
    (hpc : s.pc s.current = .mutex m pc) (hstep : s.mutexStep m pc = .ok s') :
    SchedInv s' i := by
  have hne : s.current ≠ i := by
    rintro hcur
    rw [hcur, h.idle_pc] at hpc
    cases hpc
  -- A step that only moves the program counter, away from no popped task and to none.
  have hgoto : ∀ {s₁ : SchedState} {pc' : SchedPc}, SchedInv s₁ i → s₁.pc = s.pc →
      (SchedPc.mutex m pc).popped = none → pc'.popped = none →
      SchedInv (s₁.setPc s.current pc') i := by
    intro s₁ pc' h₁ hsame hold hnew
    refine h₁.setPc hne ?_ hnew
    rw [hsame, hpc]
    exact hold
  cases pc with
  | outside | acqSleep =>
      cases hstep
      exact hgoto h rfl rfl rfl
  | acqCheck =>
      simp only [SchedState.mutexStep, pure_eq_ok] at hstep
      split at hstep <;> cases hstep <;> exact hgoto h rfl rfl rfl
  | acqRepeat | acqHolder | acqOne | relHolder =>
      cases hstep
      exact hgoto (h.setMutex rfl) rfl rfl rfl
  | acqTry woken =>
      cases hlock : (s.mutex m).isLock with
      | true =>
          obtain ⟨s'', hok, hinv⟩ := h.tryLocked hpc hlock
          rw [hok] at hstep
          cases hstep
          exact hinv
      | false =>
          simp only [SchedState.mutexStep, mutexTry, hlock, Bool.false_eq_true, if_false,
            pure_eq_ok, Except.ok.injEq] at hstep
          subst hstep
          exact hgoto (h.setMutex rfl) rfl rfl rfl
  | relAssert =>
      simp only [SchedState.mutexStep, bind_eq_ok, pure_eq_ok, Except.ok.injEq] at hstep
      obtain ⟨_, -, rfl⟩ := hstep
      exact hgoto h rfl rfl rfl
  | relDec =>
      cases hstep
      refine hgoto (h.setMutex rfl) rfl rfl ?_
      split <;> rfl
  | relXchg =>
      simp only [SchedState.mutexStep, mutexUnlock, bind_eq_ok, pure_eq_ok,
        Except.ok.injEq] at hstep
      obtain ⟨_, ⟨_, -, rfl⟩, rfl⟩ := hstep
      cases hw : (s.mutex m).waitList with
      | nil => exact hgoto (h.setMutex (by simp [hw])) rfl rfl rfl
      -- The head of the wait list is popped and waits for `thread_unblock`.
      | cons u us =>
          have hpopped : (queuesOf s).popped s.current = none := by
            simp [queuesOf, hpc, SchedPc.popped]
          refine ⟨h.idle, ?_, ?_, h.running⟩
          · simpa [SchedState.setPc, SchedState.setMutex, Ne.symm hne] using h.idle_pc
          · rw [queuesOf_setPc, queuesOf_setMutex]
            exact h.queues.pop (w := .mutex m) hw hpopped
              (by simp [queuesOf, h.current_running])
  | relUnblock u =>
      simp only [SchedState.mutexStep, pure_eq_ok, Except.ok.injEq] at hstep
      subst hstep
      have hpopped : (queuesOf s).popped s.current = some u := by
        simp [queuesOf, hpc, SchedPc.popped]
      refine ⟨h.idle, ?_, ?_, h.running_unblock (p := .popped s.current) hpopped⟩
      · simpa [SchedState.setPc, SchedState.threadUnblock, SchedState.pushReady,
          SchedState.setState, Ne.symm hne] using h.idle_pc
      · rw [queuesOf_setPc]
        exact h.queues.unblock hpopped

/-- The `mutex_release` of `cond_wait`, with the `thread_unblock` behind it. -/
theorem releaseAndUnblock (h : SchedInv s i) {m : Nat} {x : MutexLock} {popped : Option Tid}
    (hrelease : Kernel.mutexRelease (s.mutex m) s.current = .ok (x, popped)) :
    SchedInv (popped.elim (s.setMutex m x) (s.setMutex m x).threadUnblock) i := by
  simp only [Kernel.mutexRelease, bind_eq_ok] at hrelease
  obtain ⟨_, -, hrelease⟩ := hrelease
  by_cases hleft : (s.mutex m).repeat - 1 = 0
  · simp only [hleft, if_true, mutexUnlock, bind_eq_ok, pure_eq_ok, Except.ok.injEq,
      Prod.mk.injEq] at hrelease
    obtain ⟨_, -, rfl, rfl⟩ := hrelease
    cases hw : (s.mutex m).waitList with
    | nil => exact h.setMutex (by simp [hw])
    | cons u us => exact h.wake (w := .mutex m) hw (queuesOf_setMutex s m _) rfl rfl rfl
  · simp only [hleft, if_false, pure_eq_ok, Except.ok.injEq, Prod.mk.injEq] at hrelease
    obtain ⟨rfl, rfl⟩ := hrelease
    exact h.setMutex rfl

/-- The current task is on no wait list. -/
theorem current_not_waiting (h : SchedInv s i) (w : WaitPlace) :
    s.current ∉ s.waitList w := fun hmem => by
  have hblocked := (h.queues.blocked s.current (.place w) hmem).1
  rw [show (queuesOf s).state s.current = some .RUNNING from h.current_running] at hblocked
  cases hblocked

/-- `cond_wait`, when its `mutex_release` returns. -/
theorem condWait (h : SchedInv s i) (hne : s.current ≠ i) (hpc : s.pc s.current = .run)
    (c : Nat) {m : Nat} {x : MutexLock} {popped : Option Tid}
    (hrelease : Kernel.mutexRelease (s.mutex m) s.current = .ok (x, popped)) :
    ∃ s', s.condWait c m = .ok s' ∧ SchedInv s' i := by
  have hinv := h.releaseAndUnblock hrelease
  have hassert : s.current ∉ (s.cond c).waitList := h.current_not_waiting (.cond c)
  simp only [SchedState.condWait, ASSERT_true hassert, ok_bind, hrelease]
  generalize hs₁ : popped.elim (s.setMutex m x) (s.setMutex m x).threadUnblock = s₁ at hinv ⊢
  have hcur : s₁.current = s.current := by cases popped <;> subst hs₁ <;> rfl
  have hpcs : s₁.pc = s.pc := by cases popped <;> subst hs₁ <;> rfl
  have hq : queuesOf ((s₁.setCond c { waitList := (s₁.cond c).waitList ++ [s.current] }).setPc
      s.current (.mutex m .acqCheck))
      = (queuesOf s₁).setWait (.cond c) (s₁.waitList (.cond c) ++ [s₁.current]) := by
    rw [queuesOf_setPc, queuesOf_setCond, hcur, setPopped_self]
    · rfl
    · simp [queuesOf, Queues.setWait, SchedPc.popped, hpcs, hpc]
  exact hinv.sleep (w := .cond c) (hcur ▸ hne) hq rfl
    (Function.update_of_ne (Ne.symm hne) _ _) rfl

/-! ### The invariant over runs -/

/-- The state after `thread_init`. -/
theorem start (h : s.Start) : ∃ i, SchedInv s i := by
  obtain ⟨i, hidle, hne, hready, hstate⟩ := h.idle
  have hpopped : ∀ v, (s.pc v).popped = none := fun v => by rw [h.pc v]; rfl
  have hwait : ∀ w, s.waitList w = [] := by
    intro w
    cases w with
    | sem j => exact h.sem j
    | mutex m => exact h.mutex m
    | cond c => exact h.cond c
  -- All wait lists are empty and nothing is popped, so no task is at a place.
  have hat : ∀ t p, ¬(queuesOf s).At t p := by
    intro t p
    cases p with
    | place w => simp [Queues.At, queuesOf, hwait]
    | popped v => simp [Queues.At, queuesOf, hpopped]
  refine ⟨i, hidle, h.pc i, ?_, fun t => ?_⟩
  · exact
      { ready := ⟨by simp [queuesOf, hready], fun t => by
          by_cases hi : t = i
          · simp [queuesOf, hready, hstate, hi, hne]
          · by_cases hc : t = s.current
            · simp [queuesOf, hready, hstate, hc, Ne.symm hne]
            · simp [queuesOf, hready, hstate, hi, hc]⟩
        wait_nodup := fun w => by simp [queuesOf, hwait]
        blocked := fun t p hp => absurd hp (hat t p)
        unique := fun t p p' hp => absurd hp (hat t p)
        spot := fun t ht => by
          have hs := hstate t
          rw [show s.state t = some .BLOCKED from ht] at hs
          split at hs
          · cases hs
          · split at hs <;> cases hs
        idle_alive := by simp [queuesOf, hstate, hne]
        popped_alive := fun v t hv => absurd hv (by simp [queuesOf, hpopped]) }
  · rw [hstate]
    by_cases hc : t = s.current
    · simp [hc]
    · by_cases hi : t = i <;> simp [hc, hi]

/-- Every action keeps the invariant. -/
theorem next (h : SchedInv s i) {a : SchedAct} {s' : SchedState} (henabled : s.Enabled a)
    (hnext : s.next a = .ok s') : SchedInv s' i := by
  -- A call is made by a task that runs user code, so not by `idle`.
  have hruns : s.Runs → s.current ≠ i ∧ s.pc s.current = .run := by
    rintro ⟨hpc, hidle⟩
    exact ⟨fun hcur => hidle (hcur ▸ h.idle), hpc⟩
  -- The calls that cannot fail have their step lemma in this form.
  have hof : ∀ {x : Except Halt SchedState}, (∃ s'', x = .ok s'' ∧ SchedInv s'' i) →
      x = .ok s' → SchedInv s' i := by
    rintro x ⟨s'', hok, hinv⟩ hx
    rw [hok] at hx
    cases hx
    exact hinv
  cases a with
  | timer => exact hof h.intrTimerHandler hnext
  | intrPost j => exact h.intrPost hnext
  | idleBlock => exact hof (h.idleBlock (Option.some.inj (henabled.symm.trans h.idle))) hnext
  | kthreadCreate t prio ticks =>
      cases hnext
      exact h.kthreadCreate henabled.2 prio ticks
  | doFork t => exact hof (h.doFork henabled.2) hnext
  | threadYield => exact hof h.threadYield hnext
  | sysExit =>
      obtain ⟨hne, hpc⟩ := hruns henabled
      exact hof (h.sysExit hne hpc) hnext
  | semaWait j => exact hof (h.semaWait (hruns henabled).1 j) hnext
  | semaPost j =>
      cases hnext
      obtain ⟨hne, hpc⟩ := hruns henabled
      exact h.semaPost hne hpc j
  | semaTrywait j =>
      cases hnext
      refine h.setSem ?_
      unfold Kernel.semaTrywait
      dsimp only
      split <;> rfl
  | mutexAcquire m | mutexRelease m =>
      cases hnext
      obtain ⟨hne, hpc⟩ := hruns henabled
      exact h.setPc hne (by rw [hpc]; rfl) rfl
  | condWait c m =>
      obtain ⟨hne, hpc⟩ := hruns henabled
      have hwait := hnext
      simp only [SchedState.next, SchedState.condWait, bind_eq_ok] at hwait
      obtain ⟨_, -, _, hrelease, -⟩ := hwait
      exact hof (h.condWait hne hpc c hrelease) hnext
  | condSignal c =>
      cases hnext
      exact h.condSignal c
  | condBroadcast c =>
      cases hnext
      exact condWakeAll c _ h rfl
  -- The current task is inside a call: the next access of it.
  | step =>
      simp only [SchedState.next] at hnext
      cases hpc : s.pc s.current with
      | run => exact absurd hpc henabled
      | mutex m pc =>
          rw [hpc] at hnext
          exact h.mutexStep hpc hnext
      | semaPop j =>
          rw [hpc] at hnext
          have hne : s.current ≠ i := by
            rintro hcur
            rw [hcur, h.idle_pc] at hpc
            cases hpc
          exact (h.setPc hne (by rw [hpc]; rfl) rfl).semaPop hnext

end SchedInv

/-- The invariant is inductive. -/
theorem schedSystem_inductive : schedSystem.Inductive fun s => ∃ i, SchedInv s i where
  init hinit := SchedInv.start hinit
  step h henabled hnext := by
    obtain ⟨i, h⟩ := h
    exact ⟨i, h.next henabled hnext⟩

/-! ### What cannot fail -/

/-- The action finds a lock that its caller uses wrongly: it releases a mutex that it does
not hold, or it posts a semaphore that counts a waiter that is not on the list. -/
def BrokenLock (s : SchedState) : SchedAct → Prop
  | .intrPost i => (s.sem i).waitList = []
  | .condWait _ m =>
      (s.mutex m).holder ≠ some s.current ∨ (s.mutex m).isLock = false
  | .step =>
      match s.pc s.current with
      | .mutex m .relAssert => (s.mutex m).holder ≠ some s.current
      | .mutex m .relXchg => (s.mutex m).isLock = false
      | .semaPop i => (s.sem i).waitList = []
      | _ => False
  | _ => False

/-- `mutex_release` fails only for a thread that does not hold the mutex. -/
theorem mutexRelease_error {l : MutexLock} {t : Tid} {e : Halt}
    (h : mutexRelease l t = .error e) : l.holder ≠ some t ∨ l.isLock = false := by
  by_cases hholder : l.holder = some t
  · cases hlock : l.isLock with
    | false => exact .inr rfl
    | true =>
        by_cases hleft : l.repeat - 1 = 0 <;>
          simp [mutexRelease, mutexUnlock, hholder, hlock, hleft] at h
  · exact .inl hholder

/-- Only a broken lock stops the kernel. In particular `schedule` finds a next task. -/
theorem SchedInv.brokenLock {s : SchedState} {i : Tid} (h : SchedInv s i) {a : SchedAct}
    {e : Halt} (henabled : s.Enabled a) (herror : s.next a = .error e) : BrokenLock s a := by
  have hruns : s.Runs → s.current ≠ i ∧ s.pc s.current = .run := by
    rintro ⟨hpc, hidle⟩
    exact ⟨fun hcur => hidle (hcur ▸ h.idle), hpc⟩
  -- An action that cannot fail.
  have hof : ∀ {x : Except Halt SchedState} {P : Prop},
      (∃ s'', x = .ok s'' ∧ SchedInv s'' i) → x = .error e → P := by
    rintro x P ⟨s'', hok, -⟩ hx
    rw [hok] at hx
    cases hx
  -- `sema_post` pops only what its own count says is waiting.
  have hpop : ∀ (s : SchedState) (j : Nat), s.semaPop j = .error e →
      (s.sem j).waitList = [] := by
    intro s j hx
    unfold SchedState.semaPop semaPostPop at hx
    cases hw : (s.sem j).waitList with
    | nil => rfl
    | cons t ts => simp [hw] at hx
  cases a with
  | timer => exact hof h.intrTimerHandler herror
  | intrPost j =>
      simp only [SchedState.next, SchedState.intrPost, semaPostInc] at herror
      cases hg : (atomicIncAndSetg (s.sem j).count).2 with
      | true => simp [hg] at herror
      | false =>
          simp only [hg, Bool.not_false] at herror
          simpa [BrokenLock, SchedState.setSem] using hpop _ j herror
  | idleBlock => exact hof (h.idleBlock (Option.some.inj (henabled.symm.trans h.idle))) herror
  | kthreadCreate | semaPost | semaTrywait | mutexAcquire | mutexRelease | condSignal
  | condBroadcast => cases herror
  | doFork t => exact hof (h.doFork henabled.2) herror
  | threadYield => exact hof h.threadYield herror
  | sysExit =>
      obtain ⟨hne, hpc⟩ := hruns henabled
      exact hof (h.sysExit hne hpc) herror
  | semaWait j => exact hof (h.semaWait (hruns henabled).1 j) herror
  | condWait c m =>
      obtain ⟨hne, hpc⟩ := hruns henabled
      cases hrelease : mutexRelease (s.mutex m) s.current with
      | ok r => exact hof (h.condWait hne hpc c hrelease) herror
      | error e' => exact mutexRelease_error hrelease
  | step =>
      simp only [SchedState.next] at herror
      cases hpc : s.pc s.current with
      | run => exact absurd hpc henabled
      | semaPop j =>
          rw [hpc] at herror
          simpa [BrokenLock, hpc, SchedState.setPc] using hpop _ j herror
      | mutex m pc =>
          rw [hpc] at herror
          have hne : s.current ≠ i := by
            rintro hcur
            rw [hcur, h.idle_pc] at hpc
            cases hpc
          cases pc with
          -- The two accesses of `mutex_release` that have an ASSERT.
          | relAssert =>
              by_cases hholder : (s.mutex m).holder = some s.current
              · simp [SchedState.mutexStep, hholder] at herror
              · simpa [BrokenLock, hpc] using hholder
          | relXchg =>
              cases hlock : (s.mutex m).isLock with
              | true => simp [SchedState.mutexStep, mutexUnlock, hlock] at herror
              | false => simpa [BrokenLock, hpc] using hlock
          | acqTry woken =>
              cases hlock : (s.mutex m).isLock with
              | true => exact hof (h.tryLocked hpc hlock) herror
              | false => simp [SchedState.mutexStep, mutexTry, hlock] at herror
          | acqCheck =>
              by_cases hholder : (s.mutex m).holder = some s.current <;>
                simp [SchedState.mutexStep, hholder] at herror
          | outside | acqRepeat | acqSleep | acqHolder | acqOne | relDec | relHolder
          | relUnblock => cases herror

/-- The queue invariant of the scheduler, in the words of its lists. -/
structure QueueSafe (s : SchedState) : Prop where
  /-- Exactly one task runs, the current one. -/
  running : ∀ t, s.state t = some .RUNNING ↔ t = s.current
  ready : ∀ t, t ∈ s.readyList ↔ s.state t = some .READY
  ready_nodup : s.readyList.Nodup
  wait_nodup : ∀ w, (s.waitList w).Nodup
  /-- A blocked task other than `idle` is on exactly one wait list, or exactly one
  `mutex_release` has just popped it. -/
  blocked : ∀ t, s.state t = some .BLOCKED → s.idle ≠ some t →
    ((∃! w, t ∈ s.waitList w) ∧ ∀ v, (s.pc v).popped ≠ some t) ∨
      ((∃! v, (s.pc v).popped = some t) ∧ ∀ w, t ∉ s.waitList w)
  exit : ∀ t, s.state t = some .EXIT → t ∉ s.readyList ∧ ∀ w, t ∉ s.waitList w
  /-- `idle` is a task. It is on no wait list, and not on the ready list while it runs. -/
  idle : ∃ i, s.idle = some i ∧ (∀ w, i ∉ s.waitList w) ∧
    (s.current = i → i ∉ s.readyList) ∧
    (s.readyList = [] → s.state i = some .BLOCKED ∨ s.current = i)
  /-- Nothing but a broken lock stops an action, so `schedule` finds a next task. -/
  schedules : ∀ a e, s.Enabled a → s.next a = .error e → BrokenLock s a

/-- Every reachable state of the scheduler has its queues in order, for any number of tasks
and any interleaving. -/
theorem schedSystem_queueSafe {s : SchedState} (hs : schedSystem.Reachable s) :
    QueueSafe s := by
  obtain ⟨i, h⟩ := schedSystem_inductive.reachable hs
  have hat : ∀ t p, (queuesOf s).At t p → s.state t = some .BLOCKED ∧ t ≠ i :=
    h.queues.blocked
  refine
    { running := h.running
      ready := h.queues.ready.mem_iff
      ready_nodup := h.queues.ready.nodup
      wait_nodup := h.queues.wait_nodup
      blocked := fun t ht hidle => ?_
      exit := fun t ht => ⟨fun hmem => ?_, fun w hmem => ?_⟩
      idle := ⟨i, h.idle, fun w hmem => (hat i (.place w) hmem).2 rfl, fun hcur hmem => ?_,
        fun hempty => ?_⟩
      schedules := fun a e henabled herror => h.brokenLock henabled herror }
  · -- A blocked task other than `idle` has a spot, and the spot is unique.
    have hti : t ≠ i := by
      rintro rfl
      exact hidle h.idle
    obtain ⟨p, hp⟩ := h.queues.spot t ht hti
    cases p with
    | place w =>
        refine .inl ⟨⟨w, hp, fun w' hw' => ?_⟩, fun v hv => ?_⟩
        · exact Spot.place.inj (h.queues.unique t (.place w') (.place w) hw' hp)
        · cases h.queues.unique t (.popped v) (.place w) hv hp
    | popped v =>
        refine .inr ⟨⟨v, hp, fun v' hv' => ?_⟩, fun w hw => ?_⟩
        · exact Spot.popped.inj (h.queues.unique t (.popped v') (.popped v) hv' hp)
        · cases h.queues.unique t (.place w) (.popped v) hw hp
  · have hready := (h.queues.ready.mem_iff t).mp hmem
    rw [show (queuesOf s).state t = some .EXIT from ht] at hready
    cases hready
  · rw [(hat t (.place w) hmem).1] at ht
    cases ht
  · have hready := (h.queues.ready.mem_iff i).mp hmem
    rw [show (queuesOf s).state i = some .RUNNING from hcur ▸ h.current_running] at hready
    cases hready
  · -- with an empty ready list `idle` runs or is blocked
    have halive := h.queues.idle_alive
    cases hstate : s.state i with
    | none => exact absurd hstate halive.1
    | some v =>
        cases v with
        | RUNNING => exact .inr ((h.running i).mp hstate).symm
        | READY => exact absurd hempty (h.queues.ready.ne_nil hstate)
        | BLOCKED => exact .inl rfl
        | EXIT => exact absurd hstate halive.2

/-- After `thread_init`, with the main task in page 0 and `idle` in page 1. -/
def bootState : SchedState where
  current := 0
  idle := some 1
  readyList := [1]
  state t := if t = 0 then some .RUNNING else if t = 1 then some .READY else none
  pc _ := .run
  ticks _ := 10
  prio _ := 10
  sem _ := semaInit 0
  mutex _ := mutexLockInit
  cond _ := { waitList := [] }

/-- The state at boot is a start of the scheduler. -/
theorem bootState_start : bootState.Start :=
  ⟨⟨1, rfl, by decide, rfl, fun _ => rfl⟩, fun _ => rfl, fun _ => rfl, fun _ => rfl, fun _ => rfl⟩

/-- The main task waits for a semaphore, and `idle` runs. -/
theorem schedSystem_queueSafe_semaWait :
    ∃ s, schedSystem.Reachable s ∧ s.state 0 = some .BLOCKED ∧
      s.waitList (.sem 0) = [0] ∧ s.current = 1 ∧ QueueSafe s := by
  have henabled : schedSystem.enabled bootState (.semaWait 0) := ⟨rfl, by decide⟩
  have hwait := System.Reachable.step (.init bootState_start) henabled rfl
  exact ⟨_, hwait, rfl, rfl, rfl, schedSystem_queueSafe hwait⟩

end Fizzos.Proofs
