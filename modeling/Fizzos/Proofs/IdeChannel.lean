import Fizzos.Device.IdeChannel
import Fizzos.Proofs.IdeTransfer
import Fizzos.Proofs.Mutex

/-!
# `Fizzos.Proofs.IdeChannel`: calls of the disk one after the other

The lock lets one task at a time into its call (`ChannelInv.unique`, from `MutexInvariant`). So the
log is the calls that are finished, and a part of the call of this task. `Paired` says that the code
of a call has a wait behind each command, and `WaitPhase` what the semaphore is in between: the
command and the interrupt change it by one each, in any order.

A call that is finished has stopped the kernel nowhere, so it has done what `ideReadPorts` or
`ideWritePorts` does (`Completed.seqPorts_eq`).
-/

set_option autoImplicit false

namespace Fizzos.Proofs

open Fizzos.Device
open Fizzos.Kernel
open Fizzos.Support

/-! ### The steps of a call -/

/-- What the steps do at the ports. -/
def portsOf (ops : List DriverOp) : List PortOp :=
  ops.filterMap fun
    | .port op => some op
    | _ => none

/-- Each command is followed by one wait. `out` says that a command waits for its interrupt. -/
def Paired : Bool → List DriverOp → Prop
  | false, [.release] => True
  | out, .port _ :: ops => Paired out ops
  | out, .ready _ :: ops => Paired out ops
  | out, .check _ :: ops => Paired out ops
  | false, .expect :: ops => Paired true ops
  | true, .wait :: ops => Paired false ops
  | _, _ => False

/-- The step does not stop the kernel. -/
def Passes (fuel : Nat) : DriverOp → Prop
  | .ready status => ∃ polls, busyWait status fuel = .ok (true, polls)
  | .check lba => lba ≤ MAX_LBA
  | _ => True

section
variable {r : IdeRequest}

/-- The port accesses of a sequence are those of its parts. -/
theorem portsOf_append (ops ops' : List DriverOp) :
    portsOf (ops ++ ops') = portsOf ops ++ portsOf ops' := List.filterMap_append

/-- A list of port accesses is its own port log. -/
theorem portsOf_map_port (ops : List PortOp) : portsOf (ops.map .port) = ops := by
  induction ops with
  | nil => rfl
  | cons op ops ih => exact congrArg (op :: ·) ih

/-- Port accesses set no flag and wait for nothing. -/
theorem paired_map_port {out : Bool} {ops : List DriverOp} (h : Paired out ops)
    (ports : List PortOp) : Paired out (ports.map .port ++ ops) := by
  induction ports with
  | nil => exact h
  | cons op ports ih => cases out <;> exact ih

/-- A round has one command and one wait. -/
theorem paired_round {ops : List DriverOp} (h : Paired false ops) (c secsDone n : Nat) :
    Paired false (r.commandOps secsDone n ++ r.dataOps c secsDone n ++ ops) := by
  have hdata : Paired true (r.dataOps c secsDone n ++ ops) := by
    unfold IdeRequest.dataOps
    split <;> exact h
  simp only [IdeRequest.commandOps, List.append_assoc, List.cons_append]
  have hcommand : Paired false (.expect :: .port (cmdOut r.call.hd r.command) ::
      ([] ++ (r.dataOps c secsDone n ++ ops))) := hdata
  exact paired_map_port hcommand _

/-- Each round of the loop asks for one interrupt and waits for it. -/
theorem paired_loop {ops : List DriverOp} (h : Paired false ops) (c secsDone : Nat) :
    Paired false (r.loopOps c secsDone ++ ops) := by
  fun_induction IdeRequest.loopOps with
  | case1 c secsDone hlt n ih =>
      rw [List.append_assoc]
      exact paired_round ih c secsDone n
  | case2 => exact h

/-- So does a call, from its start to its end. -/
theorem paired_ops (r : IdeRequest) : Paired false r.ops :=
  paired_map_port (@paired_loop _ [.release] trivial 0 0) _

/-- The last step gives the lock back, and no other. -/
theorem Paired.cons {out : Bool} {op : DriverOp} {rest : List DriverOp}
    (h : Paired out (op :: rest)) :
    (op = .release ∧ rest = [] ∧ out = false) ∨ (op ≠ .release ∧ rest ≠ []) := by
  cases op with
  | release =>
      cases out <;> cases rest <;> simp [Paired] at h ⊢
  | port _ | ready _ | check _ =>
      refine .inr ⟨by simp, ?_⟩
      rintro rfl
      cases out <;> simp [Paired] at h
  | expect | wait =>
      refine .inr ⟨by simp, ?_⟩
      rintro rfl
      cases out <;> simp [Paired] at h

end

/-! ### The lock -/

/-- The task is in `mutex_acquire`, for the first time. -/
def Acquiring : MutexPc → Prop
  | .acqCheck | .acqTry _ | .acqSleep | .acqHolder | .acqOne => True
  | _ => False

/-- The task is in no call, or it gives the lock back. -/
def Releasing (depth : Nat) : MutexPc → Prop
  | .outside | .relHolder | .relXchg | .relUnblock _ => depth = 0
  | .relAssert | .relDec => depth = 1
  | _ => False

/-- Where a step of the lock takes the task `t`. -/
def stepPc (m : MutexState) (t : Tid) : MutexPc :=
  match m.pc t with
  | .outside | .acqRepeat | .acqOne | .relUnblock _ => .outside
  | .acqCheck => if m.lock.holder = some t then .acqRepeat else .acqTry false
  | .acqTry _ => if m.lock.isLock then .acqSleep else .acqHolder
  | .acqSleep => .acqTry true
  | .acqHolder => .acqOne
  | .relAssert => .relDec
  | .relDec => if m.lock.repeat - 1 = 0 then .relHolder else .outside
  | .relHolder => .relXchg
  | .relXchg => m.lock.waitList.head?.elim .outside .relUnblock

/-- The depth of the task `t` behind a step of the lock. -/
def stepDepth (m : MutexState) (t : Tid) : Nat :=
  match m.pc t with
  | .acqRepeat | .acqOne => m.depth t + 1
  | .relDec => m.depth t - 1
  | _ => m.depth t

section
variable {m m' : MutexState} {t u : Tid}

/-- A step in the mutex moves the place and the depth of its own task only. -/
theorem mutex_step_place (hstep : m.step t = .ok m') :
    m'.pc = Function.update m.pc t (stepPc m t) ∧
      m'.depth = Function.update m.depth t (stepDepth m t) := by
  unfold MutexState.step at hstep
  -- One case for each place in `mutex_acquire` and `mutex_release`.
  unfold stepPc stepDepth
  cases hpc : m.pc t with
  | outside =>
      simp only [hpc, pure_eq_ok, Except.ok.injEq] at hstep
      subst hstep
      simp [← hpc]
  | acqCheck =>
      simp only [hpc] at hstep
      split at hstep <;> cases hstep <;> simp [MutexState.goto, *]
  | acqTry woken =>
      cases hlock : m.lock.isLock <;> simp only [hpc, mutexTry, hlock] at hstep <;> cases hstep <;>
        simp [MutexState.goto]
  | relAssert =>
      simp only [hpc] at hstep
      obtain ⟨-, -, hstep⟩ := bind_eq_ok.mp hstep
      cases hstep
      simp [MutexState.goto]
  | relXchg =>
      simp only [hpc] at hstep
      obtain ⟨⟨lock, popped⟩, hunlock, hstep⟩ := bind_eq_ok.mp hstep
      obtain ⟨-, -, hlock⟩ := bind_eq_ok.mp hunlock
      cases hlock
      cases hstep
      simp [MutexState.goto]
  | acqRepeat | acqSleep | acqHolder | acqOne | relDec | relHolder | relUnblock =>
      simp only [hpc] at hstep
      cases hstep
      simp [MutexState.goto]

/-- A task on its way to the lock stays on its way, or gets the lock. -/
theorem acquiring_step (h : MutexInvariant m) (hacq : Acquiring (m.pc t)) (hdepth : m.depth t = 0)
    (hstep : m.step t = .ok m') : (Acquiring (m'.pc t) ∧ m'.depth t = 0) ∨
      (m.pc t = .acqOne ∧ m'.pc t = .outside ∧ m'.depth t = 1) := by
  obtain ⟨hpc', hdepth'⟩ := mutex_step_place hstep
  rw [hpc', hdepth', Function.update_self, Function.update_self, stepPc, stepDepth]
  cases hpc : m.pc t with
  | acqCheck =>
      -- only the owner finds its own name, and it has a depth
      have hholder : m.lock.holder ≠ some t := by
        intro hholder
        obtain ⟨owner, howned⟩ := h.owned
        have hview := howned.view t (howned.eq_of_holder hholder)
        simp only [hpc, OwnerView] at hview
        omega
      simp [hholder, Acquiring, hdepth]
  | acqTry woken => cases m.lock.isLock <;> simp [Acquiring, hdepth]
  | acqSleep | acqHolder | acqOne => simp [Acquiring, hdepth]
  | _ => simp [hpc, Acquiring] at hacq

/-- A task that gives the lock back goes on with that. -/
theorem releasing_step (h : MutexInvariant m) (hrel : Releasing (m.depth t) (m.pc t))
    (hstep : m.step t = .ok m') : Releasing (m'.depth t) (m'.pc t) := by
  obtain ⟨hpc', hdepth'⟩ := mutex_step_place hstep
  rw [hpc', hdepth', Function.update_self, Function.update_self, stepPc, stepDepth]
  cases hpc : m.pc t with
  | relDec =>
      simp only [hpc, Releasing] at hrel
      obtain ⟨owner, howned⟩ := h.owned
      obtain rfl := howned.eq_of_place (t := t) (by simp [hpc, OtherView])
      have hcount : m.lock.repeat.toNat = 1 := howned.count.trans hrel
      have hone : m.lock.repeat = 1 := UInt32.toNat_inj.mp hcount
      simp [hone, hrel, Releasing]
  | relXchg =>
      simp only [hpc, Releasing] at hrel
      cases m.lock.waitList.head? <;> exact hrel
  | outside | relAssert | relHolder | relUnblock => simpa [hpc, Releasing] using hrel
  | _ => simp [hpc, Releasing] at hrel

end

/-! ### The invariant -/

/-- No command waits for an interrupt, and no task waits for a command. -/
structure Silent (s : ChannelState) : Prop where
  expecting : s.expectingIntr = false
  done : s.diskDone = ⟨0, []⟩

/-- The semaphore while `t` has the lock. `out` says that a command of `t` has no wait yet. -/
def WaitPhase (s : ChannelState) (t : Tid) : Bool → Prop
  | true => s.asleep t = false ∧
      (s.expectingIntr = true ∧ s.diskDone = ⟨0, []⟩ ∨ s.expectingIntr = false ∧
        s.diskDone = ⟨1, []⟩)
  | false => s.asleep t = true ∧ s.expectingIntr = true ∧ s.diskDone = ⟨-1, [t]⟩ ∨
      s.asleep t = false ∧ Silent s

/-- The phase depends on whether the task sleeps, on `expecting_intr` and on the semaphore. -/
theorem WaitPhase.congr {s s' : ChannelState} {t : Tid} {out : Bool} (h : WaitPhase s t out)
    (hasleep : s'.asleep t = s.asleep t) (hexpecting : s'.expectingIntr = s.expectingIntr)
    (hdone : s'.diskDone = s.diskDone) : WaitPhase s' t out := by
  cases out with
  | true => rwa [WaitPhase, hasleep, hexpecting, hdone]
  | false =>
      rw [WaitPhase, hasleep, hexpecting, hdone]
      exact h.imp_right fun h => ⟨h.1, hexpecting.trans h.2.expecting, hdone.trans h.2.done⟩

/-- The task `t` is in the call `r`. -/
structure InCall (base fuel : Nat) (s : ChannelState) (t : Tid) (r : IdeRequest) : Prop where
  request : s.request t = some r
  base : r.call.hd.portBase = base
  entry : r.entry = .ok ()
  done : ∃ pre, r.ops = pre ++ s.code t ∧ (∀ op ∈ pre, Passes fuel op) ∧
    (s.lock.depth t = 0 → pre = [])
  place : Acquiring (s.lock.pc t) ∧ s.lock.depth t = 0 ∨ s.lock.pc t = .outside ∧ s.lock.depth t = 1

/-- The code of a task agrees with its place in the lock. -/
def TaskPlace (base fuel : Nat) (s : ChannelState) (t : Tid) : Prop :=
  s.code t = [] ∧ Releasing (s.lock.depth t) (s.lock.pc t) ∨ s.code t ≠ [] ∧
    ∃ r, InCall base fuel s t r

/-- No step of the call has stopped the kernel. -/
structure Completed (base fuel : Nat) (r : IdeRequest) : Prop where
  base : r.call.hd.portBase = base
  entry : r.entry = .ok ()
  ops : ∀ op ∈ r.ops, Passes fuel op

/-- What the calls that are finished have done at the ports. -/
def servedPorts (s : ChannelState) : List PortOp := s.served.flatMap fun r => portsOf r.ops

/-- The invariant of the channel and its tasks. -/
structure ChannelInv (base fuel : Nat) (s : ChannelState) : Prop where
  mutex : MutexInvariant s.lock
  place : ∀ t, TaskPlace base fuel s t
  awake : ∀ t, ¬s.Inside t → s.asleep t = false
  free : (∀ t, ¬s.Inside t) → Silent s ∧ s.log = servedPorts s
  phase : ∀ t, s.Inside t → ∃ out, Paired out (s.code t) ∧ WaitPhase s t out
  log : ∀ t r, s.Inside t → s.request t = some r →
    s.log ++ portsOf (s.code t) = servedPorts s ++ portsOf r.ops
  served : ∀ r ∈ s.served, Completed base fuel r

section
variable {base fuel : Nat} {s s' : ChannelState} {t u : Tid}

/-- The place of a task depends on its code, its request and its steps in the mutex. -/
theorem TaskPlace.congr (h : TaskPlace base fuel s u) (hcode : s'.code u = s.code u)
    (hrequest : s'.request u = s.request u) (hpc : s'.lock.pc u = s.lock.pc u)
    (hdepth : s'.lock.depth u = s.lock.depth u) : TaskPlace base fuel s' u := by
  unfold TaskPlace at h ⊢
  rw [hcode, hdepth, hpc]
  refine h.imp_right fun ⟨hne, r, hr⟩ =>
    ⟨hne, r, hrequest.trans hr.request, hr.base, hr.entry, ?_, ?_⟩
  · rw [hcode, hdepth]
    exact hr.done
  · rw [hpc, hdepth]
    exact hr.place

/-- The other tasks have not moved. -/
structure Beside (t : Tid) (s s' : ChannelState) : Prop where
  code : ∀ u, u ≠ t → s'.code u = s.code u
  request : ∀ u, u ≠ t → s'.request u = s.request u
  pc : ∀ u, u ≠ t → s'.lock.pc u = s.lock.pc u
  depth : ∀ u, u ≠ t → s'.lock.depth u = s.lock.depth u

namespace Beside

/-- Other tasks are behind the lock as before. -/
theorem inside (h : Beside t s s') (hu : u ≠ t) : s'.Inside u ↔ s.Inside u := by
  rw [ChannelState.Inside, ChannelState.Inside, h.code u hu, h.depth u hu]

/-- And their places are the same. -/
theorem place (h : Beside t s s') (hu : u ≠ t) (hplace : TaskPlace base fuel s u) :
    TaskPlace base fuel s' u :=
  hplace.congr (h.code u hu) (h.request u hu) (h.pc u hu) (h.depth u hu)

end Beside

namespace ChannelInv

theorem start : ChannelInv base fuel ChannelState.start where
  mutex := MutexInvariant.start
  place _ := .inl ⟨rfl, rfl⟩
  awake _ _ := rfl
  free _ := ⟨⟨rfl, rfl⟩, rfl⟩
  phase _ ht := absurd rfl ht.1
  log _ _ ht _ := absurd rfl ht.1
  served _ hr := absurd hr (by simp [ChannelState.start])

/-- One task at a time is in its call. -/
theorem unique (h : ChannelInv base fuel s) (ht : s.Inside t) (hu : s.Inside u) : t = u := by
  obtain ⟨owner, howned⟩ := h.mutex.owned
  exact Option.some.inj ((MutexInvariant.Owned.eq_of_holds howned (.inl ht.2)).symm.trans
    (MutexInvariant.Owned.eq_of_holds howned (.inl hu.2)))

/-- A task in its call has the lock once, and is in no function of the lock. -/
theorem inCall (h : ChannelInv base fuel s) (ht : s.Inside t) :
    ∃ r, InCall base fuel s t r ∧ s.lock.pc t = .outside ∧ s.lock.depth t = 1 := by
  obtain ⟨hnil, -⟩ | ⟨-, r, hr⟩ := h.place t
  · exact absurd hnil ht.1
  · obtain ⟨-, hzero⟩ | hplace := hr.place
    · exact absurd ht.2 (by omega)
    · exact ⟨r, hr, hplace⟩

/-- A task with code that is in no function of the lock has the lock. -/
theorem inside_of_code (h : ChannelInv base fuel s) (hne : s.code t ≠ [])
    (hpc : s.lock.pc t = .outside) : s.Inside t := by
  obtain ⟨hnil, -⟩ | ⟨-, r, hr⟩ := h.place t
  · exact absurd hnil hne
  · obtain ⟨hacq, -⟩ | ⟨-, hdepth⟩ := hr.place
    · rw [hpc] at hacq
      exact hacq.elim
    · exact ⟨hne, by omega⟩

/-- A task outside of its call takes a step and stays there. It does not touch the channel. -/
theorem outside (h : ChannelInv base fuel s) (hbeside : Beside t s s') (ht : ¬s.Inside t)
    (ht' : ¬s'.Inside t) (hmutex : MutexInvariant s'.lock) (hplace : TaskPlace base fuel s' t)
    (hexpecting : s'.expectingIntr = s.expectingIntr) (hdone : s'.diskDone = s.diskDone)
    (hasleep : s'.asleep = s.asleep) (hlog : s'.log = s.log) (hserved : s'.served = s.served) :
    ChannelInv base fuel s' := by
  -- The same tasks are behind the lock as before, at most one of them.
  have hinside (u : Tid) : s'.Inside u ↔ s.Inside u := by
    by_cases hu : u = t
    · subst hu
      exact ⟨fun h => absurd h ht', fun h => absurd h ht⟩
    · exact hbeside.inside hu
  have hne {u : Tid} (hu : s.Inside u) : u ≠ t := by
    rintro rfl
    exact ht hu
  have hports : servedPorts s' = servedPorts s := congrArg (List.flatMap _) hserved
  refine ⟨hmutex, fun u => ?_, fun u hu => ?_, fun hfree => ?_, fun u hu =>
    ?_, fun u r hu hr => ?_, ?_⟩
  · by_cases hu : u = t
    · exact hu ▸ hplace
    · exact hbeside.place hu (h.place u)
  · rw [hasleep]
    exact h.awake u (mt (hinside u).mpr hu)
  · obtain ⟨hsilent, hlog'⟩ := h.free fun u hu => hfree u ((hinside u).mpr hu)
    exact ⟨⟨hexpecting.trans hsilent.expecting, hdone.trans hsilent.done⟩,
      hlog.trans (hlog'.trans hports.symm)⟩
  · have hu' := (hinside u).mp hu
    obtain ⟨out, hpaired, hphase⟩ := h.phase u hu'
    exact ⟨out, (hbeside.code u (hne hu')).symm ▸ hpaired,
      hphase.congr (congrFun hasleep u) hexpecting hdone⟩
  · have hu' := (hinside u).mp hu
    rw [hlog, hports, hbeside.code u (hne hu')]
    exact h.log u r hu' ((hbeside.request u (hne hu')).symm.trans hr)
  · rw [hserved]
    exact h.served

/-- A call begins. -/
theorem enter (h : ChannelInv base fuel s) {r : IdeRequest} (henabled : s.Enabled base (.call t r))
    (hnext : s.enter t r = .ok s') : ChannelInv base fuel s' := by
  obtain ⟨hcode, hpc, hbase⟩ := henabled
  obtain ⟨_, hentry, hs'⟩ := bind_eq_ok.mp hnext
  have hdepth : s.lock.depth t = 0 := by
    obtain ⟨-, hrel⟩ | ⟨hne, -⟩ := h.place t
    · simpa [hpc, Releasing] using hrel
    · exact absurd hcode hne
  have hmutex : MutexInvariant (s.lock.goto t .acqCheck) :=
    h.mutex.next (a := .acquire t) hpc (by simp [DepthFits, hdepth]) rfl
  obtain rfl := Except.ok.inj hs'
  refine h.outside (t := t) ⟨fun u hu => ?_, fun u hu => ?_, fun u hu => ?_, fun _ _ => rfl⟩
    (fun ht => ht.1 hcode) (fun ht => ?_) hmutex (.inr ⟨?_, r, ?_⟩) rfl rfl rfl rfl rfl
  · exact Function.update_of_ne hu _ _
  · exact Function.update_of_ne hu _ _
  · exact Function.update_of_ne hu _ _
  · exact absurd ht.2 (Nat.not_lt_zero _ <| hdepth ▸ ·)
  · simp [IdeRequest.ops]
  · exact ⟨Function.update_self _ _ _, hbase, hentry, ⟨[], by simp, by simp, fun _ => rfl⟩,
      .inl ⟨by simp [MutexState.goto, Acquiring], hdepth⟩⟩

/-- The task `t` gets the lock. Nobody else has it, so the channel is silent. -/
theorem getLock (h : ChannelInv base fuel s) {lock : MutexState}
    (hbeside : Beside t s { s with lock })
    (hmutex : MutexInvariant lock) (hone : s.lock.pc t = .acqOne) {r : IdeRequest}
    (hne : s.code t ≠ [])
    (hr : InCall base fuel s t r) (hdepth : s.lock.depth t = 0) (hout : lock.pc t = .outside)
    (hdepth' : lock.depth t = 1) : ChannelInv base fuel { s with lock } := by
  -- A task in front of the last step of `mutex_acquire` owns the lock already.
  have hfree (u : Tid) : ¬s.Inside u := by
    intro hu
    obtain ⟨owner, howned⟩ := h.mutex.owned
    have htu := (MutexInvariant.Owned.eq_of_holds howned (.inl hu.2)).symm.trans
      (MutexInvariant.Owned.eq_of_holds howned (.inr (.inr (.inl hone))))
    obtain rfl := Option.some.inj htu
    exact absurd hu.2 (by omega)
  have hinside : ChannelState.Inside { s with lock } t := ⟨hne, by simp [hdepth']⟩
  have honly {u : Tid} (hu : ChannelState.Inside { s with lock } u) : u = t := by
    by_contra hut
    exact hfree u ((hbeside.inside hut).mp hu)
  obtain ⟨hsilent, hlog⟩ := h.free hfree
  obtain ⟨pre, hops, hpass, hzero⟩ := hr.done
  obtain rfl := hzero hdepth
  refine ⟨hmutex, fun u => ?_, fun u _ => h.awake u (hfree u), fun hnone =>
    absurd hinside (hnone t), fun u hu => ?_, fun u r' hu hr' => ?_, h.served⟩
  · by_cases hu : u = t
    · subst hu
      exact .inr ⟨hne, r, hr.request, hr.base, hr.entry, ⟨[], hops, hpass, fun _ => rfl⟩,
        .inr ⟨hout, hdepth'⟩⟩
    · exact hbeside.place hu (h.place u)
  · obtain rfl := honly hu
    refine ⟨false, ?_, .inr ⟨h.awake u (hfree u), hsilent.expecting, hsilent.done⟩⟩
    show Paired false (s.code u)
    rw [← List.nil_append (s.code u), ← hops]
    exact paired_ops r
  · obtain rfl := honly hu
    obtain rfl : r = r' := Option.some.inj (hr.request.symm.trans hr')
    show s.log ++ portsOf (s.code u) = servedPorts s ++ portsOf r.ops
    rw [hlog, hops, List.nil_append]

/-- A step of a function of the lock. -/
theorem lockStep (h : ChannelInv base fuel s) (hpc : s.lock.pc t ≠ .outside)
    (hrun : s.lock.blocked t = false) {lock : MutexState} (hstep : s.lock.step t = .ok lock) :
    ChannelInv base fuel { s with lock } := by
  have hmutex : MutexInvariant lock := h.mutex.next (a := .step t) ⟨hpc, hrun⟩ trivial hstep
  have hplace := mutex_step_place hstep
  have hbeside : Beside t s { s with lock } :=
    ⟨fun _ _ => rfl, fun _ _ => rfl,
      fun u hu => (congrFun hplace.1 u).trans (Function.update_of_ne hu _ _),
      fun u hu => (congrFun hplace.2 u).trans (Function.update_of_ne hu _ _)⟩
  have ht : ¬s.Inside t := fun ht => hpc (h.inCall ht).choose_spec.2.1
  obtain ⟨hnil, hrel⟩ | ⟨hne, r, hr⟩ := h.place t
  · -- the task gives the lock back
    exact h.outside hbeside ht (fun ht => ht.1 hnil) hmutex
      (.inl ⟨hnil, releasing_step h.mutex hrel hstep⟩) rfl rfl rfl rfl rfl
  · obtain ⟨hacq, hdepth⟩ | ⟨hout, -⟩ := hr.place
    · obtain ⟨hacq', hdepth'⟩ | ⟨hone, hout', hdepth'⟩ := acquiring_step h.mutex hacq hdepth hstep
      · -- the task is on its way to the lock
        refine h.outside hbeside ht
          (fun ht => ?_) hmutex (.inr ⟨hne, r, hr.request, hr.base, hr.entry, ?_,
          .inl ⟨hacq', hdepth'⟩⟩) rfl rfl rfl rfl rfl
        · exact absurd ht.2 (Nat.not_lt_zero _ <| hdepth' ▸ ·)
        · obtain ⟨pre, hops, hpass, hzero⟩ := hr.done
          exact ⟨pre, hops, hpass, fun _ => hzero hdepth⟩
      · exact h.getLock hbeside hmutex hone hne hr hdepth hout' hdepth'
    · exact absurd hout hpc

/-- The task `t` has done a step of its call, and has more to do. -/
theorem advance (h : ChannelInv base fuel s) (ht : s.Inside t) {op : DriverOp}
    {rest : List DriverOp}
    (hcode : s.code t = op :: rest) (hrest : rest ≠ []) (hpass : Passes fuel op)
    (hlock : s'.lock = s.lock) (hcode' : s'.code = Function.update s.code t rest)
    (hrequest : s'.request = s.request) (hasleep : ∀ u, u ≠ t → s'.asleep u = s.asleep u)
    (hlog : s'.log = s.log ++ portsOf [op]) (hserved : s'.served = s.served) {o : Bool}
    (hpaired : Paired o rest) (hphase : WaitPhase s' t o) : ChannelInv base fuel s' := by
  obtain ⟨r, hr, hout, hdepth⟩ := h.inCall ht
  obtain ⟨pre, hops, hpre, -⟩ := hr.done
  have hself : s'.code t = rest := by rw [hcode', Function.update_self]
  have hbeside : Beside t s s' :=
    ⟨fun u hu => by rw [hcode']; exact Function.update_of_ne hu _ _, fun u _ => congrFun hrequest u,
      fun u _ => by rw [hlock], fun u _ => by rw [hlock]⟩
  have hinside : s'.Inside t := ⟨by rwa [hself], by rw [hlock]; exact ht.2⟩
  -- No other task is behind the lock, so what the invariant says of `u` there is about `t`.
  have honly {u : Tid} (hu : s'.Inside u) : u = t := by
    by_contra hut
    exact hut (h.unique ((hbeside.inside hut).mp hu) ht)
  have hports : servedPorts s' = servedPorts s := congrArg (List.flatMap _) hserved
  refine ⟨hlock ▸ h.mutex, fun u => ?_, fun u hu => ?_, fun hnone => absurd hinside (hnone t),
    fun u hu => ?_, fun u r' hu hr' => ?_, hserved ▸ h.served⟩
  · by_cases hu : u = t
    · subst hu
      refine .inr ⟨hinside.1, r, (congrFun hrequest u).trans hr.request, hr.base, hr.entry,
        ⟨pre ++ [op], ?_, ?_, ?_⟩, .inr ?_⟩
      · rw [hops, hcode, hself, List.append_assoc, List.singleton_append]
      · intro x hx
        obtain hx | hx := List.mem_append.mp hx
        · exact hpre x hx
        · exact List.mem_singleton.mp hx ▸ hpass
      · rw [hlock]
        omega
      · rw [hlock]
        exact ⟨hout, hdepth⟩
    · exact hbeside.place hu (h.place u)
  · have hut : u ≠ t := by
      rintro rfl
      exact hu hinside
    rw [hasleep u hut]
    exact h.awake u (mt (hbeside.inside hut).mpr hu)
  · obtain rfl := honly hu
    exact ⟨o, hself.symm ▸ hpaired, hphase⟩
  · obtain rfl := honly hu
    have hlog' := h.log u r' ht ((congrFun hrequest u).symm.trans hr')
    rw [hlog, hself, hports, ← hlog', hcode, List.append_assoc, ← portsOf_append,
      List.singleton_append]

/-- The task `t` calls `mutex_release`. -/
theorem release (h : ChannelInv base fuel s) (ht : s.Inside t) (hcode : s.code t = [.release])
    (hsilent : s.asleep t = false ∧ Silent s) :
    ChannelInv base fuel { s with
      lock := s.lock.goto t .relAssert
      code := Function.update s.code t []
      request := Function.update s.request t none
      served := s.served ++ (s.request t).toList } := by
  obtain ⟨r, hr, hout, hdepth⟩ := h.inCall ht
  obtain ⟨pre, hops, hpre, -⟩ := hr.done
  have hlog := h.log t r ht hr.request
  rw [hr.request, Option.toList_some]
  obtain ⟨s', hs'⟩ : ∃ s' : ChannelState, s' = { s with
      lock := s.lock.goto t .relAssert
      code := Function.update s.code t []
      request := Function.update s.request t none
      served := s.served ++ [r] } := ⟨_, rfl⟩
  rw [← hs']
  have hself : s'.code t = [] := by rw [hs']; exact Function.update_self _ _ _
  have hbeside : Beside t s s' := by
    rw [hs']
    exact ⟨fun u hu => Function.update_of_ne hu _ _, fun u hu => Function.update_of_ne hu _ _,
      fun u hu => Function.update_of_ne hu _ _, fun _ _ => rfl⟩
  -- The lock is free now. So the parts of the invariant about a task behind it say nothing.
  have hfree (u : Tid) : ¬s'.Inside u := by
    intro hu
    by_cases hut : u = t
    · subst hut
      exact hu.1 hself
    · exact hut (h.unique ((hbeside.inside hut).mp hu) ht)
  -- The call's commands go from the part in progress to those of the calls that are done.
  have hports : servedPorts s' = servedPorts s ++ portsOf r.ops := by
    rw [hs', servedPorts, servedPorts, List.flatMap_append, List.flatMap_singleton]
  refine ⟨?_, fun u => ?_, fun u _ => ?_, fun _ => ⟨?_, ?_⟩, fun u hu => absurd hu (hfree u),
    fun u _ hu => absurd hu (hfree u), fun x hx => ?_⟩
  · rw [hs']
    exact h.mutex.next (a := .release t) ⟨hout, ht.2⟩ trivial rfl
  · by_cases hu : u = t
    · subst hu
      refine .inl ⟨hself, ?_⟩
      rw [hs']
      simpa [MutexState.goto, Releasing] using hdepth
    · exact hbeside.place hu (h.place u)
  · rw [hs']
    by_cases hu : u = t
    · exact hu ▸ hsilent.1
    · exact h.awake u fun hin => hu (h.unique hin ht)
  · rw [hs']
    exact ⟨hsilent.2.expecting, hsilent.2.done⟩
  · rw [hports, ← hlog, hcode, hs']
    exact (List.append_nil _).symm
  · rw [hs'] at hx
    obtain hx | hx := List.mem_append.mp hx
    · exact h.served x hx
    · obtain rfl := List.mem_singleton.mp hx
      refine ⟨hr.base, hr.entry, fun op hop => ?_⟩
      rw [hops, hcode] at hop
      obtain hop | hop := List.mem_append.mp hop
      · exact hpre op hop
      · exact List.mem_singleton.mp hop ▸ trivial

/-- A step of the task that has the lock, behind the lock. -/
theorem opStep (h : ChannelInv base fuel s) (ht : s.Inside t) (hrun : s.asleep t = false)
    {op : DriverOp} {rest : List DriverOp} (hcode : s.code t = op :: rest)
    (hstep : ChannelState.exec fuel
    { s with code := Function.update s.code t rest } t op = .ok s') : ChannelInv base fuel s' := by
  -- `out` is true between an `expect` and its `wait`.
  obtain ⟨out, hpaired, hphase⟩ := h.phase t ht
  rw [hcode] at hpaired
  -- Only `release` is the last step of a call.
  have hrest : op ≠ .release → rest ≠ [] := fun hne => by
    obtain ⟨heq, -⟩ | ⟨-, hrest⟩ := hpaired.cons
    · exact absurd heq hne
    · exact hrest
  cases op with
  | port op =>
      cases hstep
      exact h.advance ht hcode (hrest (by simp)) trivial rfl rfl rfl (fun _ _ => rfl) rfl rfl
        (by cases out <;> exact hpaired) (hphase.congr rfl rfl rfl)
  | expect =>
      cases hstep
      cases out with
      | true => simp [Paired] at hpaired
      | false =>
          obtain ⟨hsleep, -⟩ | ⟨-, hsilent⟩ := hphase
          · rw [hrun] at hsleep
            cases hsleep
          · exact h.advance ht hcode (hrest (by simp)) trivial rfl rfl rfl (fun _ _ => rfl)
              (List.append_nil _).symm rfl (o := true) hpaired ⟨hrun, .inl ⟨rfl, hsilent.done⟩⟩
  | wait =>
      cases out with
      | false => simp [Paired] at hpaired
      | true =>
          obtain ⟨hexpecting, hdone⟩ | ⟨hexpecting, hdone⟩ := hphase.2
          · -- the interrupt has not come, so the task sleeps
            have hwait : semaWait s.diskDone t = (⟨-1, [t]⟩, true) := by rw [hdone]; rfl
            simp only [ChannelState.exec, hwait] at hstep
            cases hstep
            exact h.advance ht hcode (hrest (by simp)) trivial rfl rfl rfl
              (fun u hu => Function.update_of_ne hu _ _) (List.append_nil _).symm rfl
                (o := false) hpaired
              (.inl ⟨Function.update_self _ _ _, hexpecting, rfl⟩)
          · -- the interrupt was first, so the task goes on
            have hwait : semaWait s.diskDone t = (⟨0, []⟩, false) := by rw [hdone]; rfl
            simp only [ChannelState.exec, hwait] at hstep
            cases hstep
            exact h.advance ht hcode (hrest (by simp)) trivial rfl rfl rfl
              (fun u hu => Function.update_of_ne hu _ _) (List.append_nil _).symm rfl
                (o := false) hpaired
              (.inr ⟨Function.update_self _ _ _, hexpecting, rfl⟩)
  | ready status =>
      obtain ⟨⟨ready, polls⟩, hready, hstep⟩ := bind_eq_ok.mp hstep
      cases ready with
      | false => cases hstep
      | true =>
          cases hstep
          exact h.advance ht hcode (hrest (by simp)) ⟨polls, hready⟩ rfl rfl rfl (fun _ _ => rfl)
            (List.append_nil _).symm rfl (by cases out <;> exact hpaired) (hphase.congr rfl rfl rfl)
  | check lba =>
      obtain ⟨u, hlba, hstep⟩ := bind_eq_ok.mp hstep
      cases hstep
      exact h.advance ht hcode (hrest (by simp)) (show lba ≤ MAX_LBA
        from ASSERT_eq_ok.mp hlba) rfl rfl rfl (fun _ _ => rfl)
        (List.append_nil _).symm rfl (by cases out <;> exact hpaired) (hphase.congr rfl rfl rfl)
  | release =>
      cases hstep
      obtain ⟨-, rfl, rfl⟩ | ⟨hne, -⟩ := hpaired.cons
      · obtain ⟨hsleep, -⟩ | hsilent := hphase
        · rw [hrun] at hsleep
          cases hsleep
        · exact h.release ht hcode hsilent
      · exact absurd rfl hne

/-- A step of a task. -/
theorem step (h : ChannelInv base fuel s) (henabled : s.Enabled base (.step t))
    (hnext : s.step fuel t = .ok s') : ChannelInv base fuel s' := by
  unfold ChannelState.step at hnext
  obtain ⟨hpc, hrun⟩ | ⟨hpc, hne, hrun⟩ := henabled
  · rw [if_pos hpc] at hnext
    obtain ⟨lock, hlock, hs'⟩ := bind_eq_ok.mp hnext
    cases hs'
    exact h.lockStep hpc hrun hlock
  · rw [if_neg (not_not_intro hpc)] at hnext
    have ht := h.inside_of_code hne hpc
    obtain ⟨op, rest, hcode⟩ := List.exists_cons_of_ne_nil hne
    rw [hcode] at hnext
    exact h.opStep ht hrun hcode hnext

/-- The interrupt handler changes the semaphore, and wakes at most the task that has the lock. -/
theorem signal (h : ChannelInv base fuel s) (ht : s.Inside t) (done : Sem) (asleep : Tid → Bool)
    (hasleep : ∀ u, u ≠ t → asleep u = s.asleep u) {out : Bool} (hpaired : Paired out (s.code t))
    (hphase : WaitPhase { s with expectingIntr := false, diskDone := done, asleep } t out) :
    ChannelInv base fuel { s with expectingIntr := false, diskDone := done, asleep } where
  mutex := h.mutex
  place u := (h.place u).congr rfl rfl rfl rfl
  awake u hu := (hasleep u fun hut => hu (hut ▸ ht)).trans (h.awake u hu)
  free hnone := absurd ht (hnone t)
  phase u hu := by
    obtain rfl := h.unique hu ht
    exact ⟨out, hpaired, hphase⟩
  log := h.log
  served := h.served

/-- While no command waits for its interrupt, nobody sleeps. -/
theorem awake_of_silent (h : ChannelInv base fuel s)
    (hexpecting : s.expectingIntr = false) (t : Tid) : s.asleep t = false := by
  by_cases ht : s.Inside t
  · obtain ⟨out, -, hphase⟩ := h.phase t ht
    cases out with
    | true => exact hphase.1
    | false =>
        obtain ⟨-, htrue, -⟩ | ⟨hawake, -⟩ := hphase
        · rw [hexpecting] at htrue
          cases htrue
        · exact hawake
  · exact h.awake t ht

/-- An interrupt does not stop the kernel, and nobody sleeps behind it. -/
theorem intr (h : ChannelInv base fuel s) : ∃ s', s.intrHdHandler = .ok s' ∧
    ChannelInv base fuel s' ∧
    s'.expectingIntr = false ∧ s'.code = s.code ∧ ((∀ t, ¬s.Inside t) → s' = s) := by
  cases hexpecting : s.expectingIntr with
  | false => exact ⟨s, by simp [ChannelState.intrHdHandler, hexpecting], h, hexpecting,
      rfl, fun _ => rfl⟩
  | true =>
      obtain ⟨t, ht⟩ : ∃ t, s.Inside t := by
        by_contra hnone
        have hsilent := (h.free fun t ht => hnone ⟨t, ht⟩).1.expecting
        rw [hexpecting] at hsilent
        cases hsilent
      obtain ⟨out, hpaired, hphase⟩ := h.phase t ht
      cases out with
      | true =>
          obtain ⟨hrun, ⟨-, hdone⟩ | ⟨hfalse, -⟩⟩ := hphase
          · -- the interrupt comes in front of the wait
            refine ⟨{ s with expectingIntr := false, diskDone := ⟨1, []⟩ }, ?_,
              h.signal ht _ _ (fun _ _ => rfl) hpaired ⟨hrun, .inr ⟨rfl, rfl⟩⟩, rfl, rfl,
              fun hnone => absurd ht (hnone t)⟩
            have hpost : semaPostInc s.diskDone = (⟨1, []⟩, false) := by rw [hdone]; rfl
            simp [ChannelState.intrHdHandler, hexpecting, hpost]
          · rw [hexpecting] at hfalse
            cases hfalse
      | false =>
          obtain ⟨-, -, hdone⟩ | ⟨-, hsilent⟩ := hphase
          · refine ⟨{ s with
              expectingIntr := false, diskDone := ⟨0, []⟩, asleep :=
                Function.update s.asleep t false }, ?_,
              h.signal ht _ _ (fun u hu => Function.update_of_ne hu _ _) hpaired
                (.inr ⟨Function.update_self _ _ _, rfl, rfl⟩), rfl, rfl, fun hnone =>
                  absurd ht (hnone t)⟩
            have hpost : semaPostInc s.diskDone = (⟨0, [t]⟩, true) := by rw [hdone]; rfl
            simp [ChannelState.intrHdHandler, hexpecting, hpost, semaPostPop]
          · have hfalse := hsilent.expecting
            rw [hexpecting] at hfalse
            cases hfalse

end ChannelInv

end

/-- The channel keeps its invariant in every interleaving. -/
theorem channelSystem_inductive (base fuel : Nat) :
    (channelSystem base fuel).Inductive (ChannelInv base fuel) where
  init h := h ▸ ChannelInv.start
  step {s s' a} h henabled hnext := by
    cases a with
    | call t r => exact h.enter henabled hnext
    | step t => exact h.step henabled hnext
    | intr =>
        obtain ⟨s'', hs'', hinv, -⟩ := h.intr
        obtain rfl : s'' = s' := Except.ok.inj (hs''.symm.trans hnext)
        exact hinv

/-! ### The calls at the ports -/

/-- The call without other tasks. -/
def seqPorts (fuel : Nat) (r : IdeRequest) : Except Halt (List PortOp) :=
  if r.write then ideWritePorts r.call fuel else ideReadPorts r.call fuel

section
variable {base fuel : Nat} {r : IdeRequest} {c secsDone : Nat}

/-- The port accesses in front of the wait: the drive, the sector and the count, and the command. -/
theorem portsOf_commandOps (n : Nat) : portsOf (r.commandOps secsDone n)
    = IdeRequest.selectStores r.call.hd ((r.call.lba + secsDone) % 2 ^ 32) (n % 2 ^ 8)
      ++ [cmdOut r.call.hd r.command] := by
  rw [IdeRequest.commandOps, List.cons_append, portsOf, List.filterMap_cons, ← portsOf,
    portsOf_append, portsOf_map_port]
  rfl

/-- The one behind it moves the data of the chunk. -/
theorem portsOf_dataOps (n : Nat) : portsOf (r.dataOps c secsDone n)
    = [r.data r.call.hd ((r.call.buf + secsDone * 512) % 2 ^ 32) (n % 2 ^ 8)] := by
  unfold IdeRequest.dataOps IdeRequest.data
  split <;> rfl

/-- A round of the loop at the ports. -/
theorem portsOf_round (n : Nat) (ops : List DriverOp) :
    portsOf (r.commandOps secsDone n ++ r.dataOps c secsDone n ++ ops)
      = IdeRequest.selectStores r.call.hd ((r.call.lba + secsDone) % 2 ^ 32) (n % 2 ^ 8) ++
        cmdOut r.call.hd r.command ::
          r.data r.call.hd ((r.call.buf + secsDone * 512) % 2 ^ 32) (n % 2 ^ 8) :: portsOf ops := by
  rw [portsOf_append, portsOf_append, portsOf_commandOps, portsOf_dataOps]
  simp

/-- The loop is the loop of the sequential call, when no step stops the kernel. -/
theorem transferLoop_portsOf (hpass : ∀ op ∈ r.loopOps c secsDone, Passes fuel op) {rounds : Nat}
    (hrounds : r.call.secCnt - secsDone < rounds) :
    transferLoop r.call r.command r.data fuel rounds c secsDone
      = .ok (portsOf (r.loopOps c secsDone)) := by
  induction rounds generalizing c secsDone with
  | zero => exact absurd hrounds (Nat.not_lt_zero _)
  | succ rounds ih =>
      rw [transferLoop]
      by_cases hlt : secsDone < r.call.secCnt
      · rw [IdeRequest.loopOps, if_pos hlt] at hpass
        rw [if_pos hlt, IdeRequest.loopOps, if_pos hlt, portsOf_round]
        have hpos := IdeRequest.secsOp_pos hlt
        generalize secsOp secsDone r.call.secCnt = n at hpass hpos ⊢
        have hrest := ih (fun op hop => hpass op (List.mem_append_right _ hop)) (by omega)
        have hlba : (r.call.lba + secsDone) % 2 ^ 32 ≤ MAX_LBA :=
          hpass (.check _) (by simp [IdeRequest.commandOps])
        obtain ⟨polls, hready⟩ : ∃ polls, busyWait (r.call.status c) fuel = .ok (true, polls) :=
          hpass (.ready _) (by unfold IdeRequest.dataOps; split <;> simp)
        simp only [selectSector, ASSERT_true hlba, ok_bind, pure_eq_ok, hready, if_true, hrest]
        rfl
      · rw [if_neg hlt, IdeRequest.loopOps, if_neg hlt]
        rfl

/-- The call at the ports. -/
theorem portsOf_ops (r : IdeRequest) :
    portsOf r.ops = selectDisk r.call.hd ++ portsOf (r.loopOps 0 0) := by
  rw [IdeRequest.ops, portsOf_append, portsOf_map_port, portsOf_append]
  simp [portsOf]

/-- A call that is finished has done what it does without other tasks. -/
theorem Completed.seqPorts_eq (h : Completed base fuel r) : seqPorts fuel r = .ok
    (portsOf r.ops) := by
  have hloop : transferLoop r.call r.command r.data fuel (r.call.secCnt + 1) 0 0
      = .ok (portsOf (r.loopOps 0 0)) :=
    transferLoop_portsOf (fun op hop =>
      h.ops op (List.mem_append_right _ (List.mem_append_left _ hop))) (Nat.lt_succ_self _)
  have hentry := h.entry
  unfold IdeRequest.entry at hentry
  unfold seqPorts IdeRequest.command IdeRequest.data at *
  rw [portsOf_ops]
  cases hwrite : r.write with
  | true =>
      simp only [hwrite, if_true] at hentry hloop ⊢
      obtain ⟨_, hlba, hcnt⟩ := bind_eq_ok.mp hentry
      rw [ideWritePorts, hlba, ok_bind, hcnt, ok_bind, hloop]
      rfl
  | false =>
      simp only [hwrite, Bool.false_eq_true, if_false] at hentry hloop ⊢
      split at hentry
      · cases hentry
      · rename_i hlba
        rw [ideReadPorts, if_neg hlba, hentry, ok_bind, hloop]
        rfl

/-! ### The calls at the drive -/

/-- A command is one byte. -/
theorem IdeRequest.command_lt (r : IdeRequest) : r.command < 256 := by
  unfold IdeRequest.command
  split <;> decide

/-- Both kinds of requests move the data of their chunk. -/
theorem IdeRequest.movesData (r : IdeRequest) : MovesData r.data := by
  unfold IdeRequest.data
  split
  · exact .inr rfl
  · exact .inl rfl

/-- A call begins on the disk. -/
theorem IdeRequest.entry_lba (h : r.entry = .ok ()) : r.call.lba ≤ MAX_LBA := by
  unfold IdeRequest.entry at h
  split at h
  · obtain ⟨u, hlba, -⟩ := bind_eq_ok.mp h
    exact ASSERT_eq_ok.mp hlba
  · split at h
    · cases h
    · omega

/-- The place of the loop. The last round began on the disk, and moved 256 sectors or fewer. -/
structure LoopPlace (r : IdeRequest) (secsDone : Nat) : Prop where
  done : secsDone ≤ r.call.secCnt
  near : r.call.lba + secsDone ≤ MAX_LBA + 256

/-- The loop starts with no sector done, behind the checks of the call. -/
theorem LoopPlace.start (h : r.entry = .ok ()) : LoopPlace r 0 :=
  ⟨Nat.zero_le _, (IdeRequest.entry_lba h).trans (Nat.le_add_right _ _)⟩

/-- The round of a call whose number passes the assertion of `select_sector`. -/
structure RoundOk (r : IdeRequest) (secsDone n : Nat) : Prop where
  lba : r.call.lba + secsDone ≤ MAX_LBA
  pos : 1 ≤ n
  le : n ≤ 256
  fits : secsDone + n ≤ r.call.secCnt

/-- A round takes up to 256 of the sectors that are left. -/
theorem LoopPlace.round (h : LoopPlace r secsDone) (hlt : secsDone < r.call.secCnt)
    (hcheck : (r.call.lba + secsDone) % 2 ^ 32 ≤ MAX_LBA) :
    RoundOk r secsDone (secsOp secsDone r.call.secCnt) := by
  have hbound : MAX_LBA = 163839 := rfl
  have hnear := h.near
  rw [Nat.mod_eq_of_lt (by omega)] at hcheck
  rw [secsOp_eq hlt (by omega)]
  exact ⟨hcheck, by omega, by omega, by omega⟩

/-- Behind a round the sectors that are done and those that are left make up the call. -/
theorem RoundOk.next {n : Nat} (h : RoundOk r secsDone n) : LoopPlace r (secsDone + n) := by
  have hlba := h.lba
  have hle := h.le
  exact ⟨h.fits, by omega⟩

/-- A round is one command, whatever comes behind it. -/
theorem RoundOk.commands {n : Nat} (h : RoundOk r secsDone n) (regs : DriveRegs)
    (rest : List PortOp) : ∃ regs', commandsFrom r.call.hd.portBase regs none
        (portsOf (r.commandOps secsDone n ++ r.dataOps c secsDone n) ++ rest)
      = chunkCommand r.call.hd r.command (r.call.lba + secsDone) n
          ((r.call.buf + secsDone * 512) % 2 ^ 32)
        :: commandsFrom r.call.hd.portBase regs' none rest := by
  have hbound : MAX_LBA = 163839 := rfl
  have hlba := h.lba
  have hmod : (r.call.lba + secsDone) % 2 ^ 32 = r.call.lba + secsDone :=
    Nat.mod_eq_of_lt (by omega)
  have hselect : selectSector r.call.hd (r.call.lba + secsDone) (n % 2 ^ 8)
      = .ok (IdeRequest.selectStores r.call.hd (r.call.lba + secsDone) (n % 2 ^ 8)) := by
    rw [selectSector, ASSERT_true hlba]
    rfl
  rw [portsOf_append, portsOf_commandOps, portsOf_dataOps, hmod]
  simp only [List.append_assoc, List.cons_append, List.nil_append]
  exact commandsFrom_chunk r.call.hd regs _ (IdeRequest.movesData r)
    (IdeRequest.command_lt r) h.pos h.le hselect

/-- The number of a round is the first thing that it tests. -/
theorem check_mem (n : Nat) : DriverOp.check ((r.call.lba + secsDone) % 2 ^ 32) ∈
    r.commandOps secsDone n ++ r.dataOps c secsDone n :=
  List.mem_append_left _ List.mem_cons_self

/-- The rounds of a call with sectors left begin with one round. -/
theorem IdeRequest.loopOps_of_lt (hlt : secsDone < r.call.secCnt) :
    r.loopOps c secsDone
      = (r.commandOps secsDone (secsOp secsDone r.call.secCnt)
          ++ r.dataOps c secsDone (secsOp secsDone r.call.secCnt))
        ++ r.loopOps (c + 1) (secsDone + secsOp secsDone r.call.secCnt) := by
  rw [IdeRequest.loopOps, if_pos hlt]

/-- With all sectors done, the loop is over. -/
theorem IdeRequest.loopOps_of_not_lt (hlt : ¬secsDone < r.call.secCnt) :
    r.loopOps c secsDone = [] := by
  rw [IdeRequest.loopOps, if_neg hlt]

/-- The rounds of a call are commands for its sectors, whatever comes behind them. -/
theorem commandsFrom_loop (hplace : LoopPlace r secsDone)
    (hpass : ∀ op ∈ r.loopOps c secsDone, Passes fuel op) (regs : DriveRegs) (rest : List PortOp) :
    ∃ cs regs', commandsFrom r.call.hd.portBase regs none (portsOf (r.loopOps c secsDone) ++ rest)
        = cs ++ commandsFrom r.call.hd.portBase regs' none rest ∧
      SplitsExactly (driveNumber r.call.hd) r.command r.call.lba r.call.buf secsDone
        (r.call.secCnt - secsDone) cs := by
  -- By induction on the rounds: a chunk, and the chunks of the sectors that are left.
  induction c, secsDone using IdeRequest.loopOps.induct r generalizing regs with
  | case1 c secsDone hlt n ih =>
      rw [IdeRequest.loopOps_of_lt hlt] at hpass ⊢
      have hround : RoundOk r secsDone n :=
        hplace.round hlt (hpass _ (List.mem_append_left _ (check_mem _)))
      obtain ⟨regs₁, hchunk⟩ := hround.commands (c := c) regs
        (portsOf (r.loopOps (c + 1) (secsDone + n)) ++ rest)
      obtain ⟨cs, regs₂, hcs, hsplits⟩ := ih hround.next
        (fun op hop => hpass op (List.mem_append_right _ hop)) regs₁
      have hcount : r.call.secCnt - secsDone = n + (r.call.secCnt - (secsDone + n)) := by
        have hfits : secsDone + n ≤ r.call.secCnt := hround.fits
        omega
      refine ⟨chunkCommand r.call.hd r.command (r.call.lba + secsDone) n
        ((r.call.buf + secsDone * 512) % 2 ^ 32) :: cs, regs₂, ?_, ?_⟩
      · rw [portsOf_append, List.append_assoc]
        exact hchunk.trans (congrArg _ hcs)
      · rw [hcount]
        exact .cons r.call.hd hround.pos hround.le hsplits
  | case2 c secsDone hlt =>
      rw [IdeRequest.loopOps_of_not_lt hlt]
      refine ⟨[], regs, rfl, ?_⟩
      rw [Nat.sub_eq_zero_of_le (Nat.le_of_not_lt hlt)]
      exact .nil _ _ _ _ _

/-- A call is commands for its sectors, whatever comes behind it. -/
theorem commandsFrom_ops (h : Completed base fuel r) (regs : DriveRegs) (rest : List PortOp) :
    ∃ cs regs', commandsFrom r.call.hd.portBase regs none (portsOf r.ops ++ rest)
        = cs ++ commandsFrom r.call.hd.portBase regs' none rest ∧
      SplitsExactly (driveNumber r.call.hd) r.command r.call.lba r.call.buf 0 r.call.secCnt cs := by
  rw [portsOf_ops, List.append_assoc]
  obtain ⟨regs₁, hselect⟩ := commandsOf_selectDisk r.call.hd regs (portsOf (r.loopOps 0 0) ++ rest)
  unfold commandsOf at hselect
  rw [hselect]
  exact commandsFrom_loop (.start h.entry)
    (fun op hop => h.ops op (List.mem_append_right _ (List.mem_append_left _ hop))) regs₁ rest

/-- Calls one after the other. -/
theorem commandsFrom_calls {calls : List IdeRequest} (hcalls : ∀ r ∈ calls, Completed base fuel r)
    (regs : DriveRegs) (rest : List PortOp) : ∃ css regs',
      commandsFrom base regs none (calls.flatMap (fun r => portsOf r.ops) ++ rest)
        = css.flatten ++ commandsFrom base regs' none rest ∧
      List.Forall₂ (fun r cs =>
        SplitsExactly (driveNumber r.call.hd) r.command r.call.lba r.call.buf 0
        r.call.secCnt cs) calls css := by
  induction calls generalizing regs with
  | nil => exact ⟨[], regs, rfl, .nil⟩
  | cons r calls ih =>
      obtain ⟨hr, hcalls⟩ := List.forall_mem_cons.mp hcalls
      obtain ⟨cs, regs₁, hcs, hsplits⟩ := commandsFrom_ops hr regs
        (calls.flatMap (fun r => portsOf r.ops) ++ rest)
      rw [hr.base] at hcs
      obtain ⟨css, regs₂, hcss, hall⟩ := ih hcalls regs₁
      refine ⟨cs :: css, regs₂, ?_, .cons hsplits hall⟩
      rw [List.flatMap_cons, List.append_assoc, hcs, hcss, List.flatten_cons, List.append_assoc]

/-! ### The call in progress -/

/-- A list in front of two lists ends in the first, or goes on into the second. -/
theorem prefix_append_cases {α : Type*} {pre front back : List α} (h : pre <+: front ++ back) :
    pre <+: front ∨ ∃ pre', pre = front ++ pre' ∧ pre' <+: back := by
  obtain ⟨tail, htail⟩ := h
  obtain ⟨pre', rfl, hback⟩ | ⟨front', rfl, -⟩ := List.append_eq_append_iff.mp htail
  · exact .inl ⟨pre', rfl⟩
  · exact .inr ⟨front', rfl, tail, by simp_all⟩

/-- The drive decodes a command when its data moves. -/
theorem commandsFrom_outb {ops : List PortOp} (h : ∀ op ∈ ops, ∃ port data, op = .outb port data)
    (regs : DriveRegs) (cmd : Option Nat) : commandsFrom base regs cmd ops = [] := by
  induction ops generalizing regs cmd with
  | nil => rfl
  | cons op ops ih =>
      obtain ⟨⟨port, data, rfl⟩, hrest⟩ := List.forall_mem_cons.mp h
      rw [commandsFrom]
      split <;> exact ih hrest _ _

/-- A part of a round is its command as soon as the data moves, and nothing before. -/
theorem commandsFrom_partRound {pre : List DriverOp} (hplace : LoopPlace r secsDone)
    (hlt : secsDone < r.call.secCnt)
    (hpre : pre <+: r.commandOps secsDone (secsOp secsDone r.call.secCnt)
      ++ r.dataOps c secsDone (secsOp secsDone r.call.secCnt))
    (hpass : ∀ op ∈ pre, Passes fuel op) (regs : DriveRegs) : ∃ m ≤ r.call.secCnt - secsDone,
      SplitsExactly (driveNumber r.call.hd) r.command r.call.lba r.call.buf secsDone m
        (commandsFrom r.call.hd.portBase regs none (portsOf pre)) := by
  have hports : portsOf pre <+: _ := hpre.filterMap _
  have hround : portsOf (r.commandOps secsDone (secsOp secsDone r.call.secCnt)
      ++ r.dataOps c secsDone (secsOp secsDone r.call.secCnt)) = _ := portsOf_append _ _
  rw [portsOf_dataOps] at hround
  rw [← portsOf, hround, List.prefix_concat_iff] at hports
  rcases hports with hall | hfront
  · -- the data has moved: the round began with its test
    have hcheck : (r.call.lba + secsDone) % 2 ^ 32 ≤ MAX_LBA := by
      cases pre with
      | nil => simp [portsOf] at hall
      | cons op pre =>
          obtain ⟨tail, htail⟩ := hpre
          obtain rfl : op = .check ((r.call.lba + secsDone) % 2 ^ 32) := (List.cons.inj htail).1
          exact hpass _ List.mem_cons_self
    have hok := hplace.round hlt hcheck
    obtain ⟨regs', hcommands⟩ := hok.commands (c := c) regs []
    rw [List.append_nil, hround, ← hall] at hcommands
    have hfits : secsDone + secsOp secsDone r.call.secCnt ≤ r.call.secCnt := hok.fits
    refine ⟨secsOp secsDone r.call.secCnt + 0, by omega, ?_⟩
    rw [hcommands]
    exact .cons r.call.hd hok.pos hok.le (.nil _ _ _ _ _)
  · refine ⟨0, Nat.zero_le _, ?_⟩
    rw [commandsFrom_outb]
    · exact .nil _ _ _ _ _
    · intro op hop
      have hmem := hfront.subset hop
      rw [portsOf_commandOps] at hmem
      simp only [IdeRequest.selectStores, outb, cmdOut, List.mem_append, List.mem_cons,
        List.not_mem_nil, or_false] at hmem
      obtain (rfl | rfl | rfl | rfl | rfl) | rfl := hmem <;> exact ⟨_, _, rfl⟩

/-- A part of the rounds is commands for the first sectors. -/
theorem commandsFrom_partLoop (pre : List DriverOp) (hplace : LoopPlace r secsDone)
    (hpre : pre <+: r.loopOps c secsDone ++ [.release]) (hpass : ∀ op ∈ pre, Passes fuel op)
    (regs : DriveRegs) : ∃ m ≤ r.call.secCnt - secsDone,
      SplitsExactly (driveNumber r.call.hd) r.command r.call.lba r.call.buf secsDone m
        (commandsFrom r.call.hd.portBase regs none (portsOf pre)) := by
  induction c, secsDone using IdeRequest.loopOps.induct r generalizing pre regs with
  | case1 c secsDone hlt n ih =>
      rw [IdeRequest.loopOps_of_lt hlt, List.append_assoc] at hpre
      rcases prefix_append_cases hpre with hpart | ⟨pre', rfl, hpre'⟩
      · exact commandsFrom_partRound hplace hlt hpart hpass regs
      · have hround : RoundOk r secsDone n :=
          hplace.round hlt (hpass _ (List.mem_append_left _ (check_mem _)))
        obtain ⟨regs₁, hchunk⟩ := hround.commands (c := c) regs (portsOf pre')
        obtain ⟨m, hm, hsplits⟩ := ih _ hround.next hpre'
          (fun op hop => hpass op (List.mem_append_right _ hop)) regs₁
        have hfits : secsDone + n ≤ r.call.secCnt := hround.fits
        refine ⟨n + m, by omega, ?_⟩
        rw [portsOf_append, hchunk]
        exact .cons r.call.hd hround.pos hround.le hsplits
  | case2 c secsDone hlt =>
      rw [IdeRequest.loopOps_of_not_lt hlt, List.nil_append] at hpre
      have hnone : portsOf pre = [] := List.prefix_nil.mp (hpre.filterMap _)
      refine ⟨0, Nat.zero_le _, ?_⟩
      rw [hnone]
      exact .nil _ _ _ _ _

/-- A part of a call is commands for its first sectors. -/
theorem commandsFrom_part {pre : List DriverOp} (hentry : r.entry = .ok ()) (hpre : pre <+: r.ops)
    (hpass : ∀ op ∈ pre, Passes fuel op) (regs : DriveRegs) : ∃ m ≤ r.call.secCnt,
      SplitsExactly (driveNumber r.call.hd) r.command r.call.lba r.call.buf 0 m
        (commandsFrom r.call.hd.portBase regs none (portsOf pre)) := by
  rw [IdeRequest.ops] at hpre
  rcases prefix_append_cases hpre with hselect | ⟨pre', rfl, hpre'⟩
  · refine ⟨0, Nat.zero_le _, ?_⟩
    rw [commandsFrom_outb]
    · exact .nil _ _ _ _ _
    · intro op hop
      have hmem := (hselect.filterMap _).subset hop
      rw [← portsOf, portsOf_map_port] at hmem
      exact ⟨_, _, List.mem_singleton.mp hmem⟩
  · obtain ⟨regs₁, hcommands⟩ := commandsOf_selectDisk r.call.hd regs (portsOf pre')
    unfold commandsOf at hcommands
    rw [portsOf_append, portsOf_map_port, hcommands]
    exact commandsFrom_partLoop _ (.start hentry) hpre'
      (fun op hop => hpass op (List.mem_append_right _ hop)) regs₁

/-- The ports have seen the calls that are finished, and a part of the call in progress. -/
theorem ChannelInv.log_eq {s : ChannelState} (h : ChannelInv base fuel s) : ∃ pre,
    s.log = servedPorts s ++ portsOf pre ∧ ((∀ t, ¬s.Inside t) → pre = []) ∧
      ∀ t r, s.Inside t → s.request t = some r → InCall base fuel s t r ∧ pre <+: r.ops ∧
        ∀ op ∈ pre, Passes fuel op := by
  by_cases hnone : ∀ t, ¬s.Inside t
  · exact ⟨[], (h.free hnone).2.trans (List.append_nil _).symm, fun _ => rfl,
      fun t r ht => absurd ht (hnone t)⟩
  · obtain ⟨t, ht⟩ := not_forall_not.mp hnone
    obtain ⟨r, hr, -⟩ := h.inCall ht
    obtain ⟨pre, hops, hpass, -⟩ := hr.done
    have hlog := h.log t r ht hr.request
    rw [hops, portsOf_append, ← List.append_assoc] at hlog
    refine ⟨pre, List.append_cancel_right hlog, fun hfree => absurd hfree hnone,
      fun u r' hu hr' => ?_⟩
    obtain rfl := h.unique hu ht
    obtain rfl : r = r' := Option.some.inj (hr.request.symm.trans hr')
    exact ⟨hr, ⟨s.code u, hops.symm⟩, hpass⟩

end

/-! ### Interrupts -/

/-- The waits that are left of a call. -/
def waitsLeft (ops : List DriverOp) : Nat :=
  ops.countP fun
    | .wait => true
    | _ => false

/-- The command of `t` has had no interrupt. `t` sleeps, or has its wait in front of it, the first
of `n`. -/
structure Awaits (s : ChannelState) (t : Tid) (n : Nat) : Prop where
  inside : s.Inside t
  expecting : s.expectingIntr = true
  here : s.asleep t = true ∨ (Paired true (s.code t) ∧ waitsLeft (s.code t) = n)

section
variable {base fuel : Nat} {s s' : ChannelState} {t u : Tid} {n : Nat}

/-- No task that has the lock starts with the command. -/
theorem ChannelInv.inside_of_expect (h : ChannelInv base fuel s) {rest : List DriverOp}
    (hcode : s.code t = .expect :: rest) : s.Inside t := by
  refine ⟨by simp [hcode], ?_⟩
  obtain ⟨hnil, -⟩ | ⟨-, r, hr⟩ := h.place t
  · simp [hcode] at hnil
  · by_contra hzero
    obtain ⟨pre, hops, -, hpre⟩ := hr.done
    rw [hpre (by omega), hcode] at hops
    simp [IdeRequest.ops, selectDisk] at hops

/-- A step of the task that awaits the interrupt. At its wait it goes to sleep. -/
theorem Awaits.op (h : Awaits s t n) (hinv : ChannelInv base fuel s) (hrun : s.asleep t = false)
    {op : DriverOp} {rest : List DriverOp} (hcode : s.code t = op :: rest)
    (hstep : ChannelState.exec fuel
    { s with code := Function.update s.code t rest } t op = .ok s') : Awaits s' t n := by
  obtain ⟨ht, hexpecting, hhere⟩ := h
  obtain ⟨hpaired, hwaits⟩ := hhere.resolve_left (by simp [hrun])
  rw [hcode] at hpaired hwaits
  have hrest : rest ≠ [] := by
    obtain ⟨-, -, hfalse⟩ | ⟨-, hrest⟩ := hpaired.cons
    · cases hfalse
    · exact hrest
  have hself : Function.update s.code t rest t = rest := Function.update_self _ _ _
  -- the steps in front of the wait
  have hfront (hskip : waitsLeft (op :: rest) = waitsLeft rest) (hpaired : Paired true rest)
      {s' : ChannelState}
      (hcode' : s'.code = Function.update s.code t rest) (hlock : s'.lock = s.lock)
      (hexpecting' : s'.expectingIntr = true) : Awaits s' t n := by
    refine ⟨⟨?_, hlock.symm ▸ ht.2⟩, hexpecting', .inr ?_⟩
    · rwa [hcode', hself]
    · rw [hcode', hself]
      exact ⟨hpaired, hskip.symm.trans hwaits⟩
  cases op with
  | port op =>
      cases hstep
      exact hfront (by simp [waitsLeft]) hpaired rfl rfl hexpecting
  | ready status =>
      obtain ⟨⟨ready, polls⟩, hready, hstep⟩ := bind_eq_ok.mp hstep
      cases ready with
      | false => cases hstep
      | true =>
          cases hstep
          exact hfront (by simp [waitsLeft]) hpaired rfl rfl hexpecting
  | check lba =>
      obtain ⟨_, -, hstep⟩ := bind_eq_ok.mp hstep
      cases hstep
      exact hfront (by simp [waitsLeft]) hpaired rfl rfl hexpecting
  | wait =>
      obtain ⟨out, hout, hphase⟩ := hinv.phase t ht
      rw [hcode] at hout
      cases out with
      | false => simp [Paired] at hout
      | true =>
          obtain ⟨-, hdone⟩ := hphase.2.resolve_right (by simp [hexpecting])
          have hwait : semaWait s.diskDone t = (⟨-1, [t]⟩, true) := by rw [hdone]; rfl
          simp only [ChannelState.exec, hwait] at hstep
          cases hstep
          exact ⟨⟨by simpa [hself] using hrest, ht.2⟩, hexpecting,
            .inl (Function.update_self _ _ _)⟩
  | expect | release => simp [Paired] at hpaired

/-- Without an interrupt the wait does not end. -/
theorem Awaits.step (h : Awaits s t n) (hinv : ChannelInv base fuel s) {a : ChannelAct}
    (henabled : s.Enabled base a) (hnext : s.next fuel a = .ok s')
    (ha : a ≠ .intr) : Awaits s' t n := by
  obtain ⟨ht, hexpecting, hhere⟩ := h
  obtain ⟨r, hr, hpc, hdepth⟩ := hinv.inCall ht
  cases a with
  | intr => exact absurd rfl ha
  | call u r =>
      obtain ⟨hcode, hpcu, -⟩ := henabled
      obtain ⟨_, -, hs'⟩ := bind_eq_ok.mp hnext
      obtain rfl := Except.ok.inj hs'
      have hut : t ≠ u := by
        rintro rfl
        exact ht.1 hcode
      have hcode' : Function.update s.code u r.ops t = s.code t := Function.update_of_ne hut _ _
      refine ⟨⟨by simpa only [hcode'] using ht.1, ht.2⟩, hexpecting,
        hhere.imp_right fun hhere => ?_⟩
      simpa only [hcode'] using hhere
  | step u =>
      rw [ChannelState.next, ChannelState.step] at hnext
      obtain ⟨hpcu, -⟩ | ⟨hpcu, hneu, hrun⟩ := henabled
      · -- a task in its lock, which is not `t`, since `t` is behind it
        rw [if_pos hpcu] at hnext
        obtain ⟨lock, hlock, hs'⟩ := bind_eq_ok.mp hnext
        obtain rfl := Except.ok.inj hs'
        have hut : t ≠ u := by
          rintro rfl
          exact hpcu hpc
        have hdepth' : lock.depth t = s.lock.depth t := by
          rw [(mutex_step_place hlock).2]
          exact Function.update_of_ne hut _ _
        exact ⟨⟨ht.1, hdepth'.symm ▸ ht.2⟩, hexpecting, hhere⟩
      · -- a command of the task behind the lock, which is `t`
        rw [if_neg (not_not_intro hpcu)] at hnext
        obtain rfl : u = t := hinv.unique (hinv.inside_of_code hneu hpcu) ht
        obtain ⟨op, rest, hcode⟩ := List.exists_cons_of_ne_nil hneu
        rw [hcode] at hnext
        exact Awaits.op ⟨ht, hexpecting, hhere⟩ hinv hrun hcode hnext

/-- A run without interrupts. -/
theorem Awaits.run {acts : List ChannelAct} (h : Awaits s t n) (hinv : ChannelInv base fuel s)
    (hruns : (channelSystem base fuel).Runs s acts) (hintr : ChannelAct.intr ∉ acts) :
    Awaits (acts.foldl (channelSystem base fuel).after s) t n := by
  induction acts generalizing s with
  | nil => exact h
  | cons a acts ih =>
      obtain ⟨⟨henabled, hok⟩, hruns⟩ := hruns
      simp only [List.mem_cons, not_or] at hintr
      have hnext := eq_ok_getD (d := s) hok
      exact ih (h.step hinv henabled hnext (Ne.symm hintr.1))
        ((channelSystem_inductive base fuel).step hinv henabled hnext) hruns hintr.2

end

/-! Two tasks that read from the disk. -/

/-- One sector of the second disk. -/
def readSector (lba buf : Nat) : IdeRequest where
  write := false
  call := ⟨⟨0x1f0, 1⟩, lba, buf, 1, fun _ _ => 0x48⟩

/-- The task 1 goes up to the command, and the task 2 waits for the lock. -/
def readRun : List ChannelAct :=
  .call 1 (readSector 8 0x100000) :: List.replicate 8 (.step 1) ++
    .call 2 (readSector 9 0x200000) :: List.replicate 2 (.step 2) ++ List.replicate 3 (.step 1)

/-- The interrupt comes, and the task 1 gives the lock back. -/
def readEnd : List ChannelAct :=
  List.replicate 3 (.step 1) ++ .intr :: List.replicate 7 (.step 1)

/-- The channel, when the task 1 is in front of its command. -/
def readState : ChannelState := readRun.foldl (channelSystem 0x1f0 1).after ChannelState.start

/-- The channel when the task 1 has given the lock back. -/
def endState : ChannelState := readEnd.foldl (channelSystem 0x1f0 1).after readState

/-- It is a state of a run. -/
theorem readState_reachable : (channelSystem 0x1f0 1).Reachable readState :=
  .runs (.init rfl) (by decide +kernel)

/-- So is the state at the end of the call. -/
theorem endState_reachable : (channelSystem 0x1f0 1).Reachable endState :=
  readState_reachable.runs (by decide +kernel)

/-- A check that can be computed, for the next step of a task. -/
theorem code_of_isExpect {ops : List DriverOp}
    (h : (ops.head?.elim false fun | .expect => true | _ => false) = true) :
    ops = .expect :: ops.tail := by
  cases ops with
  | nil => cases h
  | cons op ops => cases op <;> first | rfl | cases h

/-! ### Results -/

/-- The ports of a channel see the calls of all tasks one after the other, each with the operations
that it has without other tasks. What comes behind them is a part of the one call in progress. -/
theorem channel_serial (base fuel : Nat) {s : ChannelState}
    (hs : (channelSystem base fuel).Reachable s) : ∃ opss part, s.log = opss.flatten ++ part ∧
      List.Forall₂ (fun r ops => seqPorts fuel r = .ok ops) s.served opss ∧
      ((∀ t, ¬s.Inside t) → part = []) ∧
      ∀ t r, s.Inside t → s.request t = some r → part <+: portsOf r.ops := by
  have h := (channelSystem_inductive base fuel).reachable hs
  obtain ⟨pre, hlog, hfree, hinside⟩ := h.log_eq
  refine ⟨s.served.map fun r => portsOf r.ops, portsOf pre, ?_, ?_, fun hnone => ?_,
    fun t r ht hr => (hinside t r ht hr).2.1.filterMap _⟩
  · rw [hlog, servedPorts, List.flatMap_def]
  · exact List.forall₂_map_right_iff.mpr
      (List.forall₂_same.mpr fun r hr => (h.served r hr).seqPorts_eq)
  · rw [hfree hnone]
    rfl

/-- The task 1 is done, and the task 2 has the next turn. -/
theorem channel_serial_two : endState.served.length = 1 ∧
    ∃ opss part, endState.log = opss.flatten ++ part ∧
    List.Forall₂ (fun r ops => seqPorts 1 r = .ok ops) endState.served opss ∧
    ((∀ t, ¬endState.Inside t) → part = []) ∧
    ∀ t r, endState.Inside t → endState.request t = some r → part <+: portsOf r.ops :=
  ⟨by decide +kernel, channel_serial 0x1f0 1 endState_reachable⟩

/-- The commands that the drives decode are the commands of the calls, in the order in which they
held the lock: no task changes the registers of another one. Each call moves its own sectors, each
once and in order, to or from its own memory. The commands behind them are those of the call in
progress, for its first sectors. -/
theorem channel_transfers (base fuel : Nat) {s : ChannelState}
    (hs : (channelSystem base fuel).Reachable s) (regs : DriveRegs) :
    ∃ css part, commandsOf base regs s.log = css.flatten ++ part ∧
      List.Forall₂ (fun r cs =>
        SplitsExactly (driveNumber r.call.hd) r.command r.call.lba r.call.buf 0
        r.call.secCnt cs) s.served css ∧
      ((∀ t, ¬s.Inside t) → part = []) ∧
      ∀ t r, s.Inside t → s.request t = some r → ∃ m ≤ r.call.secCnt,
        SplitsExactly (driveNumber r.call.hd) r.command r.call.lba r.call.buf 0 m part := by
  have h := (channelSystem_inductive base fuel).reachable hs
  obtain ⟨pre, hlog, hfree, hinside⟩ := h.log_eq
  obtain ⟨css, regs', hcss, hall⟩ := commandsFrom_calls h.served regs (portsOf pre)
  refine ⟨css, commandsFrom base regs' none (portsOf pre), ?_, hall, fun hnone => ?_,
    fun t r ht hr => ?_⟩
  · rw [commandsOf, hlog, servedPorts, hcss]
  · rw [hfree hnone]
    rfl
  · obtain ⟨hcall, hpre, hpass⟩ := hinside t r ht hr
    obtain ⟨m, hm, hsplits⟩ := commandsFrom_part hcall.entry hpre hpass regs'
    rw [hcall.base] at hsplits
    exact ⟨m, hm, hsplits⟩

/-- The task 1 is done, and the task 2 has the next turn. -/
theorem channel_transfers_two : endState.served.length = 1 ∧ ∃ css part,
    commandsOf 0x1f0 ⟨0, 0, 0, 0, 0⟩ endState.log = css.flatten ++ part ∧
    List.Forall₂ (fun r cs =>
      SplitsExactly (driveNumber r.call.hd) r.command r.call.lba r.call.buf 0
      r.call.secCnt cs) endState.served css ∧
    ((∀ t, ¬endState.Inside t) → part = []) ∧
    ∀ t r, endState.Inside t → endState.request t = some r → ∃ m ≤ r.call.secCnt,
      SplitsExactly (driveNumber r.call.hd) r.command r.call.lba r.call.buf 0 m part :=
  ⟨by decide +kernel, channel_transfers 0x1f0 1 endState_reachable _⟩

/-- An interrupt of the channel at any time does not stop the kernel, also when no command has asked
for it. Behind it no task sleeps, so no interrupt is lost. While no call is in progress it changes
nothing. -/
theorem channel_intr (base fuel : Nat) {s : ChannelState}
    (hs : (channelSystem base fuel).Reachable s) :
    ∃ s', s.intrHdHandler = .ok s' ∧ (∀ t, s'.asleep t = false) ∧
      ((∀ t, ¬s.Inside t) → s' = s) := by
  have h := (channelSystem_inductive base fuel).reachable hs
  obtain ⟨s', hs', hinv, hexpecting, -, hsame⟩ := h.intr
  exact ⟨s', hs', hinv.awake_of_silent hexpecting, hsame⟩

/-- The task 1 has sent its command and sleeps, and the interrupt wakes it. -/
theorem channel_intr_wakes :
    let s := (List.replicate 3 (ChannelAct.step 1)).foldl (channelSystem 0x1f0 1).after readState
    s.asleep 1 = true ∧ ∃ s', s.intrHdHandler = .ok s' ∧ (∀ t, s'.asleep t = false) ∧
      ((∀ t, ¬s.Inside t) → s' = s) :=
  ⟨by decide +kernel, channel_intr 0x1f0 1 (readState_reachable.runs (by decide +kernel))⟩

/-- A task gets behind its wait only with an interrupt that comes after it has set `expecting_intr`.
In a run without interrupts it sleeps there, or has not got that far, whatever other tasks do. -/
theorem channel_waits (base fuel : Nat) {s : ChannelState}
    (hs : (channelSystem base fuel).Reachable s)
    {t : Tid} {rest : List DriverOp} (hcode : s.code t = .expect :: rest) {acts : List ChannelAct}
    (hruns : (channelSystem base fuel).Runs s (.step t :: acts)) (hintr : ChannelAct.intr ∉ acts) :
    let s' := (ChannelAct.step t :: acts).foldl (channelSystem base fuel).after s
    s'.asleep t = true ∨ waitsLeft (s'.code t) = waitsLeft rest := by
  have h := (channelSystem_inductive base fuel).reachable hs
  have ht := h.inside_of_expect hcode
  obtain ⟨r, hr, hpc, -⟩ := h.inCall ht
  obtain ⟨⟨henabled, hok⟩, hruns⟩ := hruns
  have hnext := eq_ok_getD (d := s) hok
  obtain ⟨out, hpaired, -⟩ := h.phase t ht
  rw [hcode] at hpaired
  -- The `wait` is still to come, so `t` stays behind the lock.
  have hrest : rest ≠ [] := by
    rintro rfl
    cases out <;> simp [Paired] at hpaired
  have hafter : (channelSystem base fuel).after s (.step t)
      = { s with code := Function.update s.code t rest, expectingIntr := true } := by
    have hstep : s.next fuel (.step t)
        = .ok { s with code := Function.update s.code t rest, expectingIntr := true } := by
      rw [ChannelState.next, ChannelState.step, if_neg (not_not_intro hpc), hcode]
      rfl
    exact Except.ok.inj (hnext.symm.trans hstep)
  have hinv := (channelSystem_inductive base fuel).step h henabled hnext
  have hawaits : Awaits ((channelSystem base fuel).after s (.step t)) t (waitsLeft rest) := by
    rw [hafter]
    refine ⟨⟨by simpa using hrest, ht.2⟩, rfl, .inr ?_⟩
    simp only [Function.update_self]
    cases out with
    | false => exact ⟨hpaired, trivial⟩
    | true => simp [Paired] at hpaired
  exact (hawaits.run hinv hruns hintr).here.imp_right And.right

/-- The task 1 sleeps at its wait. -/
theorem channel_waits_two :
    let s' := ([.step 1, .step 1, .step 1] : List ChannelAct).foldl
      (channelSystem 0x1f0 1).after readState
    s'.asleep 1 = true ∨ waitsLeft (s'.code 1) = waitsLeft (readState.code 1).tail :=
  channel_waits 0x1f0 1 readState_reachable (code_of_isExpect (by decide +kernel))
    (show (channelSystem 0x1f0 1).Runs readState [.step 1, .step 1, .step 1] by decide +kernel)
    (by simp)

end Fizzos.Proofs
