import Fizzos.Kernel.IntrStatus
import Mathlib.Data.List.Basic

/-!
# `Fizzos.Proofs.IntrStatus`: interrupts are off where they have to be

`statusOf` reads the status from the frames of a task, and `NestedFrames` says that each frame
restores the status of the frames behind it. The flag of the processor follows the frames of the
current task (`IntrInv`). All other tasks are in `schedule`, where their frames say that interrupts
are off, so a switch keeps this.
-/

set_option autoImplicit false

namespace Fizzos.Proofs

open Fizzos.Kernel
open Fizzos.Support
open Fizzos.Support.X86

/-! ### The flag -/

section
variable (eflags : Dword)

/-- The status is the bit `IF`. -/
theorem intrGetStatus_eq :
    intrGetStatus eflags = if eflags.getLsbD 9 then .INTR_ON else .INTR_OFF := by
  have hbit : EFLAGS_IF = BitVec.twoPow 32 9 := rfl
  rw [intrGetStatus, hbit, BitVec.twoPow_and]
  cases eflags.getLsbD 9 <;> decide

/-- `sti` turns interrupts on. -/
@[simp] theorem intrGetStatus_sti : intrGetStatus (sti eflags) = .INTR_ON := by
  rw [intrGetStatus_eq, sti, BitVec.getLsbD_or]
  simp [EFLAGS_IF]

/-- `cli` turns them off. -/
@[simp] theorem intrGetStatus_cli : intrGetStatus (cli eflags) = .INTR_OFF := by
  rw [intrGetStatus_eq, cli, BitVec.getLsbD_and, BitVec.getLsbD_not]
  simp [EFLAGS_IF]

/-- An interrupt gate turns interrupts off. -/
@[simp] theorem intrGetStatus_gate : intrGetStatus (eflags &&& ~~~Cpu.GATE_FLAGS) = .INTR_OFF := by
  rw [intrGetStatus_eq, BitVec.getLsbD_and, BitVec.getLsbD_not]
  simp [Cpu.GATE_FLAGS]

/-- `intr_disable` returns the status that was there. -/
theorem intrDisable_old : (intrDisable eflags).1 = intrGetStatus eflags := by
  unfold intrDisable
  cases hstatus : intrGetStatus eflags <;> simp

/-- Behind it interrupts are off. -/
@[simp] theorem intrDisable_off : intrGetStatus (intrDisable eflags).2 = .INTR_OFF := by
  unfold intrDisable
  cases hstatus : intrGetStatus eflags <;> simp [hstatus]

/-- Behind `intr_enable` they are on. -/
@[simp] theorem intrEnable_on : intrGetStatus (intrEnable eflags).2 = .INTR_ON := by
  unfold intrEnable
  cases hstatus : intrGetStatus eflags <;> simp [hstatus]

/-- `intr_set_status` gives the status that it is asked for. -/
@[simp] theorem intrSetStatus_status (status : IntrStatus) :
    intrGetStatus (intrSetStatus status eflags).2 = status := by
  unfold intrSetStatus
  cases status <;> simp

end

/-! ### Frames -/

/-- The status in front of some frames. -/
def statusOf : List IntrFrame → IntrStatus
  | [] | .slept _ :: _ => .INTR_ON
  | .region _ :: _ | .trap _ :: _ | .yield :: _ | .start :: _ => .INTR_OFF

/-- The status that a frame leaves behind. -/
def leaves : IntrFrame → IntrStatus
  | .region old | .slept old => old
  | .trap eflags => intrGetStatus eflags
  | .yield | .start => .INTR_ON

/-- Each frame restores the status of the frames behind it. -/
def NestedFrames : List IntrFrame → Prop
  | [] => True
  | f :: fs => leaves f = statusOf fs ∧ NestedFrames fs

/-- The end of a frame leaves the status that its start has found. -/
theorem flagsBehind_status (eflags : Dword) (f : IntrFrame) :
    intrGetStatus (IntrState.flagsBehind eflags f) = leaves f := by
  cases f <;> simp [IntrState.flagsBehind, leaves]

/-- The flag agrees with the frames. -/
structure IntrInv (s : IntrState) : Prop where
  status : intrGetStatus s.eflags = statusOf s.stack
  current : s.frames s.current = some s.stack
  nested : ∀ t fs, s.frames t = some fs → NestedFrames fs
  waiting : ∀ t fs, t ≠ s.current → s.frames t = some fs → statusOf fs = .INTR_OFF

section
variable {s s' : IntrState} {t u : Nat} {f : IntrFrame} {fs : List IntrFrame}

/-- The frames of the current task. -/
@[simp] theorem stack_setStack (s : IntrState) (fs : List IntrFrame) :
    (s.setStack fs).stack = fs := by
  simp [IntrState.stack, IntrState.setStack]

/-- A task that runs has its frames as the stack. -/
theorem stack_of_frames (h : s.frames s.current = some fs) : s.stack = fs := by
  simp [IntrState.stack, h]

/-- The current task has other frames, and nobody else. -/
theorem frames_setStack (hu : u ≠ s.current) : (s.setStack fs).frames u = s.frames u :=
  Function.update_of_ne hu _ _

/-- The frames of other tasks are not the stack. -/
theorem stack_update (ht : t ≠ s.current) (x : Option (List IntrFrame)) :
    IntrState.stack { s with frames := Function.update s.frames t x } = s.stack :=
  congrArg (Option.getD · []) (Function.update_of_ne ht.symm _ _)

/-- A function that turns interrupts off starts a frame with the old status. -/
theorem disable_eq (s : IntrState) (frame : IntrStatus → IntrFrame) : s.disable frame
    = { s.setStack (frame (intrGetStatus s.eflags) :: s.stack) with eflags :=
      (intrDisable s.eflags).2 } := by
  rw [← intrDisable_old]
  rfl

/-- The frame is in front of the others. -/
@[simp] theorem stack_disable (s : IntrState) (frame : IntrStatus → IntrFrame) :
    (s.disable frame).stack = frame (intrGetStatus s.eflags) :: s.stack := by
  rw [disable_eq]
  simp [IntrState.stack, IntrState.setStack]

/-- A trap starts a frame with the old flags. -/
@[simp] theorem stack_trap (s : IntrState) : s.trap.stack = .trap s.eflags :: s.stack := by
  simp [IntrState.trap, IntrState.stack, IntrState.setStack]

/-- The end of a function takes its own frame away. -/
theorem stack_ret (h : s.stack = f :: fs) : s.ret.stack = fs := by
  unfold IntrState.ret
  rw [h]
  simp [IntrState.stack, IntrState.setStack]

/-- It does not change the task. -/
theorem current_ret (s : IntrState) : s.ret.current = s.current := by
  unfold IntrState.ret
  split <;> rfl

/-- A task that is there stays there. -/
theorem disable_known {frame : IntrStatus → IntrFrame} (ht : s.frames t ≠ none) :
    (s.disable frame).frames t ≠ none := by
  rw [disable_eq]
  show Function.update s.frames s.current _ t ≠ none
  by_cases hcur : t = s.current
  · subst hcur
    simp
  · rwa [Function.update_of_ne hcur]

namespace IntrInv

/-- The current task changes its frames, and the flag with them. -/
theorem setStack (h : IntrInv s) (hnested : NestedFrames fs) {eflags : Dword}
    (hstatus : intrGetStatus eflags = statusOf fs) : IntrInv { s.setStack fs with eflags } where
  status := hstatus.trans (congrArg statusOf (stack_setStack s fs).symm)
  current := by
    show (s.setStack fs).frames s.current = some (s.setStack fs).stack
    rw [stack_setStack]
    exact Function.update_self _ _ _
  nested t gs ht := by
    by_cases hcur : t = s.current
    · subst hcur
      rw [show (s.setStack fs).frames s.current = some fs from Function.update_self _ _ _] at ht
      exact Option.some.inj ht ▸ hnested
    · rw [frames_setStack hcur] at ht
      exact h.nested t gs ht
  waiting t gs hcur ht := h.waiting t gs hcur ((frames_setStack (s := s) hcur).symm.trans ht)

/-- The frames of the current task are nested: each one has been started with the status that the
one behind it leaves. -/
theorem nested_stack (h : IntrInv s) : NestedFrames s.stack := h.nested _ _ h.current

/-- A function that keeps the old status in a frame turns interrupts off. -/
theorem disable (h : IntrInv s) {frame : IntrStatus → IntrFrame}
    (hleaves : leaves (frame (statusOf s.stack)) = statusOf s.stack)
    (hoff : statusOf (frame (statusOf s.stack) :: s.stack) = .INTR_OFF) : IntrInv
    (s.disable frame) := by
  rw [disable_eq, h.status]
  have hnested : NestedFrames (frame (statusOf s.stack) :: s.stack) := ⟨hleaves, h.nested_stack⟩
  exact h.setStack hnested ((intrDisable_off _).trans hoff.symm)

/-- A round of `ticks_to_sleep`, up to `schedule`. -/
theorem sleep (h : IntrInv s) : IntrInv ((s.disable .slept).disable fun _ => .yield) := by
  have hnested : NestedFrames (.yield :: .slept (statusOf s.stack) :: s.stack) :=
    ⟨rfl, rfl, h.nested_stack⟩
  have heq : (s.disable .slept).disable (fun _ => .yield)
      = { s.setStack (.yield :: .slept (statusOf s.stack) :: s.stack) with
          eflags := (intrDisable (intrDisable s.eflags).2).2 } := by
    rw [disable_eq, disable_eq s, h.status]
    simp [IntrState.setStack, IntrState.stack]
  rw [heq]
  exact h.setStack hnested (intrDisable_off _)

/-- A trap through an interrupt gate. -/
theorem trap (h : IntrInv s) : IntrInv s.trap := by
  have hnested : NestedFrames (.trap s.eflags :: s.stack) := ⟨h.status, h.nested_stack⟩
  exact h.setStack hnested (intrGetStatus_gate _)

/-- The innermost frame ends. -/
theorem ret (h : IntrInv s) : IntrInv s.ret := by
  unfold IntrState.ret
  have hnested := h.nested_stack
  cases hstack : s.stack with
  | nil => exact h
  | cons f fs =>
      rw [hstack] at hnested
      exact h.setStack hnested.2 ((flagsBehind_status _ _).trans hnested.1)

/-- `schedule`, with interrupts off. The next task is the same one, or it waits with interrupts off
too. -/
theorem schedule (h : IntrInv s) (hoff : statusOf s.stack = .INTR_OFF) (ht : s.frames t ≠ none) :
    ∃ s', s.schedule t = .ok s' ∧ IntrInv s' ∧ s' = { s with current := t } := by
  have hflag : intrGetStatus s.eflags = .INTR_OFF := h.status.trans hoff
  refine ⟨{ s with current := t }, by simp [IntrState.schedule, hflag], ?_, rfl⟩
  obtain ⟨fs, hfs⟩ := Option.ne_none_iff_exists'.mp ht
  have hstack : IntrState.stack { s with current := t } = fs := stack_of_frames hfs
  have hall (u : Nat) (gs : List IntrFrame) (hu : s.frames u = some gs) :
      statusOf gs = .INTR_OFF := by
    by_cases hcur : u = s.current
    · subst hcur
      rw [h.current] at hu
      exact Option.some.inj hu ▸ hoff
    · exact h.waiting u gs hcur hu
  refine ⟨?_, hfs.trans (congrArg some hstack.symm), h.nested, fun u gs _ hu => hall u gs hu⟩
  rw [hstack]
  exact hflag.trans (hall t fs hfs).symm

/-- A new task, or one that is gone. -/
theorem spawn (h : IntrInv s) (ht : t ≠ s.current) {x : Option (List IntrFrame)}
    (hx : ∀ fs, x = some fs → NestedFrames fs ∧ statusOf fs = .INTR_OFF) :
    IntrInv { s with frames := Function.update s.frames t x } := by
  have hcur : Function.update s.frames t x s.current = s.frames s.current :=
    Function.update_of_ne ht.symm _ _
  have hnew (u : Nat) (gs : List IntrFrame) (hu : Function.update s.frames t x u = some gs) :
      (NestedFrames gs ∧ statusOf gs = .INTR_OFF) ∨ s.frames u = some gs := by
    by_cases hut : u = t
    · subst hut
      rw [Function.update_self] at hu
      exact .inl (hx gs hu)
    · exact .inr ((Function.update_of_ne hut _ _).symm.trans hu)
  refine ⟨?_, ?_, fun u gs hu => ?_, fun u gs hne hu => ?_⟩
  · rw [stack_update ht]
    exact h.status
  · rw [stack_update ht]
    exact hcur.trans h.current
  · exact (hnew u gs hu).elim And.left (h.nested u gs)
  · exact (hnew u gs hu).elim And.right (h.waiting u gs hne)

/-- A page without a task is not the current one. -/
theorem ne_current (h : IntrInv s) (ht : s.frames t = none) : t ≠ s.current := by
  rintro rfl
  rw [h.current] at ht
  cases ht

/-- Each action returns, and keeps the invariant. -/
theorem next (h : IntrInv s) {a : IntrAct} (ha : s.Enabled a) : ∃ s', s.next a = .ok s' ∧
    IntrInv s' := by
  cases a with
  | disable => exact ⟨_, rfl, h.disable rfl rfl⟩
  | intr | exception => exact ⟨_, rfl, h.trap⟩
  | ret => exact ⟨_, rfl, h.ret⟩
  | threadBlock t =>
      have hdisable : IntrInv (s.disable .region) := h.disable rfl rfl
      obtain ⟨s', hs', hinv, -⟩ := hdisable.schedule (by rw [stack_disable]; rfl) (disable_known ha)
      exact ⟨s', hs', hinv⟩
  | threadYield t =>
      have hdisable : IntrInv (s.disable fun _ => .yield) :=
        h.disable (h.status.symm.trans ha.2).symm rfl
      obtain ⟨s', hs', hinv, -⟩ :=
        hdisable.schedule (by rw [stack_disable]; rfl) (disable_known ha.1)
      exact ⟨s', hs', hinv⟩
  | ticksToSleep t =>
      obtain ⟨s', hs', hinv, -⟩ := h.sleep.schedule (by rw [stack_disable]; rfl)
        (disable_known (disable_known ha))
      exact ⟨s', hs', hinv⟩
  | timer t =>
      obtain ⟨ht, e, fs, hstack⟩ := ha
      obtain ⟨s', hs', hinv, -⟩ := h.schedule (by rw [hstack]; rfl) ht
      exact ⟨s', hs', hinv⟩
  | sysExit t =>
      obtain ⟨ht, hne, e, fs, hstack⟩ := ha
      obtain ⟨s', hs', hinv, rfl⟩ := h.schedule (by rw [hstack]; rfl) ht
      refine ⟨_, ?_, hinv.spawn (x := none) hne.symm (by simp)⟩
      rw [IntrState.next, hs']
      rfl
  | kthreadCreate t =>
      refine ⟨_, rfl, h.spawn (h.ne_current ha) fun fs hfs => ?_⟩
      cases hfs
      exact ⟨⟨rfl, trivial⟩, rfl⟩
  | doFork t =>
      obtain ⟨ht, e, hstack⟩ := ha
      have hne := h.ne_current ht
      -- The child starts with a copy of the frames of its parent.
      have hchild := h.spawn hne (x := some s.stack) fun fs hfs => by
        cases hfs
        exact ⟨h.nested_stack, by rw [hstack]; rfl⟩
      obtain ⟨s', hs', hinv, -⟩ := hchild.schedule (by rw [stack_update hne, hstack]; rfl)
        (by simp : Function.update s.frames t (some s.stack) t ≠ none)
      exact ⟨s', hs', hinv⟩

end IntrInv

end

/-- The interrupt status keeps its invariant. -/
theorem intrSystem_inductive : intrSystem.Inductive IntrInv where
  init {s} h := by
    have hstack := stack_of_frames h.main
    obtain ⟨i, -, hothers⟩ := h.others
    have hcases (t : Nat) (fs : List IntrFrame) (ht : s.frames t = some fs) :
        fs = [] ∧ t = s.current ∨ fs = [.start] := by
      by_cases hcur : t = s.current
      · subst hcur
        exact .inl ⟨Option.some.inj (ht.symm.trans h.main), rfl⟩
      · rw [hothers t hcur] at ht
        split at ht
        · exact .inr (Option.some.inj ht).symm
        · cases ht
    refine ⟨by rw [hstack]; exact h.eflags, hstack.symm ▸ h.main, fun t fs ht =>
      ?_, fun t fs hne ht => ?_⟩
    · obtain ⟨rfl, -⟩ | rfl := hcases t fs ht
      · trivial
      · exact ⟨rfl, trivial⟩
    · obtain ⟨-, heq⟩ | rfl := hcases t fs ht
      · exact absurd heq hne
      · rfl
  step h ha hnext := by
    obtain ⟨s', hs', hinv⟩ := h.next ha
    exact Except.ok.inj (hs'.symm.trans hnext) ▸ hinv

/-! ### Results -/

/-- The task that runs keeps the processor. -/
def Stays : IntrAct → Prop
  | .disable | .intr | .exception | .ret | .kthreadCreate _ => True
  | .threadBlock _ | .threadYield _ | .ticksToSleep _ | .timer _ | .sysExit _ | .doFork _ => False

/-- The current task is still between an `intr_disable` and its `intr_set_status`, with `base`
behind both. What it has in front are regions and traps. -/
structure Inside (t : Nat) (base : List IntrFrame) (s : IntrState) : Prop where
  inv : IntrInv s
  current : s.current = t
  masked : ∃ f fs, s.stack = f :: fs ++ base ∧ ∀ g ∈ f :: fs, statusOf [g] = .INTR_OFF

/-- The region is over. -/
def Left (t : Nat) (base : List IntrFrame) (s : IntrState) : Prop := s.current = t ∧ s.stack = base

section
variable {s s' : IntrState} {t : Nat} {base : List IntrFrame} {a : IntrAct}

namespace Inside

/-- Inside of the region interrupts are off. -/
theorem status (h : Inside t base s) : intrGetStatus s.eflags = .INTR_OFF := by
  obtain ⟨f, fs, hstack, hmask⟩ := h.masked
  have hf : statusOf [f] = .INTR_OFF := hmask f List.mem_cons_self
  rw [h.inv.status, hstack]
  cases f with
  | slept old => cases hf
  | region | trap | yield | start => rfl

/-- One more frame in front. -/
theorem push (h : Inside t base s) {g : IntrFrame} (hinv : IntrInv s')
    (hcurrent : s'.current = s.current)
    (hstack : s'.stack = g :: s.stack) (hg : statusOf [g] = .INTR_OFF) : Inside t base s' where
  inv := hinv
  current := hcurrent.trans h.current
  masked := by
    obtain ⟨f, fs, hold, hmask⟩ := h.masked
    exact ⟨g, f :: fs, by rw [hstack, hold]; rfl, List.forall_mem_cons.mpr ⟨hg, hmask⟩⟩

/-- An action that stays in the task keeps the region, or ends it. -/
theorem next (h : Inside t base s) (hstay : Stays a) (ha : s.Enabled a)
    (hnext : s.next a = .ok s') : Left t base s' ∨ Inside t base s' := by
  obtain ⟨s₁, hs₁, hinv⟩ := h.inv.next ha
  obtain rfl : s₁ = s' := Except.ok.inj (hs₁.symm.trans hnext)
  cases a with
  | threadBlock | threadYield | ticksToSleep | timer | sysExit | doFork => exact hstay.elim
  | disable =>
      cases hnext
      exact .inr (h.push hinv rfl (stack_disable s .region) rfl)
  | intr =>
      -- Interrupts are off.
      have hon : intrGetStatus s.eflags = .INTR_ON := ha
      rw [h.status] at hon
      cases hon
  | exception =>
      cases hnext
      exact .inr (h.push hinv rfl (stack_trap s) rfl)
  | kthreadCreate u =>
      cases hnext
      obtain ⟨f, fs, hstack, hmask⟩ := h.masked
      exact .inr ⟨hinv, h.current, f, fs,
        (stack_update (h.inv.ne_current ha) _).trans hstack, hmask⟩
  | ret =>
      obtain ⟨f, fs, hstack, hmask⟩ := h.masked
      cases hnext
      have hcurrent : s.ret.current = t := (current_ret s).trans h.current
      have hret : s.ret.stack = fs ++ base := stack_ret hstack
      -- With no frame but the one of the region, this was its end.
      cases fs with
      | nil => exact .inl ⟨hcurrent, hret⟩
      | cons g gs => exact .inr ⟨hinv, hcurrent, g, gs, hret, (List.forall_mem_cons.mp hmask).2⟩

end Inside

/-- In any order of the tasks and of the interrupts, the flag agrees with the frames of the current
task, and each action that can happen returns. So the `ASSERT` of `schedule` holds, and each
function that turns interrupts off gives its caller the status that was there. -/
theorem intr_discipline (hs : intrSystem.Reachable s) : intrGetStatus s.eflags = statusOf s.stack
    ∧ NestedFrames s.stack ∧ ∀ a, s.Enabled a → ∃ s', s.next a = .ok s' := by
  have h := intrSystem_inductive.reachable hs
  exact ⟨h.status, h.nested_stack, fun a ha => (h.next ha).imp fun _ => And.left⟩

/-- The main task with interrupts on, and `idle`. -/
def intrStart : IntrState where
  eflags := 0x202
  current := 0
  frames t := if t = 0 then some [] else if t = 1 then some [.start] else none

/-- The state in which the first task sleeps in a system call. -/
theorem intrStart_reachable : intrSystem.Reachable intrStart :=
  .init ⟨rfl, rfl, 1, by decide, fun t ht => if_neg ht⟩

/-- The main task sleeps in a system call, `idle` starts, and the timer goes back to the main
task. -/
theorem intr_discipline_sleep :
    let s := [.exception, .ticksToSleep 1, .ret, .intr, .timer 0,
      .ret].foldl intrSystem.after intrStart
    intrGetStatus s.eflags = statusOf s.stack ∧ NestedFrames s.stack ∧
      ∀ a, s.Enabled a → ∃ s', s.next a = .ok s' :=
  intr_discipline (intrStart_reachable.runs (by decide +kernel))

/-- Behind `intr_disable`, a task that does not give up the processor is not interrupted before its
`intr_set_status`. -/
theorem region_atomic (hs : intrSystem.Reachable s) {acts : List IntrAct}
    (hstays : ∀ a ∈ acts, Stays a) (hruns : intrSystem.Runs s (.disable :: (acts ++ [.intr]))) :
    ∃ n ≤ acts.length,
      Left s.current s.stack
        ((acts.take n).foldl intrSystem.after (intrSystem.after s .disable)) := by
  have h := intrSystem_inductive.reachable hs
  have hinside : Inside s.current s.stack (intrSystem.after s .disable) :=
    ⟨h.disable rfl rfl, rfl, _, [], stack_disable s .region, by simp [statusOf]⟩
  obtain ⟨hacts, ⟨hon, -⟩, -⟩ := System.runs_append.mp hruns.2
  refine (hacts.keeps (fun ha hin => hin.next (hstays _ ha)) hinside).resolve_right fun hend => ?_
  -- The interrupt needs the flag.
  have heq : intrGetStatus _ = .INTR_ON := hon
  rw [hend.status] at heq
  cases heq

/-- A region with another one and a page fault in it. -/
theorem region_atomic_nested : ∃ n ≤ 5, Left intrStart.current intrStart.stack
    (([.disable, .ret, .exception, .ret, .ret].take n).foldl intrSystem.after
      (intrSystem.after intrStart .disable)) :=
  @region_atomic _ intrStart_reachable [.disable, .ret, .exception, .ret, .ret]
    (by simp [Stays]) (by decide +kernel)

end

end Fizzos.Proofs
