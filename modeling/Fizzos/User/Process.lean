import Fizzos.Kernel.Switch

/-!
# `Fizzos.User.Process`: the stack and the page directory of the processor

`process_activate` of `user/process.c` with `update_esp0` of `user/tss.c`. The processor takes its
kernel stack from the task state segment when a program traps, and translates addresses with the
directory in `cr3`. `schedule` sets both for the next task. A task without a `struct mm_struct` is a
kernel thread: it gets the directory of the loader, and `esp0` stays as it is.

`do_exec` gives a kernel thread its `mm_struct` and loads `cr3`, and `init_proc` updates `esp0`
later, in front of the jump to `intr_exit`. In between `do_exec` reads files, so other tasks run.

`frame` says if the kernel stack of a task has a `struct intr_stack` for user mode. The order of the
tasks is free.
-/

set_option autoImplicit false

namespace Fizzos.User

open Fizzos.Kernel
open Fizzos.Support
open Fizzos.Support.X86

/-- What `struct task_struct` has for the processor: `mm->pg_dir`, or `none` without `mm`. -/
structure TaskMm where
  pgDir : Option Dword
  frame : Bool
  deriving DecidableEq

/-- The tasks by the addresses of their pages, and the processor. -/
structure ProcState where
  current : Dword
  task : Dword → Option TaskMm
  /-- The processor runs a program. -/
  user : Bool
  cr3 : Dword
  esp0 : Dword

/-- What happens next on the processor. -/
inductive ProcAct where
  /-- A trap of the program that runs. -/
  | trap
  /-- `intr_exit` to a program. -/
  | iret
  | schedule (next : Dword)
  | kthreadCreate (t : Dword)
  /-- `do_fork`, with the page directory from `copy_mm`. -/
  | doFork (t pgDir : Dword)
  /-- `do_exec` of a task without `mm`. -/
  | doExec (pgDir : Dword)
  /-- `init_proc` behind `do_exec`. -/
  | initProc
  | sysExit (next : Dword)

/-- `get_paddr` of an address in the direct mapping. -/
def paddr (vaddr : Dword) : Dword := vaddr - 0xc0000000

namespace ProcState

/-- `mm->pg_dir` of a task. -/
def pgDir (s : ProcState) (t : Dword) : Option Dword := (s.task t).bind TaskMm.pgDir

def hasFrame (s : ProcState) (t : Dword) : Bool := (s.task t).any TaskMm.frame

def setTask (s : ProcState) (t : Dword) (x : Option TaskMm) : ProcState :=
  { s with task := Function.update s.task t x }

/-- `update_esp0` -/
def updateEsp0 (s : ProcState) (t : Dword) : ProcState :=
  { s with esp0 := (t &&& 0xfffff000) + BitVec.ofNat 32 PG_SIZE }

/-- `page_dir_activate` -/
def pageDirActivate (s : ProcState) (t : Dword) : ProcState :=
  { s with cr3 := match s.pgDir t with
      | none => 0x100000
      | some d => paddr d }

section
variable (s : ProcState) (t : Dword)

@[simp] theorem updateEsp0_current : (s.updateEsp0 t).current = s.current := by rw [updateEsp0]
@[simp] theorem updateEsp0_task : (s.updateEsp0 t).task = s.task := by rw [updateEsp0]
@[simp] theorem updateEsp0_user : (s.updateEsp0 t).user = s.user := by rw [updateEsp0]
@[simp] theorem updateEsp0_cr3 : (s.updateEsp0 t).cr3 = s.cr3 := by rw [updateEsp0]
@[simp] theorem updateEsp0_pgDir (u : Dword) : (s.updateEsp0 t).pgDir u = s.pgDir u := by
  rw [pgDir, updateEsp0_task, pgDir]

@[simp] theorem pageDirActivate_current : (s.pageDirActivate t).current = s.current := by
  rw [pageDirActivate]
@[simp] theorem pageDirActivate_task :
    (s.pageDirActivate t).task = s.task := by rw [pageDirActivate]
@[simp] theorem pageDirActivate_user :
    (s.pageDirActivate t).user = s.user := by rw [pageDirActivate]
@[simp] theorem pageDirActivate_esp0 :
    (s.pageDirActivate t).esp0 = s.esp0 := by rw [pageDirActivate]
@[simp] theorem pageDirActivate_pgDir (u : Dword) : (s.pageDirActivate t).pgDir u = s.pgDir u := by
  rw [pgDir, pageDirActivate_task, pgDir]

end

/-- `process_activate` -/
def processActivate (s : ProcState) (t : Dword) : ProcState :=
  let s := s.pageDirActivate t
  if (s.pgDir t).isSome then s.updateEsp0 t else s

/-- The end of `schedule`. -/
def schedule (s : ProcState) (next : Dword) : ProcState :=
  { s.processActivate next with current := next }

/-- The page of a task. -/
def IsPage (t : Dword) : Prop := t &&& 0xfff = 0

instance (t : Dword) : Decidable (IsPage t) := inferInstanceAs (Decidable (_ = _))

/-- The actions that can happen. -/
def Enabled (s : ProcState) : ProcAct → Prop
  | .trap => s.user = true
  | .iret => s.user = false ∧ s.hasFrame s.current = true
  | .schedule next => s.user = false ∧ s.task next ≠ none
  | .kthreadCreate t => s.user = false ∧ s.task t = none ∧ IsPage t
  | .doFork t _ => s.user = false ∧ s.task t = none ∧ IsPage t ∧ s.hasFrame s.current = true
  | .doExec _ => s.user = false ∧ s.pgDir s.current = none
  | .initProc => s.user = false ∧ s.pgDir s.current ≠ none
  | .sysExit next => s.user = false ∧ next ≠ s.current ∧ s.task next ≠ none

instance (s : ProcState) (a : ProcAct) : Decidable (s.Enabled a) := by
  cases a <;> unfold Enabled <;> infer_instance

/-- The state after an action. -/
def next (s : ProcState) : ProcAct → Except Halt ProcState
  | .trap => pure { s with user := false }
  | .iret => pure { s with user := true }
  | .schedule next => pure (s.schedule next)
  | .kthreadCreate t => pure (s.setTask t (some ⟨none, false⟩))
  | .doFork t pgDir =>
      -- the child has a copy of the stack, and runs first
      pure ((s.setTask t (some ⟨some pgDir, s.hasFrame s.current⟩)).schedule t)
  | .doExec pgDir =>
      let s := s.setTask s.current (some ⟨some pgDir, false⟩)
      pure { s with cr3 := paddr pgDir }
  | .initProc =>
      let s := (s.updateEsp0 s.current).pageDirActivate s.current
      pure (s.setTask s.current (some ⟨s.pgDir s.current, true⟩))
  | .sysExit next => pure ((s.setTask s.current none).schedule next)

/-- The main task runs in the directory of the loader, and no task has an `mm_struct`. -/
structure Start (s : ProcState) : Prop where
  user : s.user = false
  cr3 : s.cr3 = 0x100000
  current : s.task s.current ≠ none
  tasks : ∀ t x, s.task t = some x → IsPage t ∧ x = ⟨none, false⟩

end ProcState

/-- Any order of tasks that come, fork, become programs, trap and exit. -/
def procSystem : System ProcState ProcAct Halt where
  init := ProcState.Start
  enabled := ProcState.Enabled
  next := ProcState.next

instance (s : ProcState) (a : ProcAct) : Decidable (procSystem.enabled s a) :=
  inferInstanceAs (Decidable (s.Enabled a))

end Fizzos.User
