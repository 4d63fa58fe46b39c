import Fizzos.Proofs.Trap
import Fizzos.User.Syscall

/-!
# `Fizzos.Proofs.Syscall`: calls and forks across the border of the kernel

A function of the library and the kernel function of its name agree on the table and on the
registers. A child of `fork` starts with the frame of its parent, so `intr_exit` takes it to the
same place.
-/

set_option autoImplicit false

namespace Fizzos.Proofs

open Fizzos.Kernel
open Fizzos.Support
open Fizzos.Support.X86
open Fizzos.User

/-! ### The registers of a call -/

section
variable {n : SysCall} {args : List Dword}

/-- The table has each function at its own number. -/
theorem callTable_nr (kernel : SysCall → Cpu → Cpu) (other : Dword → Cpu → Cpu) (n : SysCall) :
    callTable kernel other (BitVec.ofNat 32 n.nr) = kernel n := by
  cases n <;> rfl

/-- Loads of other registers leave a register alone. -/
theorem foldl_setReg_of_notMem {r : Reg} (xs : List (Reg × Dword)) (k : Core)
    (hr : r ∉ xs.map Prod.fst) :
    (xs.foldl (fun k x => k.setReg x.1 x.2) k).reg r = k.reg r := by
  induction xs generalizing k with
  | nil => rfl
  | cons x xs ih =>
      simp only [List.map_cons, List.mem_cons, not_or] at hr
      exact (ih _ hr.2).trans (Core.setReg_of_ne _ hr.1 _)

/-- A register gets the value that goes with it. -/
theorem foldl_setReg_of_mem {r : Reg} {v : Dword} (xs : List (Reg × Dword)) (k : Core)
    (hnodup : (xs.map Prod.fst).Nodup) (hmem : (r, v) ∈ xs) :
    (xs.foldl (fun k x => k.setReg x.1 x.2) k).reg r = v := by
  induction xs generalizing k with
  | nil => cases hmem
  | cons x xs ih =>
      simp only [List.map_cons, List.nodup_cons] at hnodup
      obtain rfl | hmem := List.mem_cons.mp hmem
      · exact (foldl_setReg_of_notMem xs _ hnodup.1).trans (Core.setReg_self _ _ _)
      · exact ih _ hnodup.2 hmem

theorem map_fst_zip_sublist {α β : Type} (xs : List α) (ys : List β) :
    ((xs.zip ys).map Prod.fst).Sublist xs := by
  induction xs generalizing ys with
  | nil => exact .slnil
  | cons x xs ih =>
      cases ys with
      | nil => exact List.nil_sublist _
      | cons y ys => exact (ih ys).cons_cons x

theorem arity_le (n : SysCall) : n.arity ≤ ARG_REGS.length := by
  cases n <;> decide

theorem loadRegs_of_ne (k : Core) {r : Reg} (hr : r ∉ ARG_REGS) :
    (loadRegs n args k).reg r = (k.setReg .eax (BitVec.ofNat 32 n.nr)).reg r :=
  foldl_setReg_of_notMem _ _ fun hmem => hr (by
    obtain ⟨x, hx, rfl⟩ := List.mem_map.mp hmem
    exact (List.of_mem_zip hx).1)

/-- The `i`-th argument is in the `i`-th register. -/
theorem loadRegs_arg (k : Core) {i : Nat} {r : Reg} {v : Dword} (hr : ARG_REGS[i]? = some r)
    (hv : args[i]? = some v) : (loadRegs n args k).reg r = v := by
  have hnodup : ARG_REGS.Nodup := by decide
  exact foldl_setReg_of_mem _ _ (hnodup.sublist (map_fst_zip_sublist _ _))
    (List.mem_of_getElem? (List.getElem?_zip_eq_some.mpr ⟨hr, hv⟩))

end

/-! A program that calls `fork` with zeros in its registers. -/

def forkProgram : Core where
  reg := fun _ => 0
  seg := fun _ => 0
  cs := 0x1b
  ss := 0
  eip := 0
  eflags := 0
  cr2 := 0
  sent := []

/-- The main task in `syscall_handler`. -/
def forkCaller : SwitchState where
  cpu :=
    { mainState.cpu with
      reg := fun _ => below (stackTop mainTask) 19
      mem := Function.update (Function.update (fun _ => 0) (below (stackTop mainTask) 4) 0x1b)
        (below (stackTop mainTask) 19) 0x80 }
  current := mainTask
  saved := fun _ => none

theorem forkCaller_stack :
    forkCaller.cpu.Stack (stackTop forkCaller.current)
      ([] ++ 0x80 :: trapFrame forkProgram 0 0) := by
  refine ⟨rfl, ?_⟩
  have hframe : 0x80 :: trapFrame forkProgram 0 0
      = [0x80, 0, 0, 0, 0, 0, 0, 0, 0, 0, 0, 0, 0, 0, 0, 0x1b, 0, 0, 0] := by decide
  rw [List.nil_append, hframe]
  simp only [StackAt, and_true]
  decide

/-! ### Results -/

/-- Every function of `lib/user/syscall.c` calls the kernel function of its own name, with its
arguments in their order, and returns the result, or `-1` when the result is negative, with `errno`
set to its absolute value. The program sees no other change than the registers that it loads and
`eax`. -/
theorem wrapper_calls (kernel : SysCall → Cpu → Cpu) (other : Dword → Cpu → Cpu) (g : Cpu.Gate)
    (next : Dword) (n : SysCall) {args : List Dword} (hargs : args.length = n.arity)
    (c : Cpu) {c₀ c₁ : Cpu} (hc₀ : c₀ = { loadRegs n args c.toCore with mem := c.mem })
    (hc₁ : c₁ = syscallCalled next (c₀.deliver g none))
    (hobeys : Obeys 4 (trapTop g c₀) (kernel n) c₁) :
    (∀ i, i < n.arity → args[i]? = some (c₁.word (i + 1))) ∧
      (wrapper kernel other g next n args c).2 = wrapperReturn ((kernel n c₁).reg .eax) ∧
      (wrapper kernel other g next n args c).1.program
        = (c₀.toCore.setReg .eax ((kernel n c₁).reg .eax)).program := by
  have heax : c₀.reg .eax = BitVec.ofNat 32 n.nr := by
    rw [hc₀]
    exact (loadRegs_of_ne c.toCore (by decide)).trans (Core.setReg_self _ _ _)
  have hfun : callTable kernel other (c₀.reg .eax) = kernel n := heax ▸ callTable_nr kernel other n
  obtain ⟨hprogram, hebx, hecx, hedx, hesi⟩ :=
    syscall_transparent c₀ g next hc₁ (hfun.symm ▸ hobeys)
  rw [hfun] at hprogram
  -- An argument goes through the register that its number picks, and then to the word on the stack.
  have harg (i : Nat) (r : Reg) (hr : ARG_REGS[i]? = some r) (hi : i < n.arity) :
      args[i]? = some (c₀.reg r) := by
    have hv := List.getElem?_eq_getElem (l := args) (hargs ▸ hi)
    rw [hv, hc₀]
    exact congrArg some (loadRegs_arg c.toCore hr hv).symm
  have hresult : (wrapper kernel other g next n args c).1
      = syscallHandler (callTable kernel other) next (c₀.deliver g none) := by
    rw [hc₀]
    rfl
  refine ⟨fun i hi => ?_, ?_, hresult ▸ hprogram⟩
  · have harity := arity_le n
    match i, hi with
    | 0, hi => rw [hebx, harg 0 .ebx rfl hi]
    | 1, hi => rw [hecx, harg 1 .ecx rfl hi]
    | 2, hi => rw [hedx, harg 2 .edx rfl hi]
    | 3, hi => rw [hesi, harg 3 .esi rfl hi]
    -- No call has more than four arguments.
    | i + 4, hi =>
        simp only [ARG_REGS, List.length_cons, List.length_nil] at harity
        omega
  · have hreg := congrArg (Program.reg · .eax) (hresult ▸ hprogram)
    have hself : (c₀.toCore.setReg .eax ((kernel n c₁).reg .eax)).program.reg .eax
        = (kernel n c₁).reg .eax := by
      simp only [Core.program, Core.setReg_self]
    exact congrArg wrapperReturn (hreg.trans hself)

/-- `close(3)`, with a kernel that returns the number of the file. -/
theorem wrapper_calls_close :
    let kernel (_ : SysCall) := returnsArgument
    let g : Cpu.Gate := ⟨0x08, 0xc0001000, 0x10, stackTop mainTask⟩
    let c₀ : Cpu := { loadRegs .close [3] forkProgram with mem := fun _ => 0 }
    let c₁ := syscallCalled 0xc0001100 (c₀.deliver g none)
    let called := wrapper kernel (fun _ => Cpu.ret) g 0xc0001100 .close [3]
      { forkProgram with mem := fun _ => 0 }
    (∀ i, i < 1 → [(3 : Dword)][i]? = some (c₁.word (i + 1))) ∧
      called.2 = wrapperReturn ((returnsArgument c₁).reg .eax) ∧
      called.1.program = (c₀.toCore.setReg .eax ((returnsArgument c₁).reg .eax)).program :=
  wrapper_calls (fun _ => returnsArgument) (fun _ => Cpu.ret)
    ⟨0x08, 0xc0001000, 0x10, stackTop mainTask⟩ 0xc0001100 .close rfl
    { forkProgram with mem := fun _ => 0 } rfl rfl (returnsArgument_obeys (by decide) _ _)

/-- The child of a `fork` returns to its program with 0 in `eax`, and with all other registers, the
flags and the place that the parent had at its call, no matter which tasks run before the processor
goes to the child. -/
theorem fork_child_returns (l : Labels) {s : SwitchState} {t d : Dword} {k : Core} {ws : List Dword}
    {acts : List SwitchAct} {a : SwitchAct} (hs : (switchSystem l).Reachable s)
    (hcall : s.cpu.Stack (stackTop s.current) (ws ++ 0x80 :: trapFrame k d 0))
    (huser : Cpu.rpl k.cs ≠ 0) (hruns : (switchSystem l).Runs s (.fork t :: (acts ++ [a])))
    (haway : ∀ b ∈ acts, ¬SwitchAct.To t b) (ha : SwitchAct.To t a) :
    let c := ((SwitchAct.fork t :: (acts ++ [a])).foldl (switchSystem l).after s).cpu
    c.eip = l.intrExit ∧ getCurrent c = t ∧ (intrExit c).program = (k.setReg .eax 0).program := by
  intro c
  have hlen : (0x80 :: trapFrame k d 0).length = INTR_STACK := by
    rw [trapFrame, hardwareFrame, if_neg huser]
    rfl
  -- the words of the call are the last ones of the page
  have hframe : wordsAt (stackTop s.current) s.cpu.mem INTR_STACK = 0x80 :: trapFrame k d 0 := by
    have hdrop := hcall.words.drop ws.length
    rw [List.drop_left] at hdrop
    rw [← hlen, hdrop.wordsAt_eq]
  obtain ⟨hresumes, hcurrent⟩ := fork_resumes l hs hruns haway ha
  refine ⟨hresumes.eip, hcurrent, ?_⟩
  have hstack := hresumes.stack
  rw [SwitchState.forkContext, hframe, poke_eax] at hstack
  exact (intrExit_spec hstack (fun h => absurd h huser) fun h => absurd h huser).1

/-- The processor goes to the child at once. -/
theorem fork_child_returns_main :
    let c := ([SwitchAct.fork freePage, .switchTo freePage 0xc0001800].foldl
      (switchSystem exampleLabels).after forkCaller).cpu
    c.eip = exampleLabels.intrExit ∧ getCurrent c = freePage ∧
      (intrExit c).program = (forkProgram.setReg .eax 0).program :=
  @fork_child_returns exampleLabels forkCaller freePage 0 forkProgram [] [] _
    (.init ⟨by decide, room_of_esp rfl (by decide) (by decide), fun _ => rfl⟩) forkCaller_stack
    (by decide) ⟨⟨⟨by decide, by decide, rfl⟩, rfl⟩,
      ⟨⟨room_of_esp (n := 19) rfl (by decide) (by decide), .inr (by decide)⟩, rfl⟩,
        trivial⟩ (by simp) rfl

end Fizzos.Proofs
