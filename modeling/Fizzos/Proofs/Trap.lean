import Fizzos.Kernel.Trap
import Fizzos.Proofs.Switch

/-!
# `Fizzos.Proofs.Trap`: a program does not notice an interrupt

`Trapped` is the state behind `Cpu.deliver`, for programs and for kernel code alike. Each entry
turns its words into a `trapFrame` (`vectorCode_onStack`, `pageFaultCode_onStack`,
`syscallCode_onStack`), the C function keeps the frame, and `intr_exit` gives the program what the
frame has (`intrExit_spec`).
-/

set_option autoImplicit false

namespace Fizzos.Proofs

open Fizzos.Kernel
open Fizzos.Support.X86

section
variable {c : Cpu} {g : Cpu.Gate} {top : Dword} {ws : List Dword}

/-- Some stack ends at `esp`. -/
theorem stack_nil (c : Cpu) : c.Stack (c.reg .esp) [] where
  esp := by simp [below]
  words := trivial

/-- Pushes change `esp` only. -/
theorem push_reg (c : Cpu) (w : Dword) {r : Reg} (hr : r ≠ .esp) : (c.push w).reg r = c.reg r :=
  Core.setReg_of_ne _ hr _

/-- The state in front of the three words that every interrupt pushes. -/
def outerStack (c : Cpu) (g : Cpu.Gate) : Cpu :=
  if Cpu.rpl c.cs = 0 then c
  else (({ c.toCore.setReg .esp g.esp0 with ss := g.ss0, mem := c.mem } : Cpu).push
    (c.ss.setWidth 32)).push (c.reg .esp)

/-- From a program the processor goes to the stack in the task state segment, with the old `esp` and
`ss` on it. In the kernel it stays. -/
theorem outerStack_spec (c : Cpu) (g : Cpu.Gate) :
    (outerStack c g).Stack (trapTop g c)
        (if Cpu.rpl c.cs = 0 then [] else [c.reg .esp, c.ss.setWidth 32]) ∧
      (∀ r, r ≠ .esp → (outerStack c g).reg r = c.reg r) ∧ (outerStack c g).seg = c.seg ∧
      (outerStack c g).cr2 = c.cr2 ∧ (outerStack c g).sent = c.sent ∧
      (Cpu.rpl c.cs = 0 → (outerStack c g).ss = c.ss) := by
  unfold outerStack trapTop
  split
  · exact ⟨stack_nil c, fun _ _ => rfl, rfl, rfl, rfl, fun _ => rfl⟩
  · have hempty : ({ c.toCore.setReg .esp g.esp0 with ss := g.ss0, mem := c.mem } : Cpu).Stack
        g.esp0 [] := ⟨by simp [below], trivial⟩
    have hss := hempty.push (by simp) (c.ss.setWidth 32)
    refine ⟨hss.push (by simp) _, fun r hr => ?_, rfl, rfl, rfl,
      fun h => absurd h ‹_›⟩
    rw [push_reg _ _ hr, push_reg _ _ hr]
    exact Core.setReg_of_ne _ hr _

/-- The processor has taken an interrupt in the state `k`, and `top` is the end of the stack that it
uses. -/
structure Trapped (k : Core) (error : Option Dword) (top : Dword) (c : Cpu) : Prop where
  stack : c.Stack top (error.toList ++ hardwareFrame k)
  reg : ∀ r, r ≠ .esp → c.reg r = k.reg r
  seg : c.seg = k.seg
  cr2 : c.cr2 = k.cr2
  sent : c.sent = k.sent
  ss : Cpu.rpl k.cs = 0 → c.ss = k.ss
  esp : Cpu.rpl k.cs = 0 → k.reg .esp = top

/-- What the processor pushes for an interrupt, and the error code if there is one. -/
theorem deliver_trapped (c : Cpu) (g : Cpu.Gate) (error : Option Dword) :
    Trapped c.toCore error (trapTop g c) (c.deliver g error) := by
  obtain ⟨hstack, hreg, hseg, hcr2, hsent, hss⟩ := outerStack_spec c g
  have hlen : (if Cpu.rpl c.cs = 0 then [] else [c.reg .esp, c.ss.setWidth 32]).length ≤ 2 := by
    split <;> simp
  have h := ((hstack.push (by omega) c.eflags).push (by simp only [List.length_cons]; omega)
    (c.cs.setWidth 32)).push (by simp only [List.length_cons]; omega) c.eip
  have hpush (r : Reg) (hr : r ≠ .esp) :
      ((((outerStack c g).push c.eflags).push (c.cs.setWidth 32)).push c.eip).reg r = c.reg r := by
    rw [push_reg _ _ hr, push_reg _ _ hr, push_reg _ _ hr, hreg r hr]
  have hesp (hrpl : Cpu.rpl c.cs = 0) : c.reg .esp = trapTop g c := (if_pos hrpl).symm
  cases error with
  | none => exact ⟨⟨h.esp, h.words⟩, hpush, hseg, hcr2, hsent, hss, hesp⟩
  | some e =>
      have h' := h.push (by simp only [List.length_cons]; omega) e
      exact ⟨⟨h'.esp, h'.words⟩, fun r hr => (push_reg _ e hr).trans (hpush r hr),
        hseg, hcr2, hsent, hss, hesp⟩

/-- The processor pushes at most six words. -/
theorem deliver_length (k : Core) (error : Option Dword) :
    (error.toList ++ hardwareFrame k).length ≤ 6 := by
  have hframe : (hardwareFrame k).length ≤ 5 := by
    unfold hardwareFrame
    split <;> simp
  cases error with
  | none => exact Nat.le_succ_of_le hframe
  | some e => exact Nat.succ_le_succ hframe

/-- This is six words at most. -/
theorem hardwareFrame_length (k : Core) : (hardwareFrame k).length ≤ 6 := deliver_length k none

/-! ### `intr_exit` -/

/-- The registers behind the pops of `intr_exit`. -/
theorem restore_onStack (k : Core) (vec errorCode espDummy : Dword) (k' : Core) (ws : List Dword) :
    ∃ r, onStack k (vec :: (savedRegs k' espDummy ++ errorCode :: ws)) exitCode = some (r, ws) ∧
      (∀ x, x ≠ .esp → r.reg x = k'.reg x) ∧ r.seg = k'.seg ∧ r.ss = k.ss := by
  refine ⟨_, rfl, fun x hx => ?_, ?_, rfl⟩
  · cases x <;> simp [Core.write, Core.popped, Core.setReg, Core.setSeg] at hx ⊢
  · funext x
    cases x <;> simp [Core.write, Core.popped, Core.setReg, Core.setSeg]

/-- `iretd` gives a program what the processor has pushed. In the kernel, `ss` stays. -/
theorem iret_spec {k : Core} (h : c.Stack top (hardwareFrame k))
    (hreg : ∀ r, r ≠ .esp → c.reg r = k.reg r) (hseg : c.seg = k.seg)
    (hesp : Cpu.rpl k.cs = 0 → k.reg .esp = top) (hss : Cpu.rpl k.cs = 0 → c.ss = k.ss) :
    c.iret.program = k.program ∧ c.iret.mem = c.mem := by
  have hcs : ((k.cs.setWidth 32).setWidth 16 : BitVec 16) = k.cs :=
    BitVec.setWidth_setWidth_of_le _ (by decide)
  have heip : c.word 0 = k.eip := h.word rfl
  have hcsw : c.word 1 = k.cs.setWidth 32 := h.word rfl
  have hflags : c.word 2 = k.eflags := h.word rfl
  unfold Cpu.iret
  rw [hcsw, hcs, heip, hflags]
  by_cases hrpl : Cpu.rpl k.cs = 0
  · -- the three words were all that the processor pushed
    have hframe : hardwareFrame k = [k.eip, k.cs.setWidth 32, k.eflags] := by
      rw [hardwareFrame, if_pos hrpl]
      rfl
    have hend : c.reg .esp + BitVec.ofNat 32 (4 * 3) = k.reg .esp := by
      rw [h.addr (by simp [hframe]), hframe, hesp hrpl]
      simp [below]
    rw [if_pos hrpl]
    refine ⟨?_, rfl⟩
    have hregs : (c.toCore.popped 3).reg = k.reg := by
      funext r
      by_cases hr : r = .esp
      · subst hr
        exact (Core.setReg_self _ _ _).trans hend
      · exact (Core.setReg_of_ne _ hr _).trans (hreg r hr)
    simp only [Core.program, hregs]
    rw [show (c.toCore.popped 3).seg = k.seg from hseg, show (c.toCore.popped 3).ss = k.ss
      from hss hrpl]
  · -- `iretd` to another ring takes `esp` and `ss` of the program from the frame too.
    have hframe : hardwareFrame k
        = [k.eip, k.cs.setWidth 32, k.eflags, k.reg .esp, k.ss.setWidth 32] := by
      rw [hardwareFrame, if_neg hrpl]
      rfl
    rw [hframe] at h
    have hespw : c.word 3 = k.reg .esp := h.word rfl
    have hssw : c.word 4 = k.ss.setWidth 32 := h.word rfl
    have hss' : ((k.ss.setWidth 32).setWidth 16 : BitVec 16) = k.ss :=
      BitVec.setWidth_setWidth_of_le _ (by decide)
    rw [if_neg hrpl, hespw, hssw, hss']
    refine ⟨?_, rfl⟩
    have hregs : ((c.toCore.popped 3).setReg .esp (k.reg .esp)).reg = k.reg := by
      funext r
      by_cases hr : r = .esp
      · subst hr
        exact Core.setReg_self _ _ _
      · exact (Core.setReg_of_ne _ hr _).trans ((Core.setReg_of_ne _ hr _).trans (hreg r hr))
    show Program.mk ((c.toCore.popped 3).setReg .esp (k.reg .esp)).reg c.seg k.cs k.ss
      k.eip k.eflags = k.program
    rw [hregs, hseg]
    rfl

/-- `intr_exit` gives a program what its frame has. In the kernel, `ss` stays. -/
theorem intrExit_spec {k : Core} {vec espDummy errorCode : Dword}
    (h : c.Stack top (vec :: trapFrame k espDummy errorCode))
    (hesp : Cpu.rpl k.cs = 0 → k.reg .esp = top) (hss : Cpu.rpl k.cs = 0 → c.ss = k.ss) :
    (intrExit c).program = k.program ∧ (intrExit c).mem = c.mem := by
  obtain ⟨r, hrun, hreg, hseg, hss'⟩ :=
    restore_onStack c.toCore vec errorCode espDummy k (hardwareFrame k)
  have hlen := hardwareFrame_length k
  have hlen' : (vec :: trapFrame k espDummy errorCode).length ≤ 20 := by
    simp only [trapFrame, savedRegs, List.length_cons, List.length_append, List.length_nil]
    omega
  have hcode : exitCode.length = 14 := rfl
  obtain ⟨hcore, hstack, -⟩ := Cpu.run_onStack h (by omega) hrun
  subst hcore
  obtain ⟨hprogram, hmem⟩ := iret_spec hstack hreg hseg hesp fun hrpl => hss'.trans (hss hrpl)
  exact ⟨hprogram, hmem⟩

/-! ### Entries -/

/-- What the entries share: `saveRegs` behind the words of the processor and the error code. -/
theorem saveRegs_onStack (k : Core) (ws : List Dword) :
    ∃ r d, onStack k ws saveRegs = some (r, savedRegs k d ++ ws) ∧
      (∀ x, x ≠ .esp → r.reg x = k.reg x) ∧ r.seg = k.seg ∧ r.ss = k.ss ∧ r.cr2 = k.cr2 ∧
      r.sent = k.sent := by
  refine ⟨_, _, rfl, fun x hx => ?_, rfl, rfl, rfl, rfl⟩
  cases x <;> simp [Core.pushed, Core.setReg] at hx ⊢

/-- The saved registers depend on the registers, apart from `esp`. -/
theorem savedRegs_congr {k k' : Core} (hreg : ∀ r, r ≠ .esp → k'.reg r = k.reg r)
    (hseg : k'.seg = k.seg) (d : Dword) : savedRegs k' d = savedRegs k d := by
  simp only [savedRegs, hreg _ (show Reg.edi ≠ .esp by decide),
    hreg _ (show Reg.esi ≠ .esp by decide),
    hreg _ (show Reg.ebp ≠ .esp by decide), hreg _ (show Reg.ebx ≠ .esp by decide),
    hreg _ (show Reg.edx ≠ .esp by decide), hreg _ (show Reg.ecx ≠ .esp by decide),
    hreg _ (show Reg.eax ≠ .esp by decide), hseg]

/-- `al` after `mov al, v`. -/
theorem movAl_al (k : Core) (v : BitVec 8) : ((k.movAl v).reg .eax).setWidth 8 = v := by
  rw [Core.movAl, Core.setReg_self, BitVec.setWidth_or, BitVec.setWidth_and,
    BitVec.setWidth_setWidth_of_le _ (by decide)]
  simp

/-- Both controllers get the end of interrupt. -/
theorem eoi_onStack (k : Core) (ws : List Dword) :
    ∃ r, onStack k ws eoi = some (r, ws) ∧ r.sent = k.sent ++ [(0xa0, 0x20), (0x20, 0x20)] ∧
      (∀ x, x ≠ .eax → r.reg x = k.reg x) ∧ r.seg = k.seg ∧ r.ss = k.ss ∧ r.cr2 = k.cr2 := by
  refine ⟨_, rfl, ?_, fun x hx => Core.setReg_of_ne _ hx _, rfl, rfl, rfl⟩
  show k.sent ++ [(0xa0, ((k.movAl 0x20).reg .eax).setWidth 8)]
    ++ [(0x20, ((k.movAl 0x20).reg .eax).setWidth 8)] = _
  rw [movAl_al, List.append_assoc]
  rfl

/-- The processor, and the `VECTOR` in front of its call, build a `struct intr_stack`. -/
theorem vectorCode_onStack (k : Core) {v : BitVec 8} {error : Option Dword}
    (hcode : error.isSome = hasErrorCode v) (ws : List Dword) :
    ∃ r d, onStack k (error.toList ++ ws) (vectorCode v)
        = some (r, v.setWidth 32 :: (savedRegs k d ++ error.getD 0 :: ws)) ∧
      r.ss = k.ss ∧ r.sent = k.sent ++ [(0xa0, 0x20), (0x20, 0x20)] := by
  -- the error code is there, from the processor or from the `VECTOR`
  obtain ⟨k₀, hk₀, hreg, hseg, hss, hsent⟩ : ∃ k₀, onStack k (error.toList ++ ws)
      (if hasErrorCode v then [] else [.push (.imm 0)]) = some (k₀, error.getD 0 :: ws) ∧
      (∀ r, r ≠ .esp → k₀.reg r = k.reg r) ∧ k₀.seg = k.seg ∧ k₀.ss = k.ss ∧ k₀.sent = k.sent := by
    rw [← hcode]
    cases error with
    | none => exact ⟨k.pushed, rfl, fun r hr => Core.setReg_of_ne _ hr _, rfl, rfl, rfl⟩
    | some e => exact ⟨k, rfl, fun _ _ => rfl, rfl, rfl, rfl⟩
  obtain ⟨k₁, d, hk₁, -, -, hss₁, -, hsent₁⟩ := saveRegs_onStack k₀ (error.getD 0 :: ws)
  obtain ⟨k₂, hk₂, hsent₂, -, -, hss₂, -⟩ := eoi_onStack k₁ (savedRegs k₀ d ++ error.getD 0 :: ws)
  refine ⟨k₂.pushed, d, ?_, ?_, ?_⟩
  · rw [vectorCode, onStack_append, onStack_append, onStack_append, hk₀, Option.bind_some, hk₁,
      Option.bind_some, hk₂, Option.bind_some, savedRegs_congr hreg hseg]
    rfl
  · exact hss₂.trans (hss₁.trans hss)
  · exact hsent₂.trans (congrArg (· ++ _) (hsent₁.trans hsent))

/-- The entry code of a vector is short. -/
theorem vectorCode_length (v : BitVec 8) : (vectorCode v).length ≤ 17 := by
  have hsave : saveRegs.length = 12 := rfl
  have heoi : eoi.length = 3 := rfl
  unfold vectorCode
  split <;> simp [hsave, heoi]

/-- The whole frame has 19 words at most. -/
theorem trapFrame_length (k : Core) (d e : Dword) : (trapFrame k d e).length ≤ 19 := by
  have := hardwareFrame_length k
  simp only [trapFrame, savedRegs, List.length_cons, List.length_append, List.length_nil]
  omega

/-- The words of `saveRegs` behind the processor are a frame. -/
theorem Trapped.frame {k : Core} {error : Option Dword} (h : Trapped k error top c) (d e : Dword) :
    savedRegs c.toCore d ++ e :: hardwareFrame k = trapFrame k d e := by
  rw [trapFrame, savedRegs_congr h.reg h.seg]

/-- `intr_exit` behind a C function that keeps the frame. -/
theorem Trapped.exit {k : Core} {error : Option Dword} (h : Trapped k error top c) {c₁ c₂ : Cpu}
    {d e vec : Dword} (hss : c₁.ss = c.ss)
    (hreturns : Returns 1 top (vec :: trapFrame k d e) c₁ c₂) :
    (intrExit c₂).program = k.program ∧ (intrExit c₂).mem = c₂.mem := by
  obtain ⟨args, hargs, hstack⟩ := hreturns.stack
  obtain ⟨vec', rfl⟩ := List.length_eq_one_iff.mp hargs
  exact intrExit_spec hstack h.esp fun hrpl => hreturns.ss.trans (hss.trans (h.ss hrpl))

/-- The state behind the call in `VECTOR v`. -/
def vectorCalled (v : BitVec 8) (next : Dword) (c : Cpu) : Cpu := (c.run (vectorCode v)).push next

/-- The state behind the call in `page_fault_handler`. -/
def pageFaultCalled (next : Dword) (c : Cpu) : Cpu := (c.run pageFaultCode).push next

/-- The state behind the call in `syscall_handler`. -/
def syscallCalled (next : Dword) (c : Cpu) : Cpu := (c.run syscallCode).push next

/-- The page fault handler calls one of two functions, by the present bit of the error code. -/
theorem pageFaultHandler_eq (notPresent protect : Cpu → Cpu) (next : Dword) (c : Cpu) :
    pageFaultHandler notPresent protect next c = intrExit
      ((if (c.run pageFaultCode).reg .eax &&& 1 = 0 then notPresent else protect)
        (pageFaultCalled next c)) :=
  rfl

/-- The system call handler calls the function of the table, and stores its result in the frame. -/
theorem syscallHandler_eq (table : Dword → Cpu → Cpu) (next : Dword) (c : Cpu) :
    syscallHandler table next c
      = intrExit ((table ((c.run syscallCode).reg .eax) (syscallCalled next c)).run
      [.drop 4, .poke INTR_EAX .eax]) :=
  rfl

/-- `page_fault_handler` finds the error code, and has `cr2` on the stack. -/
theorem pageFaultCode_onStack (k : Core) (e : Dword) (ws : List Dword) :
    ∃ r d, onStack k (e :: ws) pageFaultCode = some (r, k.cr2 :: (savedRegs k d ++ e :: ws)) ∧
      r.reg .eax = e ∧ r.ss = k.ss := by
  obtain ⟨k₁, d, hk₁, -, -, hss₁, hcr₁, -⟩ := saveRegs_onStack k (e :: ws)
  obtain ⟨k₂, hk₂, -, -, -, hss₂, hcr₂⟩ := eoi_onStack k₁ (savedRegs k d ++ e :: ws)
  refine ⟨((k₂.setReg .eax e).setReg .ebx k₂.cr2).pushed, d, ?_, ?_, hss₂.trans hss₁⟩
  · rw [pageFaultCode, onStack_append, onStack_append, hk₁, Option.bind_some, hk₂, Option.bind_some,
      ← hcr₁, ← hcr₂]
    rfl
  · simp [Core.pushed, Core.setReg]

/-- `syscall_handler` has the arguments on the stack, and the number in `eax`. -/
theorem syscallCode_onStack (k : Core) (ws : List Dword) :
    ∃ r d, onStack k ws syscallCode
      = some (r, k.reg .ebx :: k.reg .ecx :: k.reg .edx :: k.reg .esi ::
        0x80 :: (savedRegs k d ++ 0 :: ws)) ∧ r.reg .eax = k.reg .eax ∧ r.ss = k.ss := by
  obtain ⟨k₁, d, hk₁, hreg₁, -, hss₁, -⟩ := saveRegs_onStack k.pushed (0 :: ws)
  have hpushed (r : Reg) (hr : r ≠ .esp) : k.pushed.reg r = k.reg r := Core.setReg_of_ne _ hr _
  have hreg (r : Reg) (hr : r ≠ .esp) : k₁.reg r = k.reg r := (hreg₁ r hr).trans (hpushed r hr)
  have hzero : onStack k ws [.push (.imm 0)] = some (k.pushed, 0 :: ws) := rfl
  refine ⟨k₁.pushed.pushed.pushed.pushed.pushed, d, ?_, ?_, hss₁⟩
  · rw [syscallCode, onStack_append, onStack_append, hzero, Option.bind_some, hk₁, Option.bind_some,
      savedRegs_congr hpushed rfl, ← hreg .ebx (by decide), ← hreg .ecx (by decide),
      ← hreg .edx (by decide), ← hreg .esi (by decide)]
    rfl
  · simp [Core.pushed, Core.setReg, hreg]

/-- The stack that the handler of a vector finds: the vector, and the frame below. The end of
interrupt has been sent. -/
theorem Trapped.vector {k : Core} {error : Option Dword} {v : BitVec 8} (h : Trapped k error top c)
    (hcode : error.isSome = hasErrorCode v) (next : Dword) :
    (∃ d, (vectorCalled v next c).Stack top
    (next :: v.setWidth 32 :: trapFrame k d (error.getD 0))) ∧
      (vectorCalled v next c).ss = c.ss ∧
      (vectorCalled v next c).sent = k.sent ++ [(0xa0, 0x20), (0x20, 0x20)] := by
  obtain ⟨r, d, hrun, hss, hsent⟩ := vectorCode_onStack c.toCore hcode (hardwareFrame k)
  rw [h.frame] at hrun
  have hlen := trapFrame_length k d (error.getD 0)
  have hpushed := deliver_length k error
  have hvector := vectorCode_length v
  obtain ⟨hcore, hstack, -⟩ := Cpu.run_onStack h.stack (by omega) hrun
  unfold vectorCalled
  generalize c.run (vectorCode v) = c' at hcore hstack ⊢
  subst hcore
  exact ⟨⟨d, hstack.push (by simp only [List.length_cons]; omega) next⟩, hss,
    hsent.trans (congrArg (· ++ _) h.sent)⟩

/-- The stack that the page fault functions find: the address, and the frame. -/
theorem Trapped.pageFault {k : Core} {e : Dword} (h : Trapped k (some e) top c) (next : Dword) :
    (∃ d, (pageFaultCalled next c).Stack top (next :: k.cr2 :: trapFrame k d e)) ∧
      (pageFaultCalled next c).ss = c.ss ∧ (c.run pageFaultCode).reg .eax = e := by
  obtain ⟨r, d, hrun, heax, hss⟩ := pageFaultCode_onStack c.toCore e (hardwareFrame k)
  rw [h.frame, h.cr2] at hrun
  have hlen := trapFrame_length k d e
  have hpushed := deliver_length k (some e)
  have hcode : pageFaultCode.length = 18 := rfl
  obtain ⟨hcore, hstack, -⟩ := Cpu.run_onStack h.stack (by omega) hrun
  unfold pageFaultCalled
  generalize c.run pageFaultCode = c' at hcore hstack ⊢
  subst hcore
  exact ⟨⟨d, hstack.push (by simp only [List.length_cons]; omega) next⟩, hss, heax⟩

/-- The stack that a system call finds: its four arguments, and the frame. -/
theorem Trapped.syscall {k : Core} (h : Trapped k none top c) (next : Dword) :
    (∃ d, (syscallCalled next c).Stack top (next :: k.reg .ebx :: k.reg .ecx :: k.reg .edx ::
        k.reg .esi :: 0x80 :: trapFrame k d 0)) ∧
      (syscallCalled next c).ss = c.ss ∧ (c.run syscallCode).reg .eax = k.reg .eax := by
  obtain ⟨r, d, hrun, heax, hss⟩ := syscallCode_onStack c.toCore (hardwareFrame k)
  rw [h.frame, h.reg .ebx (by decide), h.reg .ecx (by decide), h.reg .edx (by decide),
    h.reg .esi (by decide)] at hrun
  have hlen := trapFrame_length k d 0
  have hpushed := deliver_length k none
  have hcode : syscallCode.length = 18 := rfl
  obtain ⟨hcore, hstack, -⟩ := Cpu.run_onStack h.stack (by omega) hrun
  unfold syscallCalled
  generalize c.run syscallCode = c' at hcore hstack ⊢
  subst hcore
  exact ⟨⟨d, hstack.push (by simp only [List.length_cons]; omega) next⟩, hss,
    heax.trans (h.reg .eax (by decide))⟩

/-- `syscall_handler` behind the call. -/
theorem resultCode_onStack (k : Core) {args : List Dword} (hargs : args.length = 4) {vec : Dword}
    {ws : List Dword} (hlen : INTR_EAX < (vec :: ws).length) :
    onStack k (args ++ vec :: ws) [.drop 4, .poke INTR_EAX .eax]
      = some (k.popped 4, (vec :: ws).set INTR_EAX (k.reg .eax)) := by
  have hdrop : (args ++ vec :: ws).drop 4 = vec :: ws := List.drop_left' hargs
  have heax : (k.popped 4).reg .eax = k.reg .eax := Core.setReg_of_ne _ (by decide) _
  simp only [onStack, Instr.onStack, Option.bind_eq_bind]
  rw [if_pos (by simp [hargs]), Option.bind_some, hdrop, if_pos hlen, heax]
  rfl

/-- The result of a system call goes to the place of `eax` in the frame. -/
theorem poke_eax (k : Core) (r d vec : Dword) :
    (vec :: trapFrame k d 0).set INTR_EAX r = vec :: trapFrame (k.setReg .eax r) d 0 := by
  simp [INTR_EAX, trapFrame, savedRegs, hardwareFrame, Core.setReg]

end

/-! ### Results -/

/-- An interrupt with a handler that keeps to the calling convention changes nothing that the
program or the kernel code under it sees of the processor, at any privilege level: `VECTOR` and
`intr_exit` restore all registers, the flags and the place, when the `VECTOR` and the processor
agree on the error code. Both interrupt controllers get the end of interrupt before the call, and
memory is as the handler leaves it. -/
theorem vector_transparent {v : BitVec 8} {error : Option Dword}
    (hcode : error.isSome = hasErrorCode v)
    (c : Cpu) (g : Cpu.Gate) (next : Dword) {handler : Cpu → Cpu} {c₁ : Cpu}
    (hc₁ : c₁ = vectorCalled v next (c.deliver g error))
    (hobeys : Obeys 1 (trapTop g c) handler c₁) :
    (vectorEntry v handler next (c.deliver g error)).program = c.program ∧
      (vectorEntry v handler next (c.deliver g error)).mem = (handler c₁).mem ∧
      c₁.sent = c.sent ++ [(0xa0, 0x20), (0x20, 0x20)] := by
  have h := deliver_trapped c g error
  obtain ⟨⟨d, hstack⟩, hss, hsent⟩ := h.vector hcode next
  rw [← hc₁] at hstack hss hsent
  have hlen := trapFrame_length c.toCore d (error.getD 0)
  have hreturns := hobeys next _ hstack (by simp) (by simp only [List.length_cons]; omega)
  obtain ⟨hprogram, hmem⟩ := h.exit hss hreturns
  rw [show vectorEntry v handler next (c.deliver g error) = intrExit (handler c₁) from hc₁ ▸ rfl]
  exact ⟨hprogram, hmem, hsent⟩

/-- A C function that saves `ebx`, takes its argument to `eax`, and overwrites the argument. -/
def argumentCode : List Instr :=
  [.push (.reg .ebx), .peek .ebx 2, .push (.reg .ebx), .pop (.reg .eax), .poke 2 .ecx,
    .pop (.reg .ebx)]

/-- A function in machine code that returns its first argument. -/
def returnsArgument (c : Cpu) : Cpu := (c.run argumentCode).ret

/-- It keeps the rules for calls. -/
theorem returnsArgument_obeys {n : Nat} (hn : 0 < n) (top : Dword) (c : Cpu) :
    Obeys n top returnsArgument c := by
  refine Obeys.code (by decide) fun next ws hlen => ?_
  obtain ⟨n, rfl⟩ : ∃ m, n = m + 1 := ⟨n - 1, by omega⟩
  cases ws with
  | nil => simp at hlen
  | cons a ws =>
    obtain ⟨k, hrun, hreg, hseg, hcs, hss⟩ : ∃ k,
        onStack c.toCore (next :: a :: ws) argumentCode = some (k, next :: c.reg .ecx :: ws) ∧
        (∀ r ∈ [Reg.ebx, .ebp, .esi, .edi], k.reg r = c.reg r) ∧ k.seg = c.seg ∧ k.cs = c.cs ∧
        k.ss = c.ss := by
      refine ⟨_, rfl, ?_, rfl, rfl, rfl⟩
      simp only [List.forall_mem_cons]
      exact ⟨rfl, rfl, rfl, rfl, fun _ h => absurd h List.not_mem_nil⟩
    refine ⟨k, c.reg .ecx :: ws.take n, ?_, ?_, hreg, hseg, hcs, hss⟩
    · rw [List.length_cons, List.length_take_of_le (Nat.le_of_succ_le_succ hlen)]
    · rw [List.drop_succ_cons, List.cons_append, List.take_append_drop]
      exact hrun

/-- The timer interrupts a program, and its handler has the vector in `eax` at its end. -/
theorem vector_transparent_timer :
    let g : Cpu.Gate := ⟨0x08, 0xc0001000, 0x10, stackTop mainTask⟩
    let c : Cpu := { mainState.cpu with cs := 0x1b }
    let c₁ := vectorCalled 0x20 0xc0001100 (c.deliver g none)
    (returnsArgument c₁).reg .eax = 0x20 ∧
      (vectorEntry 0x20 returnsArgument 0xc0001100 (c.deliver g none)).program = c.program ∧
      (vectorEntry 0x20 returnsArgument 0xc0001100 (c.deliver g none)).mem
        = (returnsArgument c₁).mem ∧
      c₁.sent = c.sent ++ [(0xa0, 0x20), (0x20, 0x20)] :=
  ⟨by decide, vector_transparent (by decide) _ _ _ rfl (returnsArgument_obeys (by decide) _ _)⟩

/-- A page fault calls `page_not_present` or `page_protect_fault`, as the error code says, with the
address of the fault, and then the program tries again with the registers that it had. -/
theorem pageFault_transparent (c : Cpu) (g : Cpu.Gate) (e next : Dword)
    {notPresent protect f : Cpu → Cpu}
    (hf : f = if e &&& 1 = 0 then notPresent else protect) {c₁ : Cpu}
    (hc₁ : c₁ = pageFaultCalled next (c.deliver g (some e))) (hobeys : Obeys 1 (trapTop g c) f c₁) :
    (pageFaultHandler notPresent protect next (c.deliver g (some e))).program = c.program ∧
      (pageFaultHandler notPresent protect next (c.deliver g (some e))).mem = (f c₁).mem ∧
      c₁.word 1 = c.cr2 := by
  have h := deliver_trapped c g (some e)
  obtain ⟨⟨d, hstack⟩, hss, heax⟩ := h.pageFault next
  rw [← hc₁] at hstack hss
  have hlen := trapFrame_length c.toCore d e
  have hreturns := hobeys next _ hstack (by simp) (by simp only [List.length_cons]; omega)
  obtain ⟨hprogram, hmem⟩ := h.exit hss hreturns
  rw [pageFaultHandler_eq, heax, ← hf, ← hc₁]
  exact ⟨hprogram, hmem, hstack.word rfl⟩

/-- A page of a program is not present. -/
theorem pageFault_transparent_user :
    let g : Cpu.Gate := ⟨0x08, 0xc0001000, 0x10, stackTop mainTask⟩
    let c : Cpu := { mainState.cpu with cs := 0x1b, cr2 := 0x8048000 }
    let c₁ := pageFaultCalled 0xc0001100 (c.deliver g (some 4))
    (pageFaultHandler returnsArgument id 0xc0001100 (c.deliver g (some 4))).program = c.program ∧
      (pageFaultHandler returnsArgument id 0xc0001100 (c.deliver g (some 4))).mem
        = (returnsArgument c₁).mem ∧
      c₁.word 1 = c.cr2 :=
  @pageFault_transparent _ _ 4 _ returnsArgument id _ rfl _ rfl
    (returnsArgument_obeys (by decide) _ _)

/-- A system call: the function of `syscall_table` for `eax` gets `ebx`, `ecx`, `edx` and `esi` as
its arguments, and its result is in `eax` afterwards. The program sees nothing else. -/
theorem syscall_transparent (c : Cpu) (g : Cpu.Gate) (next : Dword)
    {table : Dword → Cpu → Cpu} {c₁ : Cpu} (hc₁ : c₁ = syscallCalled next (c.deliver g none))
    (hobeys : Obeys 4 (trapTop g c) (table (c.reg .eax)) c₁) :
    (syscallHandler table next (c.deliver g none)).program
        = (c.toCore.setReg .eax ((table (c.reg .eax) c₁).reg .eax)).program ∧
      c₁.word 1 = c.reg .ebx ∧ c₁.word 2 = c.reg .ecx ∧ c₁.word 3 = c.reg .edx ∧
      c₁.word 4 = c.reg .esi := by
  have h := deliver_trapped c g none
  obtain ⟨⟨d, hstack⟩, hss, heax⟩ := h.syscall next
  rw [← hc₁] at hstack hss
  have hlen := trapFrame_length c.toCore d 0
  have hreturns := hobeys next _ hstack (by simp) (by simp only [List.length_cons]; omega)
  obtain ⟨args, hargs, hstack'⟩ := hreturns.stack
  refine ⟨?_, hstack.word rfl, hstack.word rfl, hstack.word rfl, hstack.word rfl⟩
  rw [syscallHandler_eq, heax, ← hc₁]
  generalize table (c.reg .eax) c₁ = c₂ at hreturns hstack'
  have hframe : INTR_EAX < (0x80 :: trapFrame c.toCore d 0).length := by
    simp [INTR_EAX, trapFrame, savedRegs]
  obtain ⟨hcore, hstack', -⟩ := Cpu.run_onStack hstack'
    (by simp only [List.length_append, List.length_drop, List.length_cons, List.length_nil]; omega)
    (resultCode_onStack c₂.toCore hargs hframe)
  rw [poke_eax] at hstack'
  have hss' : ((c₂.run [.drop 4, .poke INTR_EAX .eax]).toCore).ss = c₁.ss :=
    (congrArg Core.ss hcore).trans hreturns.ss
  exact (intrExit_spec hstack' (fun hrpl => h.esp hrpl) fun hrpl =>
    hss'.trans (hss.trans (h.ss hrpl))).1

end Fizzos.Proofs
