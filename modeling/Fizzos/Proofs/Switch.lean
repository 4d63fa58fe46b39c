import Fizzos.Kernel.Switch
import Fizzos.Proofs.SelfMap

/-!
# `Fizzos.Proofs.Switch`: a task goes on where it stopped

`SwitchInv` says that each task that waits has its words (`Context.frame`) at the end of its page,
with their address in the first word of the page. A switch keeps it for the old task, and pops the
words of the next one (`SwitchInv.switched`). The stores to a new page put such words there as well.
The results follow the words of one task through any run up to the switch that goes to it
(`SwitchInv.resumes`).
-/

set_option autoImplicit false

namespace Fizzos.Proofs

open Fizzos.Kernel
open Fizzos.Support
open Fizzos.Support.X86

/-! ### Pages -/

section
variable {t u a : Dword} {k : Nat}

/-- The address of the page around an address. -/
theorem page_toNat (a : Dword) :
    (a &&& 0xfffff000).toNat = a.toNat / PG_SIZE * PG_SIZE := pageBase_eq a

/-- The address of a task is the start of a page. -/
theorem aligned_toNat (ht : t &&& 0xfff = 0) : t.toNat % PG_SIZE = 0 := by
  have := congrArg BitVec.toNat ht
  rw [BitVec.toNat_and] at this
  exact (Nat.and_two_pow_sub_one_eq_mod t.toNat 12).symm.trans this

/-- The words of a stack are in the page of their task. -/
theorem page_below (ht : t &&& 0xfff = 0) (hk : 1 ≤ k) (hle : k ≤ PG_WORDS) :
    below (stackTop t) k &&& 0xfffff000 = t := by
  have halign := aligned_toNat ht
  have hlt := t.isLt
  have haddr : (below (stackTop t) k).toNat = t.toNat + (PG_SIZE - 4 * k) := by
    simp only [below, stackTop, BitVec.toNat_sub, BitVec.toNat_add, BitVec.toNat_ofNat, PG_SIZE,
      PG_WORDS] at *
    omega
  apply BitVec.eq_of_toNat_eq
  rw [page_toNat, haddr]
  simp only [PG_SIZE, PG_WORDS] at *
  omega

/-- The start of the page is the last word that the stack could get. -/
theorem below_words (t : Dword) : below (stackTop t) PG_WORDS = t :=
  BitVec.add_sub_cancel t (BitVec.ofNat 32 PG_SIZE)

/-- A stack in the page of its task makes `get_current` find the task. -/
theorem getCurrent_eq {c : Cpu} {ws : List Dword} (ht : t &&& 0xfff = 0)
    (h : c.Stack (stackTop t) ws)
    (hpos : 1 ≤ ws.length) (hle : ws.length ≤ PG_WORDS) : getCurrent c = t := by
  rw [getCurrent, h.esp]
  exact page_below ht hpos hle

end

/-! ### `switch_to` -/

/-- The instructions in front of `mov [eax], esp`. -/
def saveCode : List Instr := switchToCode.take 5

/-- The instructions that change the stack. -/
def changeCode : List Instr := [.store .eax .esp, .peek .eax 6, .load .esp .eax]

/-- The instructions behind `mov esp, [eax]`. -/
def restoreCode : List Instr := switchToCode.drop 8

/-- The state in front of `mov [eax], esp`. -/
def switchSaved (c : Cpu) (now next back : Dword) : Cpu :=
  (((c.push next).push now).push back).run saveCode

/-- A call of `switch_to`: the registers are saved, `esp` is exchanged, and they are restored. -/
theorem callSwitchTo_eq (c : Cpu) (now next back : Dword) :
    callSwitchTo c now next back
      = (((switchSaved c now next back).run changeCode).run restoreCode).ret := by
  rw [switchSaved, ← Cpu.run_append, ← Cpu.run_append]
  rfl

section
variable {c : Cpu} {now next back : Dword} {ws : List Dword}

/-- The words that `switch_to` has on the stack of the old task. -/
def savedWords (c : Cpu) (now next back : Dword) (ws : List Dword) : List Dword :=
  c.reg .ebp :: c.reg .ebx :: c.reg .edi :: c.reg .esi :: back :: now :: next :: ws

/-- The first part of `switch_to` pushes the registers, and finds `now`. -/
theorem switchSaved_spec {top : Dword} (h : c.Stack top ws) (hroom : ws.length + 7 < PG_WORDS) :
    (switchSaved c now next back).Stack top (savedWords c now next back ws) ∧
      (switchSaved c now next back).reg .eax = now ∧
      SameOutside top PG_WORDS c.mem (switchSaved c now next back).mem := by
  have hpage : PG_WORDS < 2 ^ 30 := by decide
  have hcode : saveCode.length = 5 := rfl
  have hnext := h.push (by omega) next
  have hnow := hnext.push (by simp only [List.length_cons]; omega) now
  have hback := hnow.push (by simp only [List.length_cons]; omega) back
  have hrun : onStack (((c.push next).push now).push back).toCore
      (back :: now :: next :: ws) saveCode
      = some ((c.toCore.pushed.pushed.pushed.pushed.pushed.pushed.pushed).setReg .eax now,
        savedWords c now next back ws) := rfl
  obtain ⟨hcore, hstack, hout⟩ :=
    Cpu.run_onStack hback (by simp only [List.length_cons]; omega) hrun
  refine ⟨hstack, (congrArg (Core.reg · .eax) hcore).trans (Core.setReg_self _ _ _), ?_⟩
  have hpush : SameOutside top PG_WORDS c.mem (((c.push next).push now).push back).mem :=
    ((h.push_outside next).mono (by omega)).trans
      (((hnext.push_outside now).mono (by simp only [List.length_cons]; omega)).trans
        ((hnow.push_outside back).mono (by simp only [List.length_cons]; omega)))
  exact hpush.trans (hout.mono (by simp only [List.length_cons]; omega))

/-- The stores of `switch_to` are in the page of the old task, and `esp` comes from the page of the
next task. -/
theorem switchChanged_spec (h : c.Stack (stackTop now) ws)
    (hroom : ws.length + 7 < PG_WORDS) {c' : Cpu}
    (hc' : (switchSaved c now next back).run changeCode = c') :
    StackAt (stackTop now) c'.mem (savedWords c now next back ws) ∧
      c'.mem now = below (stackTop now) (ws.length + 7) ∧
      SameOutside (stackTop now) PG_WORDS c.mem c'.mem ∧ c'.reg .esp = c'.mem next := by
  obtain ⟨hstack, heax, hout⟩ := @switchSaved_spec c now next back ws _ h hroom
  generalize switchSaved c now next back = s at hc' hstack heax hout
  have hlen : (savedWords c now next back ws).length = ws.length + 7 := rfl
  -- the first word of the page is not on the stack
  obtain ⟨s₁, hs₁⟩ : ∃ s₁, s.exec (.store .eax .esp) = s₁ := ⟨_, rfl⟩
  have hmem : s₁.mem
      = Function.update s.mem (below (stackTop now) PG_WORDS)
        (below (stackTop now) (ws.length + 7)) := by
    rw [← hs₁, Cpu.exec, heax, hstack.esp, below_words, hlen]
  have hstack₁ : s₁.Stack (stackTop now) (savedWords c now next back ws) := by
    refine ⟨hs₁ ▸ hstack.esp, ?_⟩
    rw [hmem]
    exact hstack.words.update_front (by omega) (by decide) _
  have hword : s₁.word 6 = next := hstack₁.word rfl
  have hmem' : c'.mem = s₁.mem := by
    rw [← hc', ← hs₁]
    rfl
  refine ⟨hmem' ▸ hstack₁.words, ?_, ?_, ?_⟩
  · rw [hmem', hmem, below_words, Function.update_self]
  · rw [hmem', hmem]
    exact hout.trans (SameOutside.update (by decide) (Nat.le_refl _) _)
  · calc c'.reg .esp = ((s₁.exec (.peek .eax 6)).exec (.load .esp .eax)).reg .esp := by
          rw [← hc', ← hs₁]
          rfl
      _ = s₁.mem ((s₁.exec (.peek .eax 6)).reg .eax) := Core.setReg_self _ _ _
      _ = s₁.mem (s₁.word 6) := congrArg s₁.mem (Core.setReg_self _ _ _)
      _ = c'.mem next := by rw [hword, hmem']

/-- The last part of `switch_to` takes the registers of the next task from its stack. -/
theorem restore_resumes {x : Context} {t : Dword} (h : c.Stack (stackTop t) x.frame)
    (hlen : x.frame.length < PG_WORDS) :
    x.Resumes t (c.run restoreCode).ret ∧ (c.run restoreCode).ret.mem = c.mem := by
  have hpage : PG_WORDS = 1024 := rfl
  have hcode : restoreCode.length = 4 := rfl
  have hrun : onStack c.toCore x.frame restoreCode = some
    ((((((((c.toCore.popped 1).setReg .ebp x.ebp).popped 1).setReg .ebx x.ebx).popped 1).setReg
      .edi x.edi).popped 1).setReg .esi x.esi, x.eip :: x.stack) := rfl
  obtain ⟨hcore, hstack, -⟩ := Cpu.run_onStack h (by omega) hrun
  obtain ⟨heip, hstack, hreg⟩ := hstack.ret
  have hreg' (r : Reg) (hr : r ≠ .esp) : (c.run restoreCode).ret.reg r = _ :=
    (hreg r hr).trans (congrArg (Core.reg · r) hcore)
  refine ⟨⟨?_, ?_, ?_, ?_, heip, hstack⟩, rfl⟩
  · exact hreg' .ebp (by decide)
  · exact hreg' .ebx (by decide)
  · exact hreg' .edi (by decide)
  · exact hreg' .esi (by decide)

end

/-! ### Tasks that wait -/

/-- Two memories agree outside of the page of a task. -/
def SameOtherPages (t : Dword) (mem mem' : Dword → Dword) : Prop :=
  ∀ a, a &&& 0xfffff000 ≠ t → mem' a = mem a

/-- A task that waits has `esp` at the start of its page, and its words on the stack. -/
structure Suspended (mem : Dword → Dword) (t : Dword) (x : Context) : Prop where
  page : t &&& 0xfff = 0
  pos : 1 ≤ x.stack.length
  fits : x.frame.length < PG_WORDS
  esp : mem t = below (stackTop t) x.frame.length
  frame : StackAt (stackTop t) mem x.frame

section
variable {mem mem' : Dword → Dword} {t u : Dword} {x : Context}

/-- A write below the top of a stack stays in the page of the stack. -/
theorem SameOutside.otherPages (hu : u &&& 0xfff = 0)
    (h : SameOutside (stackTop u) PG_WORDS mem mem') :
    SameOtherPages u mem mem' := fun a ha => h a fun _ hk hle heq => ha (heq ▸ page_below hu hk hle)

/-- A task waits as before when its saved `esp` and its words are the same. -/
theorem Suspended.congr (h : Suspended mem t x) (hesp : mem' t = mem t)
    (hframe : ∀ k, 1 ≤ k → k ≤ x.frame.length →
      mem' (below (stackTop t) k) = mem (below (stackTop t) k)) : Suspended mem' t x :=
  ⟨h.page, h.pos, h.fits, hesp.trans h.esp, h.frame.congr hframe⟩

/-- Other pages do not matter to a task. -/
theorem Suspended.otherPages (h : Suspended mem t x) (hne : t ≠ u)
    (hsame : SameOtherPages u mem mem') : Suspended mem' t x := by
  have hword (k : Nat) (hk : 1 ≤ k) (hle : k ≤ PG_WORDS) :
      mem' (below (stackTop t) k) = mem (below (stackTop t) k) :=
    hsame _ ((page_below h.page hk hle).trans_ne hne)
  refine h.congr ?_ fun k hk hle => hword k hk (hle.trans h.fits.le)
  have := hword PG_WORDS (by decide) (Nat.le_refl _)
  rwa [below_words] at this

end

/-! ### The invariant -/

/-- The current task has its stack in its page, and the others wait. -/
structure SwitchInv (s : SwitchState) : Prop where
  page : s.current &&& 0xfff = 0
  room : SwitchState.Room s.cpu s.current 0
  waits : ∀ {t x}, s.saved t = some x → Suspended s.cpu.mem t x
  other : s.saved s.current = none

namespace SwitchInv

variable {s : SwitchState}

/-- A task that waits is not the current one. -/
theorem ne_current (h : SwitchInv s) {t : Dword} {x : Context} (hx : s.saved t = some x) :
    t ≠ s.current := by
  rintro rfl
  rw [h.other] at hx
  cases hx

/-- A switch: the task that is next resumes what it waited with, and so does every other task at its
turn. -/
theorem switched (h : SwitchInv s) {next back : Dword} (hroom : SwitchState.Room s.cpu s.current 7)
    {saved : Dword → Option Context}
    (hsaved : ∀ {t x}, saved t = some x →
      s.saved t = some x ∨ t = s.current ∧ x = s.context next back)
    {x : Context} (hx : saved next = some x) :
    SwitchInv (s.switched saved next back) ∧ x.Resumes next (s.switched saved next back).cpu := by
  obtain ⟨ws, hstack, hpos, hlt⟩ := hroom
  have hpage : PG_WORDS = 1024 := rfl
  have hwords : s.words = ws := by
    rw [SwitchState.words, hstack.depth_eq (by omega), hstack.words.wordsAt_eq]
  obtain ⟨c', hc'⟩ : ∃ c', (switchSaved s.cpu s.current next back).run changeCode = c' := ⟨_, rfl⟩
  obtain ⟨hframe, hesp, hout, hnext⟩ := switchChanged_spec hstack hlt hc'
  -- A task that waits has its words in its own page. `switch_to` writes to the page of the current
  -- one only.
  have hwaits {t : Dword} {y : Context} (hy : saved t = some y) : Suspended c'.mem t y := by
    obtain hold | ⟨rfl, rfl⟩ := hsaved hy
    · exact (h.waits hold).otherPages (h.ne_current hold) (SameOutside.otherPages h.page hout)
    · have hctx : (s.context next back).frame = savedWords s.cpu s.current next back ws := by
        rw [Context.frame, SwitchState.context, hwords, savedWords]
      have hlen : (savedWords s.cpu s.current next back ws).length = ws.length + 7 := rfl
      refine ⟨h.page, by simp [SwitchState.context], ?_, ?_, hctx ▸ hframe⟩
      · rw [hctx, hlen]
        omega
      · rw [hctx, hlen, hesp]
  -- The registers are popped in the order that the other switch has pushed them.
  have hx' := hwaits hx
  obtain ⟨hresumes, hmem⟩ := restore_resumes ⟨hnext.trans hx'.esp, hx'.frame⟩ hx'.fits
  rw [← hc', ← callSwitchTo_eq] at hresumes hmem
  refine ⟨⟨hx'.page, ⟨x.stack, hresumes.stack, hx'.pos, ?_⟩, fun {t y} hy => ?_, ?_⟩, hresumes⟩
  · have := hx'.fits
    simp only [Context.frame, List.length_cons] at this
    omega
  · have hne : t ≠ next := by
      rintro rfl
      simp [SwitchState.switched] at hy
    have hy' : saved t = some y := (Function.update_of_ne hne _ _).symm.trans hy
    exact (hmem.trans (congrArg Cpu.mem hc')) ▸ hwaits hy'
  · exact Function.update_self _ _ _

/-- `switch_to`, when the old task waits as well. -/
theorem switchTo (h : SwitchInv s) {next back : Dword} (hroom : SwitchState.Room s.cpu s.current 7)
    {x : Context}
    (hx : Function.update s.saved s.current (some (s.context next back)) next = some x) :
    SwitchInv (s.switched
      (Function.update s.saved s.current (some (s.context next back))) next back) ∧ x.Resumes next
        (s.switched (Function.update s.saved s.current (some (s.context next back)))
          next back).cpu := by
  refine h.switched hroom (fun {t y} hy => ?_) hx
  by_cases ht : t = s.current
  · subst ht
    rw [Function.update_self] at hy
    exact .inr ⟨rfl, (Option.some.inj hy).symm⟩
  · exact .inl ((Function.update_of_ne ht _ _).symm.trans hy)

/-- The next task has something to go on with: it is the current task, or it waits. -/
theorem exists_next (h : SwitchInv s) {next back : Dword}
    (henabled : s.Enabled (.switchTo next back)) :
    ∃ x, Function.update s.saved s.current (some (s.context next back)) next = some x := by
  obtain rfl | hne := henabled.2
  · exact ⟨_, Function.update_self _ _ _⟩
  · obtain ⟨x, hx⟩ := Option.ne_none_iff_exists'.mp hne
    exact ⟨x, (Function.update_of_ne (h.ne_current hx) _ _).trans hx⟩

/-- The current task runs its own code. -/
theorem run (h : SwitchInv s) {c : Cpu} (hroom : SwitchState.Room c s.current 0)
    (hkeeps : s.Keeps c.mem) : SwitchInv { s with cpu := c } where
  page := h.page
  room := hroom
  waits hx := (h.waits hx).congr (hkeeps _ _ hx).1 (hkeeps _ _ hx).2
  other := h.other

/-- A new task in a page of its own. -/
theorem spawn (h : SwitchInv s) {t : Dword} (hfree : s.Free t) {mem : Dword → Dword} {x : Context}
    (hsame : SameOtherPages t s.cpu.mem mem) (hx : Suspended mem t x) :
    SwitchInv { s with
      cpu := { s.cpu with mem }
      saved := Function.update s.saved t (some x) } := by
  obtain ⟨ht, hne, -⟩ := hfree
  obtain ⟨ws, hstack, hpos, hlt⟩ := h.room
  refine ⟨h.page, ⟨ws, ⟨hstack.esp, hstack.words.congr fun k hk hle => ?_⟩, hpos, hlt⟩,
    fun {u y} hy => ?_, ?_⟩
  · exact hsame _ ((page_below h.page hk (by omega)).trans_ne hne.symm)
  · by_cases hu : u = t
    · subst hu
      have hself : Function.update s.saved u (some x) u = some x := Function.update_self _ _ _
      exact Option.some.inj (hself.symm.trans hy) ▸ hx
    · have hy' : s.saved u = some y := (Function.update_of_ne hu _ _).symm.trans hy
      exact (h.waits hy').otherPages hu hsame
  · exact (Function.update_of_ne hne.symm _ _).trans h.other

end SwitchInv

/-! ### New tasks -/

section
variable {mem : Dword → Dword} {t current : Dword} (l : Labels)

/-- The words of a frame, counted from its lowest one. -/
theorem field_below (top : Dword) (k i : Nat) : field (below top (k + i)) i = below top k :=
    below_add top k i

/-- The stores of `init_thread`, by their places on the stack. -/
theorem initThread_eq (mem : Dword → Dword) (t threadfn data : Dword) :
    initThread l mem t threadfn data
    = Function.update (Function.update
      (Function.update (Function.update mem (below (stackTop t) PG_WORDS)
      (below (stackTop t) 27)) (below (stackTop t) 23) l.kthreadStart)
        (below (stackTop t) 21) threadfn)
      (below (stackTop t) 20) data := by
  have hstack : stackTop t - BitVec.ofNat 32 (4 * INTR_STACK) - BitVec.ofNat 32 (4 * SWITCH_DATA)
      = below (stackTop t) 27 := by
    unfold below INTR_STACK SWITCH_DATA
    bv_omega
  rw [initThread, hstack, below_words, field_below (stackTop t) 23 4, field_below (stackTop t) 21 6,
    field_below (stackTop t) 20 7]

/-- Stores to words of a page. -/
theorem SameOtherPages.update (ht : t &&& 0xfff = 0) {mem' : Dword → Dword}
    (h : SameOtherPages t mem mem') {k : Nat} (hk : 1 ≤ k) (hle : k ≤ PG_WORDS) (v : Dword) :
    SameOtherPages t mem (Function.update mem' (below (stackTop t) k) v) := fun a ha =>
  (Function.update_of_ne (fun heq : a = _ => ha (heq ▸ page_below ht hk hle)) _ _).trans (h a ha)

/-- The first word of a page is not on the stack. -/
theorem first_ne_below {k : Nat} (hk : k < PG_WORDS) : t ≠ below (stackTop t) k := by
  have hpage : PG_WORDS = 1024 := rfl
  intro h
  have hk' := (below_inj (by omega) (by omega)).mp ((below_words t).trans h)
  omega

/-- A thread from `init_thread` waits with `kthread_start` as the return address. -/
theorem initThread_waits (ht : t &&& 0xfff = 0) (s : SwitchState) (threadfn data : Dword) :
    Suspended (initThread l s.cpu.mem t threadfn data) t (s.kthreadContext l t threadfn data) ∧
      SameOtherPages t s.cpu.mem (initThread l s.cpu.mem t threadfn data) := by
  have hpage : PG_WORDS = 1024 := rfl
  have hlen : (s.kthreadContext l t threadfn data).frame.length = 27 := rfl
  rw [initThread_eq]
  have h := (stackAt_wordsAt (stackTop t) s.cpu.mem 27).update_front (k := PG_WORDS)
    (by rw [wordsAt_length]; omega) (by decide) (below (stackTop t) 27)
  have h := h.store (wordsAt_length _ _ _) (k := 23) (by decide) (by decide)
      (by decide) l.kthreadStart
  have h := h.store (n := 27) (k := 21) (by simp) (by decide) (by decide) (by decide) threadfn
  have h := h.store (n := 27) (k := 20) (by simp) (by decide) (by decide) (by decide) data
  refine ⟨⟨ht, Nat.le_add_left 1 _, by omega, ?_, h⟩, ?_⟩
  · rw [hlen]
    rw [Function.update_of_ne (first_ne_below (by omega)),
      Function.update_of_ne (first_ne_below (by omega)),
      Function.update_of_ne (first_ne_below (by omega)), below_words, Function.update_self]
  · have hrefl : SameOtherPages t s.cpu.mem s.cpu.mem := fun _ _ => rfl
    exact (((hrefl.update ht (by decide) (by omega) _).update ht (by decide) (by omega) _).update ht
      (by decide) (by omega) _).update ht (by decide) (by omega) _

/-- The stores of `do_fork`, by their places on the stack. -/
theorem forkStack_eq (mem : Dword → Dword) (current new : Dword) : forkStack l mem current new
    = Function.update (Function.update (Function.update (copyTask mem new current)
      (below (stackTop new) PG_WORDS) (below (stackTop new) 24))
        (below (stackTop new) 20) l.intrExit)
      (below (stackTop new) 11) 0 := by
  have hframe : stackTop new - BitVec.ofNat 32 (4 * INTR_STACK) = below (stackTop new) 19 := rfl
  have hstack : below (stackTop new) 19 - BitVec.ofNat 32 (4 * 5) = below (stackTop new) 24 := by
    unfold below
    bv_omega
  rw [forkStack, hframe, hstack, below_words, field_below (stackTop new) 20 4, INTR_EAX,
    field_below (stackTop new) 11 8]

/-- A page that is copied has the words of the other. -/
theorem copyTask_below (ht : t &&& 0xfff = 0) {k : Nat} (hk : 1 ≤ k) (hle : k ≤ PG_WORDS) :
    copyTask mem t current (below (stackTop t) k) = mem (below (stackTop current) k) := by
  rw [copyTask, if_pos (page_below ht hk hle)]
  refine congrArg mem ?_
  unfold below stackTop
  generalize BitVec.ofNat 32 PG_SIZE = size
  bv_omega

/-- A child of `do_fork` waits with `intr_exit` as the return address. -/
theorem forkStack_waits (ht : t &&& 0xfff = 0) (s : SwitchState) :
    Suspended (forkStack l s.cpu.mem s.current t) t (s.forkContext l) ∧
      SameOtherPages t s.cpu.mem (forkStack l s.cpu.mem s.current t) := by
  have hpage : PG_WORDS = 1024 := rfl
  have hlen : (s.forkContext l).frame.length = 24 := rfl
  rw [forkStack_eq]
  have hcopy : wordsAt (stackTop t) (copyTask s.cpu.mem t s.current) 24
      = wordsAt (stackTop s.current) s.cpu.mem 24 :=
    wordsAt_congr fun k hk hle => copyTask_below ht hk (by omega)
  have h := hcopy ▸ stackAt_wordsAt (stackTop t) (copyTask s.cpu.mem t s.current) 24
  have h := h.update_front (k := PG_WORDS) (by rw [wordsAt_length]; omega) (by decide)
    (below (stackTop t) 24)
  have h := h.store (wordsAt_length _ _ _) (k := 20) (by decide) (by decide) (by decide) l.intrExit
  have h := h.store (n := 24) (k := 11) (by simp) (by decide) (by decide) (by decide) 0
  refine ⟨⟨ht, Nat.le_add_left 1 _, by omega, ?_, h⟩, ?_⟩
  · rw [hlen, Function.update_of_ne (first_ne_below (by omega)),
      Function.update_of_ne (first_ne_below (by omega)), below_words, Function.update_self]
  · have hother : SameOtherPages t s.cpu.mem (copyTask s.cpu.mem t s.current) :=
      fun a ha => if_neg ha
    exact ((hother.update ht (by decide) (by omega) _).update ht (by decide) (by omega) _).update ht
      (by decide) (by omega) _

end

/-! ### Runs -/

/-- The switch system keeps its invariant. -/
theorem switchSystem_inductive (l : Labels) : (switchSystem l).Inductive SwitchInv where
  init h := by
    refine ⟨h.page, h.room, fun {t x} hx => ?_, h.saved _⟩
    rw [h.saved t] at hx
    cases hx
  step {s s' a} h henabled hnext := by
    cases a with
    | run c =>
        cases hnext
        exact h.run henabled.1 henabled.2
    | switchTo next back =>
        cases hnext
        obtain ⟨x, hx⟩ := h.exists_next henabled
        exact (h.switchTo henabled.1 hx).1
    | exit next back =>
        cases hnext
        obtain ⟨x, hx⟩ := Option.ne_none_iff_exists'.mp henabled.2
        exact (h.switched henabled.1 .inl hx).1
    | kthreadCreate t threadfn data =>
        cases hnext
        obtain ⟨hwaits, hsame⟩ := initThread_waits l henabled.1 s threadfn data
        exact h.spawn henabled hsame hwaits
    | fork t =>
        cases hnext
        obtain ⟨hwaits, hsame⟩ := forkStack_waits l henabled.1 s
        exact h.spawn henabled hsame hwaits

/-- The processor goes to the task `t`. -/
def SwitchAct.To (t : Dword) : SwitchAct → Prop
  | .switchTo next _ | .exit next _ => next = t
  | .run _ | .kthreadCreate _ _ _ | .fork _ => False

section
variable {l : Labels} {s s' : SwitchState} {a : SwitchAct} {t : Dword} {x : Context}

/-- A task waits until the processor goes to it. -/
theorem SwitchInv.away (h : SwitchInv s) (hx : s.saved t = some x) (henabled : s.Enabled a)
    (hnext : s.next l a = .ok s') (haway : ¬SwitchAct.To t a) : s'.saved t = some x := by
  have hne := h.ne_current hx
  have hnew {u : Dword} (hfree : s.Free u) : t ≠ u := by
    rintro rfl
    rw [hfree.2.2] at hx
    cases hx
  cases a with
  | run c =>
      cases hnext
      exact hx
  | switchTo next back =>
      cases hnext
      exact (Function.update_of_ne (Ne.symm haway) _ _).trans
        ((Function.update_of_ne hne _ _).trans hx)
  | exit next back =>
      cases hnext
      exact (Function.update_of_ne (Ne.symm haway) _ _).trans hx
  | kthreadCreate u threadfn data =>
      cases hnext
      exact (Function.update_of_ne (hnew henabled) _ _).trans hx
  | fork u =>
      cases hnext
      exact (Function.update_of_ne (hnew henabled) _ _).trans hx

/-- When the processor goes to a task, this task resumes what it waited with. -/
theorem SwitchInv.arrive (h : SwitchInv s) (hx : s.saved t = some x) (henabled : s.Enabled a)
    (hnext : s.next l a = .ok s') (ha : SwitchAct.To t a) :
    x.Resumes t s'.cpu ∧ getCurrent s'.cpu = t := by
  have hwaits := h.waits hx
  have hle : x.stack.length ≤ PG_WORDS := by
    have := hwaits.fits
    simp only [Context.frame, List.length_cons] at this
    omega
  have hresumes : x.Resumes t s'.cpu := by
    cases a with
    | switchTo next back =>
        cases ha
        cases hnext
        exact (h.switchTo henabled.1 ((Function.update_of_ne (h.ne_current hx) _ _).trans hx)).2
    | exit next back =>
        cases ha
        cases hnext
        exact (h.switched henabled.1 .inl hx).2
    | run _ | kthreadCreate _ _ _ | fork _ => cases ha
  exact ⟨hresumes, getCurrent_eq hwaits.page hresumes.stack hwaits.pos hle⟩

/-- What a task waits with survives every run up to the moment when the processor goes to it. -/
theorem SwitchInv.resumes {acts : List SwitchAct} (h : SwitchInv s) (hx : s.saved t = some x)
    (hruns : (switchSystem l).Runs s (acts ++ [a])) (haway : ∀ b ∈ acts, ¬SwitchAct.To t b)
    (ha : SwitchAct.To t a) :
    x.Resumes t ((acts ++ [a]).foldl (switchSystem l).after s).cpu ∧
      getCurrent ((acts ++ [a]).foldl (switchSystem l).after s).cpu = t := by
  induction acts generalizing s with
  | nil =>
      obtain ⟨⟨henabled, hok⟩, -⟩ := hruns
      exact h.arrive hx henabled (eq_ok_getD hok) ha
  | cons b acts ih =>
      obtain ⟨⟨henabled, hok⟩, hruns⟩ := hruns
      have hnext := eq_ok_getD (d := s) hok
      exact ih ((switchSystem_inductive l).step h henabled hnext)
        (h.away hx henabled hnext (haway b List.mem_cons_self)) hruns
        fun c hc => haway c (List.mem_cons_of_mem _ hc)

end

/-- A stack that ends `n` words behind `esp`. -/
theorem room_of_esp {c : Cpu} {t : Dword} {n m : Nat} (hesp : c.reg .esp = below (stackTop t) n)
    (hpos : 1 ≤ n) (hle : n + m < PG_WORDS) : SwitchState.Room c t m :=
  ⟨wordsAt (stackTop t) c.mem n, ⟨by rw [wordsAt_length, hesp], stackAt_wordsAt _ _ _⟩,
    by rwa [wordsAt_length], by rwa [wordsAt_length]⟩

/-! A main task, and a page for another one. -/

/-- Two addresses in the kernel. -/
def exampleLabels : Labels := ⟨0xc0001500, 0xc0001600⟩

/-- The page of the main thread. -/
def mainTask : Dword := 0xc009e000

/-- A page that is not in use. -/
def freePage : Dword := 0xc0200000

/-- The main task, with one word on its stack. -/
def mainState : SwitchState where
  cpu :=
    { reg := fun _ => below (stackTop mainTask) 1, seg := fun _ => 0x10, cs := 0x08, ss := 0x10
      eip := 0xc0001500, eflags := 0x202, cr2 := 0, sent := [], mem := fun _ => 0 }
  current := mainTask
  saved := fun _ => none

/-- The state in which the main thread runs alone. -/
theorem mainState_reachable : (switchSystem exampleLabels).Reachable mainState :=
  .init ⟨by decide, room_of_esp rfl (by decide) (by decide), fun _ => rfl⟩

/-- The page is free for a new task. -/
theorem mainState_free : mainState.Free freePage := ⟨by decide, by decide, rfl⟩

/-- The main task with a new thread, which does not run yet. -/
def threadState : SwitchState :=
  (switchSystem exampleLabels).after mainState (.kthreadCreate freePage 0xc0001700 9)

/-- The state in which a thread has been made and waits. -/
theorem threadState_reachable : (switchSystem exampleLabels).Reachable threadState :=
  mainState_reachable.step (a := .kthreadCreate freePage 0xc0001700 9) mainState_free rfl

/-- The main thread has room on its stack for a switch. -/
theorem threadState_room : SwitchState.Room threadState.cpu threadState.current 7 :=
  room_of_esp (n := 1) rfl (by decide) (by decide)

/-- The new thread waits for its first turn. -/
theorem threadState_saved : threadState.saved freePage ≠ none := by decide

/-- The new thread runs on the words of `init_thread`. -/
theorem threadState_switched :
    SwitchState.Room ((switchSystem exampleLabels).after threadState
      (.switchTo freePage 0xc0001800)).cpu freePage 7 := by
  obtain ⟨x, hx⟩ := Option.ne_none_iff_exists'.mp threadState_saved
  have h := (switchSystem_inductive exampleLabels).reachable threadState_reachable
  have hstack := (h.arrive (l := exampleLabels) (a := .switchTo freePage 0xc0001800) hx
    ⟨threadState_room, .inr threadState_saved⟩ (eq_ok_getD (d := threadState) rfl) rfl).1.stack
  obtain rfl : mainState.kthreadContext exampleLabels freePage 0xc0001700 9 = x :=
    Option.some.inj hx
  exact ⟨_, hstack, by simp [SwitchState.kthreadContext],
    by simp [SwitchState.kthreadContext, INTR_STACK, PG_WORDS, PG_SIZE]⟩

/-! ### Results -/

/-- A task that calls `switch_to` and waits, while any other tasks run, come and exit, goes on
behind its call, as soon as the processor goes to it again: with `ebp`, `ebx`, `edi`, `esi` and
`esp` and all words of its stack as it left them, and `get_current` finds it. -/
theorem switchTo_resumes (l : Labels) {s : SwitchState} {next back : Dword} {acts : List SwitchAct}
    {a : SwitchAct} (hs : (switchSystem l).Reachable s) (hne : next ≠ s.current)
    (hruns : (switchSystem l).Runs s (.switchTo next back :: (acts ++ [a])))
    (haway : ∀ b ∈ acts, ¬SwitchAct.To s.current b) (ha : SwitchAct.To s.current a) :
    let s' := (SwitchAct.switchTo next back :: (acts ++ [a])).foldl (switchSystem l).after s
    (s.context next back).Resumes s.current s'.cpu ∧ getCurrent s'.cpu = s.current := by
  have h := (switchSystem_inductive l).reachable hs
  obtain ⟨⟨henabled, hok⟩, hruns⟩ := hruns
  have hnext := eq_ok_getD (d := s) hok
  refine ((switchSystem_inductive l).step h henabled hnext).resumes ?_ hruns haway ha
  exact (Function.update_of_ne hne.symm _ _).trans (Function.update_self _ _ _)

/-- The main task goes to the new thread, and the thread goes back. -/
theorem switchTo_resumes_main :
    let s := [SwitchAct.switchTo freePage 0xc0001800, .switchTo mainTask 0xc0001900].foldl
      (switchSystem exampleLabels).after threadState
    (threadState.context freePage 0xc0001800).Resumes mainTask s.cpu ∧
    getCurrent s.cpu = mainTask := by
  exact @switchTo_resumes exampleLabels threadState freePage 0xc0001800
    [] _ threadState_reachable (by decide) ⟨⟨⟨threadState_room, .inr threadState_saved⟩, rfl⟩,
      ⟨⟨threadState_switched, .inr (Option.some_ne_none _)⟩, rfl⟩, trivial⟩ (by simp) rfl

/-- The child of `do_fork` goes on with the words of `do_fork`. -/
theorem fork_resumes (l : Labels) {s : SwitchState} {t : Dword} {acts : List SwitchAct}
    {a : SwitchAct}
    (hs : (switchSystem l).Reachable s) (hruns : (switchSystem l).Runs s (.fork t :: (acts ++ [a])))
    (haway : ∀ b ∈ acts, ¬SwitchAct.To t b) (ha : SwitchAct.To t a) :
    let s' := (SwitchAct.fork t :: (acts ++ [a])).foldl (switchSystem l).after s
    (s.forkContext l).Resumes t s'.cpu ∧ getCurrent s'.cpu = t := by
  have h := (switchSystem_inductive l).reachable hs
  obtain ⟨⟨henabled, hok⟩, hruns⟩ := hruns
  have hnext := eq_ok_getD (d := s) hok
  exact ((switchSystem_inductive l).step h henabled hnext).resumes
    (Function.update_self _ _ _) hruns haway ha

/-- A new thread starts in `kthread_start` with its function and its argument, no matter which tasks
run before the processor goes to it. -/
theorem kthread_starts (l : Labels) {s : SwitchState} {t threadfn data : Dword}
    {acts : List SwitchAct} {a : SwitchAct} (hs : (switchSystem l).Reachable s)
    (hruns : (switchSystem l).Runs s (.kthreadCreate t threadfn data :: (acts ++ [a])))
    (haway : ∀ b ∈ acts, ¬SwitchAct.To t b) (ha : SwitchAct.To t a) :
    let c := ((SwitchAct.kthreadCreate t threadfn data :: (acts ++ [a])).foldl
      (switchSystem l).after s).cpu
    c.eip = l.kthreadStart ∧ c.word 1 = threadfn ∧ c.word 2 = data ∧ getCurrent c = t := by
  have h := (switchSystem_inductive l).reachable hs
  obtain ⟨⟨henabled, hok⟩, hruns⟩ := hruns
  have hnext := eq_ok_getD (d := s) hok
  obtain ⟨hresumes, hcurrent⟩ := ((switchSystem_inductive l).step h henabled hnext).resumes
    (Function.update_self _ _ _) hruns haway ha
  exact ⟨hresumes.eip, hresumes.stack.word rfl, hresumes.stack.word rfl, hcurrent⟩

theorem kthread_starts_main :
    let c := ([SwitchAct.kthreadCreate freePage 0xc0001700 9, .switchTo freePage 0xc0001800].foldl
      (switchSystem exampleLabels).after mainState).cpu
    c.eip = exampleLabels.kthreadStart ∧ c.word 1 = 0xc0001700 ∧ c.word 2 = 9 ∧
      getCurrent c = freePage :=
  @kthread_starts exampleLabels mainState freePage 0xc0001700 9 [] _ mainState_reachable
    ⟨⟨mainState_free, rfl⟩,
      ⟨⟨room_of_esp rfl (by decide) (by decide), .inr (by decide)⟩, rfl⟩, trivial⟩
    (by simp) rfl

end Fizzos.Proofs
