import Mathlib.Algebra.Group.Nat.Defs
import Mathlib.Logic.Function.Basic

/-!
# `Fizzos.Support.X86`: code that works on a stack

A 32-bit processor with the registers that a kernel saves and restores, and the instructions that do
so. `Core` is the processor without its memory. Memory is its words, each at an address that is
divisible by 4.

A stack grows down from `top`, and `below top k` is the address of its `k`-th word. `StackAt top mem
ws` says that memory has the words `ws` there, with the last one pushed in front. Most instructions
use memory as a stack only, so they are functions on this list (`Instr.onStack`), and memory follows
them (`Cpu.exec_onStack`, `Cpu.run_onStack`). What lies outside the stack keeps its value
(`SameOutside`).

`Cpu.deliver` and `Cpu.iret` are the two ways between a program and an interrupt handler of the
kernel. `Returns` is what a compiled C function promises to its caller.

Left out: the faults that an instruction can raise, and the arithmetic flags.
-/

set_option autoImplicit false

namespace Fizzos.Support.X86

abbrev Dword := BitVec 32

/-- The general registers. -/
inductive Reg where
  | eax | ecx | edx | ebx | esp | ebp | esi | edi
  deriving DecidableEq, Repr

/-- The segment registers of data. -/
inductive Seg where
  | ds | es | fs | gs
  deriving DecidableEq, Repr

/-- The registers of the processor, and the bytes that it has sent to ports. -/
structure Core where
  reg : Reg → Dword
  seg : Seg → BitVec 16
  cs : BitVec 16
  ss : BitVec 16
  eip : Dword
  eflags : Dword
  cr2 : Dword
  sent : List (BitVec 16 × BitVec 8)

/-- The processor with its memory. -/
structure Cpu extends Core where
  mem : Dword → Dword

/-- What a program sees of the processor. -/
structure Program where
  reg : Reg → Dword
  seg : Seg → BitVec 16
  cs : BitVec 16
  ss : BitVec 16
  eip : Dword
  eflags : Dword

def Core.program (k : Core) : Program := ⟨k.reg, k.seg, k.cs, k.ss, k.eip, k.eflags⟩

/-- What `push` takes. -/
inductive Src where
  | reg (r : Reg)
  | seg (s : Seg)
  | imm (v : Dword)
  /-- `esp` as it was `n` pushes before. -/
  | espBefore (n : Nat)
  deriving DecidableEq, Repr

/-- Where `pop` puts a word. -/
inductive Dst where
  | reg (r : Reg)
  | seg (s : Seg)
  deriving DecidableEq, Repr

inductive Instr where
  | push (src : Src)
  | pop (dst : Dst)
  /-- `add esp, 4 * n` -/
  | drop (n : Nat)
  /-- `mov r, [esp + 4 * i]` -/
  | peek (r : Reg) (i : Nat)
  /-- `mov [esp + 4 * i], r` -/
  | poke (i : Nat) (r : Reg)
  /-- `mov r, [base]` -/
  | load (r base : Reg)
  /-- `mov [base], r` -/
  | store (base r : Reg)
  /-- `mov al, v` -/
  | movAl (v : BitVec 8)
  /-- `mov r, cr2` -/
  | movCr2 (r : Reg)
  /-- `out port, al` -/
  | out (port : BitVec 16)
  deriving DecidableEq, Repr

/-- `pushad`: every general register, with `esp` as it was in front. -/
def pushad : List Instr :=
  [.push (.reg .eax), .push (.reg .ecx), .push (.reg .edx), .push (.reg .ebx), .push (.espBefore 4),
    .push (.reg .ebp), .push (.reg .esi), .push (.reg .edi)]

/-- `popad`. It skips the word of `esp`. -/
def popad : List Instr :=
  [.pop (.reg .edi), .pop (.reg .esi), .pop (.reg .ebp), .drop 1, .pop (.reg .ebx),
    .pop (.reg .edx), .pop (.reg .ecx), .pop (.reg .eax)]

namespace Core

def setReg (k : Core) (r : Reg) (v : Dword) : Core := { k with reg := Function.update k.reg r v }

def setSeg (k : Core) (s : Seg) (v : BitVec 16) : Core :=
    { k with seg := Function.update k.seg s v }

/-- The word that `push` pushes. A segment register is extended with zeros. -/
def read (k : Core) : Src → Dword
  | .reg r => k.reg r
  | .seg s => (k.seg s).setWidth 32
  | .imm v => v
  | .espBefore n => k.reg .esp + BitVec.ofNat 32 (4 * n)

/-- A register gets a word. A segment register takes the lower half. -/
def write (k : Core) : Dst → Dword → Core
  | .reg r, v => k.setReg r v
  | .seg s, v => k.setSeg s (v.setWidth 16)

/-- `esp` moves up by `n` words. -/
def popped (k : Core) (n : Nat) : Core := k.setReg .esp (k.reg .esp + BitVec.ofNat 32 (4 * n))

/-- `esp` moves down by a word. -/
def pushed (k : Core) : Core := k.setReg .esp (k.reg .esp - 4)

/-- `mov al, v` -/
def movAl (k : Core) (v : BitVec 8) : Core :=
  k.setReg .eax (k.reg .eax &&& 0xffffff00 ||| v.setWidth 32)

/-- `out port, al` -/
def outAl (k : Core) (port : BitVec 16) : Core :=
  { k with sent := k.sent ++ [(port, (k.reg .eax).setWidth 8)] }

end Core

namespace Cpu

/-- Push a word. -/
def push (c : Cpu) (w : Dword) : Cpu :=
  { c.toCore.pushed with mem := Function.update c.mem (c.reg .esp - 4) w }

/-- The word at the `i`-th place above `esp`. -/
def word (c : Cpu) (i : Nat) : Dword := c.mem (c.reg .esp + BitVec.ofNat 32 (4 * i))

/-- An instruction. -/
def exec (c : Cpu) : Instr → Cpu
  | .push src => c.push (c.read src)
  | .pop dst => { (c.toCore.popped 1).write dst (c.word 0) with mem := c.mem }
  | .drop n => { c.toCore.popped n with mem := c.mem }
  | .peek r i => { c.toCore.setReg r (c.word i) with mem := c.mem }
  | .poke i r =>
      { c with mem := Function.update c.mem (c.reg .esp + BitVec.ofNat 32 (4 * i)) (c.reg r) }
  | .load r base => { c.toCore.setReg r (c.mem (c.reg base)) with mem := c.mem }
  | .store base r => { c with mem := Function.update c.mem (c.reg base) (c.reg r) }
  | .movAl v => { c.toCore.movAl v with mem := c.mem }
  | .movCr2 r => { c.toCore.setReg r c.cr2 with mem := c.mem }
  | .out port => { c.toCore.outAl port with mem := c.mem }

/-- Instructions without jumps. -/
def run (c : Cpu) (code : List Instr) : Cpu := code.foldl exec c

/-- `call`, with the address behind it. -/
def call (c : Cpu) (f : Cpu → Cpu) (next : Dword) : Cpu := f (c.push next)

/-- `ret` -/
def ret (c : Cpu) : Cpu := { c.toCore.popped 1 with eip := c.word 0, mem := c.mem }

/-- The privilege level of the code that a selector leads to. -/
def rpl (selector : BitVec 16) : BitVec 16 := selector &&& 3

/-- The flags that an interrupt gate clears: `TF`, `IF`, `NT`, `RF` and `VM`. -/
def GATE_FLAGS : Dword := 0x34300

/-- Where an interrupt gate leads to, and the stack of the kernel in the task state segment. -/
structure Gate where
  cs : BitVec 16
  entry : Dword
  ss0 : BitVec 16
  esp0 : Dword

/-- The processor takes an interrupt through a gate to the kernel. A program of an outer level
changes to the stack of the kernel first. -/
def deliver (c : Cpu) (g : Gate) (error : Option Dword) : Cpu :=
  let outer : Cpu :=
    if rpl c.cs = 0 then c
    else (({ c.toCore.setReg .esp g.esp0 with ss := g.ss0, mem := c.mem } : Cpu).push
      (c.ss.setWidth 32)).push (c.reg .esp)
  let c' := ((outer.push c.eflags).push (c.cs.setWidth 32)).push c.eip
  let c' := error.elim c' c'.push
  { c' with cs := g.cs, eip := g.entry, eflags := c.eflags &&& ~~~GATE_FLAGS }

/-- `iretd` of the kernel. A return to an outer level takes its stack from the frame. -/
def iret (c : Cpu) : Cpu :=
  let cs := (c.word 1).setWidth 16
  let c' : Cpu := { c.toCore.popped 3 with
    eip := c.word 0, cs := cs, eflags := c.word 2, mem := c.mem }
  if rpl cs = 0 then c'
  else { c'.toCore.setReg .esp (c.word 3) with ss := (c.word 4).setWidth 16, mem := c.mem }

end Cpu

/-! ### Memory as a stack -/

/-- The address of the `k`-th word of the stack that ends at `top`. -/
def below (top : Dword) (k : Nat) : Dword := top - BitVec.ofNat 32 (4 * k)

/-- The words of the stack that ends at `top`, with the lowest address in front. -/
def StackAt (top : Dword) (mem : Dword → Dword) : List Dword → Prop
  | [] => True
  | w :: ws => mem (below top (ws.length + 1)) = w ∧ StackAt top mem ws

/-- The last `n` words in front of `top`. -/
def wordsAt (top : Dword) (mem : Dword → Dword) : Nat → List Dword
  | 0 => []
  | n + 1 => mem (below top (n + 1)) :: wordsAt top mem n

/-- The number of words from `esp` to `top`. -/
def Cpu.depth (c : Cpu) (top : Dword) : Nat := (top - c.reg .esp).toNat / 4

/-- Two memories agree outside of the last `n` words in front of `top`. -/
def SameOutside (top : Dword) (n : Nat) (mem mem' : Dword → Dword) : Prop :=
  ∀ a, (∀ k, 1 ≤ k → k ≤ n → a ≠ below top k) → mem' a = mem a

/-- `esp` is at the front of the words `ws`. -/
structure Cpu.Stack (c : Cpu) (top : Dword) (ws : List Dword) : Prop where
  esp : c.reg .esp = below top ws.length
  words : StackAt top c.mem ws

/-- An instruction that uses memory as a stack, on the words of the stack. -/
def Instr.onStack (k : Core) (ws : List Dword) : Instr → Option (Core × List Dword)
  | .push src => some (k.pushed, k.read src :: ws)
  | .pop dst =>
      match ws with
      | w :: ws => if dst = .reg .esp then none else some ((k.popped 1).write dst w, ws)
      | [] => none
  | .drop n => if n ≤ ws.length then some (k.popped n, ws.drop n) else none
  | .peek r i =>
      match ws[i]? with
      | some w => if r = .esp then none else some (k.setReg r w, ws)
      | none => none
  | .poke i r => if i < ws.length then some (k, ws.set i (k.reg r)) else none
  | .movAl v => some (k.movAl v, ws)
  | .movCr2 r => if r = .esp then none else some (k.setReg r k.cr2, ws)
  | .out port => some (k.outAl port, ws)
  | .load _ _ | .store _ _ => none

/-- Instructions on the words of the stack. -/
def onStack (k : Core) (ws : List Dword) : List Instr → Option (Core × List Dword)
  | [] => some (k, ws)
  | i :: code => do
      let (k, ws) ← i.onStack k ws
      onStack k ws code

/-- What a C function with `n` words of arguments leaves at its return, when `c` is the state behind
the call and `ws` the stack in front of it: the callee has changed at most its arguments, and the
registers that it has to save are as before. -/
structure Returns (n : Nat) (top : Dword) (ws : List Dword) (c c' : Cpu) : Prop where
  stack : ∃ args, args.length = n ∧ c'.Stack top (args ++ ws.drop n)
  saved : ∀ r ∈ [Reg.ebx, .ebp, .esi, .edi], c'.reg r = c.reg r
  seg : c'.seg = c.seg
  cs : c'.cs = c.cs
  ss : c'.ss = c.ss

/-- The function `f` of C code, called in the state `c` on the stack that ends at `top`, returns to
its caller like that. -/
def Obeys (n : Nat) (top : Dword) (f : Cpu → Cpu) (c : Cpu) : Prop :=
  ∀ next ws, c.Stack top (next :: ws) → n ≤ ws.length → ws.length < 2 ^ 29 →
    Returns n top ws c (f c)

/-! ### Addresses -/

section
variable {top : Dword} {k n : Nat}

theorem below_inj (hk : k < 2 ^ 30) (hn : n < 2 ^ 30) : below top k = below top n ↔ k = n := by
  constructor
  · intro h
    have := congrArg BitVec.toNat h
    simp only [below, BitVec.toNat_sub, BitVec.toNat_ofNat] at this
    omega
  · rintro rfl
    rfl

theorem below_sub (top : Dword) (k : Nat) : below top k - 4 = below top (k + 1) := by
  unfold below
  bv_omega

theorem below_add (top : Dword) (k n : Nat) :
    below top (k + n) + BitVec.ofNat 32 (4 * n) = below top k := by
  unfold below
  bv_omega

end

/-! ### Words of a stack -/

section
variable {top : Dword} {mem mem' : Dword → Dword} {ws : List Dword} {n : Nat}

theorem SameOutside.refl (top : Dword) (n : Nat) (mem : Dword → Dword) :
    SameOutside top n mem mem :=
  fun _ _ => rfl

theorem SameOutside.trans {mem'' : Dword → Dword} (h : SameOutside top n mem mem')
    (h' : SameOutside top n mem' mem'') : SameOutside top n mem mem'' :=
  fun a ha => (h' a ha).trans (h a ha)

theorem SameOutside.mono {n' : Nat} (h : SameOutside top n mem mem') (hle : n ≤ n') :
    SameOutside top n' mem mem' :=
  fun a ha => h a fun k hk hkn => ha k hk (Nat.le_trans hkn hle)

/-- A store to a word of the stack. -/
theorem SameOutside.update {k : Nat} (hk : 1 ≤ k) (hkn : k ≤ n) (v : Dword) :
    SameOutside top n mem (Function.update mem (below top k) v) :=
  fun _ ha => Function.update_of_ne (ha k hk hkn) _ _

/-- The words depend on their own addresses only. -/
theorem StackAt.congr (h : StackAt top mem ws)
    (heq : ∀ k, 1 ≤ k → k ≤ ws.length → mem' (below top k) = mem (below top k)) :
    StackAt top mem' ws := by
  induction ws with
  | nil => trivial
  | cons w ws ih =>
      refine ⟨(heq _ (by omega) (by simp)).trans h.1, ih h.2 fun k hk hle => heq k hk ?_⟩
      simp only [List.length_cons]
      omega

/-- A store in front of the words. -/
theorem StackAt.update_front (h : StackAt top mem ws) {k : Nat} (hk : ws.length < k)
    (hlt : k < 2 ^ 30) (v : Dword) : StackAt top (Function.update mem (below top k) v) ws :=
  h.congr fun j _ hj => Function.update_of_ne
    (fun heq => by have := (below_inj (by omega) hlt).mp heq; omega) _ _

theorem StackAt.push (h : StackAt top mem ws) (hlt : ws.length + 1 < 2 ^ 30) (w : Dword) :
    StackAt top (Function.update mem (below top (ws.length + 1)) w) (w :: ws) :=
  ⟨Function.update_self _ _ _, h.update_front (Nat.lt_succ_self _) hlt w⟩

@[simp] theorem wordsAt_length (top : Dword) (mem : Dword → Dword) (n : Nat) :
    (wordsAt top mem n).length = n := by
  induction n with
  | zero => rfl
  | succ n ih => rw [wordsAt, List.length_cons, ih]

/-- Two stacks with the same words. -/
theorem wordsAt_congr {top' : Dword} {n : Nat}
    (h : ∀ k, 1 ≤ k → k ≤ n → mem' (below top' k) = mem (below top k)) :
    wordsAt top' mem' n = wordsAt top mem n := by
  induction n with
  | zero => rfl
  | succ n ih =>
      rw [wordsAt, wordsAt, h _ (Nat.le_add_left 1 n) (Nat.le_refl _),
        ih fun k hk hle => h k hk (Nat.le_succ_of_le hle)]

theorem stackAt_wordsAt (top : Dword) (mem : Dword → Dword) (n : Nat) :
    StackAt top mem (wordsAt top mem n) := by
  induction n with
  | zero => trivial
  | succ n ih => exact ⟨by rw [wordsAt_length], ih⟩

theorem StackAt.wordsAt_eq (h : StackAt top mem ws) : wordsAt top mem ws.length = ws := by
  induction ws with
  | nil => rfl
  | cons w ws ih => rw [List.length_cons, wordsAt, h.1, ih h.2]

theorem StackAt.drop (h : StackAt top mem ws) (n : Nat) : StackAt top mem (ws.drop n) := by
  induction ws generalizing n with
  | nil => simpa using h
  | cons w ws ih =>
      cases n with
      | zero => exact h
      | succ n => exact ih h.2 n

/-- The `i`-th word from the front. -/
theorem StackAt.get (h : StackAt top mem ws) {i : Nat} {w : Dword} (hi : ws[i]? = some w) :
    mem (below top (ws.length - i)) = w := by
  induction ws generalizing i with
  | nil => simp at hi
  | cons v ws ih =>
      cases i with
      | zero =>
          cases hi
          exact h.1
      | succ i => simpa using ih h.2 hi

/-- A store to the `i`-th word. -/
theorem StackAt.set (h : StackAt top mem ws) {i : Nat} (hi : i < ws.length)
    (hlt : ws.length < 2 ^ 30) (v : Dword) :
    StackAt top (Function.update mem (below top (ws.length - i)) v) (ws.set i v) := by
  induction ws generalizing i with
  | nil => simp at hi
  | cons w ws ih =>
      simp only [List.length_cons] at hi hlt
      cases i with
      | zero => exact h.2.push hlt v
      | succ i =>
          have hset := ih h.2 (i := i) (by omega) (by omega)
          refine ⟨?_, by simpa using hset⟩
          rw [List.length_set, Function.update_of_ne, h.1]
          intro heq
          have := (below_inj (by omega) (by simp only [List.length_cons]; omega)).mp heq
          simp only [List.length_cons] at this
          omega

/-- A store to the word at the place `k`, on a stack of `n` words. -/
theorem StackAt.store (h : StackAt top mem ws) {n k : Nat} (hn : ws.length = n)
    (hk : 1 ≤ k) (hkn : k ≤ n) (hlt : n < 2 ^ 30) (v : Dword) :
    StackAt top (Function.update mem (below top k) v) (ws.set (n - k) v) := by
  have hset := h.set (i := n - k) (by omega) (by omega) v
  rwa [hn, Nat.sub_sub_self hkn] at hset

end

/-! ### Memory follows the words -/

theorem onStack_append (k : Core) (ws : List Dword) (code code' : List Instr) :
    onStack k ws (code ++ code') = (onStack k ws code).bind fun x => onStack x.1 x.2 code' := by
  induction code generalizing k ws with
  | nil => rfl
  | cons i code ih =>
      simp only [List.cons_append, onStack, Option.bind_eq_bind, ih, Option.bind_assoc]

namespace Core

@[simp] theorem setReg_self (k : Core) (r : Reg) (v : Dword) : (k.setReg r v).reg r = v :=
  Function.update_self _ _ _

theorem setReg_of_ne (k : Core) {r r' : Reg} (h : r' ≠ r) (v : Dword) :
    (k.setReg r v).reg r' = k.reg r' :=
  Function.update_of_ne h _ _

/-- A pop to another register leaves `esp` alone. -/
theorem write_esp (k : Core) {dst : Dst} (h : dst ≠ .reg .esp) (v : Dword) :
    (k.write dst v).reg .esp = k.reg .esp := by
  cases dst with
  | reg r => exact setReg_of_ne k (fun hr => h (congrArg Dst.reg hr.symm)) v
  | seg s => rfl

end Core

namespace Cpu

section
variable {top : Dword} {c : Cpu} {ws : List Dword}

theorem Stack.depth_eq (h : c.Stack top ws) (hlt : ws.length < 2 ^ 30) :
    c.depth top = ws.length := by
  rw [depth, h.esp, below]
  simp only [BitVec.toNat_sub, BitVec.toNat_ofNat]
  omega

/-- The `i`-th word above `esp`. -/
theorem Stack.addr (h : c.Stack top ws) {i : Nat} (hi : i ≤ ws.length) :
    c.reg .esp + BitVec.ofNat 32 (4 * i) = below top (ws.length - i) := by
  rw [h.esp, ← below_add top (ws.length - i) i, Nat.sub_add_cancel hi]

theorem Stack.word (h : c.Stack top ws) {i : Nat} {w : Dword} (hi : ws[i]? = some w) :
    c.word i = w := by
  have hlt : i < ws.length := (List.getElem?_eq_some_iff.mp hi).1
  rw [Cpu.word, h.addr (Nat.le_of_lt hlt)]
  exact h.words.get hi

theorem Stack.push (h : c.Stack top ws) (hlt : ws.length + 1 < 2 ^ 30) (w : Dword) :
    (c.push w).Stack top (w :: ws) where
  esp := by
    rw [Cpu.push, Core.pushed, Core.setReg_self, h.esp, below_sub]
    rfl
  words := by
    rw [Cpu.push, h.esp, below_sub]
    exact h.words.push hlt w

theorem Stack.push_outside (h : c.Stack top ws) (w : Dword) :
    SameOutside top (ws.length + 1) c.mem (c.push w).mem := by
  rw [Cpu.push, h.esp, below_sub]
  exact SameOutside.update (Nat.le_add_left 1 _) (Nat.le_refl _) w

/-- `ret` goes on at the first word. -/
theorem Stack.ret {w : Dword} (h : c.Stack top (w :: ws)) :
    c.ret.eip = w ∧ c.ret.Stack top ws ∧ ∀ r, r ≠ .esp → c.ret.reg r = c.reg r := by
  refine ⟨h.word rfl, ⟨?_, h.words.2⟩, fun r hr => Core.setReg_of_ne _ hr _⟩
  rw [Cpu.ret, Core.popped, Core.setReg_self, h.addr (by simp)]
  rfl

/-- An instruction in memory does what it does on the words. -/
theorem exec_onStack (h : c.Stack top ws) (hlt : ws.length + 1 < 2 ^ 30) {i : Instr} {k : Core}
    {ws' : List Dword} (hstep : i.onStack c.toCore ws = some (k, ws')) :
    (c.exec i).toCore = k ∧ (c.exec i).Stack top ws' ∧
      SameOutside top (ws.length + 1) c.mem (c.exec i).mem ∧ ws'.length ≤ ws.length + 1 := by
  cases i with
  | push src =>
      obtain ⟨rfl, rfl⟩ := Prod.mk.inj (Option.some.inj hstep)
      exact ⟨rfl, h.push hlt _, h.push_outside _, Nat.le_refl _⟩
  | pop dst =>
      cases ws with
      | nil => simp [Instr.onStack] at hstep
      | cons w ws =>
          simp only [Instr.onStack] at hstep
          split at hstep
          · simp at hstep
          · obtain ⟨rfl, rfl⟩ := Prod.mk.inj (Option.some.inj hstep)
            have hword : c.word 0 = w := h.word rfl
            refine ⟨by rw [exec, hword], ⟨?_, h.words.2⟩, .refl _ _ _, by simp; omega⟩
            rw [exec, Core.write_esp _ ‹_›, Core.popped, Core.setReg_self, h.addr (by simp)]
            rfl
  | drop n =>
      simp only [Instr.onStack, Option.ite_none_right_eq_some, Option.some.injEq,
        Prod.mk.injEq] at hstep
      obtain ⟨hn, rfl, rfl⟩ := hstep
      refine ⟨rfl, ⟨?_, h.words.drop n⟩, .refl _ _ _, by simp; omega⟩
      rw [exec, Core.popped, Core.setReg_self, h.addr hn, List.length_drop]
  | peek r i =>
      simp only [Instr.onStack] at hstep
      split at hstep
      next w hw =>
        split at hstep
        · simp at hstep
        · obtain ⟨rfl, rfl⟩ := Prod.mk.inj (Option.some.inj hstep)
          refine ⟨by rw [exec, h.word hw], ⟨?_, h.words⟩, .refl _ _ _, Nat.le_succ _⟩
          rw [exec, Core.setReg_of_ne _ (Ne.symm ‹_›), h.esp]
      · simp at hstep
  | poke i r =>
      simp only [Instr.onStack, Option.ite_none_right_eq_some, Option.some.injEq,
        Prod.mk.injEq] at hstep
      obtain ⟨hi, rfl, rfl⟩ := hstep
      rw [exec, h.addr (Nat.le_of_lt hi)]
      refine ⟨rfl, ⟨?_, h.words.set hi (by omega) _⟩, .update (by omega) (by omega) _, by simp⟩
      rw [List.length_set]
      exact h.esp
  | movAl v =>
      obtain ⟨rfl, rfl⟩ := Prod.mk.inj (Option.some.inj hstep)
      refine ⟨rfl, ⟨?_, h.words⟩, .refl _ _ _, Nat.le_succ _⟩
      exact (Core.setReg_of_ne _ (by decide) _).trans h.esp
  | movCr2 r =>
      simp only [Instr.onStack] at hstep
      split at hstep
      · simp at hstep
      · obtain ⟨rfl, rfl⟩ := Prod.mk.inj (Option.some.inj hstep)
        refine ⟨rfl, ⟨?_, h.words⟩, .refl _ _ _, Nat.le_succ _⟩
        exact (Core.setReg_of_ne _ (Ne.symm ‹_›) _).trans h.esp
  | out port =>
      obtain ⟨rfl, rfl⟩ := Prod.mk.inj (Option.some.inj hstep)
      exact ⟨rfl, ⟨h.esp, h.words⟩, .refl _ _ _, Nat.le_succ _⟩
  -- These two go to other addresses, so they have no meaning on the words.
  | load r base => simp [Instr.onStack] at hstep
  | store base r => simp [Instr.onStack] at hstep

theorem run_append (c : Cpu) (code code' : List Instr) :
    c.run (code ++ code') = (c.run code).run code' := List.foldl_append

/-- Code in memory does what it does on the words. -/
theorem run_onStack {code : List Instr} {k : Core} {ws' : List Dword} (h : c.Stack top ws)
    (hlt : ws.length + code.length < 2 ^ 30) (hrun : onStack c.toCore ws code = some (k, ws')) :
    (c.run code).toCore = k ∧ (c.run code).Stack top ws' ∧
      SameOutside top (ws.length + code.length) c.mem (c.run code).mem := by
  induction code generalizing c ws with
  | nil =>
      obtain ⟨rfl, rfl⟩ := Prod.mk.inj (Option.some.inj hrun)
      exact ⟨rfl, h, .refl _ _ _⟩
  | cons i code ih =>
      simp only [List.length_cons] at hlt ⊢
      simp only [onStack, Option.bind_eq_bind, Option.bind_eq_some_iff, Prod.exists] at hrun
      obtain ⟨k₁, ws₁, hstep, hrest⟩ := hrun
      obtain ⟨rfl, hstack, hout, hlen⟩ := exec_onStack h (by omega) hstep
      obtain ⟨hk, hstack', hout'⟩ := ih hstack (by omega) hrest
      exact ⟨hk, hstack', (hout.mono (by omega)).trans (hout'.mono (by omega))⟩

end

end Cpu

/-- Code that uses memory as a stack, and `ret` behind it, keep to the calling convention: the code
gives the stack back with the place of the call in front, and has changed at most the arguments, and
the registers that it has to save are as before. -/
theorem Obeys.code {n : Nat} {top : Dword} {c : Cpu} {code : List Instr}
    (hlen : code.length < 2 ^ 28) (hcode : ∀ next ws, n ≤ ws.length → ∃ k args, args.length = n ∧
      onStack c.toCore (next :: ws) code = some (k, next :: (args ++ ws.drop n)) ∧
      (∀ r ∈ [Reg.ebx, .ebp, .esi, .edi], k.reg r = c.reg r) ∧ k.seg = c.seg ∧ k.cs = c.cs ∧
      k.ss = c.ss) :
    Obeys n top (fun c => (c.run code).ret) c := by
  intro next ws hstack hn hlt
  obtain ⟨k, args, hargs, hrun, hsaved, hseg, hcs, hss⟩ := hcode next ws hn
  obtain ⟨rfl, hstack', -⟩ := Cpu.run_onStack hstack (by simp only [List.length_cons]; omega) hrun
  obtain ⟨-, hret, hreg⟩ := hstack'.ret
  refine ⟨⟨args, hargs, hret⟩, fun r hr => (hreg r ?_).trans (hsaved r hr), hseg, hcs, hss⟩
  rintro rfl
  simp at hr

end Fizzos.Support.X86
