import Fizzos.Proofs.Fork

/-!
# `Fizzos.Proofs.CowSystem`: the invariant of copy-on-write in all runs

The steps of `Proofs.Cow` and `Proofs.Fork` put together: `CowInv` holds in every state of every
run (`cowSystem_inductive`). So the counts are right, a shared frame is read-only
(`CowInv.shared_readOnly`), and a process reads what it would read if each fork had copied all user
memory (`CowInv.userRead`).
-/

set_option autoImplicit false

namespace Fizzos.Proofs

open Fizzos.Kernel
open Fizzos.LibKernel
open Fizzos.Support

variable {totalMemSize : Nat} {s : CowState} {own : Pool → Multiset Nat}

/-! ### The first process -/

/-- What is out of a page allocator after a run is out by `RunInv`. -/
theorem owns_of_reachable {b : Buddy} {others : Pool → Multiset Block}
    (hsize : totalMemSize ≤ 2 ^ 30)
    (hs : (buddySystem totalMemSize).Reachable ⟨b, others + pageBlock own⟩) :
    Owns totalMemSize b others own := by
  obtain ⟨s₀, hinit⟩ := hs.exists_init
  have hpool := poolBlocks_pos_of_init hinit
  obtain ⟨fr, hrun⟩ := (buddySystem_inductive hpool (by omega)).reachable hs
  rw [add_zero] at hrun
  exact ⟨fr, hrun⟩

/-- With one process, each frame has the references that `Init` counts. -/
theorem counted_of_init (hinit : CowState.Init totalMemSize s) :
    (sharing s.vm s.procs s.dir).Counted (countOf s.vm) := by
  have hproc : ∀ slot ∈ s.slots, slot.1 = 0 := by
    intro slot hs
    have hlt := (mem_slots.mp hs).1
    rw [hinit.procs] at hlt
    omega
  have hframes : ∀ slot ∈ s.slots, ∀ f, s.frame slot = some f →
      countOf s.vm f = 1 ∧ s.refs f = 1 := by
    intro slot hs f hf
    have hslot : slot = (0, slot.2) := Prod.ext (hproc slot hs) rfl
    rw [hslot] at hf
    exact hinit.frames slot.2 (mem_slots.mp hs).2 f hf
  constructor
  · intro slot hs f hf
    obtain ⟨hcount, hrefs⟩ := hframes slot hs f hf
    have hrefs' : (sharing s.vm s.procs s.dir).refs f = 1 := hrefs
    rw [hcount, hrefs']
    rfl
  · intro slot hs f hf _
    exact (hframes slot hs f hf).1

/-- `CowInv` holds before the first fork. -/
theorem cowInv_init (hinit : CowState.Init totalMemSize s) : ∃ own, CowInv totalMemSize s own := by
  have hsize : totalMemSize ≤ 2 ^ 30 := hinit.size.2
  obtain ⟨own, hspace, hreach⟩ := hinit.space
  -- There is one process, so everything about two is about it.
  have hzero : ∀ p < s.procs, p = 0 := fun p hp => by
    rw [hinit.procs] at hp
    omega
  have hruns : ∀ p < s.procs, (s.proc p).fault = none := fun p hp => by
    rw [hzero p hp]
    exact hinit.runs
  refine ⟨own, owns_of_reachable hsize hreach, ⟨?_, ?_, ?_⟩, counted_of_init hinit, ?_, ?_, ?_⟩
  · intro p hp
    rw [hzero p hp]
    exact hspace
  · exact fun p _ => Nat.le_refl _
  · intro p hp q hq i j t hi hj hti htj
    rw [hzero p hp] at hti
    rw [hzero q hq] at htj
    exact ⟨(hzero p hp).trans (hzero q hq).symm, hinit.tables i j t hi hj hti htj⟩
  · intro p hp addr buf hfault
    rw [hruns p hp] at hfault
    exact absurd hfault (by simp)
  · intro p hp q hq addr addr' buf hfault
    rw [hruns p hp] at hfault
    exact absurd hfault (by simp)
  · intro slot hs
    obtain ⟨hp, hpage⟩ := mem_slots.mp hs
    have heager := hinit.eager slot.2 hpage
    rw [hzero slot.1 hp, heager]
    show _ = (s.vm.frame (s.dir slot.1) slot.2).map (contentOf s.vm)
    rw [hzero slot.1 hp]
    rfl

/-! ### Runs -/

/-- One step, by the kind of action. -/
theorem CowInv.next (h : CowInv totalMemSize s own) (htotal : totalMemSize ≤ 2 ^ 30) {a : CowAct}
    (ha : s.Enabled a) {s' : CowState} (hok : s.next a = .ok s') :
    ∃ own', CowInv totalMemSize s' own' := by
  cases a with
  | fork p current => exact h.fork htotal ha.1 hok
  | write p addr byte => exact ⟨own, h.write byte ha.1.1 ha.2.1 ha.2.2 hok⟩
  | protectFault p addr current => exact h.protectFault htotal ha.1.1 ha.2.1 ha.2.2.1 hok
  | notPresent p addr current => exact h.notPresent htotal ha.1.1 ha.2.1 hok
  | mapped p fileRead => exact ⟨own, h.mapped htotal ha.1 hok⟩
  | pages a => exact ⟨own, h.pages htotal ha hok⟩
  | store table user => exact ⟨own, h.store htotal ha hok⟩

theorem cowSystem_inductive (htotal : totalMemSize ≤ 2 ^ 30) :
    (cowSystem totalMemSize).Inductive fun s => ∃ own, CowInv totalMemSize s own where
  init hinit := cowInv_init hinit
  step h ha hok := by
    obtain ⟨own, h⟩ := h
    exact h.next htotal ha hok

/-- A run has `CowInv` in every state. -/
theorem exists_cowInv (hs : (cowSystem totalMemSize).Reachable s) :
    ∃ own, CowInv totalMemSize s own := by
  obtain ⟨s₀, hinit⟩ := hs.exists_init
  exact (cowSystem_inductive hinit.size.2).reachable hs

/-- A user read in a machine that copied everything. -/
theorem CowInv.userRead (h : CowInv totalMemSize s own) {p addr : Nat} (hp : p < s.procs)
    (haddr : addr < TASK_SIZE) :
    s.vm.userRead (s.dir p) addr
      = (s.eager p (addr / PG_SIZE)).map fun content => content (addr % PG_SIZE) := by
  have hpage := pageOf_lt haddr
  rw [userRead_eq (h.spaces.space p hp) hpage]
  have heager := h.eager (p, pageOf addr) (mem_slots.mpr ⟨hp, hpage⟩)
  show _ = (s.eager p (pageOf addr)).map _
  rw [heager]
  show _ = ((s.vm.frame (s.dir p) (pageOf addr)).map (contentOf s.vm)).map _
  rw [Option.map_map]
  rfl

/-- A frame with more than one reference is read-only wherever it is mapped. -/
theorem CowInv.shared_readOnly (h : CowInv totalMemSize s own) {slot : Nat × Nat} {f : Nat}
    (hs : slot ∈ s.slots) (hf : s.frame slot = some f) (hshared : 1 < countOf s.vm f) :
    s.vm.pte (s.dir slot.1) slot.2 &&& PG_RWE = 0 := by
  by_contra hw
  have hone := h.counted.eq_one slot hs f hf hw
  omega

/-! ### A first process -/

/-- The pages of a process without user memory: its directory. -/
def firstOwn (d : Nat) : Pool → Multiset Nat := Function.update (fun _ => 0) .kernel {d}

theorem others_firstOwn (others : Pool → Multiset Block) (d : Nat) : others + pageBlock (firstOwn d)
    = Function.update others .kernel (⟨d, 0⟩ ::ₘ others .kernel) := by
  funext P
  cases P
  · simp only [Pi.add_apply, pageBlock, firstOwn, Function.update_self, Multiset.map_singleton]
    rw [add_comm, Multiset.singleton_add]
  · simp [pageBlock, firstOwn]

/-! ### A fault without other steps in the middle -/

/-- `page_not_present` is a `notPresent` step and the `mapped` step behind it. -/
theorem notPresent_mapped {p addr : Nat} {current : Tid}
    {fileRead : Nat → Nat → Nat → UInt8} {s₁ s₂ : CowState}
    (halloc : s.next (.notPresent p addr current) = .ok s₁)
    (hmap : s₁.next (.mapped p fileRead) = .ok s₂) :
    s.vm.pageNotPresent (s.proc p).mm addr fileRead current = .ok s₂.vm := by
  obtain ⟨⟨buf, vm₁⟩, htaken, hret⟩ := bind_eq_ok.mp halloc
  obtain rfl := Except.ok.inj hret
  obtain ⟨⟨addr', buf'⟩, hderef, hmap⟩ := bind_eq_ok.mp hmap
  obtain ⟨vm₂, hentry, hret⟩ := bind_eq_ok.mp hmap
  obtain rfl := Except.ok.inj hret
  have hproc : ({ s with vm := vm₁ }.setProc p { s.proc p with fault := some (addr, buf) }).proc p
      = { s.proc p with fault := some (addr, buf) } := Function.update_self _ _ _
  rw [hproc] at hderef hentry
  obtain ⟨rfl, rfl⟩ : addr = addr' ∧ buf = buf' := by
    simpa [deref] using hderef
  rw [Vm.pageNotPresent, htaken, ok_bind]
  exact hentry

end Fizzos.Proofs
