import Fizzos.Boot.SetupPage
import Fizzos.Support.System

/-!
# `Fizzos.Boot.KernelSpace`: the kernel in the address spaces of all processes

The tables of boot stay where they are, and each new page directory gets the entries that lead to
them: `do_exec` copies them from the directory of the loader, and `copy_pt` from the parent.

`kernelSystem` has the runs of `cowSystem` behind boot. The first process has its directory from
`do_exec`. The pages of the tables are in a block that `pool_init` has taken (`BootReserved`), and
nobody gives it back or writes to the tables. What processes do is as in `cowSystem`.
-/

set_option autoImplicit false

namespace Fizzos.Boot

open Fizzos.Kernel
open Fizzos.Support

/-- `pdt_addr` -/
def pdtAddr : Nat := PAGE_DIR_TABLE_POS + KERNEL_VADDR_START

/-- The page directory that `do_exec` makes for a kernel thread. -/
def newPgDir (vm : Vm) (current : Tid) : Except Halt (Nat × Vm) := do
  let (pgDir, vm) ← vm.getZeroedPage KERNEL_POOL current
  -- `memcpy(pg_dir + 768 * 4, pdt_addr + 768 * 4, PG_SIZE / 4)`
  let half (i : Nat) : Word := if 768 ≤ i then vm.table pdtAddr i else vm.table pgDir i
  let vm := { vm with table := Function.update vm.table pgDir half }
  pure (pgDir, vm.setEntry pgDir 1023 (paddrWord pgDir ||| PG_SUPERVISOR ||| PG_P ||| PG_RWE))

/-- A kernel thread behind `do_exec`, as the only process. -/
def kernelThread (vm : Vm) (pgDir : Nat) (mmap : List VmAreaStruct)
    (others : Pool → Multiset Block) : CowState where
  vm
  procs := 1
  proc := fun _ => { mm := { mmap, pgDir }, fault := none }
  others
  eager := fun _ _ => none

/-- Memory has the tables that the loader and `pool_init` leave. -/
def HasTables (totalMemSize : Nat) (vm : Vm) : Prop :=
  ∃ mem words b current x,
    (∀ a, PAGE_DIR_TABLE_POS ≤ a → a < POOL_START → words a = setupPage mem a) ∧
    poolInit words b totalMemSize current = .ok x ∧
    ∀ a, PAGE_DIR_TABLE_POS ≤ a → a < POOL_START → a % 4 = 0 → physOf vm a = x.words a

/-- The directory of the loader and the tables behind it are in blocks that somebody holds. -/
def BootReserved (live : Pool → Multiset Block) : Prop :=
  ∀ t, PAGE_DIR_TABLE_POS / PG_SIZE ≤ t → t < POOL_START / PG_SIZE →
    ∃ P, ∃ blk ∈ live P, blk.Covers t

/-- Other code leaves the tables alone. -/
def KeepsKernel (s : CowState) : CowAct → Prop
  | .store table _ => ∀ t, PAGE_DIR_TABLE_POS / PG_SIZE ≤ t → t < POOL_START / PG_SIZE →
      table (pageAddr t) = s.vm.table (pageAddr t)
  | .pages a => ∀ b, (BuddyState.mk s.vm.buddy s.others).next a = .ok b → BootReserved b.live
  | .fork _ _ | .write _ _ _ | .protectFault _ _ _ | .notPresent _ _ _ | .mapped _ _ => True

/-- Any run of processes behind boot that descend from one by fork. -/
def kernelSystem (totalMemSize : Nat) : System CowState CowAct Halt where
  init s := CowState.Init totalMemSize s ∧ BootReserved s.others ∧
    ∃ vm current, HasTables totalMemSize vm ∧ newPgDir vm current = .ok (s.dir 0, s.vm)
  enabled s a := s.Enabled a ∧ KeepsKernel s a
  next := CowState.next

end Fizzos.Boot
