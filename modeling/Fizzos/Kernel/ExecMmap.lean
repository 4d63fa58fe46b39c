import Fizzos.Kernel.Vma

/-!
# `Fizzos.Kernel.ExecMmap`: giving the memory of a program back

`exec_mmap` of `kernel/exec.c`. It walks over the areas and frees the pages that are present, one
page at a time, and frees the areas. Then it frees the page tables.

The result has the calls of `free_page` and `kfree` in their order. These functions work on
`mem_map` and on the blocks of `kmalloc`. They change no page table and no area, and so no call has
an effect on the ones behind it. An area is freed as a value, as areas that do not overlap are
different.

`tmp` is the end of what the loop has freed. `PAGE_ALIGN` rounds down.
-/

set_option autoImplicit false

namespace Fizzos.Kernel

/-- `PAGE_ALIGN(addr)`. -/
def PAGE_ALIGN (addr : Nat) : Nat := addr / 4096 * 4096

/-- A call of `exec_mmap`. -/
inductive FreeCall where
  | freePage (addr : Nat)
  | kfree (vma : VmAreaStruct)
  deriving DecidableEq, Repr

namespace Vm
variable (vm : Vm) (pgDir : Nat)

/-- `(*get_pde(addr) & 1) && (*get_pte(addr) & 1)`. -/
def isMapped (addr : Nat) : Bool :=
  let (dir, i) := vm.getPde pgDir addr
  let (pt, j) := vm.getPte pgDir addr
  decide (vm.table dir i &&& 1 = 1) && decide (vm.table pt j &&& 1 = 1)

/-- `free_page(addr)`, if a page is mapped there. -/
def freeMapped (addr : Nat) : List FreeCall :=
  if vm.isMapped pgDir addr then [.freePage addr] else []

/-- The inner loop of `exec_mmap`: the calls, and `addr` behind it. It takes at most `n` rounds, and
address space has 2^20 pages. -/
def freeLoop (vmEnd : Nat) : Nat → Nat → Except Halt (List FreeCall × Nat)
  | 0, addr => if addr < vmEnd then .error .hang else pure ([], addr)
  | n + 1, addr =>
      if addr < vmEnd then do
        let (calls, last) ← freeLoop vmEnd n (add32 addr PG_SIZE)
        pure (vm.freeMapped pgDir addr ++ calls, last)
      else pure ([], addr)

/-- The body of the loop over the areas: the calls, and the new `tmp`. -/
def freeArea (tmp : Nat) (cur : VmAreaStruct) : Except Halt (List FreeCall × Nat) := do
  let addr := PAGE_ALIGN cur.vmStart
  let (first, addr) :=
    if addr ≥ tmp then (vm.freeMapped pgDir addr, add32 addr PG_SIZE) else ([], addr)
  let (calls, tmp) ← vm.freeLoop pgDir cur.vmEnd (2 ^ 20) addr
  pure (first ++ calls ++ [.kfree cur], tmp)

/-- The loop over the areas that are left. -/
def freeAreas : Nat → List VmAreaStruct → Except Halt (List FreeCall)
  | _, [] => pure []
  | tmp, cur :: rest => do
      let (calls, tmp) ← vm.freeArea pgDir tmp cur
      let others ← freeAreas tmp rest
      pure (calls ++ others)

/-- The loop over the page tables that are left. -/
def freeTables (pgDir : Nat) : List Nat → Vm → List FreeCall × Vm
  | [], vm => ([], vm)
  | i :: rest, vm =>
      if vm.table pgDir i &&& 1 = 1 then
        let call := .freePage (entryAddr (vm.table pgDir i))
        let (calls, vm) := freeTables pgDir rest (vm.setEntry pgDir i 0)
        (call :: calls, vm)
      else freeTables pgDir rest vm

/-- `exec_mmap`: the calls, the new `mm` and the new page tables. -/
def execMmap (vm : Vm) (mm : Option MmStruct) :
    Except Halt (List FreeCall × Option MmStruct × Vm) :=
  match mm with
  | none => pure ([], none, vm)
  | some mm => do
      let pages ← vm.freeAreas mm.pgDir 0 mm.mmap
      let mm := { mm with mmap := [] }
      let (tables, vm) := freeTables mm.pgDir (List.range 768) vm
      pure (pages ++ tables, some mm, vm)

end Vm

end Fizzos.Kernel
