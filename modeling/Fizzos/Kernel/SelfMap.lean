import Fizzos.Kernel.Paging

/-!
# `Fizzos.Kernel.SelfMap`: the page walk, and the addresses of its entries

The paging unit translates an address with two entries in physical memory. The last entry of each
page directory leads to the directory itself, and `get_pde`, `get_pte` and `get_paddr` of
`kernel/memory.c` reach the entries of an address through it.

`Vm` knows pages by their addresses in the direct mapping. `physOf` is the physical memory under it.

Left out: the TLB, and the access rights.
-/

set_option autoImplicit false

namespace Fizzos.Kernel

/-- Physical memory: the word at an address. -/
abbrev PhysMem := Nat → Word

/-- The page that an entry leads to: `entry & 0xfffff000`. -/
def pageBase (w : Word) : Nat := (w &&& 0xfffff000).toNat

/-- The page walk with the directory at `pd`: the physical address, if both entries are present. -/
def translate (mem : PhysMem) (pd vaddr : Nat) : Option Nat :=
  let pde := mem (pd + 4 * PDE_IDX vaddr)
  if pde &&& PG_P = 0 then none
  else
    let pte := mem (pageBase pde + 4 * PTE_IDX vaddr)
    if pte &&& PG_P = 0 then none else some (pageBase pte + vaddr % PG_SIZE)

/-- `*(uint32_t*)vaddr`, at an address that is divisible by 4. -/
def loadVirt (mem : PhysMem) (pd vaddr : Nat) : Option Word := (translate mem pd vaddr).map mem

/-- `get_pde`. -/
def getPde (vaddr : Nat) : Nat := ((0xfffff <<< 12) + PDE_IDX vaddr <<< 2) % 2 ^ 32

/-- `get_pte`. -/
def getPte (vaddr : Nat) : Nat :=
  ((0x3ff <<< 22) + PDE_IDX vaddr <<< 12 + PTE_IDX vaddr <<< 2) % 2 ^ 32

/-- `get_paddr`, when the load does not fault. -/
def loadPaddr (mem : PhysMem) (pd vaddr : Nat) : Option Nat := do
  let pte ← loadVirt mem pd (getPte vaddr)
  pure ((pte &&& 0xfffff000).toNat ||| (vaddr &&& 0x00000fff))

/-- The memory in which `vm` has its tables. -/
def physOf (vm : Vm) : PhysMem := fun addr =>
  vm.table (pageAddr (addr / PG_SIZE)) (addr % PG_SIZE / 4)

end Fizzos.Kernel
