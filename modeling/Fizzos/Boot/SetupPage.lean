import Fizzos.Kernel.PoolInit
import Fizzos.Kernel.SelfMap

/-!
# `Fizzos.Boot.SetupPage`: the first page tables

`setup_page` of `boot/loader.S`. The page directory is at `0x100000`, and 255 page tables follow it.
The loader fills the directory and one half of the first table. The rest is left to `pool_init`,
which runs later.

Memory is its words. The loop that clears the directory goes byte by byte, and the other loops are
lists of stores.
-/

set_option autoImplicit false

namespace Fizzos.Boot

open Fizzos.Kernel

def PAGE_DIR_TABLE_POS : Nat := 0x100000

def PG_RW_W : Word := 0b10
def PG_US_U : Word := 0b100

/-- `mov byte [addr], 0` -/
def clearByte (mem : PhysMem) (addr : Nat) : PhysMem :=
  let word := addr / 4 * 4
  Function.update mem word (mem word &&& ~~~((0xff : Word) <<< (8 * (addr % 4))))

/-- `.clear_page_dir` -/
def clearPageDir (mem : PhysMem) : PhysMem :=
  (List.range 4096).foldl (fun mem esi => clearByte mem (PAGE_DIR_TABLE_POS + esi)) mem

/-- `.create_pde`: the entries 0 and 768 lead to the first page table, and the last entry to the
directory. -/
def createPde : List (Nat × Word) :=
  let eax : Word := BitVec.ofNat 32 (PAGE_DIR_TABLE_POS + 0x1000) ||| (PG_US_U ||| PG_RW_W ||| PG_P)
  [(PAGE_DIR_TABLE_POS + 0x0, eax), (PAGE_DIR_TABLE_POS + 0xc00, eax),
    (PAGE_DIR_TABLE_POS + 4092, eax - 0x1000)]

/-- `.create_pte`: 2 MiB of memory. -/
def createPte : List (Nat × Word) :=
  (List.range 512).map fun esi =>
    (PAGE_TABLES + esi * 4, (PG_US_U ||| PG_RW_W ||| PG_P) + BitVec.ofNat 32 (4096 * esi))

/-- `.create_kernel_pde`: the entries 769 to 1022, and the tables behind the first one. -/
def createKernelPde : List (Nat × Word) :=
  let eax : Word := BitVec.ofNat 32 (PAGE_DIR_TABLE_POS + 0x2000) ||| (PG_US_U ||| PG_RW_W ||| PG_P)
  (List.range' 769 254).map fun esi =>
    (PAGE_DIR_TABLE_POS + esi * 4, eax + BitVec.ofNat 32 (0x1000 * (esi - 769)))

/-- `setup_page` -/
def setupPage (mem : PhysMem) : PhysMem :=
  PhysWords.store (clearPageDir mem) (createPde ++ createPte ++ createKernelPde)

end Fizzos.Boot
