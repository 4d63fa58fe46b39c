import Fizzos.Kernel.Paging

/-!
# `Fizzos.Kernel.PoolInit`: memory at boot

`pool_init` of `kernel/memory.c`. It fills the page tables of the direct mapping, calls
`buddy_init`, and takes the blocks of memory that are in use from the page allocator.

The page tables start at the physical address `0x101000`. The loops that fill them are lists of
stores: a physical address, and the word that goes there. `PhysWords` is that part of memory.

Left out: `list_init` for the lists of `kmalloc`.
-/

set_option autoImplicit false

namespace Fizzos.Kernel

/-- The physical address of the first page table. -/
def PAGE_TABLES : Nat := 0x101000

/-- Words of physical memory by their address. -/
abbrev PhysWords := Nat → Word

/-- An entry for the page `i`: `i * PG_SIZE | PG_P | PG_SUPERVISOR`. -/
def directEntry (i : Nat) : Word := BitVec.ofNat 32 (i * PG_SIZE) ||| PG_P ||| PG_SUPERVISOR

/-- The stores of the loop for the rest of the first page table. -/
def firstTable : List (Nat × Word) :=
  (List.range' 512 512).map fun i => (PAGE_TABLES + i * 4, directEntry i)

/-- The stores of the inner loop for the page table `i`. -/
def pageTable (i : Nat) : List (Nat × Word) :=
  (List.range 1024).map fun j => (PAGE_TABLES + PG_SIZE * i + j * 4, directEntry (i * 1024 + j))

/-- The stores of the outer loop. -/
def pageTables (totalMemSize : Nat) : List (Nat × Word) :=
  (List.range' 1 (DIV_ROUND_UP totalMemSize (1024 * PG_SIZE) - 1)).flatMap pageTable

/-- The stores of the loop for memory that does not exist. -/
def noMemory (totalMemSize : Nat) : List (Nat × Word) :=
  let start := PAGE_TABLES + totalMemSize / PG_SIZE * 4
  (List.range' start ((0x200000 - start + 3) / 4) 4).map fun i => (i, 0)

/-- All stores to page tables, in their order. -/
def entryStores (totalMemSize : Nat) : List (Nat × Word) :=
  firstTable ++ pageTables totalMemSize ++ noMemory totalMemSize

/-- Perform stores. -/
def PhysWords.store (mem : PhysWords) (stores : List (Nat × Word)) : PhysWords :=
  stores.foldl (fun mem e => Function.update mem e.1 e.2) mem

/-- The loop of `pool_init` that takes the blocks in use, with `n` blocks to go. It gives the
indices of their first pages. -/
def reserve (current : Tid) : Nat → Buddy → Except Halt (List Nat × Buddy)
  | 0, b => pure ([], b)
  | n + 1, b => do
      let (idx, b) ← b.allocPages KERNEL_POOL MAX_ORDER current
      let (rest, b) ← reserve current n b
      pure (idx :: rest, b)

/-- What `pool_init` leaves: the page tables, the page allocator, the end `saddr` of its data, and
the blocks that it has taken. -/
structure Booted where
  words : PhysWords
  buddy : Buddy
  saddr : Nat
  reserved : List Nat

/-- `pool_init`. -/
def poolInit (words : PhysWords) (b : Buddy) (totalMemSize : Nat) (current : Tid) :
    Except Halt Booted := do
  ASSERT (totalMemSize > 512 * PG_SIZE)
  ASSERT (totalMemSize ≤ 1024 * 1024 * 1024)
  let words := words.store (entryStores totalMemSize)
  let (saddr, b) ← b.buddyInit POOL_START totalMemSize
  let allocPg := (saddr + PG_SIZE - 1) / PG_SIZE
  let (reserved, buddy) ← reserve current (DIV_ROUND_UP allocPg (1 <<< MAX_ORDER)) b
  pure { words, buddy, saddr, reserved }

end Fizzos.Kernel
