import Fizzos.Kernel.Buddy

/-!
# `Fizzos.Kernel.Kmalloc`: `kmalloc` and `kfree` of `kernel/memory.c`

A small request is served from a page that is cut into blocks of one of seven sizes. The page
starts with its descriptor (`struct mem_block_desc`). The links of the page lists and of the
free blocks lie in the pages themselves: a list element is an address, and `links` holds what
the memory at an address says as a `struct list_elem`.

`kmallocSystem` runs `kmalloc` for small sizes and `kfree`, each call as one step. Around them
other code uses the page allocator, and the owners of memory write to it. The system keeps the
allocations that are live, as pairs of a pointer and the size that was asked for, and the
blocks of pages that other code holds.
-/

set_option autoImplicit false

namespace Fizzos.Kernel

open Fizzos.LibKernel
open Fizzos.Support

def MAX_BLOCK_SIZE : Nat := 2032

/-- The `mem_block_size` table. -/
def memBlockSize (idx : Nat) : Nat := [32, 64, 116, 238, 508, 1016, 2032].getD idx 0

/-- The `mem_block_count` table. -/
def memBlockCount (idx : Nat) : Nat := [127, 63, 35, 17, 8, 4, 2].getD idx 0

/-- The lists of the allocator: `mblock_part[idx]`, `mblock_full[idx]`, and `block_list` of
the descriptor at an address. -/
inductive MList where
  | part (idx : Nat)
  | full (idx : Nat)
  | block (desc : Nat)
  deriving DecidableEq, Repr

/-- `struct mem_block_desc` without its lists. `count` is the union of `count` and `order`. -/
structure MemBlockDesc where
  count : Int
  remain : Int
  mlistIdx : Nat
  large : Bool
  deriving DecidableEq, Repr

/-- The memory that `kmalloc` works on. -/
structure KMem where
  list : MList → KList Nat
  desc : Nat → MemBlockDesc
  links : Links Nat

namespace KMem

def setDesc (m : KMem) (desc : Nat) (d : MemBlockDesc) : KMem :=
  { m with desc := Function.update m.desc desc d }

/-- `desc->remain += d`. -/
def addRemain (m : KMem) (desc : Nat) (d : Int) : KMem :=
  m.setDesc desc { m.desc desc with remain := (m.desc desc).remain + d }

/-- A list operation writes the list header and links. -/
def setList (m : KMem) (q : MList) (l : KList Nat) (links : Links Nat) : KMem :=
  { m with list := Function.update m.list q l, links }

/-- `list_init`. -/
def initList (m : KMem) (q : MList) : KMem := m.setList q listInit m.links

/-- `list_push_back`. -/
def pushBack (m : KMem) (q : MList) (elem : Nat) : Except Halt KMem := do
  let (l, links) ← listPushBack id (m.list q) elem m.links
  pure (m.setList q l links)

/-- `list_delete`. -/
def delete (m : KMem) (q : MList) (elem : Nat) : Except Halt KMem := do
  let (l, links) ← listDelete (m.list q) elem m.links
  pure (m.setList q l links)

/-- `list_pop_front`. -/
def popFront (m : KMem) (q : MList) : Except Halt (Option Nat × KMem) := do
  let (elem, l, links) ← listPopFront id (m.list q) m.links
  pure (elem, m.setList q l links)

/-- `list_find`. -/
def find (m : KMem) (q : MList) (elem : Nat) : Except Halt Bool :=
  listFind (m.list q) elem m.links

end KMem

/-- The loop of `kmalloc` that finds the order for a number of pages. -/
def pageOrder (cnt : Nat) : Nat := if cnt > 1 then pageOrder (cnt / 2) + 1 else 0

/-- The order for a large request. The sums in `DIV_ROUND_UP(size + 32, PG_SIZE)` wrap around. -/
def largeOrder (size : Nat) : Nat := pageOrder ((size + 32 + PG_SIZE - 1) % 2 ^ 32 / PG_SIZE)

/-- The loop of `kmalloc` that finds the size class. -/
def sizeClass (size : Nat) : Nat :=
  ((List.range 7).find? fun idx => decide (size ≤ memBlockSize idx)).getD 7

/-- The part of `kmalloc` that turns a fresh page into blocks. -/
def initDesc (m : KMem) (desc idx : Nat) : Except Halt KMem := do
  -- `sizeof desc` is the size of the pointer: only `page_elem.prev` is cleared
  let m := { m with links := m.links.setPrev desc none }
  let m ← m.pushBack (.part idx) desc
  let m := m.setDesc desc
    { count := memBlockCount idx, remain := memBlockCount idx - 1, mlistIdx := idx,
      large := false }
  let m := m.initList (.block desc)
  let m ← (List.range (m.desc desc).count.toNat).foldlM
    (fun m i => m.pushBack (.block desc) (desc + 32 + memBlockSize idx * i)) m
  m.pushBack (.part idx) desc

/-- The part of `kmalloc` that takes a block of the first page with free blocks. -/
def takeDesc (m : KMem) (idx : Nat) : Except Halt (Nat × KMem) := do
  let desc ← listFront (m.list (.part idx))
  let m := m.addRemain desc (-1)
  if (m.desc desc).remain = 0 then do
    let m ← m.delete (.part idx) desc
    let m ← m.pushBack (.full idx) desc
    pure (desc, m)
  else pure (desc, m)

/-- `kmalloc`: the pointer, with `none` for `NULL`. -/
def kmalloc (b : Buddy) (m : KMem) (size : Nat) (current : Tid) :
    Except Halt (Option Nat × Buddy × KMem) :=
  if size > MAX_BLOCK_SIZE then do
    let order := largeOrder size
    let (desc, b) ← b.getFreePages KERNEL_POOL order current
    let m := m.setDesc desc { m.desc desc with count := order, large := true }
    pure (some (desc + 32), b, m)
  else do
    let idx := sizeClass size
    ASSERT (idx < 7)
    if listEmpty (m.list (.part idx)) then do
      let (desc, b) ← b.getFreePage KERNEL_POOL current
      let m ← initDesc m desc idx
      let (elem, m) ← m.popFront (.block desc)
      pure (elem, b, m)
    else do
      let (desc, m) ← takeDesc m idx
      let (elem, m) ← m.popFront (.block desc)
      pure (elem, b, m)

/-- The descriptor of the page of an address: `addr & 0xfffff000`. -/
def descOf (addr : Nat) : Nat := addr &&& 0xfffff000

/-- `kfree`. -/
def kfree (b : Buddy) (m : KMem) (addr : Nat) (current : Tid) :
    Except Halt (Buddy × KMem) := do
  let desc := descOf addr
  if (m.desc desc).large then do
    let b ← b.freePagesAt desc (m.desc desc).count.toNat current
    pure (b, m)
  else do
    let idx := (m.desc desc).mlistIdx
    let inFull ← m.find (.full idx) desc
    if inFull then do
      let inPart ← m.find (.part idx) desc
      ASSERT (inPart = false)
      let m ← m.delete (.full idx) desc
      let m ← m.pushBack (.part idx) desc
      ASSERT ((m.desc desc).remain = 0)
      let m := m.addRemain desc 1
      let m ← m.pushBack (.block desc) addr
      pure (b, m)
    else do
      let inPart ← m.find (.part idx) desc
      ASSERT (inPart = true)
      ASSERT ((m.desc desc).remain < (m.desc desc).count)
      let m := m.addRemain desc 1
      if (m.desc desc).remain = (m.desc desc).count then do
        let m ← m.delete (.part idx) desc
        let b ← b.freePageAt desc current
        pure (b, m)
      else do
        let m ← m.pushBack (.block desc) addr
        pure (b, m)

/-! ### Runs -/

/-- The allocator, its live allocations, and the blocks of pages that other code holds. -/
structure KmallocState where
  buddy : Buddy
  mem : KMem
  live : Multiset (Nat × Nat)
  others : Pool → Multiset Block

inductive KmallocAct where
  | kmalloc (size : Nat) (current : Tid)
  | kfree (alloc : Nat × Nat) (current : Tid)
  /-- A call of other code to the page allocator. -/
  | pages (a : BuddyAct)
  /-- The owners of memory write to it. -/
  | write (mem : KMem)

namespace KmallocState

/-- The byte at an address belongs to a live allocation or to a page of other code. -/
def Writable (s : KmallocState) (addr : Nat) : Prop :=
  (∃ alloc ∈ s.live, alloc.1 ≤ addr ∧ addr < alloc.1 + alloc.2) ∨
  ∃ P, ∃ blk ∈ s.others P, blk.Covers (paddr2pg (getPaddr addr))

/-- A write of the owners leaves everything else as it is: the page lists, and each
descriptor and each list element with no byte that somebody owns. -/
structure Writes (s : KmallocState) (mem : KMem) : Prop where
  part : ∀ idx, mem.list (.part idx) = s.mem.list (.part idx)
  full : ∀ idx, mem.list (.full idx) = s.mem.list (.full idx)
  block : ∀ desc, (∀ i < 32, ¬s.Writable (desc + i)) →
    mem.desc desc = s.mem.desc desc ∧ mem.list (.block desc) = s.mem.list (.block desc)
  links : ∀ elem, (∀ i < 8, ¬s.Writable (elem + i)) → mem.links elem = s.mem.links elem

def Enabled (s : KmallocState) : KmallocAct → Prop
  | .kmalloc size _ => size ≤ MAX_BLOCK_SIZE
  | .kfree alloc _ => alloc ∈ s.live
  | .pages a => (BuddyState.mk s.buddy s.others).Enabled a
  | .write mem => s.Writes mem

/-- The caller of `kmalloc` uses the pointer, so `NULL` stops it. -/
def next (s : KmallocState) : KmallocAct → Except Halt KmallocState
  | .kmalloc size current => do
      let (elem, buddy, mem) ← Kernel.kmalloc s.buddy s.mem size current
      let addr ← deref elem
      pure { s with buddy, mem, live := (addr, size) ::ₘ s.live }
  | .kfree alloc current => do
      let (buddy, mem) ← Kernel.kfree s.buddy s.mem alloc.1 current
      pure { s with buddy, mem, live := s.live.erase alloc }
  | .pages a => do
      let t ← (BuddyState.mk s.buddy s.others).next a
      pure { s with buddy := t.buddy, others := t.live }
  | .write mem => pure { s with mem }

/-- The state behind `pool_init`, which asserts the bounds on the memory size: a page
allocator in use, and empty lists. -/
structure Init (totalMemSize : Nat) (s : KmallocState) : Prop where
  size : totalMemSize > 512 * PG_SIZE ∧ totalMemSize ≤ 1024 * 1024 * 1024
  pages : (buddySystem totalMemSize).Reachable ⟨s.buddy, s.others⟩
  list : ∀ idx < 7, s.mem.list (.part idx) = listInit ∧ s.mem.list (.full idx) = listInit
  live : s.live = 0

end KmallocState

/-- Any run of small `kmalloc`s and `kfree`s on a machine with `totalMemSize` bytes. -/
def kmallocSystem (totalMemSize : Nat) : System KmallocState KmallocAct Halt where
  init := KmallocState.Init totalMemSize
  enabled := KmallocState.Enabled
  next := KmallocState.next

end Fizzos.Kernel
