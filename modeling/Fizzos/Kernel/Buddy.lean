import Fizzos.LibKernel.Bitmap
import Fizzos.LibKernel.List
import Fizzos.Support.Dyadic
import Fizzos.Support.System

/-!
# `Fizzos.Kernel.Buddy`: the page allocator of `kernel/buddy.c`

Two pools share one array of page descriptors, `mem_map`. A page is its index in the array,
and the free lists run through the `lru` links of the descriptors. `current` is the thread
that calls: it takes the locks of the bitmaps.

`alloc_pages` and `__free_pages` run with interrupts off, so each call is one step of
`buddySystem`. The system keeps the blocks that are allocated (`live`), as the callers know
them. The code does not read this.

Left out of `struct page`: the fields that the allocator does not use.
-/

set_option autoImplicit false

namespace Fizzos.Kernel

open Fizzos.LibKernel
open Fizzos.Support

def MAX_ORDER : Nat := 10
def KERNEL_POOL : Nat := 0
def USER_POOL : Nat := 1

/-- `sizeof (struct page)`. -/
def SIZEOF_PAGE : Nat := 36

/-- The offset of `lru` in `struct page`. -/
def OFFSET_LRU : Nat := 24

/-- A memory pool: `kernel_area` or `user_area`. -/
inductive Pool where
  | kernel
  | user
  deriving DecidableEq, Repr

/-- `struct page`. -/
structure Page where
  count : Int
  «private» : Nat
  deriving DecidableEq, Repr

/-- `struct free_area`. -/
structure FreeArea where
  nrFree : Int
  bmap : Bitmap
  pgList : KList Nat

/-- The variables of `kernel/buddy.c`, with the page descriptors. -/
structure Buddy where
  memMap : Nat
  pgCnt : Nat
  userStartIdx : Nat
  page : Nat → Page
  lru : Links Nat
  area : Pool → Nat → FreeArea

/-- `flag & USER_POOL` selects the pool. -/
def poolOfFlag (flag : Nat) : Pool := if flag &&& USER_POOL ≠ 0 then .user else .kernel

/-- The virtual address of a page in the direct mapping. -/
def pageAddr (idx : Nat) : Nat := idx * PG_SIZE + KERNEL_VADDR_START

/-- `get_paddr` of an address in the direct mapping, which `pool_init` sets up. -/
def getPaddr (vaddr : Nat) : Nat := vaddr - KERNEL_VADDR_START

/-- `paddr2pg`, as an index. -/
def paddr2pg (paddr : Nat) : Nat := paddr / PG_SIZE

namespace Buddy

/-- `&(mem_map + idx)->lru`. -/
def lruAddr (b : Buddy) (idx : Nat) : Nat := b.memMap + SIZEOF_PAGE * idx + OFFSET_LRU

def setArea (b : Buddy) (P : Pool) (o : Nat) (a : FreeArea) : Buddy :=
  { b with area := Function.update b.area P (Function.update (b.area P) o a) }

/-- A list operation on `area[o].pg_list` writes the list header and links. -/
def setList (b : Buddy) (P : Pool) (o : Nat) (pgList : KList Nat) (lru : Links Nat) : Buddy :=
  { b.setArea P o { b.area P o with pgList } with lru }

def setPage (b : Buddy) (idx : Nat) (p : Page) : Buddy :=
  { b with page := Function.update b.page idx p }

/-- `bitmap_reverse(&area[o].bmap, k)`. -/
def reverse (b : Buddy) (P : Pool) (o k : Nat) (current : Tid) :
    Except Halt (Nat × Buddy) := do
  let (v, bmap) ← bitmapReverse (b.area P o).bmap k current
  pure (v, b.setArea P o { b.area P o with bmap })

/-- `list_push_back(&area[o].pg_list, &(mem_map + idx)->lru)`. -/
def pushBack (b : Buddy) (P : Pool) (o idx : Nat) : Except Halt Buddy := do
  let (pgList, lru) ← listPushBack b.lruAddr (b.area P o).pgList idx b.lru
  pure (b.setList P o pgList lru)

/-- `list_push_front(&area[o].pg_list, &(mem_map + idx)->lru)`. -/
def pushFront (b : Buddy) (P : Pool) (o idx : Nat) : Except Halt Buddy := do
  let (pgList, lru) ← listPushFront (b.area P o).pgList idx b.lru
  pure (b.setList P o pgList lru)

/-- `elem2entry(struct page, lru, list_pop_front(&area[o].pg_list))`, as an index. -/
def popFront (b : Buddy) (P : Pool) (o : Nat) : Except Halt (Nat × Buddy) := do
  let (elem, pgList, lru) ← listPopFront b.lruAddr (b.area P o).pgList b.lru
  let idx ← deref elem
  pure (idx, b.setList P o pgList lru)

/-- `list_delete(&area[o].pg_list, &(mem_map + idx)->lru)`. -/
def delete (b : Buddy) (P : Pool) (o idx : Nat) : Except Halt Buddy := do
  let (pgList, lru) ← listDelete (b.area P o).pgList idx b.lru
  pure (b.setList P o pgList lru)

/-- `area[o].nr_free += d`. -/
def addFree (b : Buddy) (P : Pool) (o : Nat) (d : Int) : Buddy :=
  b.setArea P o { b.area P o with nrFree := (b.area P o).nrFree + d }

section
variable (b : Buddy) (P : Pool) (o : Nat)

@[simp] theorem setArea_memMap (a : FreeArea) : (b.setArea P o a).memMap = b.memMap := rfl
@[simp] theorem setArea_userStartIdx (a : FreeArea) :
    (b.setArea P o a).userStartIdx = b.userStartIdx := rfl
@[simp] theorem setArea_page (a : FreeArea) : (b.setArea P o a).page = b.page := rfl
@[simp] theorem setArea_lru (a : FreeArea) : (b.setArea P o a).lru = b.lru := rfl
@[simp] theorem setArea_self (a : FreeArea) : (b.setArea P o a).area P o = a := by
  simp [setArea]

/-- The other areas stay. -/
theorem setArea_of_ne {P Q : Pool} {o q : Nat} (a : FreeArea) (hne : ¬(Q = P ∧ q = o)) :
    (b.setArea P o a).area Q q = b.area Q q := by
  by_cases hQ : Q = P
  · have hq : q ≠ o := fun hq => hne ⟨hQ, hq⟩
    subst hQ
    simp [setArea, hq]
  · simp [setArea, hQ]

@[simp] theorem setList_memMap (l : KList Nat) (lru : Links Nat) :
    (b.setList P o l lru).memMap = b.memMap := rfl
@[simp] theorem setList_userStartIdx (l : KList Nat) (lru : Links Nat) :
    (b.setList P o l lru).userStartIdx = b.userStartIdx := rfl
@[simp] theorem setList_page (l : KList Nat) (lru : Links Nat) :
    (b.setList P o l lru).page = b.page := rfl
@[simp] theorem setList_lru (l : KList Nat) (lru : Links Nat) :
    (b.setList P o l lru).lru = lru := rfl
@[simp] theorem setList_self (l : KList Nat) (lru : Links Nat) :
    (b.setList P o l lru).area P o = { b.area P o with pgList := l } := setArea_self b P o _

theorem setList_of_ne {P Q : Pool} {o q : Nat} (l : KList Nat) (lru : Links Nat)
    (hne : ¬(Q = P ∧ q = o)) : (b.setList P o l lru).area Q q = b.area Q q :=
  setArea_of_ne b _ hne

@[simp] theorem addFree_memMap (d : Int) : (b.addFree P o d).memMap = b.memMap := rfl
@[simp] theorem addFree_userStartIdx (d : Int) :
    (b.addFree P o d).userStartIdx = b.userStartIdx := rfl
@[simp] theorem addFree_page (d : Int) : (b.addFree P o d).page = b.page := rfl
@[simp] theorem addFree_lru (d : Int) : (b.addFree P o d).lru = b.lru := rfl
@[simp] theorem addFree_self (d : Int) :
    (b.addFree P o d).area P o = { b.area P o with nrFree := (b.area P o).nrFree + d } :=
  setArea_self b P o _

theorem addFree_of_ne {P Q : Pool} {o q : Nat} (d : Int) (hne : ¬(Q = P ∧ q = o)) :
    (b.addFree P o d).area Q q = b.area Q q := setArea_of_ne b _ hne

@[simp] theorem setPage_memMap (i : Nat) (p : Page) : (b.setPage i p).memMap = b.memMap := rfl
@[simp] theorem setPage_userStartIdx (i : Nat) (p : Page) :
    (b.setPage i p).userStartIdx = b.userStartIdx := rfl
@[simp] theorem setPage_page (i : Nat) (p : Page) :
    (b.setPage i p).page = Function.update b.page i p := rfl
@[simp] theorem setPage_lru (i : Nat) (p : Page) : (b.setPage i p).lru = b.lru := rfl
@[simp] theorem setPage_area (i : Nat) (p : Page) : (b.setPage i p).area = b.area := rfl

/-- The addresses of the links depend on `mem_map` only. -/
theorem lruAddr_congr {b b' : Buddy} (h : b'.memMap = b.memMap) : b'.lruAddr = b.lruAddr := by
  funext i
  simp [lruAddr, h]

end

/-! ### `alloc_pages` -/

/-- The inner loop of `alloc_pages`, which gives back the upper halves. `n` rounds are left,
and the next one is for the order `order + n - 1`. -/
def split (P : Pool) (order idx : Nat) (current : Tid) :
    Nat → Nat → Buddy → Except Halt Buddy
  | 0, _, b => pure b
  | n + 1, size, b => do
      let b ← b.pushBack P (order + n) (idx + size)
      let b := b.addFree P (order + n) 1
      let (_, b) ← b.reverse P (order + n) (idx >>> (order + n + 1)) current
      split P order idx current n (size / 2) b

/-- The body of the outer loop of `alloc_pages`, for an order `o` with a free block. -/
def take (b : Buddy) (P : Pool) (order o : Nat) (current : Tid) :
    Except Halt (Nat × Buddy) := do
  let b := b.addFree P o (-1)
  let (idx, b) ← b.popFront P o
  let size := (1 <<< o) / 2
  let b := b.setPage idx { b.page idx with «private» := order }
  let (_, b) ← b.reverse P o (idx >>> (o + 1)) current
  let b ← split P order idx current (o - order) size b
  pure (idx, b.setPage idx { b.page idx with count := 1 })

/-- The outer loop of `alloc_pages` from the order `o` on, with `n` orders left. -/
def allocFrom (b : Buddy) (P : Pool) (order : Nat) (current : Tid) :
    Nat → Nat → Except Halt (Nat × Buddy)
  | 0, _ => PANIC
  | n + 1, o =>
      if (b.area P o).nrFree > 0 then b.take P order o current
      else allocFrom b P order current n (o + 1)

/-- `alloc_pages`: the index of the first page. -/
def allocPages (b : Buddy) (flag order : Nat) (current : Tid) :
    Except Halt (Nat × Buddy) := do
  ASSERT (order ≤ MAX_ORDER)
  b.allocFrom (poolOfFlag flag) order current (MAX_ORDER + 1 - order) order

/-! ### `__free_pages` -/

/-- The loop of `__free_pages`, and the push behind it. `n` is the number of orders below
`MAX_ORDER` that are left. -/
def merge (P : Pool) (current : Tid) : Nat → Nat → Nat → Buddy → Except Halt Buddy
  | 0, order, idx, b => do
      let b ← b.pushFront P order idx
      pure (b.addFree P order 1)
  | n + 1, order, idx, b => do
      let (v, b) ← b.reverse P order (idx >>> (order + 1)) current
      if v = 0 then do
        let b ← b.delete P order (idx ^^^ (1 <<< order))
        merge P current n (order + 1) (Nat.ldiff idx (1 <<< order)) (b.addFree P order (-1))
      else do
        let b ← b.pushFront P order idx
        pure (b.addFree P order 1)

/-- The pool of a page, as `__free_pages` finds it. -/
def poolOfPage (b : Buddy) (idx : Nat) : Pool :=
  if b.userStartIdx ≤ idx then .user else .kernel

/-- `__free_pages`. -/
def freePages (b : Buddy) (idx order : Nat) (current : Tid) : Except Halt Buddy := do
  let (count, g) := atomicDecAndSetg (b.page idx).count
  let b := b.setPage idx { b.page idx with count }
  if g then pure b
  else do
    ASSERT (order = (b.page idx).private)
    merge (b.poolOfPage idx) current (MAX_ORDER - order) order idx b

/-! ### Pages by their virtual address -/

/-- `get_free_pages`. -/
def getFreePages (b : Buddy) (flag order : Nat) (current : Tid) :
    Except Halt (Nat × Buddy) := do
  let (idx, b) ← b.allocPages flag order current
  pure (pageAddr idx, b)

/-- `get_free_page`. -/
def getFreePage (b : Buddy) (flag : Nat) (current : Tid) : Except Halt (Nat × Buddy) :=
  b.getFreePages flag 0 current

/-- `free_pages`. -/
def freePagesAt (b : Buddy) (addr order : Nat) (current : Tid) : Except Halt Buddy := do
  ASSERT (addr &&& 0x00000fff = 0)
  b.freePages (paddr2pg (getPaddr addr)) order current

/-- `free_page`. -/
def freePageAt (b : Buddy) (addr : Nat) (current : Tid) : Except Halt Buddy :=
  b.freePagesAt addr 0 current

/-! ### `buddy_init` -/

/-- The loop of `buddy_init` that lays out the bitmaps of a pool: the orders from `n - 1`
down, with `nr` bits for the first of them. -/
def initBitmaps (P : Pool) : Nat → Nat → Nat → Buddy → Except Halt (Nat × Buddy)
  | 0, _, saddr, b => pure (saddr, b)
  | n + 1, nr, saddr, b => do
      let bmap ← bitmapInit { (b.area P n).bmap with addr := saddr + KERNEL_VADDR_START } nr
      initBitmaps P n (nr * 2) (saddr + DIV_ROUND_UP nr 8)
        (b.setArea P n { b.area P n with bmap })

/-- The loop of `buddy_init` that fills the list of a pool with the blocks `i .. i + n - 1`
of the maximal order. -/
def initList (P : Pool) : Nat → Nat → Buddy → Except Halt Buddy
  | 0, _, b => pure b
  | n + 1, i, b => do
      let b ← b.pushBack P MAX_ORDER ((1 <<< MAX_ORDER) * i)
      initList P n (i + 1) b

/-- A pool of `nr` blocks that starts with the block `start`. -/
def initPool (b : Buddy) (P : Pool) (start nr saddr : Nat) : Except Halt (Nat × Buddy) := do
  let b := b.setArea P MAX_ORDER { b.area P MAX_ORDER with nrFree := nr }
  let b ← initList P nr start b
  initBitmaps P (MAX_ORDER + 1) nr saddr b

/-- `buddy_init`, up to the address behind the bitmaps. -/
def buddyInit (b : Buddy) (saddr totalMemSize : Nat) : Except Halt (Nat × Buddy) := do
  let pgCnt := totalMemSize / PG_SIZE
  let nrMaxOrder := pgCnt >>> MAX_ORDER
  let kernelNr := nrMaxOrder / 4
  let userNr := nrMaxOrder - kernelNr
  let b := { b with memMap := saddr + KERNEL_VADDR_START, pgCnt,
                    userStartIdx := kernelNr * (1 <<< MAX_ORDER) }
  let (saddr, b) ← b.initPool .kernel 0 kernelNr (saddr + pgCnt * SIZEOF_PAGE)
  b.initPool .user kernelNr userNr saddr

end Buddy

/-- The physical address at which `pool_init` starts. -/
def POOL_START : Nat := 0x200000

/-- Static storage before `buddy_init`: zeroed areas, and any content of the memory behind
the pointers. -/
structure Buddy.Zeroed (b : Buddy) : Prop where
  pgList : ∀ P o, (b.area P o).pgList = listInit
  nrFree : ∀ P o, (b.area P o).nrFree = 0

/-- The allocator and the blocks that its callers hold. -/
structure BuddyState where
  buddy : Buddy
  live : Pool → Multiset Block

/-- The calls that the allocator gets. `current` is the caller. -/
inductive BuddyAct where
  | alloc (flag order : Nat) (current : Tid)
  /-- `atomic_inc(&pg->count)`. -/
  | ref (idx : Nat)
  | free (P : Pool) (blk : Block) (current : Tid)

namespace BuddyState

/-- The calls of correct callers: an order in range, a reference to an allocated page, and a
free of an allocated block with the order that it was allocated with, while it is
referenced. -/
def Enabled (s : BuddyState) : BuddyAct → Prop
  | .alloc _ order _ => order ≤ MAX_ORDER
  | .ref idx => ∃ P, ∃ blk ∈ s.live P, blk.Covers idx
  | .free P blk _ => blk ∈ s.live P ∧ 1 ≤ (s.buddy.page blk.idx).count

/-- The state after a call. A free that only drops a reference leaves the block allocated. -/
def next (s : BuddyState) : BuddyAct → Except Halt BuddyState
  | .alloc flag order current => do
      let (idx, buddy) ← s.buddy.allocPages flag order current
      pure { buddy, live := Function.update s.live (poolOfFlag flag)
                      (⟨idx, order⟩ ::ₘ s.live (poolOfFlag flag)) }
  | .ref idx =>
      let page := s.buddy.page idx
      pure { s with buddy := s.buddy.setPage idx { page with count := atomicInc page.count } }
  | .free P blk current => do
      let buddy ← s.buddy.freePages blk.idx blk.order current
      if (atomicDecAndSetg (s.buddy.page blk.idx).count).2 then pure { s with buddy }
      else pure { buddy, live := Function.update s.live P ((s.live P).erase blk) }

/-- The state behind `buddy_init`. -/
def Init (totalMemSize : Nat) (s : BuddyState) : Prop :=
  (∃ (b : Buddy) (saddr : Nat), b.Zeroed ∧
      b.buddyInit POOL_START totalMemSize = .ok (saddr, s.buddy)) ∧
    ∀ P, s.live P = 0

end BuddyState

/-- Any run of calls on the allocator of a machine with `totalMemSize` bytes. -/
def buddySystem (totalMemSize : Nat) : System BuddyState BuddyAct Halt where
  init := BuddyState.Init totalMemSize
  enabled := BuddyState.Enabled
  next := BuddyState.next

/-- The number of blocks of the maximal order in a pool. -/
def poolBlocks (totalMemSize : Nat) : Pool → Nat
  | .kernel => ((totalMemSize / PG_SIZE) >>> MAX_ORDER) / 4
  | .user =>
      let nr := (totalMemSize / PG_SIZE) >>> MAX_ORDER
      nr - nr / 4

end Fizzos.Kernel
