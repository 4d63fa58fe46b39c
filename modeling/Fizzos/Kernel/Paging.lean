import Fizzos.Kernel.Buddy
import Mathlib.Data.Finset.Prod
import Mathlib.Data.Finset.Card

/-!
# `Fizzos.Kernel.Paging`: address spaces, page faults and fork

A process has a page directory, and its entries below 768 lead to the page tables of user
memory. `Vm` is the memory that this code works on: the page allocator, the pages as tables
of 32-bit words, and the pages as bytes. A page is known by its address in the direct mapping,
and at most 1 GiB of physical memory is mapped there, so that these addresses do not wrap.

`copy_mm` of `kernel/fork.c` copies the page tables of a process and shares the frames, and
`page_protect_fault` of `kernel/memory.c` copies a frame when a process writes to it.
`page_not_present` maps new frames. It reads a file in the middle, and other processes run
meanwhile, so `cowSystem` takes it in two steps. All other calls run with interrupts off.

The system also keeps the memory that each process would have if a fork copied everything
(`eager`). The code does not read this.

Left out: the fields of `mm_struct` and `vm_area_struct` that no function here uses, the TLB,
and `kmalloc` for the new `mm_struct`, which is one of the calls of other code to the page
allocator.
-/

set_option autoImplicit false

namespace Fizzos.Kernel

open Fizzos.Support

/-- An entry of a page directory or a page table. -/
abbrev Word := BitVec 32

def PG_P : Word := 1
def PG_RWE : Word := 0b10
def PG_USER : Word := 0b100
def PG_SUPERVISOR : Word := 0

/-- The end of user memory. -/
def TASK_SIZE : Nat := 0xc0000000

/-- The number of pages of user memory. -/
def USER_PAGES : Nat := 768 * 1024

def VM_READ : Nat := 0x00000001
def VM_WRITE : Nat := 0x00000002
def VM_EXEC : Nat := 0x00000004

/-- `struct vm_area_struct`. A file is a number, and `none` is `NULL`. -/
structure VmAreaStruct where
  vmStart : Nat
  vmEnd : Nat
  vmPageProt : Nat
  vmFlags : Nat
  vmPgoff : Nat
  vmFile : Option Nat
  deriving DecidableEq, Repr

/-- `struct mm_struct`: the list `mmap`, and the address of the page directory. -/
structure MmStruct where
  mmap : List VmAreaStruct
  pgDir : Nat
  deriving DecidableEq, Repr

/-- `find_vma`: the first area that ends behind an address. -/
def findVma (mm : MmStruct) (addr : Nat) : Option VmAreaStruct :=
  mm.mmap.find? fun vma => decide (vma.vmEnd > addr)

/-- `PDE_IDX(addr)`. -/
def PDE_IDX (addr : Nat) : Nat := addr >>> 22

/-- `PTE_IDX(addr)`. -/
def PTE_IDX (addr : Nat) : Nat := addr >>> 12 &&& 0x3ff

/-- The page that an entry maps, in the direct mapping:
`(entry & 0xfffff000) + KERNEL_VADDR_START`. -/
def entryAddr (w : Word) : Nat := (w &&& 0xfffff000).toNat + KERNEL_VADDR_START

/-- `(uint32_t)get_paddr(addr)`. -/
def paddrWord (addr : Nat) : Word := BitVec.ofNat 32 (getPaddr addr)

/-- The page that an entry maps, as an index: `paddr2pg(entry)`. -/
def entryPage (w : Word) : Nat := paddr2pg w.toNat

/-- Memory, with the pages once as tables and once as bytes. -/
structure Vm where
  buddy : Buddy
  table : Nat → Nat → Word
  user : Nat → Nat → UInt8

namespace Vm

/-- `*((uint32_t*)pt + idx) = w`. -/
def setEntry (vm : Vm) (pt idx : Nat) (w : Word) : Vm :=
  { vm with table := Function.update vm.table pt (Function.update (vm.table pt) idx w) }

/-- `memcpy(dst, src, PG_SIZE)`. -/
def copyPage (vm : Vm) (dst src : Nat) : Vm :=
  { vm with table := Function.update vm.table dst (vm.table src)
            user := Function.update vm.user dst (vm.user src) }

/-- `memset(addr, 0, PG_SIZE)`. -/
def zeroPage (vm : Vm) (addr : Nat) : Vm :=
  { vm with table := Function.update vm.table addr fun _ => 0
            user := Function.update vm.user addr fun _ => 0 }

/-- `get_free_page`. -/
def getFreePage (vm : Vm) (flag : Nat) (current : Tid) : Except Halt (Nat × Vm) := do
  let (addr, buddy) ← vm.buddy.getFreePage flag current
  pure (addr, { vm with buddy })

/-- `get_zeroed_page`. -/
def getZeroedPage (vm : Vm) (flag : Nat) (current : Tid) : Except Halt (Nat × Vm) := do
  let (addr, vm) ← vm.getFreePage flag current
  pure (addr, vm.zeroPage addr)

/-- `free_page`. -/
def freePage (vm : Vm) (addr : Nat) (current : Tid) : Except Halt Vm := do
  let buddy ← vm.buddy.freePageAt addr current
  pure { vm with buddy }

/-- `atomic_read(&paddr2pg(entry)->count)`. -/
def count (vm : Vm) (w : Word) : Int := (vm.buddy.page (entryPage w)).count

/-- `atomic_inc(&paddr2pg(entry)->count)`. -/
def incCount (vm : Vm) (w : Word) : Vm :=
  let page := vm.buddy.page (entryPage w)
  { vm with buddy := vm.buddy.setPage (entryPage w) { page with count := atomicInc page.count } }

section
variable (vm : Vm) (addr src idx : Nat) (w : Word)

@[simp] theorem setEntry_buddy : (vm.setEntry addr idx w).buddy = vm.buddy := rfl
@[simp] theorem setEntry_user : (vm.setEntry addr idx w).user = vm.user := rfl
theorem setEntry_table : (vm.setEntry addr idx w).table
    = Function.update vm.table addr (Function.update (vm.table addr) idx w) := rfl
@[simp] theorem setEntry_self :
    (vm.setEntry addr idx w).table addr = Function.update (vm.table addr) idx w :=
  Function.update_self _ _ _

@[simp] theorem copyPage_buddy : (vm.copyPage addr src).buddy = vm.buddy := rfl
@[simp] theorem copyPage_table_self : (vm.copyPage addr src).table addr = vm.table src :=
  Function.update_self _ _ _
@[simp] theorem copyPage_user_self : (vm.copyPage addr src).user addr = vm.user src :=
  Function.update_self _ _ _

@[simp] theorem zeroPage_buddy : (vm.zeroPage addr).buddy = vm.buddy := rfl
@[simp] theorem zeroPage_table_self : (vm.zeroPage addr).table addr = fun _ => 0 :=
  Function.update_self _ _ _
@[simp] theorem zeroPage_user_self : (vm.zeroPage addr).user addr = fun _ => 0 :=
  Function.update_self _ _ _

@[simp] theorem incCount_table : (vm.incCount w).table = vm.table := rfl
@[simp] theorem incCount_user : (vm.incCount w).user = vm.user := rfl

variable {addr} {other : Nat} (h : other ≠ addr)
include h

theorem setEntry_of_ne : (vm.setEntry addr idx w).table other = vm.table other :=
  Function.update_of_ne h _ _
theorem copyPage_table_of_ne : (vm.copyPage addr src).table other = vm.table other :=
  Function.update_of_ne h _ _
theorem copyPage_user_of_ne : (vm.copyPage addr src).user other = vm.user other :=
  Function.update_of_ne h _ _
theorem zeroPage_table_of_ne : (vm.zeroPage addr).table other = vm.table other :=
  Function.update_of_ne h _ _
theorem zeroPage_user_of_ne : (vm.zeroPage addr).user other = vm.user other :=
  Function.update_of_ne h _ _

end

/-! ### The paging unit -/

/-- The entry for an address in a page directory, and the one in its page table, when both
are present. -/
def walk (vm : Vm) (pgDir addr : Nat) : Option (Word × Word) :=
  let pde := vm.table pgDir (PDE_IDX addr)
  let pte := vm.table (entryAddr pde) (PTE_IDX addr)
  if pde &&& PG_P = 0 ∨ pte &&& PG_P = 0 then none else some (pde, pte)

/-- Both entries for an address have the bits `flags`. -/
def Permits (vm : Vm) (pgDir addr : Nat) (flags : Word) : Prop :=
  ∃ e ∈ vm.walk pgDir addr, e.1 &&& flags = flags ∧ e.2 &&& flags = flags

/-- The byte that a user process reads, if the paging unit lets it read. -/
def userRead (vm : Vm) (pgDir addr : Nat) : Option UInt8 := do
  let (pde, pte) ← vm.walk pgDir addr
  if pde &&& PG_USER ≠ 0 ∧ pte &&& PG_USER ≠ 0 then
    some (vm.user (entryAddr pte) (addr % PG_SIZE))
  else none

/-- A user process writes a byte, which the paging unit permits. -/
def userWrite (vm : Vm) (pgDir addr : Nat) (byte : UInt8) : Vm :=
  match vm.walk pgDir addr with
  | none => vm
  | some (_, pte) =>
      let page := entryAddr pte
      let content := Function.update (vm.user page) (addr % PG_SIZE) byte
      { vm with user := Function.update vm.user page content }

/-- `get_pde`: the address is `0xfffff000` and more, so the entry 1023 of the current
directory leads twice to the page that is read. -/
def getPde (vm : Vm) (pgDir addr : Nat) : Nat × Nat :=
  let dir := entryAddr (vm.table pgDir 1023)
  (entryAddr (vm.table dir 1023), PDE_IDX addr)

/-- `get_pte`: the entry 1023 of the current directory leads to the directory as a table. -/
def getPte (vm : Vm) (pgDir addr : Nat) : Nat × Nat :=
  let dir := entryAddr (vm.table pgDir 1023)
  (entryAddr (vm.table dir (PDE_IDX addr)), PTE_IDX addr)

/-! ### Page faults -/

/-- `page_not_present` up to `file_read`: the new page. Both branches of the source start
like this. -/
def notPresentAlloc (vm : Vm) (mm : MmStruct) (addr : Nat) (current : Tid) :
    Except Halt (Nat × Vm) :=
  if addr ≥ 0xc0000000 ∨ addr < 0x08048000 then .error .hang
  else do
    ASSERT ((findVma mm addr).isSome)
    let (dir, i) := vm.getPde mm.pgDir addr
    let vm ←
      if vm.table dir i &&& 1 = 0 then do
        let (page, vm) ← vm.getZeroedPage KERNEL_POOL current
        pure (vm.setEntry dir i (paddrWord page ||| PG_USER ||| PG_P ||| PG_RWE))
      else pure vm
    vm.getZeroedPage USER_POOL current

/-- The offset in the file of an area, as a `uint32_t`. -/
def fileOff (vas : VmAreaStruct) (addr : Nat) : Nat :=
  (vas.vmPgoff + (addr + 2 ^ 32 - vas.vmStart) % 2 ^ 32 / PG_SIZE * PG_SIZE) % 2 ^ 32

/-- The content of a new page. `fileRead file off` is a page of a file, with zeros behind the
end of the file. -/
def pageContent (mm : MmStruct) (addr : Nat) (fileRead : Nat → Nat → Nat → UInt8) :
    Option (Nat → UInt8) := do
  let vas ← findVma mm addr
  let file ← vas.vmFile
  pure (fileRead file (fileOff vas addr))

/-- `page_not_present` from `file_read` on, which leaves the page as it is when the area has
no file. -/
def notPresentMap (vm : Vm) (mm : MmStruct) (addr buf : Nat)
    (fileRead : Nat → Nat → Nat → UInt8) : Except Halt Vm := do
  let content := (pageContent mm addr fileRead).getD (vm.user buf)
  let vm := { vm with user := Function.update vm.user buf content }
  let (pt, j) := vm.getPte mm.pgDir addr
  ASSERT (vm.table pt j &&& 1 = 0)
  pure (vm.setEntry pt j (paddrWord buf ||| PG_USER ||| PG_P ||| PG_RWE))

/-- `page_not_present`, when no process runs in the middle. -/
def pageNotPresent (vm : Vm) (mm : MmStruct) (addr : Nat)
    (fileRead : Nat → Nat → Nat → UInt8) (current : Tid) : Except Halt Vm := do
  let (buf, vm) ← vm.notPresentAlloc mm addr current
  vm.notPresentMap mm addr buf fileRead

/-- `page_protect_fault`. -/
def pageProtectFault (vm : Vm) (mm : MmStruct) (addr : Nat) (current : Tid) :
    Except Halt Vm := do
  let vma ← deref (findVma mm addr)
  ASSERT (vma.vmStart ≤ addr)
  if vma.vmFlags &&& VM_WRITE ≠ 0 then do
    let (dir, i) := vm.getPde mm.pgDir addr
    ASSERT (vm.table dir i &&& PG_RWE ≠ 0)
    let (pt, j) := vm.getPte mm.pgDir addr
    let tmp := vm.count (vm.table pt j)
    if tmp > 1 then do
      let oldPg := entryAddr (vm.table pt j)
      let (newPg, vm) ← vm.getFreePage USER_POOL current
      let vm := vm.copyPage newPg oldPg
      let vm ← vm.freePage oldPg current
      let vm := vm.setEntry pt j (paddrWord newPg ||| PG_RWE ||| PG_P ||| PG_USER)
      -- with three users and more the count and the assertion disagree
      ASSERT (tmp = vm.count (vm.table pt j) + 1)
      pure vm
    else pure (vm.setEntry pt j (vm.table pt j ||| (PG_RWE ||| PG_USER)))
  else PANIC

/-! ### Fork -/

/-- The body of the inner loop of `copy_pt`. -/
def shareEntry (vm : Vm) (pt j : Nat) : Vm :=
  if vm.table pt j &&& 0b11 ≠ 0 then
    let vm := vm.setEntry pt j (vm.table pt j &&& ~~~PG_RWE)
    vm.incCount (vm.table pt j)
  else vm

/-- The inner loop of `copy_pt`. -/
def shareTable (vm : Vm) (pt n : Nat) : Vm :=
  (List.range n).foldl (fun vm j => vm.shareEntry pt j) vm

/-- The body of the outer loop of `copy_pt`. -/
def copyPde (vm : Vm) (oldPgdir newPgdir i : Nat) (current : Tid) : Except Halt Vm :=
  if vm.table oldPgdir i &&& 0b11 ≠ 0 then do
    let pt := entryAddr (vm.table oldPgdir i)
    let vm := vm.shareTable pt 1024
    let (newPt, vm) ← vm.getFreePage KERNEL_POOL current
    let vm := vm.copyPage newPt pt
    pure (vm.setEntry newPgdir i (paddrWord newPt ||| PG_P ||| PG_RWE ||| PG_USER))
  else pure vm

/-- The outer loop of `copy_pt`. -/
def copyPdes (vm : Vm) (oldPgdir newPgdir n : Nat) (current : Tid) : Except Halt Vm :=
  (List.range n).foldlM (fun vm i => vm.copyPde oldPgdir newPgdir i current) vm

/-- `copy_pt`. -/
def copyPt (vm : Vm) (oldPgdir newPgdir : Nat) (current : Tid) : Except Halt Vm :=
  let vm := vm.copyPage newPgdir oldPgdir
  let vm := vm.setEntry newPgdir 1023 (paddrWord newPgdir ||| PG_SUPERVISOR ||| PG_P ||| PG_RWE)
  vm.copyPdes oldPgdir newPgdir 768 current

/-- `copy_mm` without `CLONE_VM`, which `sys_fork` never sets. `dup_mmap` copies the list of
the areas. -/
def copyMm (vm : Vm) (oldMm : MmStruct) (current : Tid) : Except Halt (MmStruct × Vm) := do
  let (pgDir, vm) ← vm.getFreePage KERNEL_POOL current
  let mm := { oldMm with pgDir }
  let vm ← vm.copyPt oldMm.pgDir mm.pgDir current
  pure (mm, vm)

end Vm

/-! ### Address spaces -/

/-- The page that an entry maps, if the entry is present. -/
def presentPage (w : Word) : Option Nat := if w &&& PG_P = 0 then none else some (entryPage w)

namespace Vm

/-- The page table behind an entry of a directory. -/
def tableIdx (vm : Vm) (pgDir i : Nat) : Option Nat := presentPage (vm.table pgDir i)

/-- The page-table entry of a user page, and an empty one without a table. -/
def pte (vm : Vm) (pgDir page : Nat) : Word :=
  match vm.tableIdx pgDir (page / 1024) with
  | none => 0
  | some t => vm.table (pageAddr t) (page % 1024)

/-- The frame that the page-table entry of a user page references. -/
def frame (vm : Vm) (pgDir page : Nat) : Option Nat := presentPage (vm.pte pgDir page)

end Vm

/-- The entries of a directory that belong to a process: the first `n`, which are for user
memory, and the one that leads to the directory itself. -/
def OwnEntry (n i : Nat) : Prop := i < n ∨ i = 1023

/-- An entry is empty, or it has the bits `rights` and maps one of the pages. -/
def PageEntry (rights : Word) (pages : Multiset Nat) (w : Word) : Prop :=
  w &&& 0b11 = 0 ∨ w &&& rights = rights ∧ entryPage w ∈ pages

/-- An address space with `n` entries for user memory, whose tables and frames are among the
pages `own`. Its directory entry 1023 leads to the directory. -/
structure AddressSpace (vm : Vm) (pgDir n : Nat) (own : Pool → Multiset Nat) : Prop where
  self : ∃ d ∈ own .kernel, pgDir = pageAddr d ∧ vm.tableIdx pgDir 1023 = some d
  pde : ∀ i < n, PageEntry (PG_P ||| PG_RWE ||| PG_USER) (own .kernel) (vm.table pgDir i)
  pte : ∀ page < n * 1024, PageEntry (PG_P ||| PG_USER) (own .user) (vm.pte pgDir page)

/-- Single pages as blocks of the page allocator. -/
def pageBlock (own : Pool → Multiset Nat) (P : Pool) : Multiset Block :=
  (own P).map fun idx => ⟨idx, 0⟩

/-! ### Runs -/

/-- A process. While a not-present fault reads a file, `fault` is the address and the new
page. -/
structure Proc where
  mm : MmStruct
  fault : Option (Nat × Nat)

/-- The processes `0 .. procs - 1`, the blocks that other code holds, and the memory of a
machine that copies everything: the content of each user page that is present. -/
structure CowState where
  vm : Vm
  procs : Nat
  proc : Nat → Proc
  others : Pool → Multiset Block
  eager : Nat → Nat → Option (Nat → UInt8)

inductive CowAct where
  | fork (p : Nat) (current : Tid)
  /-- A user write that the paging unit permits. -/
  | write (p addr : Nat) (byte : UInt8)
  /-- A user write to a present page that the paging unit does not permit. -/
  | protectFault (p addr : Nat) (current : Tid)
  /-- A user access to a page that is not present. -/
  | notPresent (p addr : Nat) (current : Tid)
  /-- The end of a not-present fault. -/
  | mapped (p : Nat) (fileRead : Nat → Nat → Nat → UInt8)
  /-- A call of other code to the page allocator. -/
  | pages (a : BuddyAct)
  /-- Other code writes to its pages. -/
  | store (table : Nat → Nat → Word) (user : Nat → Nat → UInt8)

namespace CowState

/-- The page directory of a process. -/
def dir (s : CowState) (p : Nat) : Nat := (s.proc p).mm.pgDir

/-- The process runs in user mode. -/
def Runs (s : CowState) (p : Nat) : Prop := p < s.procs ∧ (s.proc p).fault = none

/-- The user page-table entries, as pairs of a process and a page. -/
def slots (s : CowState) : Finset (Nat × Nat) :=
  Finset.range s.procs ×ˢ Finset.range USER_PAGES

/-- The frame that a user page-table entry references. -/
def frame (s : CowState) (slot : Nat × Nat) : Option Nat := s.vm.frame (s.dir slot.1) slot.2

/-- The number of user page-table entries that reference a frame. -/
def refs (s : CowState) (f : Nat) : Nat := (s.slots.filter fun slot => s.frame slot = some f).card

/-- A process becomes `pr`. -/
def setProc (s : CowState) (p : Nat) (pr : Proc) : CowState :=
  { s with proc := Function.update s.proc p pr }

/-- The page of a process gets a content, in the memory of the machine that copies
everything. -/
def setEager (s : CowState) (p page : Nat) (content : Option (Nat → UInt8)) : CowState :=
  { s with eager := Function.update s.eager p (Function.update (s.eager p) page content) }

def Enabled (s : CowState) : CowAct → Prop
  | .fork p _ => s.Runs p
  | .write p addr _ =>
      s.Runs p ∧ addr < TASK_SIZE ∧ s.vm.Permits (s.dir p) addr (PG_USER ||| PG_RWE)
  | .protectFault p addr _ =>
      s.Runs p ∧ addr < TASK_SIZE ∧ (s.vm.walk (s.dir p) addr).isSome ∧
        ¬s.vm.Permits (s.dir p) addr (PG_USER ||| PG_RWE)
  | .notPresent p addr _ =>
      s.Runs p ∧ addr < TASK_SIZE ∧ s.vm.walk (s.dir p) addr = none
  | .mapped p _ => p < s.procs ∧ (s.proc p).fault.isSome
  | .pages a => (BuddyState.mk s.vm.buddy s.others).Enabled a
  | .store table user => ∀ addr,
      (∀ P, ∀ blk ∈ s.others P, ¬blk.Covers (paddr2pg (getPaddr addr))) →
        table addr = s.vm.table addr ∧ user addr = s.vm.user addr

def next (s : CowState) : CowAct → Except Halt CowState
  | .fork p current => do
      let (mm, vm) ← s.vm.copyMm (s.proc p).mm current
      let child := { mm, fault := none }
      pure { s with vm, procs := s.procs + 1
                    proc := Function.update s.proc s.procs child
                    eager := Function.update s.eager s.procs (s.eager p) }
  | .write p addr byte =>
      let vm := s.vm.userWrite (s.dir p) addr byte
      let content := (s.eager p (addr / PG_SIZE)).map fun c =>
        Function.update c (addr % PG_SIZE) byte
      pure ({ s with vm }.setEager p (addr / PG_SIZE) content)
  | .protectFault p addr current => do
      let vm ← s.vm.pageProtectFault (s.proc p).mm addr current
      pure { s with vm }
  | .notPresent p addr current => do
      let (buf, vm) ← s.vm.notPresentAlloc (s.proc p).mm addr current
      pure ({ s with vm }.setProc p { s.proc p with fault := some (addr, buf) })
  | .mapped p fileRead => do
      let pr := s.proc p
      let (addr, buf) ← deref pr.fault
      let vm ← s.vm.notPresentMap pr.mm addr buf fileRead
      let content := (Vm.pageContent pr.mm addr fileRead).getD fun _ => 0
      let s := { s with vm }.setProc p { pr with fault := none }
      pure (s.setEager p (addr / PG_SIZE) content)
  | .pages a => do
      let t ← (BuddyState.mk s.vm.buddy s.others).next a
      pure { s with vm := { s.vm with buddy := t.buddy }, others := t.live }
  | .store table user => pure { s with vm := { s.vm with table, user } }

/-- One process, whose tables and frames are all different, with one reference to each
frame. `pool_init` asserts the bounds on the memory size. -/
structure Init (totalMemSize : Nat) (s : CowState) : Prop where
  size : totalMemSize > 512 * PG_SIZE ∧ totalMemSize ≤ 1024 * 1024 * 1024
  procs : s.procs = 1
  runs : (s.proc 0).fault = none
  space : ∃ own, AddressSpace s.vm (s.dir 0) 768 own ∧
    (buddySystem totalMemSize).Reachable ⟨s.vm.buddy, s.others + pageBlock own⟩
  tables : ∀ i j t, OwnEntry 768 i → OwnEntry 768 j → s.vm.tableIdx (s.dir 0) i = some t →
    s.vm.tableIdx (s.dir 0) j = some t → i = j
  frames : ∀ page < USER_PAGES, ∀ f, s.frame (0, page) = some f →
    (s.vm.buddy.page f).count = 1 ∧ s.refs f = 1
  eager : ∀ page < USER_PAGES,
    s.eager 0 page = (s.frame (0, page)).map fun f => s.vm.user (pageAddr f)

end CowState

/-- Any run of processes that descend from one by fork, on a machine with `totalMemSize`
bytes. -/
def cowSystem (totalMemSize : Nat) : System CowState CowAct Halt where
  init := CowState.Init totalMemSize
  enabled := CowState.Enabled
  next := CowState.next

end Fizzos.Kernel
