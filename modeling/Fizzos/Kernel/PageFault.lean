import Fizzos.Fs.File
import Fizzos.Kernel.Vma

/-!
# `Fizzos.Kernel.PageFault`: demand paging

`page_not_present` of `kernel/memory.c`. The handler looks for the first area that ends behind the
address, makes a page table if there is none, takes a page, fills it with `file_read` if the area
has a file, and stores the entry.

`Vm.pageNotPresent` of `Fizzos.Kernel.Paging` is the same function with the page of the file as a
parameter. `Files.pageNotPresent` calls `fileRead` and goes over the areas as the source does.
-/

set_option autoImplicit false

namespace Fizzos.Kernel

open Fizzos.Fs
open Fizzos.Support

/-- The open files of the areas: the file system, and the inode of each file. -/
structure Files where
  fs : FileSys
  inode : Nat → Nat

namespace Vm

/-- The page at `addr`, as a buffer. -/
def pageBytes (vm : Vm) (addr : Nat) : Bytes := fun k => (vm.user addr k).toBitVec

/-- The page at `addr` gets the content of a buffer. -/
def setPageBytes (vm : Vm) (addr : Nat) (bytes : Bytes) : Vm :=
  { vm with user := Function.update vm.user addr fun k => UInt8.ofBitVec (bytes k) }

/-- A page table for an address, if there is none. -/
def openTable (vm : Vm) (pgDir addr : Nat) (current : Tid) : Except Halt Vm := do
  let (dir, i) := vm.getPde pgDir addr
  if vm.table dir i &&& 1 = 0 then do
    let (page, vm) ← vm.getZeroedPage KERNEL_POOL current
    pure (vm.setEntry dir i (paddrWord page ||| PG_USER ||| PG_P ||| PG_RWE))
  else pure vm

/-- The entry for an address, which has to be empty, maps the page `buf`. -/
def installPage (vm : Vm) (pgDir addr buf : Nat) : Except Halt Vm := do
  let (pt, j) := vm.getPte pgDir addr
  ASSERT (vm.table pt j &&& 1 = 0)
  pure (vm.setEntry pt j (paddrWord buf ||| PG_USER ||| PG_P ||| PG_RWE))

end Vm

namespace Files
variable (f : Files)

/-- The body of the loop of `page_not_present`, for the area that it has found. -/
def faultArea (vm : Vm) (pgDir : Nat) (vas : VmAreaStruct) (addr : Nat) (ioBuf : Bytes)
    (current : Tid) : Except Halt Vm :=
  match vas.vmFile with
  | some file => do
      let vm ← vm.openTable pgDir addr current
      let (buf, vm) ← vm.getZeroedPage USER_POOL current
      let off := Vm.fileOff vas addr
      let (_, _, page) ← fileRead f.fs (f.inode file) (vm.pageBytes buf) PG_SIZE off ioBuf
      (vm.setPageBytes buf page).installPage pgDir addr buf
  | none => do
      let vm ← vm.openTable pgDir addr current
      let (buf, vm) ← vm.getZeroedPage USER_POOL current
      vm.installPage pgDir addr buf

/-- The loop of `page_not_present`, over the areas that are left. Behind the last one stands
`ASSERT(vas != NULL)`. -/
def faultLoop (vm : Vm) (pgDir addr : Nat) (ioBuf : Bytes) (current : Tid) :
    List VmAreaStruct → Except Halt Vm
  | [] => .error .assertFailed
  | vas :: rest =>
      if vas.vmEnd > addr then f.faultArea vm pgDir vas addr ioBuf current
      else faultLoop vm pgDir addr ioBuf current rest

/-- `page_not_present`, when no process runs in the middle. A segment fault prints a message and
loops forever. -/
def pageNotPresent (vm : Vm) (mm : MmStruct) (addr : Nat) (ioBuf : Bytes) (current : Tid) :
    Except Halt Vm :=
  if addr ≥ 0xc0000000 ∨ addr < 0x08048000 then .error .hang
  else f.faultLoop vm mm.pgDir addr ioBuf current mm.mmap

end Files

end Fizzos.Kernel
