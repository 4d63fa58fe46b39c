import Fizzos.Kernel.Kmalloc

/-!
# `Fizzos.Kernel.DupMmap`: the areas of a child

`dup_mmap` of `kernel/vma.c` and the part of `copy_mm` of `kernel/fork.c` up to its call. Here the
areas are nodes in memory, and `vm_next` is a pointer: `area` and `mm` hold what the memory at an
address says as a `struct vm_area_struct` and as a `struct mm_struct`. The nodes come from the
`kmalloc` of `Kernel.Kmalloc`, and a new node holds what its memory held before.

Left out: the fields of `struct mm_struct` that no code uses, the flag `CLONE_VM`, at which
`copy_mm` stops with `PANIC`, and the copy of the page tables, which comes behind `dup_mmap`.
-/

set_option autoImplicit false

namespace Fizzos.Kernel

open Fizzos.LibKernel

/-- `struct vm_area_struct`. -/
structure VmAreaNode where
  vmMm : Option Nat
  vmStart : Nat
  vmEnd : Nat
  vmNext : Option Nat
  vmPageProt : Nat
  vmFlags : Nat
  vmPgoff : Nat
  vmFile : Option Nat
  vmPrivateData : Option Nat
  deriving DecidableEq, Repr

/-- `sizeof (struct vm_area_struct)`. -/
def VM_AREA_SIZE : Nat := 36

/-- `struct mm_struct`. -/
structure MmNode where
  mmap : Option Nat
  users : Int
  pgDir : Nat
  deriving DecidableEq, Repr

/-- `sizeof (struct mm_struct)`. -/
def MM_SIZE : Nat := 76

/-- The allocator, and the areas and address spaces in memory. -/
structure MmState where
  alloc : KmallocState
  area : Nat → VmAreaNode
  mm : Nat → MmNode

namespace MmState

/-- `kmalloc`, for a caller that uses the pointer. -/
def kmalloc (s : MmState) (size : Nat) (current : Tid) : Except Halt (Nat × MmState) := do
  let (elem, buddy, mem) ← Kernel.kmalloc s.alloc.buddy s.alloc.mem size current
  let addr ← deref elem
  pure (addr, { s with
    alloc := { s.alloc with buddy, mem, live := (addr, size) ::ₘ s.alloc.live } })

def setArea (s : MmState) (p : Nat) (a : VmAreaNode) : MmState :=
  { s with area := Function.update s.area p a }

def setMm (s : MmState) (p : Nat) (m : MmNode) : MmState :=
  { s with mm := Function.update s.mm p m }

/-- `memcpy(dest, src, sizeof (struct vm_area_struct))`. -/
def copyArea (s : MmState) (dest src : Nat) : MmState := s.setArea dest (s.area src)

/-- The loop of `dup_mmap`. -/
def dupLoop (current : Tid) : Nat → Option Nat → Option Nat → MmState → Except Halt MmState
  | _, none, _, s => pure s
  | 0, some _, _, _ => .error .hang
  | fuel + 1, some oldVma, newVma, s => do
      let s ←
        if (s.area oldVma).vmNext.isSome then do
          -- the node for the next area, one step ahead of the walk
          let (v, s) ← s.kmalloc VM_AREA_SIZE current
          let p ← deref newVma
          let s := s.setArea p { s.area p with vmNext := some v }
          let dest ← deref (s.area p).vmNext
          let src ← deref (s.area oldVma).vmNext
          pure (s.copyArea dest src)
        else pure s
      let p ← deref newVma
      dupLoop current fuel (s.area oldVma).vmNext (s.area p).vmNext s

/-- `dup_mmap`. -/
def dupMmap (s : MmState) (old new : Nat) (current : Tid) : Except Halt MmState :=
  if (s.mm old).mmap.isSome then do
    let (v, s) ← s.kmalloc VM_AREA_SIZE current
    let s := s.setMm new { s.mm new with mmap := some v }
    let dest ← deref (s.mm new).mmap
    let src ← deref (s.mm old).mmap
    let s := s.copyArea dest src
    dupLoop current LIST_WALK (s.mm old).mmap (s.mm new).mmap s
  else dupLoop current LIST_WALK none none s

/-- `copy_mm`, up to `dup_mmap`: the new `mm`. -/
def copyMm (s : MmState) (oldMm : Nat) (current : Tid) : Except Halt (Nat × MmState) := do
  let (mm, s) ← s.kmalloc MM_SIZE current
  let s := s.setMm mm (s.mm oldMm)
  let s ← s.dupMmap oldMm mm current
  pure (mm, s)

end MmState

end Fizzos.Kernel
