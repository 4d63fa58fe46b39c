import Fizzos.Kernel.Paging

/-!
# `Fizzos.Kernel.Vma`: the areas of an address space

`do_mmap` and `find_inter_section` of `kernel/vma.c`. Addresses and lengths are `uint32_t`, and
`add32` and `sub32` wrap around as they do.

The list `mmap` is linked by `vm_next`. The loop of `do_mmap` walks along it, and `MmapCursor` is
where it stands: the areas before the cursor, the area `vma`, and the areas behind it.

Left out: `kzalloc` for the new area, and the parameter `flag`, which `do_mmap` does not use.
-/

set_option autoImplicit false

namespace Fizzos.Kernel

/-- `a + b` of two `uint32_t`. -/
def add32 (a b : Nat) : Nat := (a + b) % 2 ^ 32

/-- `a - b` of two `uint32_t`. -/
def sub32 (a b : Nat) : Nat := (a + 2 ^ 32 - b) % 2 ^ 32

/-- The lowest address of an area. -/
def USER_VADDR_START : Nat := 0x8048000

/-- `find_inter_section`: the first area that meets `[start_addr, end_addr)`. -/
def findInterSection (mm : MmStruct) (startAddr endAddr : Nat) : Option VmAreaStruct :=
  match findVma mm startAddr with
  | some vma => if endAddr ≤ vma.vmStart then none else some vma
  | none => none

/-- Where the loop of `do_mmap` stands. -/
structure MmapCursor where
  addr : Nat
  before : List VmAreaStruct
  vma : VmAreaStruct
  behind : List VmAreaStruct

/-- The loop of `do_mmap`, which looks for a gap of `len` bytes behind `vma`. -/
def mmapSearch (len addr : Nat) (before : List VmAreaStruct) (vma : VmAreaStruct) :
    List VmAreaStruct → MmapCursor
  | [] => { addr, before, vma, behind := [] }
  | next :: behind =>
      if next.vmStart < addr ∨ sub32 next.vmStart (max vma.vmEnd addr) < len then
        mmapSearch len (max addr vma.vmEnd) (before ++ [vma]) next behind
      else { addr, before, vma, behind := next :: behind }

/-- The new area starts at once behind `vma`, or ends where the next area starts. -/
def MmapCursor.Touches (c : MmapCursor) (len : Nat) : Prop :=
  c.vma.vmEnd = c.addr ∨ ∃ next ∈ c.behind.head?, next.vmStart = add32 c.addr len

instance (c : MmapCursor) (len : Nat) : Decidable (c.Touches len) :=
  inferInstanceAs (Decidable (_ ∨ ∃ next ∈ c.behind.head?, _))

/-- Where `do_mmap` puts the new area: its address, and the areas before and behind it. Areas
that could be merged are not implemented. -/
def mmapPlace (mm : MmStruct) (addr len : Nat) :
    Except Halt (Nat × List VmAreaStruct × List VmAreaStruct) :=
  match mm.mmap with
  | [] => pure (addr, [], [])
  | vma :: behind =>
      let c := mmapSearch len addr [] vma behind
      if add32 c.vma.vmEnd len ≥ 0xc0000000 then PANIC
      else if c.Touches len then PANIC
      else pure (c.addr, c.before ++ [c.vma], c.behind)

/-- `do_mmap`, for the `mm` of the current process: the result, and the new `mm`. -/
def doMmap (mm : MmStruct) (file : Option Nat) (addr len prot offset : Nat) :
    Except Halt (Int × MmStruct) := do
  if len = 0 then PANIC
  else if addr = 0 then PANIC
  else if add32 addr len > TASK_SIZE then PANIC
  else
    let (addr, before, behind) ← mmapPlace mm addr len
    let v : VmAreaStruct :=
      { vmFile := file, vmPgoff := offset, vmStart := addr, vmEnd := add32 addr len
        vmFlags := VM_READ ||| VM_WRITE ||| VM_EXEC, vmPageProt := prot }
    ASSERT (v.vmStart ≥ USER_VADDR_START ∧ v.vmEnd ≤ TASK_SIZE ∧ v.vmStart < v.vmEnd)
    pure (0, { mm with mmap := before ++ v :: behind })

end Fizzos.Kernel
