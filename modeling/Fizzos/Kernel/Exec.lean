import Fizzos.Fs.File
import Fizzos.Kernel.Vma
import Fizzos.Support.System

/-!
# `Fizzos.Kernel.Exec`: loading a program

`do_exec` of `kernel/exec.c`, from `file_read` on. It reads up to 200 bytes of the file into the
static array `elf_head`, and takes the ELF header and the program headers from there.

`mem` is the memory of the kernel from `elf_head` on: its first 201 bytes are the array, and the
rest belongs to others. Addresses wrap around, so the byte at the offset `k` is `mem (k % 2 ^ 32)`.
`phead + i` can lie anywhere.

`file_read` does not touch the part of `elf_head` behind the end of the file. What an earlier
program has left there stays, and `execSystem` is about the runs that show it.

Left out: the arguments on the user stack, `flush_old_files`, the pages that `exec_mmap` frees, the
page of the stack, and `start_data`, `end_data`, `start_code` and `end_code`, which no code reads.
`start_thread` is here as the address that it gets, and a kernel thread's new `mm_struct` as one
more `mm`. The memory outside of `elf_head` stays as it is during the loop over the program headers.
-/

set_option autoImplicit false

namespace Fizzos.Kernel

open Fizzos.Fs
open Fizzos.Lib
open Fizzos.Support

/-! ### The header -/

/-- `sizeof(elf_head)`. -/
def ELF_HEAD_SIZE : Nat := 201

/-- `sizeof(Elf32_phdr)`. -/
def SIZEOF_PHDR : Nat := 32

def ELF_LOAD : Nat := 1
def ELF_READ : Nat := 0b100
def ELF_WRITE : Nat := 0b10
def ELF_EXEC : Nat := 0b1

/-- `elf_magic`. -/
def elfMagic : Bytes := fun k => ([0x7f, 0x45, 0x4c, 0x46, 1, 1, 1] : List (BitVec 8)).getD k 0

/-- The memory from `elf_head` on, for addresses that wrap around. -/
def atHead (mem : Bytes) : Bytes := fun k => mem (k % 2 ^ 32)

/-- `head->e_entry`. -/
def eEntry (mem : Bytes) : Nat := load32 mem 24

/-- `head->e_phoff`. -/
def ePhoff (mem : Bytes) : Nat := load32 mem 28

/-- `head->e_phnum`. -/
def ePhnum (mem : Bytes) : Nat := load16 mem 44

/-- The fields of an `Elf32_phdr` that `do_exec` reads. -/
structure Phdr where
  pType : Nat
  pOffset : Nat
  pVaddr : Nat
  pMemsz : Nat
  pFlags : Nat
  deriving DecidableEq, Repr

/-- `phead + i`, as an offset from `elf_head`. -/
def pheadOff (mem : Bytes) (i : Nat) : Nat := ePhoff mem + i * SIZEOF_PHDR

/-- `*(phead + i)`. -/
def phead (mem : Bytes) (i : Nat) : Phdr :=
  let off := pheadOff mem i
  { pType := load32 (atHead mem) off, pOffset := load32 (atHead mem) (off + 4)
    pVaddr := load32 (atHead mem) (off + 8), pMemsz := load32 (atHead mem) (off + 20)
    pFlags := load32 (atHead mem) (off + 24) }

/-! ### `do_exec` -/

/-- The body of the loop of `do_exec`. The three calls of `do_mmap` pass 0 for `prot`. They differ
in `flag` only, which `do_mmap` does not use. -/
def mmapPhdr (mm : MmStruct) (file : Nat) (ph : Phdr) : Except Halt MmStruct :=
  if ph.pType = ELF_LOAD then
    if ph.pFlags = ELF_READ then do
      let (_, mm) ← doMmap mm (some file) ph.pVaddr ph.pMemsz 0 ph.pOffset
      pure mm
    else if ph.pFlags = ELF_READ ||| ELF_WRITE then do
      let (_, mm) ← doMmap mm (some file) ph.pVaddr ph.pMemsz 0 ph.pOffset
      pure mm
    else if ph.pFlags = ELF_READ ||| ELF_EXEC then do
      let (_, mm) ← doMmap mm (some file) ph.pVaddr ph.pMemsz 0 ph.pOffset
      pure mm
    else pure mm
  else pure mm

/-- The loop of `do_exec`, over the program headers that are left. -/
def phdrLoop (mem : Bytes) (file : Nat) : List Nat → MmStruct → Except Halt MmStruct
  | [], mm => pure mm
  | i :: rest, mm => do
      let mm ← mmapPhdr mm file (phead mem i)
      phdrLoop mem file rest mm

/-- What `do_exec` leaves: the address for `start_thread`, the new `mm`, and the memory. -/
structure Execed where
  newEip : Nat
  mm : MmStruct
  mem : Bytes

/-- `do_exec` for the inode `p`, which `file` has open. -/
def doExec (s : FileSys) (p file : Nat) (mm : MmStruct) (mem ioBuf : Bytes) :
    Except Halt Execed := do
  let (_, _, mem) ← fileRead s p mem 200 0 ioBuf
  if memcmp mem elfMagic 16 ≠ 0 then PANIC
  else
    -- `flush_old_exec`
    let mm := { mm with mmap := [] }
    let mm ← phdrLoop mem file (List.range (ePhnum mem)) mm
    let (_, mm) ← doMmap mm none (TASK_SIZE - PG_SIZE * 2) (PG_SIZE * 2) 0 0
    pure { newEip := eEntry mem, mm, mem }

/-! ### Which bytes it reads -/

/-- The fields of the header at `off` that the body of the loop reads, of four bytes each: `p_type`,
`p_flags`, and the arguments of `do_mmap`. -/
def phdrFields (off : Nat) (ph : Phdr) : List Nat :=
  if ph.pType = ELF_LOAD then
    if ph.pFlags = ELF_READ ∨ ph.pFlags = ELF_READ ||| ELF_WRITE ∨
      ph.pFlags = ELF_READ ||| ELF_EXEC then
      [off, off + 24, off + 8, off + 20, off + 4]
    else [off, off + 24]
  else [off]

/-- The fields that the loop of `do_exec` reads, until a `do_mmap` stops it. -/
def phdrReads (mem : Bytes) (file : Nat) : List Nat → MmStruct → List Nat
  | [], _ => []
  | i :: rest, mm =>
      phdrFields (pheadOff mem i) (phead mem i) ++
        match mmapPhdr mm file (phead mem i) with
        | .ok mm => phdrReads mem file rest mm
        | .error _ => []

/-- The fields of program headers that `do_exec` reads. -/
def execReads (s : FileSys) (p file : Nat) (mm : MmStruct) (mem ioBuf : Bytes) : List Nat :=
  match fileRead s p mem 200 0 ioBuf with
  | .ok (_, _, mem) =>
      if memcmp mem elfMagic 16 ≠ 0 then []
      else phdrReads mem file (List.range (ePhnum mem)) { mm with mmap := [] }
  | .error _ => []

/-! ### Runs -/

/-- A step of a run: a process executes a program, or other code writes outside of `elf_head`. -/
inductive ExecAction
  | exec (s : FileSys) (p file : Nat) (mm : MmStruct) (ioBuf : Bytes)
  | other (mem' : Bytes)

/-- Programs are executed one after the other. A program that is not executable, or that `do_mmap`
does not take, stops the machine. -/
def execSystem : System Bytes ExecAction Halt where
  init mem := ∀ k < ELF_HEAD_SIZE, mem k = 0
  enabled mem
    | .exec .. => True
    | .other mem' => ∀ k < ELF_HEAD_SIZE, mem' k = mem k
  next mem
    | .exec s p file mm ioBuf => (doExec s p file mm mem ioBuf).map Execed.mem
    | .other mem' => .ok mem'

/-! ### What a header asks for -/

/-- The `p_flags` for which `do_exec` calls `do_mmap`. -/
def MappedFlags (flags : Nat) : Prop :=
  flags = ELF_READ ∨ flags = ELF_READ ||| ELF_WRITE ∨ flags = ELF_READ ||| ELF_EXEC

instance (flags : Nat) : Decidable (MappedFlags flags) := inferInstanceAs (Decidable (_ ∨ _ ∨ _))

/-- The arguments of a `do_mmap` for a segment of the program. -/
structure Segment where
  vaddr : Nat
  memsz : Nat
  offset : Nat
  deriving DecidableEq, Repr

/-- The segment that a program header asks for, if it asks for one. -/
def Phdr.segment (ph : Phdr) : Option Segment :=
  if ph.pType = ELF_LOAD ∧ MappedFlags ph.pFlags then
    some { vaddr := ph.pVaddr, memsz := ph.pMemsz, offset := ph.pOffset }
  else none

end Fizzos.Kernel
