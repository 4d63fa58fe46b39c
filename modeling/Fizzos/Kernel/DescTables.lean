import Fizzos.Machine
import Fizzos.Support.Protection
import Fizzos.Support.X86

/-!
# `Fizzos.Kernel.DescTables`: the descriptor tables of the processor

The global descriptor table has the kernel segments from `boot/loader.S`. `tss_init` of `user/tss.c`
adds the task state segment and the segments of the programs. `idt_desc_init` of
`kernel/interrupt.c` fills the interrupt table.

`intr_entry_table` of `kernel/kernel.S` has an entry for each `VECTOR`, and there are 0x30 of them.
`idt_desc_init` reads `IDT_DESC_CNT` entries, so `entryTable` also has the words that the linker
puts behind the table.
-/

set_option autoImplicit false

namespace Fizzos.Kernel

open Fizzos.Support
open Fizzos.Support.X86

/-! ### `include/kernel/global.h` -/

def DESC_AVL : Dword := 0
def DESC_P : Dword := 1
def DESC_DPL_0 : Dword := 0
def DESC_DPL_3 : Dword := 3
def DESC_G_4K : Bool := true
def DESC_D_32 : Bool := true
def DESC_S_CODE : Bool := true
def DESC_S_DATA : Bool := DESC_S_CODE
def DESC_S_SYS : Bool := false
def DESC_TYPE_CODE : Dword := 8
def DESC_TYPE_DATA : Dword := 2
def DESC_TYPE_TSS : Dword := 9

def RPL0 : BitVec 16 := 0
def RPL3 : BitVec 16 := 3
def TI_GDT : BitVec 16 := 0

def SELECTOR_K_CODE : BitVec 16 := (1 <<< 3) + (TI_GDT <<< 2) + RPL0
def SELECTOR_K_DATA : BitVec 16 := (2 <<< 3) + (TI_GDT <<< 2) + RPL0
def SELECTOR_K_STACK : BitVec 16 := SELECTOR_K_DATA
def SELECTOR_TSS : BitVec 16 := (4 <<< 3) + (TI_GDT <<< 2) + RPL0
def SELECTOR_U_CODE : BitVec 16 := (5 <<< 3) + (TI_GDT <<< 2) + RPL3
def SELECTOR_U_DATA : BitVec 16 := (6 <<< 3) + (TI_GDT <<< 2) + RPL3
def SELECTOR_U_STACK : BitVec 16 := SELECTOR_U_DATA

def IDT_DESC_P : BitVec 8 := 1
def IDT_DESC_DPL0 : BitVec 8 := 0
def IDT_DESC_DPL3 : BitVec 8 := 3
def IDT_DESC_32_TYPE : BitVec 8 := 0xe
def IDT_DESC_ATTR_DPL0 : BitVec 8 := (IDT_DESC_P <<< 7) + (IDT_DESC_DPL0 <<< 5) + IDT_DESC_32_TYPE
def IDT_DESC_ATTR_DPL3 : BitVec 8 := (IDT_DESC_P <<< 7) + (IDT_DESC_DPL3 <<< 5) + IDT_DESC_32_TYPE

/-! ### The table of `boot/loader.S` -/

/-- The high words of the descriptors in `boot.inc`. -/
def DESC_CODE_HIGH4 : Dword := 0x800000 + 0x400000 + 0 + 0 + 0xf0000 + 0x8000 + 0 + 0x1000 + 0x800
def DESC_DATA_HIGH4 : Dword := 0x800000 + 0x400000 + 0 + 0 + 0xf0000 + 0x8000 + 0 + 0x1000 + 0x200
def DESC_VIDEO_HIGH4 : Dword := 0x800000 + 0x400000 + 0 + 0 + 0 + 0x8000 + 0 + 0x1000 + 0x200 + 0x0b

/-- `GDT_BASE` with its empty slots, after the base of the video segment is moved to the kernel. -/
def loaderGdt : List (Dword × Dword) :=
  [(0, 0), (0x0000ffff, DESC_CODE_HIGH4), (0x0000ffff, DESC_DATA_HIGH4),
    (0x80000007, DESC_VIDEO_HIGH4 ||| 0xc0000000)] ++ List.replicate 60 (0, 0)

/-- The address of the table, at the start of the loader. -/
def GDT_BASE : Dword := 0x900 + 0xc0000000

/-! ### `user/tss.c` -/

/-- The fields of `struct tss_segment_32` that `tss_init` writes. -/
structure TssSegment where
  ss0 : Dword
  ioMap : BitVec 16

/-- `sizeof(struct tss_segment_32)` -/
def TSS_SIZE : Nat := 104

/-- `make_desc`. An `int` that is between 0 and 3 is a `Dword`. -/
def makeDesc (base : Dword) (G D_B : Bool) (limit DPL : Dword) (S : Bool) (TYPE : Dword) :
    Except Halt (BitVec 64) := do
  ASSERT (0 ≤ DPL.toInt ∧ DPL.toInt ≤ 3)
  let bit (b : Bool) : Dword := (BitVec.ofBool b).setWidth 32
  let low := (limit &&& 0xffff) ||| ((base &&& 0xffff) <<< 16)
  let high := ((base &&& 0xff0000) >>> 16) ||| ((TYPE &&& 0xf) <<< 8) ||| (bit S <<< 12) |||
    (DPL <<< 13) ||| (DESC_P <<< 15) ||| (limit &&& 0xf0000) ||| (DESC_AVL <<< 20) |||
    (bit D_B <<< 22) ||| (bit G <<< 23) ||| (base &&& 0xff000000)
  pure ((high.setWidth 64 <<< 32) + low.setWidth 64)

/-- A store of a `uint64_t`. -/
def storeQuad (mem : Dword → Dword) (a : Dword) (q : BitVec 64) : Dword → Dword :=
  Function.update (Function.update mem a (q.setWidth 32)) (a + 4) ((q >>> 32).setWidth 32)

/-- What `lgdt` and `ltr` load, with the memory of the table. -/
structure TssInit where
  mem : Dword → Dword
  tss : TssSegment
  gdtr : BitVec 64
  tr : BitVec 16

/-- `tss_init`. `tssAddr` is `&tss`. -/
def tssInit (tssAddr : Dword) (mem : Dword → Dword) : Except Halt TssInit := do
  let tssSize : Dword := BitVec.ofNat 32 TSS_SIZE
  let tss : TssSegment := { ioMap := tssSize.setWidth 16, ss0 := SELECTOR_K_STACK.setWidth 32 }
  let tssDesc ← makeDesc tssAddr false DESC_D_32 (tssSize - 1) DESC_DPL_0 DESC_S_SYS DESC_TYPE_TSS
  let mem := storeQuad mem 0xc0000920 tssDesc
  let userCode ← makeDesc 0 DESC_G_4K DESC_D_32 0xfffff DESC_DPL_3 DESC_S_CODE DESC_TYPE_CODE
  let mem := storeQuad mem 0xc0000928 userCode
  let userData ← makeDesc 0 DESC_G_4K DESC_D_32 0xfffff DESC_DPL_3 DESC_S_DATA DESC_TYPE_DATA
  let mem := storeQuad mem 0xc0000930 userData
  let gdtOperand : BitVec 64 := (7 * 8 - 1) ||| ((0xc0000900 : BitVec 64) <<< 16)
  pure ⟨mem, tss, gdtOperand, SELECTOR_TSS⟩

/-! ### `kernel/interrupt.c` -/

def IDT_DESC_CNT : Nat := 0x81

/-- `struct gate_desc`. The fields lie behind one another. -/
structure IdtDesc where
  funcOffsetLowWord : BitVec 16
  selector : BitVec 16
  dcount : BitVec 8
  attr : BitVec 8
  funcOffsetHighWord : BitVec 16
  deriving DecidableEq, Inhabited

/-- The two words of a gate. -/
def IdtDesc.words (d : IdtDesc) : Dword × Dword :=
  (d.selector ++ d.funcOffsetLowWord, d.funcOffsetHighWord ++ d.attr ++ d.dcount)

/-- `make_idt_desc` -/
def makeIdtDesc (attr : BitVec 8) (function : Dword) : IdtDesc where
  funcOffsetLowWord := (function &&& 0x0000ffff).setWidth 16
  selector := SELECTOR_K_CODE
  dcount := 0
  attr := attr
  funcOffsetHighWord := ((function &&& 0xffff0000) >>> 16).setWidth 16

/-- `idt_desc_init`, with the addresses of `page_fault_handler` and `syscall_handler`. -/
def idtDescInit (entryTable : Nat → Dword) (pageFaultHandler syscallHandler : Dword)
    (idt : Nat → IdtDesc) : Nat → IdtDesc :=
  let lastindex := IDT_DESC_CNT - 1
  let idt := (List.range IDT_DESC_CNT).foldl
    (fun idt i => Function.update idt i (makeIdtDesc IDT_DESC_ATTR_DPL0 (entryTable i))) idt
  let idt := Function.update idt 14 (makeIdtDesc IDT_DESC_ATTR_DPL0 pageFaultHandler)
  Function.update idt lastindex (makeIdtDesc IDT_DESC_ATTR_DPL3 syscallHandler)

/-- The limit that `idt_init` loads with `lidt`. -/
def idtLimit : BitVec 16 := BitVec.ofNat 16 (8 * IDT_DESC_CNT - 1)

/-! ### The processor -/

/-- The words of the entry of the table at `base`. -/
def gdtAt (mem : Dword → Dword) (base : Dword) (i : Nat) : Dword × Dword :=
  (mem (base + BitVec.ofNat 32 (8 * i)), mem (base + BitVec.ofNat 32 (8 * i) + 4))

/-- Memory has the table of the loader. -/
def LoaderGdt (mem : Dword → Dword) : Prop := ∀ i, ∀ d ∈ loaderGdt[i]?, gdtAt mem GDT_BASE i = d

/-- What the processor protects by behind `tss_init` and `idt_init`. `portBits` is what lies behind
the task state segment. -/
def descTables (t : TssInit) (idt : Nat → IdtDesc) (portBits : Nat → Bool) : Tables :=
  let gdt := gdtAt t.mem (t.gdtr.extractLsb' 16 32)
  let tssDesc := SegDesc.decode (gdt (Selector.index t.tr)).1 (gdt (Selector.index t.tr)).2
  { gdt := gdt
    gdtLimit := t.gdtr.extractLsb' 0 16
    idt := fun i => (idt i).words
    idtLimit := idtLimit
    tssLimit := tssDesc.limit
    ioMap := t.tss.ioMap
    portBits := portBits }

end Fizzos.Kernel
