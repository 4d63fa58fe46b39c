import Fizzos.Kernel.Exec
import Fizzos.Proofs.FileContent

/-!
# `Fizzos.Proofs.Exec`: what the load of a program depends on

`do_exec` reads 200 bytes at the start of the file and nothing else (`doExec_eq`). The ELF header
and the program headers are looked up in this buffer, at offsets that the header gives itself. So a
header can lie behind the 200 bytes, and then its fields are what the memory there held before.

A field depends on its own bytes only (`phead_congr`, `ePhoff_congr`). The areas of the new program
are those of its segments, in the order of the headers (`phdrLoop_eq`), and a segment that cannot be
mapped ends the load.
-/

set_option autoImplicit false

namespace Fizzos.Proofs

open Fizzos.Fs
open Fizzos.Kernel
open Fizzos.Lib
open Fizzos.Support

/-! ### `do_exec` loads what the header asks for -/

/-- The calls of `do_mmap` for the segments of a program. -/
def mmapSegments (file : Nat) : List Segment → MmStruct → Except Halt MmStruct
  | [], mm => pure mm
  | g :: rest, mm => do
      let (_, mm) ← doMmap mm (some file) g.vaddr g.memsz 0 g.offset
      mmapSegments file rest mm

/-- The body of the loop maps the segment of the header. -/
theorem mmapPhdr_eq (mm : MmStruct) (file : Nat) (ph : Phdr) :
    mmapPhdr mm file ph = mmapSegments file ph.segment.toList mm := by
  rw [mmapPhdr, Phdr.segment]
  by_cases hload : ph.pType = ELF_LOAD
  · rw [if_pos hload]
    by_cases hread : ph.pFlags = ELF_READ
    · rw [if_pos hread, if_pos ⟨hload, .inl hread⟩]
      rfl
    rw [if_neg hread]
    by_cases hdata : ph.pFlags = ELF_READ ||| ELF_WRITE
    · rw [if_pos hdata, if_pos ⟨hload, .inr (.inl hdata)⟩]
      rfl
    rw [if_neg hdata]
    by_cases hcode : ph.pFlags = ELF_READ ||| ELF_EXEC
    · rw [if_pos hcode, if_pos ⟨hload, .inr (.inr hcode)⟩]
      rfl
    have hflags : ¬MappedFlags ph.pFlags := by
      rintro (h | h | h)
      · exact hread h
      · exact hdata h
      · exact hcode h
    rw [if_neg hcode, if_neg (mt And.right hflags)]
    rfl
  · rw [if_neg hload, if_neg (mt And.left hload)]
    rfl

/-- The segments are mapped one after the other, and the first call that fails ends the load. -/
theorem mmapSegments_append (file : Nat) (gs gs' : List Segment) (mm : MmStruct) :
    mmapSegments file (gs ++ gs') mm
      = mmapSegments file gs mm >>= fun mm => mmapSegments file gs' mm := by
  induction gs generalizing mm with
  | nil => rfl
  | cons g rest ih =>
      rw [List.cons_append, mmapSegments, mmapSegments]
      cases doMmap mm (some file) g.vaddr g.memsz 0 g.offset with
      | error e => rfl
      | ok r => exact ih r.2

/-- The loop over the program headers is the calls of `do_mmap` for those that have a segment. The
other headers are skipped. -/
theorem phdrLoop_eq (mem : Bytes) (file : Nat) (is : List Nat) (mm : MmStruct) :
    phdrLoop mem file is mm
      = mmapSegments file (is.filterMap fun i => (phead mem i).segment) mm := by
  induction is generalizing mm with
  | nil => rfl
  | cons i rest ih =>
      have hsplit : (i :: rest).filterMap (fun i => (phead mem i).segment)
          = (phead mem i).segment.toList ++ rest.filterMap fun i => (phead mem i).segment := by
        rw [List.filterMap_cons]
        cases (phead mem i).segment <;> rfl
      rw [hsplit, mmapSegments_append, phdrLoop, mmapPhdr_eq]
      exact bind_congr fun mm => ih mm

/-- The part of `do_exec` behind `file_read`. -/
def execMem (file : Nat) (mm : MmStruct) (mem : Bytes) : Except Halt Execed :=
  if memcmp mem elfMagic 16 ≠ 0 then PANIC
  else do
    let mm ← phdrLoop mem file (List.range (ePhnum mem)) { mm with mmap := [] }
    let (_, mm) ← doMmap mm none (TASK_SIZE - PG_SIZE * 2) (PG_SIZE * 2) 0 0
    pure { newEip := eEntry mem, mm, mem }

/-- The memory from `elf_head` on, behind `file_read`: the file, and behind its end what was
there. -/
def elfHead (size : Nat) (bytes mem : Bytes) : Bytes := fun k =>
  if k < min 200 size then bytes k else mem k

section
variable {s : FileSys} {p file size i : Nat} {mm : MmStruct} {mem mem' ioBuf bytes : Bytes}

/-- The first read of `do_exec`: the ELF header and the program headers behind it, up to 200 bytes.
A file that is shorter leaves the rest of the buffer as it was. -/
theorem execRead (hc : HasContent s p size bytes) (mem ioBuf : Bytes) :
    fileRead s p mem 200 0 ioBuf = .ok (min 200 size, min 200 size, elfHead size bytes mem) := by
  obtain ⟨mem', hret, hmem⟩ := hc.fileRead (Nat.zero_le size) mem ioBuf 200
  simp only [Nat.sub_zero, Nat.zero_add] at hret hmem
  obtain rfl : mem' = elfHead size bytes mem := funext hmem
  exact hret

/-- Behind this read the file is not looked at again, so the load depends on the buffer only. -/
theorem doExec_eq {r : Nat × Nat × Bytes} (hread : fileRead s p mem 200 0 ioBuf = .ok r) :
    doExec s p file mm mem ioBuf = execMem file mm r.2.2 := by
  rw [doExec, hread]
  rfl

/-! ### What a header depends on -/

/-- The fields of a program header depend on their own bytes. -/
theorem phead_congr (hoff : pheadOff mem' i = pheadOff mem i)
    (h : ∀ o, o < 12 ∨ 20 ≤ o ∧ o < 28 →
      atHead mem' (pheadOff mem i + o) = atHead mem (pheadOff mem i + o)) :
    phead mem' i = phead mem i := by
  have hload : ∀ o, o + 4 ≤ 12 ∨ 20 ≤ o ∧ o + 4 ≤ 28 →
      load32 (atHead mem') (pheadOff mem i + o) = load32 (atHead mem) (pheadOff mem i + o) := by
    intro o ho
    refine loadLE_congr fun k hlo hhi => ?_
    obtain ⟨j, rfl⟩ : ∃ j, k = pheadOff mem i + j := ⟨k - pheadOff mem i, by omega⟩
    exact h j (by omega)
  rw [phead, phead, hoff, hload 4 (by omega), hload 8 (by omega), hload 20 (by omega),
    hload 24 (by omega)]
  congr 1
  exact hload 0 (by omega)

/-- The ELF header depends on the first 46 bytes. -/
theorem ePhoff_congr (h : ∀ k < 46, mem' k = mem k) : ePhoff mem' = ePhoff mem :=
  loadLE_congr fun k _ hhi => h k (by omega)

/-- The number of program headers is in the first 46 bytes. -/
theorem ePhnum_congr (h : ∀ k < 46, mem' k = mem k) : ePhnum mem' = ePhnum mem :=
  loadLE_congr fun k _ hhi => h k (by omega)

/-- So is the entry point. -/
theorem eEntry_congr (h : ∀ k < 46, mem' k = mem k) : eEntry mem' = eEntry mem :=
  loadLE_congr fun k _ hhi => h k (by omega)

/-- The test of `do_exec` compares 16 bytes, the magic number and the five that tell the class of
the file. -/
theorem memcmp_magic (mem : Bytes) : memcmp mem elfMagic 16 = 0 ↔ ∀ k < 16, mem k = elfMagic k :=
  memcmp_eq_zero_iff

end

end Fizzos.Proofs
