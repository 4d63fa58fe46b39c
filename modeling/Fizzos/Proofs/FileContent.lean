import Fizzos.Proofs.FileRead

/-!
# `Fizzos.Proofs.FileContent`: a file by its bytes

`HasContent` gives the bytes of a file without its blocks. `smallFile` is a file without an index
block that has given bytes.
-/

set_option autoImplicit false

namespace Fizzos.Proofs

open Fizzos.Device
open Fizzos.Fs
open Fizzos.Kernel
open Fizzos.LibKernel
open Fizzos.Support

/-- The file of the inode `p` has these `size` bytes. -/
structure HasContent (s : FileSys) (p size : Nat) (bytes : Bytes) : Prop where
  allocated : Allocated s.disk (s.inode p)
  blocks : ∀ j < BLOCKS, blockOf s.disk (s.inode p) j < 2 ^ 32
  size_eq : (s.inode p).iSize = size
  byte : ∀ x < size, contentAt s.disk (s.inode p) x = bytes x

section
variable {s : FileSys} {p size pos : Nat} {bytes : Bytes}

/-- `file_read` from a position in the file. -/
theorem HasContent.fileRead (h : HasContent s p size bytes) (hpos : pos ≤ size) (dest ioBuf : Bytes)
    (count : Nat) :
    ∃ dest', Fs.fileRead s p dest count pos ioBuf
        = .ok (min count (size - pos), pos + min count (size - pos), dest') ∧
      ∀ k, dest' k = if k < min count (size - pos) then bytes (pos + k) else dest k := by
  obtain ⟨dest', hret, hdest⟩ := fileRead_spec h.allocated h.blocks (h.size_eq.symm ▸ hpos) dest
    ioBuf count
  rw [h.size_eq] at hret hdest
  refine ⟨dest', hret, fun k => (hdest k).trans ?_⟩
  by_cases hk : k < min count (size - pos)
  · rw [if_pos hk, if_pos hk, h.byte (pos + k) (by omega)]
  · rw [if_neg hk, if_neg hk]

/-- `file_read` from a position behind the end of the file. -/
theorem HasContent.fileRead_behind (h : HasContent s p size bytes) (hpos : size < pos)
    (dest ioBuf : Bytes) (count : Nat) :
    Fs.fileRead s p dest count pos ioBuf = .error .assertFailed := by
  have hno : ¬(s.inode p).iSize ≥ pos := by
    rw [h.size_eq]
    omega
  rw [Fs.fileRead, ASSERT_false hno, error_bind]

/-- A file of at most 12 sectors, which lie one behind the other. -/
def smallFile (size : Nat) (bytes : Bytes) : FileSys :=
  { disk := fun lba k => bytes (512 * (lba - 516) + k)
    part :=
      { sb := ⟨2, 1, 3, 1, 4, 516⟩
        blockBitmap := ⟨0, fun _ => 0, 512, mutexLockInit⟩
        inodeBitmap := ⟨0, fun _ => 0, 512, mutexLockInit⟩
        openInodes := listInit }
    inode := fun _ =>
      { iNo := 1, iFlags := 0, iSize := size, iCount := 1, rwlock := rwlockInit, iMode := 0
        iSectors := fun j => if j < 12 ∧ 512 * j < size then 516 + j else 0 }
    inodeTag := fun _ => ⟨none, none⟩ }

theorem smallFile_block (j : Nat) :
    blockOf (smallFile size bytes).disk ((smallFile size bytes).inode p) j
      = if j < 12 ∧ 512 * j < size then 516 + j else 0 := by
  have hindex : ((smallFile size bytes).inode p).iSectors 12 = 0 := by
    show (if 12 < 12 ∧ 512 * 12 < size then 516 + 12 else 0) = 0
    exact if_neg fun h => Nat.lt_irrefl 12 h.1
  rw [blockOf]
  by_cases hj : j < 12
  · rw [if_pos hj]
    rfl
  · rw [if_neg hj, hindex, if_pos rfl, ite_self, if_neg (fun h => hj h.1)]

theorem smallFile_content (hsize : size ≤ 512 * 12) : HasContent (smallFile size bytes) p
    size bytes where
  allocated := by
    constructor
    · intro j
      show _ ↔ 512 * j < size
      rw [smallFile_block, INDEX]
      constructor
      · rintro ⟨-, hne⟩
        by_contra hno
        exact hne (if_neg fun h => hno h.2)
      · intro hj
        refine ⟨by omega, ?_⟩
        rw [if_pos ⟨by omega, hj⟩]
        omega
    · show _ ↔ 512 * 12 < size
      rw [smallFile_block, if_neg (by rw [INDEX]; omega)]
      omega
  blocks j _ := by
    rw [smallFile_block]
    split <;> omega
  size_eq := rfl
  byte x hx := by
    rw [contentAt, smallFile_block, if_pos ⟨by omega, by omega⟩]
    show bytes (512 * (516 + x / 512 - 516) + x % 512) = bytes x
    congr 1
    omega

end

end Fizzos.Proofs
