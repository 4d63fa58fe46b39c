import Fizzos.Machine
import Fizzos.Support.Bytes

/-!
# `Fizzos.Device.Ide`: the disk

`ide_read` and `ide_write` of `device/ide.c` move whole sectors between the disk and a buffer. The
model is the array of sectors that the drive presents. `d lba k` is byte `k` of the sector `lba`,
and only offsets below `SECTOR_SIZE` count.

`ideRead` and `ideWrite` are the transfers. `readCheck` and `writeCheck` are the tests in front of
them, and a caller whose sectors may lie past `MAX_LBA` makes both steps.

Left out: the ports and the channel lock.
-/

set_option autoImplicit false

namespace Fizzos.Device

open Fizzos.Support

def SECTOR_SIZE : Nat := 512

def MAX_LBA : Nat := 80 * 1024 * 1024 / 512 - 1

/-- The assertions of `select_sector`, which is called for every 256 sectors of `secCnt`. -/
def selectSectors (lba secCnt : Nat) : Except Halt Unit :=
  ASSERT (lba + (secCnt - 1) / 256 * 256 ≤ MAX_LBA)

/-- The tests of `ide_read`. -/
def readCheck (lba secCnt : Nat) : Except Halt Unit :=
  if MAX_LBA < lba then PANIC
  else do
    ASSERT (0 < secCnt)
    selectSectors lba secCnt

/-- The tests of `ide_write`. -/
def writeCheck (lba secCnt : Nat) : Except Halt Unit := do
  ASSERT (lba ≤ MAX_LBA)
  ASSERT (0 < secCnt)
  selectSectors lba secCnt

/-- The sectors of a disk. -/
abbrev Disk := Nat → Bytes

/-- `ide_read` of `secCnt` sectors to `buf + off`. -/
def ideRead (d : Disk) (lba : Nat) (buf : Bytes) (off secCnt : Nat) : Bytes := fun k =>
  if off ≤ k ∧ k < off + secCnt * SECTOR_SIZE then
    d (lba + (k - off) / SECTOR_SIZE) ((k - off) % SECTOR_SIZE)
  else buf k

/-- `ide_write` of `secCnt` sectors from `buf + off`. -/
def ideWrite (d : Disk) (lba : Nat) (buf : Bytes) (off secCnt : Nat) : Disk := fun l k =>
  if lba ≤ l ∧ l < lba + secCnt ∧ k < SECTOR_SIZE then buf (off + (l - lba) * SECTOR_SIZE + k)
  else d l k

section
variable {d : Disk} {lba l off k : Nat} {buf : Bytes}

theorem selectSectors_one {u : Unit} : selectSectors lba 1 = .ok u ↔ lba ≤ MAX_LBA := by
  rw [selectSectors, Nat.sub_self, Nat.zero_div, Nat.zero_mul, Nat.add_zero]
  exact ASSERT_eq_ok

/-- One sector can be read up to `MAX_LBA`. -/
theorem readCheck_one {u : Unit} : readCheck lba 1 = .ok u ↔ lba ≤ MAX_LBA := by
  rw [readCheck]
  split
  next hpast => exact iff_of_false (fun h => by cases h) (Nat.not_le.mpr hpast)
  next =>
    rw [ASSERT_true Nat.one_pos, ok_bind]
    exact selectSectors_one

/-- One sector can be written up to `MAX_LBA`. -/
theorem writeCheck_one {u : Unit} : writeCheck lba 1 = .ok u ↔ lba ≤ MAX_LBA := by
  simp only [writeCheck, bind_eq_ok, ASSERT_eq_ok, selectSectors_one]
  exact ⟨fun h => h.choose_spec.1, fun h => ⟨(), h, (), Nat.one_pos, h⟩⟩

theorem readCheck_le (h : lba ≤ MAX_LBA) : readCheck lba 1 = .ok () := readCheck_one.mpr h

theorem writeCheck_le (h : lba ≤ MAX_LBA) : writeCheck lba 1 = .ok () := writeCheck_one.mpr h

/-- A byte of the sector that was read. -/
theorem ideRead_one (hlo : off ≤ k) (hhi : k < off + SECTOR_SIZE) :
    ideRead d lba buf off 1 k = d lba (k - off) := by
  rw [Nat.add_comm] at hhi
  have hlt : k - off < SECTOR_SIZE := by omega
  rw [ideRead, if_pos (by omega), Nat.div_eq_of_lt hlt, Nat.mod_eq_of_lt hlt, Nat.add_zero]

/-- The buffer outside of the sector. -/
theorem ideRead_of_ne (h : k < off ∨ off + SECTOR_SIZE ≤ k) :
    ideRead d lba buf off 1 k = buf k := if_neg (by omega)

/-- The sector that was written. -/
theorem ideWrite_one (hk : k < SECTOR_SIZE) :
    ideWrite d lba buf off 1 lba k = buf (off + k) := by
  rw [ideWrite, if_pos ⟨Nat.le_refl _, Nat.lt_succ_self _, hk⟩, Nat.sub_self, Nat.zero_mul,
    Nat.add_zero]

/-- The sectors in front of the write and behind it. -/
theorem ideWrite_outside {secCnt : Nat} (h : l < lba ∨ lba + secCnt ≤ l) :
    ideWrite d lba buf off secCnt l = d l := by
  funext k
  exact if_neg (by omega)

/-- The other sectors. -/
theorem ideWrite_of_ne (h : l ≠ lba) : ideWrite d lba buf off 1 l = d l := by
  funext k
  exact if_neg (by omega)

end

end Fizzos.Device
