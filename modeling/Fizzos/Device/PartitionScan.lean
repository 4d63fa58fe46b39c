import Fizzos.Device.Ide

/-!
# `Fizzos.Device.PartitionScan`: the partition tables of a disk

`partition_scan` of `device/ide.c` reads a boot sector and walks along the four entries of its
table. An entry of type 5 leads to another boot sector, which the function scans at once. The places
of these sectors are relative to `ext_lba_base`, which the first entry of this kind sets.

The recursion has a fuel argument, and a scan without fuel stops with `Halt.hang`. So a scan returns
when some fuel is enough.

Left out: `kmalloc` for the sector, the link of a partition to its disk, and the letters of its
name. Only the number in the name is kept.
-/

set_option autoImplicit false

namespace Fizzos.Device

open Fizzos.Support

/-- The fields of `struct partition_table_entry` that the scan reads. -/
structure PartitionTableEntry where
  fsType : Nat
  startLba : Nat
  secCnt : Nat
  deriving DecidableEq, Repr

/-- The entries of `struct boot_sector` are 16 bytes each, behind 446 other bytes. -/
def partitionTableEntry (bs : Bytes) (i : Nat) : PartitionTableEntry where
  fsType := (bs (446 + 16 * i + 4)).toNat
  startLba := loadLE 4 bs (446 + 16 * i + 8)
  secCnt := loadLE 4 bs (446 + 16 * i + 12)

/-- `bs->partition_table`. -/
def partitionTable (bs : Bytes) : List PartitionTableEntry :=
  (List.range 4).map (partitionTableEntry bs)

/-- The fields of `struct partition` that the scan fills, with the number of its name. -/
structure ScannedPartition where
  startLba : Nat
  secCnt : Nat
  nameNo : Nat

/-- The array of a partition in the list `partition_list`. -/
inductive PartitionKind where
  | prim
  | logic
  deriving DecidableEq, Repr

/-- The static variables of the scan, the arrays of the disk, and `partition_list`. -/
structure ScanState where
  extLbaBase : Nat
  pNo : Nat
  lNo : Nat
  primParts : Nat → ScannedPartition
  logicParts : Nat → ScannedPartition
  partitionList : List (PartitionKind × Nat)

namespace ScanState

/-- A primary partition, with the assertion behind `p_no++`. The array has four elements. -/
def addPrim (s : ScanState) (extLba : Nat) (p : PartitionTableEntry) : Except Halt ScanState :=
  if s.pNo < 4 then do
    let part := { startLba := (extLba + p.startLba) % 2 ^ 32, secCnt := p.secCnt
                  nameNo := s.pNo + 1 }
    ASSERT (s.pNo + 1 < 4)
    pure { s with pNo := s.pNo + 1
                  primParts := Function.update s.primParts s.pNo part
                  partitionList := s.partitionList ++ [(.prim, s.pNo)] }
  else .error .outOfBounds

/-- A logical partition. The array has eight elements. -/
def addLogic (s : ScanState) (extLba : Nat) (p : PartitionTableEntry) : Except Halt ScanState :=
  if s.lNo < 8 then
    let part := { startLba := (extLba + p.startLba) % 2 ^ 32, secCnt := p.secCnt
                  nameNo := s.lNo + 5 }
    pure { s with lNo := s.lNo + 1
                  logicParts := Function.update s.logicParts s.lNo part
                  partitionList := s.partitionList ++ [(.logic, s.lNo)] }
  else .error .outOfBounds

/-- `p_no = 0, l_no = 0`, as `ide_init` does behind each disk. The base stays. -/
def reset (s : ScanState) : ScanState := { s with pNo := 0, lNo := 0 }

end ScanState

/-- `ext_lba_base` behind an extended entry. -/
def extBase (base : Nat) (p : PartitionTableEntry) : Nat := if base ≠ 0 then base else p.startLba

/-- Where an extended entry leads to. -/
def extTarget (base : Nat) (p : PartitionTableEntry) : Nat :=
  if base ≠ 0 then (p.startLba + base) % 2 ^ 32 else p.startLba

/-- The loop of `partition_scan`, with `scan` for the calls to itself. -/
def scanEntries (scan : Nat → ScanState → Except Halt ScanState) (extLba : Nat) :
    List PartitionTableEntry → ScanState → Except Halt ScanState
  | [], s => pure s
  | p :: ps, s =>
      if p.fsType = 0x5 then do
        let s ← scan (extTarget s.extLbaBase p)
          { s with extLbaBase := extBase s.extLbaBase p }
        scanEntries scan extLba ps s
      else if p.fsType ≠ 0 then
        if extLba = 0 then do
          let s ← s.addPrim extLba p
          scanEntries scan extLba ps s
        else do
          let s ← s.addLogic extLba p
          -- the return leaves this call only, and the calls above go on
          if s.lNo ≥ 8 then pure s else scanEntries scan extLba ps s
      else scanEntries scan extLba ps s

/-- `partition_scan`. -/
def partitionScan (d : Disk) : Nat → Nat → ScanState → Except Halt ScanState
  | 0, _, _ => .error .hang
  | fuel + 1, extLba, s => do
      readCheck extLba 1
      scanEntries (partitionScan d fuel) extLba
        (partitionTable (ideRead d extLba (fun _ => 0) 0 1)) s

/-- The scan of a whole disk returns. -/
def ScanReturns (d : Disk) (s : ScanState) : Prop :=
  ∃ fuel s', partitionScan d fuel 0 s = .ok s'

end Fizzos.Device
