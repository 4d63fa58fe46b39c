import Fizzos.Device.PartitionScan

/-!
# `Fizzos.Device.IdeInit`: scanning the disks, of `device/ide.c`

`ide_init` goes over the two devices of each channel and scans the second one. `p_no` and `l_no` go
back to 0 behind each device, and `ext_lba_base` stays. The arrays of partitions belong to the disk;
they are in `channels`, which the function clears first.

Left out: the ports and the interrupt of a channel, `identify_disk`, and the list that is printed at
the end.
-/

set_option autoImplicit false

namespace Fizzos.Device

open Fizzos.Support

/-- What is recorded for a disk: `start_lba` and `sec_cnt` of its primary partitions, and of its
logical ones. -/
structure DiskParts where
  prims : List (Nat × Nat)
  logics : List (Nat × Nat)
  deriving DecidableEq, Repr

namespace ScanState

/-- The partitions in the arrays, as many as `p_no` and `l_no` count. -/
def recorded (s : ScanState) : DiskParts where
  prims := (List.range s.pNo).map fun i => ((s.primParts i).startLba, (s.primParts i).secCnt)
  logics := (List.range s.lNo).map fun j => ((s.logicParts j).startLba, (s.logicParts j).secCnt)

/-- The cleared arrays of another disk. -/
def forDisk (s : ScanState) : ScanState :=
  { s with primParts := fun _ => ⟨0, 0, 0⟩, logicParts := fun _ => ⟨0, 0, 0⟩ }

end ScanState

/-- The loop of `ide_init` for the device `devNo` of a channel. -/
def initDevice (d : Disk) (devNo fuel : Nat) (s : ScanState) : Except Halt
    (DiskParts × ScanState) :=
  do
  let s := s.forDisk
  let s ← if devNo ≠ 0 then partitionScan d fuel 0 s else pure s
  pure (s.recorded, s.reset)

/-- The loop for the channels that are left. A channel beyond the second one stops the kernel. -/
def initChannels (devices : Nat → Nat → Disk) (fuel : Nat) :
    List Nat → ScanState → Except Halt (List DiskParts × ScanState)
  | [], s => pure ([], s)
  | channelNo :: rest, s =>
      if 2 ≤ channelNo then PANIC
      else do
        let (first, s) ← initDevice (devices channelNo 0) 0 fuel s
        let (second, s) ← initDevice (devices channelNo 1) 1 fuel s
        let (others, s) ← initChannels devices fuel rest s
        pure (first :: second :: others, s)

/-- `ide_init` with `hdCnt` disks: what is recorded for each device. -/
def ideInit (devices : Nat → Nat → Disk) (hdCnt fuel : Nat) (s : ScanState) :
    Except Halt (List DiskParts × ScanState) := do
  ASSERT (hdCnt > 0)
  initChannels devices fuel (List.range ((hdCnt + 1) / 2)) s

end Fizzos.Device
