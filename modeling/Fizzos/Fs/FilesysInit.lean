import Fizzos.Device.IdeInit
import Fizzos.Fs.Fs

/-!
# `Fizzos.Fs.FilesysInit`: the scan for file systems

The loops of `filesys_init` in `fs/fs.c` go over the channels, their two devices and twelve
partitions of a device. A partition without the magic number is formatted. `devices` are the
partitions that `ide_init` has recorded, two devices a channel.

`part_idx` is a variable of the whole function. `scanDevice` gets it from the device before and
gives it to the next one.

`visits` is a record of the scan that the code does not have: the partitions that it has read, with
the disk at this time.

Left out: `kmalloc` for the sector, `PRINTK`, and what the function does behind the scan.
-/

set_option autoImplicit false

namespace Fizzos.Fs

open Fizzos.Device
open Fizzos.Support

/-- What the scan has found in a partition. -/
structure Visit where
  channelNo : Nat
  partIdx : Nat
  disk : Disk
  formatted : Bool

/-- The disks, with the record of the scan. -/
structure FilesysScan where
  disk : Nat → Nat → Disk
  visits : List Visit

/-- Where `part` points to in a device: an array and an index. -/
abbrev PartPtr := PartitionKind × Nat

/-- `start_lba` and `sec_cnt` at `part`. What `ide_init` has not recorded is zero. -/
def partAt (hd : DiskParts) (part : PartPtr) : Nat × Nat :=
  match part.1 with
  | .prim => hd.prims.getD part.2 (0, 0)
  | .logic => hd.logics.getD part.2 (0, 0)

/-- `channels[channel_no].devices[dev_no]`. -/
def deviceAt (devices : List DiskParts) (channelNo devNo : Nat) : DiskParts :=
  devices.getD (2 * channelNo + devNo) ⟨[], []⟩

/-- `sb_buf->magic`, behind the `ide_read` of the super block. -/
def readMagic (d : Disk) (startLba : Nat) : Nat :=
  load32 (ideRead d ((startLba + 1) % 2 ^ 32) (fun _ => 0) 0 1) 0

/-- The loop of `filesys_init` for the partition `p` with the index `partIdx`. -/
def scanPart (pad heap : Nat → Nat → Bytes) (channelNo devNo partIdx : Nat) (p : Nat × Nat)
    (s : FilesysScan) : Except Halt FilesysScan :=
  let d := s.disk channelNo devNo
  if p.2 ≠ 0 then do
    readCheck ((p.1 + 1) % 2 ^ 32) 1
    if readMagic d p.1 = FIZZ_FILE_SYSTEM then
      pure { s with visits := s.visits ++ [⟨channelNo, partIdx, d, false⟩] }
    else do
      let d' ← partitionFormat d p.1 p.2 (pad channelNo partIdx) (heap channelNo partIdx)
      pure { s with
        disk := Function.update s.disk channelNo (Function.update (s.disk channelNo) devNo d')
        visits := s.visits ++ [⟨channelNo, partIdx, d, true⟩] }
  else pure s

/-- The loop of `filesys_init` over the partitions of a device: the new `part_idx`. -/
def scanParts (pad heap : Nat → Nat → Bytes) (hd : DiskParts) (channelNo devNo : Nat) :
    Nat → Nat → PartPtr → FilesysScan → Except Halt (Nat × FilesysScan)
  | fuel, partIdx, part, s =>
      if partIdx < 12 then
        match fuel with
        | 0 => .error .hang
        | fuel + 1 => do
            -- on to the logical partitions
            let part := if partIdx = 4 then (.logic, 0) else part
            let s ← scanPart pad heap channelNo devNo partIdx (partAt hd part) s
            scanParts pad heap hd channelNo devNo fuel (partIdx + 1) (part.1, part.2 + 1) s
      else pure (partIdx, s)

/-- The loop of `filesys_init` over the devices of a channel. The first one is skipped. -/
def scanDevice (pad heap : Nat → Nat → Bytes) (devices : List DiskParts)
    (channelNo devNo partIdx : Nat) (s : FilesysScan) : Except Halt (Nat × FilesysScan) :=
  if devNo = 0 then pure (partIdx, s)
  else scanParts pad heap (deviceAt devices channelNo devNo) channelNo devNo 12 partIdx (.prim, 0) s

/-- The loop of `filesys_init` over the channels that are left. -/
def scanChannels (pad heap : Nat → Nat → Bytes) (devices : List DiskParts) :
    List Nat → Nat → FilesysScan → Except Halt FilesysScan
  | [], _, s => pure s
  | channelNo :: rest, partIdx, s => do
      -- `dev_no` is set back to 0 for each channel, `part_idx` is not
      let (partIdx, s) ← scanDevice pad heap devices channelNo 0 partIdx s
      let (partIdx, s) ← scanDevice pad heap devices channelNo 1 partIdx s
      scanChannels pad heap devices rest partIdx s

/-- The scan of `filesys_init`. -/
def filesysScan (pad heap : Nat → Nat → Bytes) (devices : List DiskParts) (channelCnt : Nat)
    (disk : Nat → Nat → Disk) : Except Halt FilesysScan :=
  scanChannels pad heap devices (List.range channelCnt) 0 ⟨disk, []⟩

end Fizzos.Fs
