import Fizzos.Device.Ide

/-!
# `Fizzos.Device.IdeTransfer`: the commands of `device/ide.c`

`ide_read` and `ide_write` at the ports. A call is the list of its port operations, in program
order: the registers, the commands and the words that move between the data port and memory. The
drive decodes this list into commands (`commandsOf`).

`busy_wait` reads the status register until the drive is not busy. `status c k` is the value at poll
`k` of the wait number `c` of a call, and the value behind it is what the wait reads for the
answer. A wait has a fuel argument, and stops with `Halt.hang` when it runs out.

Left out: the channel lock, `expecting_intr`, and the semaphore that the interrupt handler posts.
-/

set_option autoImplicit false

namespace Fizzos.Device

open Fizzos.Support

/-- The fields of `struct disk` and of its channel that a transfer uses. -/
structure IdeDisk where
  portBase : Nat
  devNo : Nat

/-- What `outb`, `insw` and `outsw` do. -/
inductive PortOp where
  | outb (port data : Nat)
  | insw (port addr wordCnt : Nat)
  | outsw (port addr wordCnt : Nat)
  deriving DecidableEq, Repr

/-- `outb`. The data is a byte. -/
def outb (port data : Nat) : PortOp := .outb port (data % 256)

def BIT_STAT_BSY : BitVec 8 := 0x80
def BIT_STAT_DRQ : BitVec 8 := 0x8

def BIT_DEV_MBS : Nat := 0xa0
def BIT_DEV_LBA : Nat := 0x40
def BIT_DEV_DEV : Nat := 0x10

def CMD_READ_SECTOR : Nat := 0x20
def CMD_WRITE_SECTOR : Nat := 0x30

/-! ### `busy_wait` -/

/-- The loop of `busy_wait`, from poll `k` on: the answer, and the number of polls. -/
def busyWaitLoop (status : Nat → BitVec 8) : Nat → Nat → Nat → Except Halt (Bool × Nat)
  | 0, _, _ => .error .hang
  | fuel + 1, timeLimit, k =>
      let timeLimit : Nat := (timeLimit + 2 ^ 16 - 10) % 2 ^ 16
      -- the `uint16_t` is compared as an `int`
      if (timeLimit : Int) ≥ 0 then
        if status k &&& BIT_STAT_BSY = 0 then
          pure (decide (status (k + 1) &&& BIT_STAT_DRQ ≠ 0), k + 1)
        else busyWaitLoop status fuel timeLimit (k + 1)
      else pure (false, k)

/-- `busy_wait`. -/
def busyWait (status : Nat → BitVec 8) (fuel : Nat) : Except Halt (Bool × Nat) :=
  busyWaitLoop status fuel (30 * 1000) 0

/-! ### The transfers -/

namespace IdeDisk

/-- `hd->dev_no == 1 ? BIT_DEV_DEV : 0`. -/
def devBit (hd : IdeDisk) : Nat := if hd.devNo = 1 then BIT_DEV_DEV else 0

end IdeDisk

/-- `select_disk`. -/
def selectDisk (hd : IdeDisk) : List PortOp :=
  [outb (hd.portBase + 6) (BIT_DEV_MBS ||| BIT_DEV_LBA ||| hd.devBit)]

/-- `select_sector`. The count is a byte. -/
def selectSector (hd : IdeDisk) (lba secCnt : Nat) : Except Halt (List PortOp) := do
  ASSERT (lba ≤ MAX_LBA)
  pure
    [outb (hd.portBase + 2) secCnt, outb (hd.portBase + 3) lba, outb (hd.portBase + 4) (lba >>> 8),
      outb (hd.portBase + 5) (lba >>> 16),
      outb (hd.portBase + 6) (BIT_DEV_MBS ||| BIT_DEV_LBA ||| hd.devBit ||| (lba >>> 24))]

/-- `cmd_out`. -/
def cmdOut (hd : IdeDisk) (cmd : Nat) : PortOp := outb (hd.portBase + 7) cmd

/-- `size_in_byte`. -/
def sizeInByte (secCnt : Nat) : Nat := if secCnt = 0 then 256 * 512 else secCnt * 512

/-- `read_from_sector`. -/
def readFromSector (hd : IdeDisk) (buf secCnt : Nat) : PortOp :=
  .insw hd.portBase buf (sizeInByte secCnt / 2)

/-- `write2sector`. -/
def write2sector (hd : IdeDisk) (buf secCnt : Nat) : PortOp :=
  .outsw hd.portBase buf (sizeInByte secCnt / 2)

/-- `secs_op`, when `secs_done` of `sec_cnt` sectors are done. -/
def secsOp (secsDone secCnt : Nat) : Nat :=
  if (secsDone + 256) % 2 ^ 32 ≤ secCnt then 256 else secCnt - secsDone

/-- What a call asks for, and what the drive answers in each of its waits. -/
structure IdeCall where
  hd : IdeDisk
  lba : Nat
  buf : Nat
  secCnt : Nat
  status : Nat → Nat → BitVec 8

/-- The loop of `ide_read` and of `ide_write`, with the command and the function that moves the
data. The wait number `c` comes next. -/
def transferLoop (call : IdeCall) (cmd : Nat) (data : IdeDisk → Nat → Nat → PortOp) (fuel : Nat) :
    Nat → Nat → Nat → Except Halt (List PortOp)
  | 0, _, _ => .error .hang
  | rounds + 1, c, secsDone =>
      if secsDone < call.secCnt then do
        let n := secsOp secsDone call.secCnt
        let select ← selectSector call.hd ((call.lba + secsDone) % 2 ^ 32) (n % 2 ^ 8)
        let (ready, _) ← busyWait (call.status c) fuel
        if ready then do
          let addr := (call.buf + secsDone * 512) % 2 ^ 32
          let rest ← transferLoop call cmd data fuel rounds (c + 1) (secsDone + n)
          pure (select ++ cmdOut call.hd cmd :: data call.hd addr (n % 2 ^ 8) :: rest)
        else PANIC
      else pure []

/-- `ide_read` at the ports. -/
def ideReadPorts (call : IdeCall) (fuel : Nat) : Except Halt (List PortOp) :=
  if call.lba > MAX_LBA then PANIC
  else do
    ASSERT (call.secCnt > 0)
    let ops ← transferLoop call CMD_READ_SECTOR readFromSector fuel (call.secCnt + 1) 0 0
    pure (selectDisk call.hd ++ ops)

/-- `ide_write` at the ports. -/
def ideWritePorts (call : IdeCall) (fuel : Nat) : Except Halt (List PortOp) := do
  ASSERT (call.lba ≤ MAX_LBA)
  ASSERT (call.secCnt > 0)
  let ops ← transferLoop call CMD_WRITE_SECTOR write2sector fuel (call.secCnt + 1) 0 0
  pure (selectDisk call.hd ++ ops)

/-! ### The drive -/

/-- The registers of a channel that a drive reads when a command comes. -/
structure DriveRegs where
  sectCnt : Nat
  lbaL : Nat
  lbaM : Nat
  lbaH : Nat
  dev : Nat
  deriving DecidableEq, Repr

namespace DriveRegs

/-- The number of sectors. 0 is 256. -/
def sectors (r : DriveRegs) : Nat := if r.sectCnt = 0 then 256 else r.sectCnt

/-- The 28 bits of the sector number. -/
def lba (r : DriveRegs) : Nat :=
  r.lbaL + 2 ^ 8 * r.lbaM + 2 ^ 16 * r.lbaH + 2 ^ 24 * (r.dev % 2 ^ 4)

/-- The number of the drive on its channel. -/
def drive (r : DriveRegs) : Nat := r.dev / 2 ^ 4 % 2

end DriveRegs

/-- A command as the drive decodes it, with the memory that its data goes to or comes from. -/
structure DriveCommand where
  cmd : Nat
  drive : Nat
  lba : Nat
  sectors : Nat
  addr : Nat
  bytes : Nat
  deriving DecidableEq, Repr

/-- A byte at a port of the channel `base`. -/
def writeReg (base : Nat) (r : DriveRegs) (port data : Nat) : DriveRegs :=
  if port = base + 2 then { r with sectCnt := data }
  else if port = base + 3 then { r with lbaL := data }
  else if port = base + 4 then { r with lbaM := data }
  else if port = base + 5 then { r with lbaH := data }
  else if port = base + 6 then { r with dev := data }
  else r

/-- The command that the data of `wordCnt` words belongs to, when there is one. -/
def dataOf (r : DriveRegs) (addr wordCnt : Nat) : Option Nat → List DriveCommand
  | none => []
  | some cmd =>
      [{ cmd, drive := r.drive, lba := r.lba, sectors := r.sectors, addr, bytes := 2 * wordCnt }]

/-- The commands in a list of operations, with the command that waits for its data. -/
def commandsFrom (base : Nat) : DriveRegs → Option Nat → List PortOp → List DriveCommand
  | _, _, [] => []
  | r, cmd, .outb port data :: ops =>
      if port = base + 7 then commandsFrom base r (some data) ops
      else commandsFrom base (writeReg base r port data) cmd ops
  | r, cmd, .insw _ addr wordCnt :: ops => dataOf r addr wordCnt cmd ++ commandsFrom base r none ops
  | r, cmd, .outsw _ addr wordCnt :: ops =>
      dataOf r addr wordCnt cmd ++ commandsFrom base r none ops

/-- The commands that a call issues on the channel `base`, from any state of the registers. -/
def commandsOf (base : Nat) (r : DriveRegs) (ops : List PortOp) : List DriveCommand :=
  commandsFrom base r none ops

/-- The sectors that a command names. -/
def DriveCommand.covered (c : DriveCommand) : List Nat := List.range' c.lba c.sectors

/-- The sectors that a command moves, each with its place in memory. -/
def DriveCommand.moved (c : DriveCommand) : List (Nat × Nat) :=
  (List.range (c.bytes / 512)).map fun j => (c.lba + j, (c.addr + 512 * j) % 2 ^ 32)

end Fizzos.Device
