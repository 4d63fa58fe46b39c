import Fizzos.Device.IdeTransfer
import Fizzos.Kernel.Mutex

/-!
# `Fizzos.Device.IdeChannel`: tasks that share a channel of disks

`ide_read` and `ide_write` in any number of tasks, and `intr_hd_handler`, of `device/ide.c`. A call
takes the lock of the channel. Behind each command it waits on the semaphore `disk_done`, which the
interrupt handler posts.

A call is a list of steps (`DriverOp`), and between two steps any other task can run. The lock takes
steps of its own (`MutexState.step`). An interrupt can come at any time, also one that no command
has asked for. The answers of `busy_wait` are those in `IdeCall.status`.

`request`, `log` and `served` say which call a task is in, what all tasks have done at the ports,
and which calls have given the lock back, in this order. The code does not read them.

Left out: `identify_disk`, which `ide_init` calls before other tasks use the channel.
-/

set_option autoImplicit false

namespace Fizzos.Device

open Fizzos.Kernel
open Fizzos.Support

/-! ### The steps of a call -/

/-- A step of a call, with the lock. -/
inductive DriverOp where
  | port (op : PortOp)
  /-- `channel->expecting_intr = true` -/
  | expect
  /-- `sema_wait(&hd->my_channel->disk_done)` -/
  | wait
  /-- `if (!busy_wait(hd)) PANIC`, with the answers of the drive. -/
  | ready (status : Nat → BitVec 8)
  /-- The assertion of `select_sector`. -/
  | check (lba : Nat)
  /-- `mutex_release(&hd->my_channel->lock)` -/
  | release

/-- A call of `ide_write` or of `ide_read`. -/
structure IdeRequest where
  write : Bool
  call : IdeCall

namespace IdeRequest

/-- The command of the call. -/
def command (r : IdeRequest) : Nat := if r.write then CMD_WRITE_SECTOR else CMD_READ_SECTOR

/-- The function that moves the data of the call. -/
def data (r : IdeRequest) : IdeDisk → Nat → Nat → PortOp :=
  if r.write then write2sector else readFromSector

/-- The stores of `select_sector`. -/
def selectStores (hd : IdeDisk) (lba secCnt : Nat) : List PortOp :=
  [outb (hd.portBase + 2) secCnt, outb (hd.portBase + 3) lba, outb (hd.portBase + 4) (lba >>> 8),
    outb (hd.portBase + 5) (lba >>> 16),
    outb (hd.portBase + 6) (BIT_DEV_MBS ||| BIT_DEV_LBA ||| hd.devBit ||| (lba >>> 24))]

/-- `select_sector` and `cmd_out` of a round. -/
def commandOps (r : IdeRequest) (secsDone n : Nat) : List DriverOp :=
  let lba := (r.call.lba + secsDone) % 2 ^ 32
  .check lba :: (selectStores r.call.hd lba (n % 2 ^ 8)).map .port ++
    [.expect, .port (cmdOut r.call.hd r.command)]

/-- What comes behind the command. A read waits for the interrupt first, a write at the end. -/
def dataOps (r : IdeRequest) (c secsDone n : Nat) : List DriverOp :=
  let addr := (r.call.buf + secsDone * 512) % 2 ^ 32
  if r.write then
    [.ready (r.call.status c), .port (write2sector r.call.hd addr (n % 2 ^ 8)), .wait]
  else
    [.wait, .ready (r.call.status c), .port (readFromSector r.call.hd addr (n % 2 ^ 8))]

theorem secsOp_pos {secsDone secCnt : Nat} (h : secsDone < secCnt) :
    0 < secsOp secsDone secCnt := by
  rw [secsOp]
  split <;> omega

/-- The loop from `secs_done` on. The wait number `c` comes next. -/
def loopOps (r : IdeRequest) (c secsDone : Nat) : List DriverOp :=
  if secsDone < r.call.secCnt then
    let n := secsOp secsDone r.call.secCnt
    r.commandOps secsDone n ++ r.dataOps c secsDone n ++ loopOps r (c + 1) (secsDone + n)
  else []
termination_by r.call.secCnt - secsDone
decreasing_by
  have := secsOp_pos ‹_›
  omega

/-- The call behind `mutex_acquire`. -/
def ops (r : IdeRequest) : List DriverOp :=
  (selectDisk r.call.hd).map .port ++ (r.loopOps 0 0 ++ [.release])

/-- The tests in front of the lock. -/
def entry (r : IdeRequest) : Except Halt Unit :=
  if r.write then do
    ASSERT (r.call.lba ≤ MAX_LBA)
    ASSERT (r.call.secCnt > 0)
  else if r.call.lba > MAX_LBA then PANIC
  else ASSERT (r.call.secCnt > 0)

end IdeRequest

/-! ### The channel -/

/-- The channel, and the tasks that use it. -/
structure ChannelState where
  lock : MutexState
  expectingIntr : Bool
  diskDone : Sem
  /-- The task sleeps in `sema_wait`. -/
  asleep : Tid → Bool
  /-- What is left of the call of a task. -/
  code : Tid → List DriverOp
  request : Tid → Option IdeRequest
  log : List PortOp
  served : List IdeRequest

/-- What happens next. -/
inductive ChannelAct where
  /-- The task `t` calls `ide_write` or `ide_read`. -/
  | call (t : Tid) (r : IdeRequest)
  /-- The task `t` goes on in its call. -/
  | step (t : Tid)
  | intr

namespace ChannelState

/-- `ide_write` or `ide_read`, up to the lock. -/
def enter (s : ChannelState) (t : Tid) (r : IdeRequest) : Except Halt ChannelState := do
  r.entry
  pure { s with
    lock := s.lock.goto t .acqCheck
    code := Function.update s.code t r.ops
    request := Function.update s.request t (some r) }

/-- A step of the task `t`. `fuel` bounds the polls of a `busy_wait`. -/
def exec (fuel : Nat) (s : ChannelState) (t : Tid) : DriverOp → Except Halt ChannelState
  | .port op => pure { s with log := s.log ++ [op] }
  | .expect => pure { s with expectingIntr := true }
  | .wait =>
      let (diskDone, sleeps) := semaWait s.diskDone t
      pure { s with diskDone, asleep := Function.update s.asleep t sleeps }
  | .ready status => do
      let (ready, _) ← busyWait status fuel
      if ready then pure s else PANIC
  | .check lba => do
      ASSERT (lba ≤ MAX_LBA)
      pure s
  | .release =>
      pure { s with
        lock := s.lock.goto t .relAssert
        request := Function.update s.request t none
        served := s.served ++ (s.request t).toList }

/-- The task `t` goes on, in a function of the lock or behind it. -/
def step (fuel : Nat) (s : ChannelState) (t : Tid) : Except Halt ChannelState :=
  if s.lock.pc t ≠ .outside then do
    let lock ← s.lock.step t
    pure { s with lock }
  else
    match s.code t with
    | [] => pure s
    | op :: rest => exec fuel { s with code := Function.update s.code t rest } t op

/-- `intr_hd_handler` -/
def intrHdHandler (s : ChannelState) : Except Halt ChannelState :=
  if s.expectingIntr then
    match semaPostInc s.diskDone with
    | (diskDone, false) => pure { s with expectingIntr := false, diskDone }
    | (diskDone, true) => do
        let (diskDone, t) ← semaPostPop diskDone
        pure { s with
          expectingIntr := false
          diskDone
          asleep := Function.update s.asleep t false }
  else pure s

/-- A task in no call may begin one, for a disk of this channel. A task in a call goes on unless it
sleeps. -/
def Enabled (base : Nat) (s : ChannelState) : ChannelAct → Prop
  | .call t r => s.code t = [] ∧ s.lock.pc t = .outside ∧ r.call.hd.portBase = base
  | .step t =>
      (s.lock.pc t ≠ .outside ∧ s.lock.blocked t = false) ∨
        (s.lock.pc t = .outside ∧ s.code t ≠ [] ∧ s.asleep t = false)
  | .intr => True

instance (base : Nat) (s : ChannelState) (a : ChannelAct) : Decidable (s.Enabled base a) := by
  cases a <;> unfold Enabled <;> infer_instance

/-- The state after an action. -/
def next (fuel : Nat) (s : ChannelState) : ChannelAct → Except Halt ChannelState
  | .call t r => s.enter t r
  | .step t => s.step fuel t
  | .intr => s.intrHdHandler

/-- The channel after `ide_init`. -/
def start : ChannelState where
  lock := MutexState.start
  expectingIntr := false
  diskDone := semaInit 0
  asleep := fun _ => false
  code := fun _ => []
  request := fun _ => none
  log := []
  served := []

/-- The task has the lock and is in its call. -/
def Inside (s : ChannelState) (t : Tid) : Prop := s.code t ≠ [] ∧ 0 < s.lock.depth t

end ChannelState

/-- Any number of tasks that use the channel at the port `base`. -/
def channelSystem (base fuel : Nat) : System ChannelState ChannelAct Halt where
  init s := s = ChannelState.start
  enabled := ChannelState.Enabled base
  next := ChannelState.next fuel

instance (base fuel : Nat) (s : ChannelState) (a : ChannelAct) :
    Decidable ((channelSystem base fuel).enabled s a) :=
  inferInstanceAs (Decidable (s.Enabled base a))

end Fizzos.Device
