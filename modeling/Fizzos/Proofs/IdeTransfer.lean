import Fizzos.Proofs.BusyWait
import Mathlib.Data.List.Range

/-!
# `Fizzos.Proofs.IdeTransfer`: a transfer in chunks

A call moves its sectors in chunks of 256, and the last chunk has what is left. The count of a chunk
goes through a byte, where 256 becomes 0. Both the drive and the data transfer read 0 as 256, so
they agree (`commandsFrom_chunk`).

`SplitsExactly` says what the drive sees. One round of the loop issues one command, and the rest
of the loop goes on behind its sectors (`transferLoop_splits`).
-/

set_option autoImplicit false

namespace Fizzos.Proofs

open Fizzos.Device
open Fizzos.Support

/-- The byte that a bit set of `reg_dev` is. -/
theorem dev_byte (hd : IdeDisk) : (BIT_DEV_MBS ||| BIT_DEV_LBA ||| hd.devBit) % 256 =
    BIT_DEV_MBS ||| BIT_DEV_LBA ||| hd.devBit := by
  rw [IdeDisk.devBit]
  split <;> rfl

/-- The number of a disk on its channel. -/
def driveNumber (hd : IdeDisk) : Nat := if hd.devNo = 1 then 1 else 0

/-- The sector `lba + k` and its place `buf + 512 * k`. -/
def place (lba buf k : Nat) : Nat × Nat := (lba + k, (buf + 512 * k) % 2 ^ 32)

/-- The commands `cs` move `n` sectors from number `done` on. -/
structure SplitsExactly (number cmd lba buf done n : Nat) (cs : List DriveCommand) : Prop where
  command : ∀ c ∈ cs, c.cmd = cmd ∧ c.drive = number
  chunk : ∀ c ∈ cs, 1 ≤ c.sectors ∧ c.sectors ≤ 256
  bytes : ∀ c ∈ cs, c.bytes = 512 * c.sectors
  covered : cs.flatMap DriveCommand.covered = List.range' (lba + done) n
  moved : cs.flatMap DriveCommand.moved = (List.range' done n).map (place lba buf)

section
variable {call : IdeCall} {cmd fuel lba buf done n m : Nat} {cs : List DriveCommand}

/-! ### Chunks -/

/-- The size of a chunk, when `secs_done + 256` does not wrap around. -/
theorem secsOp_eq {secCnt : Nat} (hlt : done < secCnt) (hwrap : done + 256 < 2 ^ 32) :
    secsOp done secCnt = min 256 (secCnt - done) := by
  rw [secsOp, Nat.mod_eq_of_lt hwrap]
  split <;> omega

/-- A chunk of the size `n` gives a command its count and its number of bytes. -/
theorem sizeInByte_chunk (hn : 1 ≤ n) (hle : n ≤ 256) :
    2 * (sizeInByte (n % 2 ^ 8) / 2) = 512 * n := by
  rw [sizeInByte]
  split <;> omega

/-- The command of a chunk. -/
def chunkCommand (hd : IdeDisk) (cmd lba n addr : Nat) : DriveCommand :=
  { cmd, drive := driveNumber hd, lba, sectors := n, addr, bytes := 512 * n }

/-- The function moves the data of a command. -/
def MovesData (data : IdeDisk → Nat → Nat → PortOp) : Prop :=
  data = readFromSector ∨ data = write2sector

/-- The registers of a chunk, as the drive reads them. -/
theorem chunk_regs {r : DriveRegs} (hd : IdeDisk) (hlba : lba ≤ MAX_LBA) (hn : 1 ≤ n)
    (hle : n ≤ 256) (hcnt : r.sectCnt = n % 2 ^ 8 % 256) (hl : r.lbaL = lba % 256)
    (hm : r.lbaM = (lba >>> 8) % 256) (hh : r.lbaH = (lba >>> 16) % 256)
    (hdev : r.dev = (BIT_DEV_MBS ||| BIT_DEV_LBA ||| hd.devBit ||| (lba >>> 24)) % 256) :
    r.sectors = n ∧ r.lba = lba ∧ r.drive = driveNumber hd := by
  have hmax : MAX_LBA = 163839 := rfl
  have htop : lba >>> 24 = 0 := by
    rw [Nat.shiftRight_eq_div_pow]
    omega
  -- the bits of `lba` from 24 on are 0, so `reg_dev` has the bits of the disk only
  rw [htop, Nat.or_zero, dev_byte] at hdev
  rw [Nat.shiftRight_eq_div_pow] at hm hh
  refine ⟨?_, ?_, ?_⟩
  · rw [DriveRegs.sectors, hcnt]
    split <;> omega
  · have hlow : r.dev % 2 ^ 4 = 0 := by
      rw [hdev, IdeDisk.devBit]
      split <;> rfl
    rw [DriveRegs.lba, hlow, hl, hm, hh]
    omega
  · rw [DriveRegs.drive, hdev, IdeDisk.devBit, driveNumber]
    split <;> rfl

/-- The operations of a chunk are one command. -/
theorem commandsFrom_chunk {data : IdeDisk → Nat → Nat → PortOp} {select rest : List PortOp}
    (hd : IdeDisk) (r : DriveRegs) (addr : Nat) (hdata : MovesData data) (hcmd : cmd < 256)
    (hn : 1 ≤ n) (hle : n ≤ 256) (hselect : selectSector hd lba (n % 2 ^ 8) = .ok select) :
    ∃ r', commandsFrom hd.portBase r none
        (select ++ cmdOut hd cmd :: data hd addr (n % 2 ^ 8) :: rest)
      = chunkCommand hd cmd lba n addr :: commandsFrom hd.portBase r' none rest := by
  obtain ⟨u, hlba, hops⟩ := bind_eq_ok.mp hselect
  obtain rfl := Except.ok.inj hops
  have hlba := ASSERT_eq_ok.mp hlba
  -- five registers, in the order of the source
  let r' : DriveRegs := ⟨n % 2 ^ 8 % 256, lba % 256, (lba >>> 8) % 256, (lba >>> 16) % 256,
    (BIT_DEV_MBS ||| BIT_DEV_LBA ||| hd.devBit ||| (lba >>> 24)) % 256⟩
  obtain ⟨hsectors, hdecoded, hdrive⟩ :=
    chunk_regs (r := r') hd hlba hn hle rfl rfl rfl rfl rfl
  refine ⟨r', ?_⟩
  have hbyte : cmd % 256 = cmd := Nat.mod_eq_of_lt hcmd
  have hdone : dataOf r' addr (sizeInByte (n % 2 ^ 8) / 2) (some cmd)
      = [chunkCommand hd cmd lba n addr] := by
    rw [dataOf, sizeInByte_chunk hn hle, hsectors, hdecoded, hdrive]
    rfl
  have hselected : ∀ ops, commandsFrom hd.portBase r none
      ([outb (hd.portBase + 2) (n % 2 ^ 8), outb (hd.portBase + 3) lba,
        outb (hd.portBase + 4) (lba >>> 8), outb (hd.portBase + 5) (lba >>> 16),
        outb (hd.portBase + 6) (BIT_DEV_MBS ||| BIT_DEV_LBA ||| hd.devBit ||| (lba >>> 24))]
        ++ cmdOut hd cmd :: ops)
      = commandsFrom hd.portBase r' (some cmd) ops := by
    intro ops
    simp [outb, cmdOut, commandsFrom, writeReg, hbyte, r']
  rw [hselected]
  -- both directions move `sizeInByte` bytes in words
  rcases hdata with rfl | rfl
  · rw [readFromSector, commandsFrom, hdone, List.singleton_append]
  · rw [write2sector, commandsFrom, hdone, List.singleton_append]

/-- The sectors of a chunk and their places. -/
theorem chunk_moved (hd : IdeDisk) (cmd lba buf done n : Nat) :
    (chunkCommand hd cmd (lba + done) n ((buf + done * 512) % 2 ^ 32)).moved
      = (List.range' done n).map (place lba buf) := by
  rw [DriveCommand.moved, List.range'_eq_map_range, List.map_map]
  have hcount : (chunkCommand hd cmd (lba + done) n ((buf + done * 512) % 2 ^ 32)).bytes / 512
      = n :=
    Nat.mul_div_cancel_left n (by decide)
  rw [hcount]
  refine List.map_congr_left fun j _ => Prod.ext (Nat.add_assoc lba done j) ?_
  show ((buf + done * 512) % 2 ^ 32 + 512 * j) % 2 ^ 32 = (buf + 512 * (done + j)) % 2 ^ 32
  omega

theorem SplitsExactly.nil (number cmd lba buf done : Nat) :
    SplitsExactly number cmd lba buf done 0 [] :=
  ⟨by simp, by simp, by simp, rfl, rfl⟩

/-- A chunk in front. -/
theorem SplitsExactly.cons (hd : IdeDisk) (hn : 1 ≤ n) (hle : n ≤ 256)
    (h : SplitsExactly (driveNumber hd) cmd lba buf (done + n) m cs) :
    SplitsExactly (driveNumber hd) cmd lba buf done (n + m)
      (chunkCommand hd cmd (lba + done) n ((buf + done * 512) % 2 ^ 32) :: cs) where
  command := List.forall_mem_cons.mpr ⟨⟨rfl, rfl⟩, h.command⟩
  chunk := List.forall_mem_cons.mpr ⟨⟨hn, hle⟩, h.chunk⟩
  bytes := List.forall_mem_cons.mpr ⟨rfl, h.bytes⟩
  covered := by
    rw [List.flatMap_cons, h.covered, ← Nat.add_assoc]
    exact List.range'_append_1
  moved := by
    rw [List.flatMap_cons, h.moved, chunk_moved, ← List.map_append, List.range'_append_1]

/-! ### The loop -/

/-- What the loop issues from `done` sectors on. Each round issues one command, and the rest of the
loop goes on behind its sectors. -/
theorem transferLoop_splits {data : IdeDisk → Nat → Nat → PortOp} (hdata : MovesData data)
    (hcmd : cmd < 256) (hmax : call.lba + call.secCnt - 1 ≤ MAX_LBA) {rounds c : Nat}
    {ops : List PortOp} (r : DriveRegs) (hdone : done ≤ call.secCnt)
    (hok : transferLoop call cmd data fuel rounds c done = .ok ops) :
    SplitsExactly (driveNumber call.hd) cmd call.lba call.buf done (call.secCnt - done)
      (commandsOf call.hd.portBase r ops) := by
  have hbound : MAX_LBA = 163839 := rfl
  induction rounds generalizing c done ops r with
  | zero => cases hok
  | succ rounds ih =>
      rw [transferLoop] at hok
      by_cases hlt : done < call.secCnt
      · rw [if_pos hlt, secsOp_eq hlt (by omega), Nat.mod_eq_of_lt (by omega)] at hok
        obtain ⟨n, hn⟩ : ∃ n, n = min 256 (call.secCnt - done) := ⟨_, rfl⟩
        rw [← hn] at hok
        obtain ⟨select, hselect, hok⟩ := bind_eq_ok.mp hok
        obtain ⟨⟨ready, polls⟩, -, hok⟩ := bind_eq_ok.mp hok
        cases ready with
        | false => cases hok
        | true =>
            obtain ⟨rest, hrest, hops⟩ := bind_eq_ok.mp hok
            obtain rfl := Except.ok.inj hops
            obtain ⟨r', hchunk⟩ := @commandsFrom_chunk _ _ _ data select rest call.hd r
              ((call.buf + done * 512) % 2 ^ 32) hdata hcmd (by omega) (by omega) hselect
            -- the sectors of this chunk, and those of the rounds that are left
            have hcount : call.secCnt - done = n + (call.secCnt - (done + n)) := by omega
            rw [commandsOf, hchunk, hcount]
            exact .cons call.hd (by omega) (by omega) (ih r' (by omega) hrest)
      · rw [if_neg hlt] at hok
        obtain rfl := Except.ok.inj hok
        rw [Nat.sub_eq_zero_of_le (by omega)]
        exact .nil _ _ _ _ _

/-- With a drive that is ready in each wait, the loop returns. -/
theorem transferLoop_returns {data : IdeDisk → Nat → Nat → PortOp}
    (hmax : call.lba + call.secCnt - 1 ≤ MAX_LBA)
    (hready : ∀ c, ∃ polls, busyWait (call.status c) fuel = .ok (true, polls)) {rounds c : Nat}
    (hrounds : call.secCnt - done < rounds) :
    ∃ ops, transferLoop call cmd data fuel rounds c done = .ok ops := by
  have hbound : MAX_LBA = 163839 := rfl
  induction rounds generalizing c done with
  | zero => exact absurd hrounds (Nat.not_lt_zero _)
  | succ rounds ih =>
      rw [transferLoop]
      by_cases hlt : done < call.secCnt
      · obtain ⟨polls, hwait⟩ := hready c
        rw [if_pos hlt, secsOp_eq hlt (by omega), Nat.mod_eq_of_lt (by omega)]
        -- each round moves a sector or more, so the rounds do not run out
        obtain ⟨rest, hrest⟩ := @ih (done + min 256 (call.secCnt - done)) (c + 1) (by omega)
        have hlba : call.lba + done ≤ MAX_LBA := by omega
        simp only [selectSector, ASSERT_true hlba, ok_bind, pure_eq_ok, hwait, if_true, hrest]
        exact ⟨_, rfl⟩
      · rw [if_neg hlt]
        exact ⟨[], rfl⟩

end

/-! ### Both directions -/

/-- `select_disk` issues no command. -/
theorem commandsOf_selectDisk (hd : IdeDisk) (r : DriveRegs) (ops : List PortOp) :
    ∃ r', commandsOf hd.portBase r (selectDisk hd ++ ops) = commandsOf hd.portBase r' ops := by
  have hport : ¬hd.portBase + 6 = hd.portBase + 7 := by omega
  rw [commandsOf, selectDisk, outb, List.singleton_append, commandsFrom, if_neg hport]
  exact ⟨_, rfl⟩

/-- A call of `ide_read` or `ide_write` issues commands for chunks of 1 to 256 sectors, from any
state of the registers. Together the chunks are the sectors of the call, each once and in order. The
number of bytes agrees with the count that the drive decodes, and the sector `lba + k` is moved
to or from `buf + 512 * k`. With a drive that is ready in each wait the call returns. -/
theorem ide_transfers_split {call : IdeCall} (hcnt : 1 ≤ call.secCnt)
    (hmax : call.lba + call.secCnt - 1 ≤ MAX_LBA) (fuel : Nat) :
    (∀ r ops, ideReadPorts call fuel = .ok ops → SplitsExactly (driveNumber call.hd) CMD_READ_SECTOR
      call.lba call.buf 0 call.secCnt (commandsOf call.hd.portBase r ops)) ∧
    (∀ r ops, ideWritePorts call fuel = .ok ops → SplitsExactly (driveNumber call.hd)
      CMD_WRITE_SECTOR call.lba call.buf 0 call.secCnt (commandsOf call.hd.portBase r ops)) ∧
    ((∀ c, ∃ polls, busyWait (call.status c) fuel = .ok (true, polls)) →
      (∃ ops, ideReadPorts call fuel = .ok ops) ∧ ∃ ops, ideWritePorts call fuel = .ok ops) := by
  have hlba : ¬call.lba > MAX_LBA := by omega
  have hle : call.lba ≤ MAX_LBA := by omega
  have hpos : call.secCnt > 0 := hcnt
  refine ⟨fun r ops hok => ?_, fun r ops hok => ?_, fun hready => ⟨?_, ?_⟩⟩
  · rw [ideReadPorts, if_neg hlba, ASSERT_true hpos, ok_bind] at hok
    obtain ⟨rest, hloop, hops⟩ := bind_eq_ok.mp hok
    obtain rfl := Except.ok.inj hops
    -- The drive is picked once, in front of the loop. The registers have any values before.
    obtain ⟨r', hselect⟩ := commandsOf_selectDisk call.hd r rest
    rw [hselect]
    exact transferLoop_splits (.inl rfl) (by decide) hmax r' (Nat.zero_le _) hloop
  · rw [ideWritePorts, ASSERT_true hle, ok_bind, ASSERT_true hpos, ok_bind] at hok
    obtain ⟨rest, hloop, hops⟩ := bind_eq_ok.mp hok
    obtain rfl := Except.ok.inj hops
    obtain ⟨r', hselect⟩ := commandsOf_selectDisk call.hd r rest
    rw [hselect]
    exact transferLoop_splits (.inr rfl) (by decide) hmax r' (Nat.zero_le _) hloop
  · obtain ⟨ops, hloop⟩ : ∃ ops, transferLoop call CMD_READ_SECTOR readFromSector fuel
        (call.secCnt + 1) 0 0 = .ok ops :=
      transferLoop_returns hmax hready (Nat.lt_succ_of_le (Nat.sub_le call.secCnt 0))
    rw [ideReadPorts, if_neg hlba, ASSERT_true hpos, ok_bind, hloop]
    exact ⟨_, rfl⟩
  · obtain ⟨ops, hloop⟩ : ∃ ops, transferLoop call CMD_WRITE_SECTOR write2sector fuel
        (call.secCnt + 1) 0 0 = .ok ops :=
      transferLoop_returns hmax hready (Nat.lt_succ_of_le (Nat.sub_le call.secCnt 0))
    rw [ideWritePorts, ASSERT_true hle, ok_bind, ASSERT_true hpos, ok_bind, hloop]
    exact ⟨_, rfl⟩

/-- 600 sectors of the second disk of a channel, in three chunks. -/
theorem ide_transfers_split_600 : ∃ ops,
    ideReadPorts ⟨⟨0x1f0, 1⟩, 1000, 0xc0100000, 600, fun _ _ => 0x48⟩ 1 = .ok ops ∧
      SplitsExactly 1 CMD_READ_SECTOR 1000 0xc0100000 0 600
      (commandsOf 0x1f0 ⟨0, 0, 0, 0, 0⟩ ops) := by
  let call : IdeCall := ⟨⟨0x1f0, 1⟩, 1000, 0xc0100000, 600, fun _ _ => 0x48⟩
  have hcnt : 1 ≤ call.secCnt := by decide
  have hmax : call.lba + call.secCnt - 1 ≤ MAX_LBA := by decide
  obtain ⟨hread, -, hready⟩ := ide_transfers_split hcnt hmax 1
  have hstatus : ¬Busy (fun _ => 0x48) 0 ∧ drqBehind (fun _ => 0x48) 0 = true := by decide
  obtain ⟨⟨ops, hok⟩, -⟩ := hready fun _ => ⟨1, busyWait_ready 0 hstatus⟩
  exact ⟨ops, hok, hread _ ops hok⟩

/-! ### The transfer as a whole -/

section
variable {d : Disk} {m : Bytes} {lba off n : Nat}

/-- A transfer of one more sector. -/
theorem ideRead_succ : ideRead d lba m off (n + 1)
    = ideRead d (lba + n) (ideRead d lba m off n) (off + 512 * n) 1 := by
  have hsize : SECTOR_SIZE = 512 := rfl
  have hlen : (n + 1) * SECTOR_SIZE = 512 * n + 512 := by rw [hsize]; omega
  have hlen' : n * SECTOR_SIZE = 512 * n := by rw [hsize]; omega
  funext k
  -- a byte of the last sector, or one that the shorter transfer has read
  by_cases hlast : off + 512 * n ≤ k ∧ k < off + 512 * n + SECTOR_SIZE
  · rw [ideRead_one hlast.1 hlast.2, ideRead, if_pos (by omega)]
    have hquot : (k - off) / SECTOR_SIZE = n := by
      rw [hsize]
      omega
    rw [hquot, Nat.mod_def, hquot, hsize]
    congr 1
    omega
  · rw [ideRead_of_ne (by omega), ideRead, ideRead]
    by_cases hin : off ≤ k ∧ k < off + n * SECTOR_SIZE
    · rw [if_pos hin, if_pos (by omega)]
    · rw [if_neg hin, if_neg (by omega)]

/-- A write of one more sector. -/
theorem ideWrite_succ : ideWrite d lba m off (n + 1)
    = ideWrite (ideWrite d lba m off n) (lba + n) m (off + 512 * n) 1 := by
  funext l k
  -- the last sector, or one that the shorter transfer has written
  by_cases hlast : l = lba + n
  · subst hlast
    by_cases hk : k < SECTOR_SIZE
    · rw [ideWrite_one hk, ideWrite, if_pos ⟨by omega, by omega, hk⟩, Nat.add_sub_cancel_left,
        Nat.mul_comm n]
      rfl
    · simp only [ideWrite, hk, and_false, if_false]
  · rw [ideWrite_of_ne hlast, ideWrite, ideWrite]
    by_cases hin : lba ≤ l ∧ l < lba + n ∧ k < SECTOR_SIZE
    · rw [if_pos hin, if_pos (by omega)]
    · rw [if_neg hin, if_neg (by omega)]

end

/-- One sector to memory. -/
def moveIn (d : Disk) (m : Bytes) (p : Nat × Nat) : Bytes := ideRead d p.1 m p.2 1

/-- One sector from memory. -/
def moveOut (m : Bytes) (d : Disk) (p : Nat × Nat) : Disk := ideWrite d p.1 m p.2 1

/-- The commands of a call that fits in memory move what `ideRead` and `ideWrite` move. -/
theorem SplitsExactly.moves {number cmd lba buf n : Nat} {cs : List DriveCommand}
    (h : SplitsExactly number cmd lba buf 0 n cs) (hfit : buf + 512 * n ≤ 2 ^ 32) (d : Disk)
    (m : Bytes) :
    (cs.flatMap DriveCommand.moved).foldl (moveIn d) m = ideRead d lba m buf n ∧
      (cs.flatMap DriveCommand.moved).foldl (moveOut m) d = ideWrite d lba m buf n := by
  rw [h.moved, ← List.range_eq_range']
  clear h
  induction n with
  | zero =>
      constructor
      · funext k
        exact (if_neg (by omega)).symm
      · funext l k
        exact (if_neg (by omega)).symm
  | succ n ih =>
      obtain ⟨hin, hout⟩ := ih (by omega)
      have hplace : (buf + 512 * n) % 2 ^ 32 = buf + 512 * n := Nat.mod_eq_of_lt (by omega)
      rw [List.range_succ, List.map_append, List.foldl_append, List.foldl_append, hin, hout,
        ideRead_succ, ideWrite_succ, List.map_singleton, place, hplace]
      exact ⟨rfl, rfl⟩

end Fizzos.Proofs
