import Fizzos.Proofs.Descriptors
import Fizzos.Proofs.Halts

/-!
# `Fizzos.Proofs.Transfers`: where `sys_read` and `sys_write` follow a pointer that may be `NULL`

A transfer stops for many reasons: a sector that is not there, a lock that is taken, a queue without
a line. None of them is `NULL`. Only `f_dentry` of a file that is not the device of the call can be
`NULL` (`sysRead_null_iff`, `sysWrite_null_iff`).

The calls of a transfer are `file_read` and `file_write` for a file on the disk, and
`ioqueue_getline` for the keyboard. Each of them, and each function under it, has a lemma with
`Never .nullDeref`. The screen is printed to without a pointer.
-/

set_option autoImplicit false

namespace Fizzos.Proofs

open Fizzos.Device
open Fizzos.Fs
open Fizzos.Kernel
open Fizzos.LibKernel
open Fizzos.Support

/-! ### The block allocator -/

section
variable {current : Tid}

/-- `bitmap_scan` without a clear bit is a `PANIC`, with the lock given back. -/
theorem bitmapScan_noNull (b : Bitmap) : Never .nullDeref (bitmapScan b current) := by
  have hrelease : ∀ b : Bitmap, Never .nullDeref (b.release current) :=
    bitmapRelease_never unasked_nullDeref
  refine .bind (bitmapAcquire_never unasked_nullDeref b) fun b => ?_
  split
  next => exact .bind (hrelease b) fun _ => .ok _
  next => exact .bind (hrelease b) fun _ => .halt (by decide)

/-- `bitmap_scan_set` looks for a clear bit and sets it, inside of one more lock. -/
theorem bitmapScanSet_noNull (b : Bitmap) : Never .nullDeref (bitmapScanSet b current) := by
  refine .bind (bitmapAcquire_never unasked_nullDeref b) fun b =>
    .bind (bitmapScan_noNull b) fun r => ?_
  refine .bind (bitmapSet_never unasked_nullDeref r.2 r.1) fun b => ?_
  exact .bind (bitmapRelease_never unasked_nullDeref b) fun _ => .ok _

/-- `block_bimap_alloc` takes a bit and writes the sector of the bitmap that has it. -/
theorem blockBimapAlloc_noNull (disk : Disk) (sb : SuperBlock) (b : Bitmap) :
    Never .nullDeref (blockBimapAlloc disk sb b current) := by
  refine .bind (bitmapScanSet_noNull b) fun r => .bind ?_ fun _ => .ok _
  refine .bind (.assert unasked_nullDeref _) fun _ => ?_
  refine .bind (bitmapAcquire_never unasked_nullDeref r.2) fun b => ?_
  exact .bind (bitmapRelease_never unasked_nullDeref b) fun _ => .ok _

end

/-! ### The file -/

section
variable {current : Tid} {sb : SuperBlock}

/-- The tests of `ide_read`: one of them is a `PANIC`, the others are an `ASSERT`. -/
theorem readCheck_noNull (lba secCnt : Nat) : Never .nullDeref (readCheck lba secCnt) := by
  rw [readCheck]
  split
  next => exact .halt (by decide)
  next => exact .bind (.assert unasked_nullDeref _) fun _ => .assert unasked_nullDeref _

/-- The tests of `ide_write`. -/
theorem writeCheck_noNull (lba secCnt : Nat) : Never .nullDeref (writeCheck lba secCnt) :=
  .bind (.assert unasked_nullDeref _) fun _ => .bind (.assert unasked_nullDeref _) fun _ =>
    .assert unasked_nullDeref _

/-- A round of the loop of `file_write`: a new block where the file has none, and the sector. -/
theorem writeStep_noNull (c : WriteCursor) (src : Bytes) (sec : Nat) :
    Never .nullDeref (c.step sb src sec current) := by
  have halloc : ∀ c : WriteCursor, Never .nullDeref (c.allocBlock sb current) := fun c =>
    .bind (blockBimapAlloc_noNull c.disk sb c.blockBitmap) fun _ => .ok _
  have hindex : ∀ c : WriteCursor, Never .nullDeref (c.openIndex sb current) := by
    intro c
    rw [WriteCursor.openIndex]
    split
    next => exact .bind (halloc c) fun _ => .bind (readCheck_noNull _ _) fun _ => .ok _
    next => exact .bind (readCheck_noNull _ _) fun _ => .ok _
  have hsector : ∀ c : WriteCursor, Never .nullDeref (c.openSector sb sec current) := by
    intro c
    rw [WriteCursor.openSector]
    split
    next => exact .bind (halloc _) fun _ => .ok _
    next => exact .ok _
  have hwrite : ∀ c : WriteCursor, Never .nullDeref (c.writeSector src sec) := fun c =>
    .bind (.assert unasked_nullDeref _) fun _ => .bind (readCheck_noNull _ _) fun _ =>
      .bind (writeCheck_noNull _ _) fun _ => .ok _
  -- sector 12 opens the index block first
  rw [WriteCursor.step]
  split
  next => exact .bind (hindex c) fun c => .bind (hsector c) fun c => hwrite c
  next => exact .bind (.ok c) fun c => .bind (hsector c) fun c => hwrite c

/-- The loop of `file_write` over the sectors that are left. -/
theorem writeLoop_noNull (src : Bytes) (secs : List Nat) (c : WriteCursor) :
    Never .nullDeref (writeLoop sb src current secs c) := by
  induction secs generalizing c with
  | nil => exact .ok c
  | cons sec rest ih =>
      rw [writeLoop]
      split
      next => exact .bind (writeStep_noNull c src sec) ih
      next => exact .ok c

/-- The index block is written behind the loop when the call has read or made it. -/
theorem checkSecond_noNull (c : WriteCursor) : Never .nullDeref c.checkSecond := by
  rw [WriteCursor.checkSecond]
  split
  next => exact writeCheck_noNull _ _
  next => exact .ok ()

/-- `file_write` can fail in many ways, a full disk among them, but it follows no pointer that can
be `NULL`. -/
theorem fileWrite_noNull (s : FileSys) (p : Nat) (src : Bytes) (count pos : Nat)
    (ioBuf pad : Bytes) : Never .nullDeref (fileWrite s p src count pos ioBuf pad current) := by
  have hassert : ∀ (cond : Prop) [Decidable cond], Never .nullDeref (ASSERT cond) :=
    .assert unasked_nullDeref
  unfold fileWrite
  dsimp only
  split
  -- above sector 12 the index block is read first
  next =>
    refine .bind (hassert _) fun _ => .bind (readCheck_noNull _ _) fun _ => ?_
    refine .bind (.ok _) fun ioBuf => .bind (writeLoop_noNull src _ _) fun c => ?_
    exact .bind (hassert _) fun _ => .bind (checkSecond_noNull c) fun _ => .ok _
  next =>
    refine .bind (.ok _) fun ioBuf => .bind (writeLoop_noNull src _ _) fun c => ?_
    exact .bind (hassert _) fun _ => .bind (checkSecond_noNull c) fun _ => .ok _

end

/-! ### The keyboard -/

section
variable {buf : Int → Byte} {tail size : Int}

/-- The search for a `'\n'` in the queue. A queue without one and without an end is a loop, and no
`NULL`. -/
theorem scanLine_noNull (n : Nat) (i : Int) : Never .nullDeref (scanLine buf tail size n i) := by
  induction n generalizing i with
  | zero => exact .halt (by decide)
  | succ n ih =>
      rw [scanLine]
      split
      next => exact .ok _
      split
      next => exact .ok _
      next => exact ih _

/-- The line goes to the reader, one character after the other. -/
theorem copyLine_noNull (count : Int) (n : Nat) (head c : Int) (dest : List Byte) :
    Never .nullDeref (copyLine buf tail size count n head c dest) := by
  induction n generalizing head c dest with
  | zero => exact .halt (by decide)
  | succ n ih =>
      rw [copyLine]
      split
      next =>
        split
        next => exact .ok _
        next => exact .bind (.assert unasked_nullDeref _) fun _ => ih _ _ _
      next => exact .ok _

/-- The rest of a line that is too long for the reader is dropped. -/
theorem skipLine_noNull (n : Nat) (head : Int) :
    Never .nullDeref (skipLine buf tail size n head) := by
  induction n generalizing head with
  | zero => exact .halt (by decide)
  | succ n ih =>
      rw [skipLine]
      split
      next => exact .ok _
      next => exact .bind (.assert unasked_nullDeref _) fun _ => ih _

/-- `ioqueue_getline` with the lock of the queue. -/
theorem ioqueueGetline_noNull (q : Ioqueue) (count : Int) (current : Tid) :
    Never .nullDeref (ioqueueGetline q count current) := by
  refine .bind (.bind (mutexAcquire_never unasked_nullDeref q.lock) fun _ => .ok _) fun q => ?_
  -- the reader of a queue without a line goes to sleep
  refine .bind (scanLine_noNull _ _) fun found => ?_
  split
  next => exact .halt (by decide)
  next =>
    refine .bind (copyLine_noNull _ _ _ _ _) fun r => .bind (skipLine_noNull _ _) fun head => ?_
    exact .bind (.bind (mutexRelease_never unasked_nullDeref _) fun _ => .ok _) fun _ => .ok _

end

/-! ### The calls -/

/-- The file of a descriptor is not the device that the call knows, and has no dentry. -/
def NullDentry (io : Io) (device fd : Nat) : Prop :=
  ∃ f, io.files.fdArray fd = some f ∧ io.fMode f &&& 0xf000 ≠ device ∧ (io.table.file f).fDentry = 0

/-- A file is the device of the call, or the call follows `f_dentry` to its inode. -/
theorem fileTarget_null_iff {t : FileTable} {fMode : Nat → Nat} {device f : Nat} :
    fileTarget t fMode device f = .error .nullDeref ↔
      fMode f &&& 0xf000 ≠ device ∧ (t.file f).fDentry = 0 := by
  rw [fileTarget]
  split
  next hdevice => exact iff_of_false (Never.ok _) fun h => h.1 hdevice
  next hdevice =>
    split
    next hzero => exact iff_of_true rfl ⟨hdevice, hzero⟩
    next hzero => exact iff_of_false (Never.ok _) fun h => hzero h.2

section
variable {io : Io} {fd : Int} {current : Tid}

/-- An open descriptor passes the checks. -/
theorem IsOpenFd.at (hopen : IsOpenFd io.files fd) :
    transferIndex io.files.openFds fd = .ok (some fd) ∧
      io.files.at fd = .ok (io.files.fdArray fd.toNat) := by
  obtain ⟨hlo, hhi, hset⟩ := hopen
  have hmax : (P_MAX_FILE_COUNT : Int) = 32 := rfl
  refine ⟨transferIndex_eq_some.mpr ⟨rfl, hlo, ?_⟩, if_pos ⟨hlo, hhi⟩⟩
  rw [fd_mod hlo (by omega)]
  exact hset

/-- `sys_read` of an open descriptor dereferences `NULL` exactly when its file is not the keyboard
and has no dentry. -/
theorem sysRead_null_iff (hopen : IsOpenFd io.files fd) (dest : Bytes) (count : Nat)
    (ioBuf : Bytes) : sysRead io fd dest count ioBuf current = .error .nullDeref ↔
      NullDentry io FT_KEYBOARD fd.toNat := by
  obtain ⟨hindex, hat⟩ := hopen.at
  rw [sysRead, hindex, ok_bind]
  dsimp only
  rw [hat, ok_bind, NullDentry]
  cases io.files.fdArray fd.toNat with
  | none => exact iff_of_false (Never.ok _) (by simp)
  | some f =>
      dsimp only
      rw [Never.bind_iff, fileTarget_null_iff]
      · simp
      · intro target
        cases target with
        | device => exact .bind (ioqueueGetline_noNull _ _ _) fun _ => .ok _
        | inode p => exact .bind (fileRead_never unasked_nullDeref _ _ _ _ _ _) fun _ => .ok _

/-- `sys_write` of an open descriptor, in the same way with the screen. -/
theorem sysWrite_null_iff (hopen : IsOpenFd io.files fd) (src : Bytes) (count : Nat)
    (ioBuf pad : Bytes) (printed : Int) :
    sysWrite io fd src count ioBuf pad printed current = .error .nullDeref ↔
      NullDentry io FT_SCREEN fd.toNat := by
  obtain ⟨hindex, hat⟩ := hopen.at
  rw [sysWrite, hindex, ok_bind]
  dsimp only
  rw [hat, ok_bind, NullDentry]
  cases io.files.fdArray fd.toNat with
  | none => exact iff_of_false (Never.ok _) (by simp)
  | some f =>
      dsimp only
      rw [Never.bind_iff, fileTarget_null_iff]
      · simp
      · intro target
        cases target with
        | device => exact .ok _
        | inode p => exact .bind (fileWrite_noNull _ _ _ _ _ _ _) fun _ => .ok _

end

end Fizzos.Proofs
