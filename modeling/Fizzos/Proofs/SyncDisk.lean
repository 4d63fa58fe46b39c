import Fizzos.Proofs.BitmapIds
import Fizzos.Proofs.Format
import Fizzos.Proofs.Inodes

/-!
# `Fizzos.Proofs.SyncDisk`: what `inode_sync` and `bitmap_sync` write

An inode comes back from the disk as it went there, and the other entries of the inode table stay
(`inodeSync_roundTrip`).

`bitmap_sync` writes the sector of a bitmap that has the bit `idx`. A sector has 4096 bits, but the
assertion in front divides `idx` by the 512 bytes of a sector. So it fails for the greater part of
a bitmap (`bitmapSync_covers_iff`).
-/

set_option autoImplicit false

namespace Fizzos.Proofs

open Fizzos.Device
open Fizzos.Fs
open Fizzos.Kernel
open Fizzos.LibKernel
open Fizzos.Support

/-! ### The inode table -/

/-- The byte `k` of the entry of an inode number on the disk. -/
def inodeByte (sb : SuperBlock) (disk : Disk) (iNo k : Nat) : BitVec 8 :=
  let pos := getInodePos sb iNo
  disk (pos.secNo + (pos.offset + k) / SECTOR_SIZE) ((pos.offset + k) % SECTOR_SIZE)

/-- The sectors of the inode table. -/
def InTable (sb : SuperBlock) (lba : Nat) : Prop :=
  sb.inodeTableLba ≤ lba ∧ lba < sb.inodeTableLba + inodeTableSects

section
variable {s : FileSys} {sb : SuperBlock} {disk : Disk} {i : Inode} {ioBuf pad : Bytes}
  {ps : List Nat} {iNo k lba p : Nat}

theorem inodeByte_eq (hno : iNo < 4096) (hk : k < 64) :
    inodeByte sb disk iNo k = disk (tableSector sb iNo) (tableOffset iNo + k) := by
  have hle := tableOffset_le iNo
  have hlt : tableOffset iNo + k < 512 := by omega
  rw [inodeByte, getInodePos_eq hno]
  show disk (tableSector sb iNo + (tableOffset iNo + k) / 512) ((tableOffset iNo + k) % 512) = _
  rw [Nat.div_eq_of_lt hlt, Nat.mod_eq_of_lt hlt, Nat.add_zero]

/-- The entries of the other numbers. -/
theorem inodeSync_other (hno : i.iNo < 4096) (hno' : iNo < 4096) (hne : iNo ≠ i.iNo) (hk : k < 64) :
    inodeByte sb (inodeSync sb disk i ioBuf pad).1 iNo k = inodeByte sb disk iNo k := by
  rw [inodeByte_eq hno' hk, inodeByte_eq hno' hk, inodeSync_at hno, if_neg]
  rw [tableSector, tableSector, tableOffset, tableOffset]
  omega

/-- The sectors outside of the table. -/
theorem inodeSync_outside (hno : i.iNo < 4096) (hl : ¬InTable sb lba) :
    (inodeSync sb disk i ioBuf pad).1 lba = disk lba := by
  refine inodeSync_of_ne hno fun heq => hl ?_
  have hsects : inodeTableSects = 512 := by decide
  rw [heq, InTable, tableSector, hsects]
  omega

/-- `inode_open` of a number that is not open reads the disk. -/
theorem inodeOpen_reads (hlist : IsList s.inodeTag s.part.openInodes ps)
    (hlen : ps.length ≤ LIST_WALK) (hclosed : ∀ q ∈ ps, (s.inode q).iNo ≠ iNo) (hno : iNo < 4096)
    (hset : bitmapIsSet s.part.inodeBitmap iNo = true) (hnew : p ∉ ps) :
    ∃ s', inodeOpen s iNo p = .ok (p, s') ∧
      s'.inode p = inodeFromDisk s.part.sb s.disk iNo ∧ s'.disk = s.disk := by
  have hmiss : (ps.find? fun q => decide ((s.inode q).iNo = iNo)) = none := by
    refine List.find?_eq_none.mpr fun q hq => ?_
    simpa using hclosed q hq
  have hfind : findInode s.inode s.inodeTag iNo LIST_WALK s.part.openInodes.head = .ok none := by
    rw [hlist.head, findInode_spec hlist.linked hlen, hmiss]
  obtain ⟨openInodes, inodeTag, hpush, -⟩ := listPushFront_spec hlist hnew
  rw [inodeOpen, ASSERT_true hno, ok_bind, ASSERT_true hset, ok_bind, hfind, ok_bind]
  simp only [FileSys.setInode, hpush, ok_bind, pure_eq_ok]
  exact ⟨_, rfl, Function.update_self _ _ _, rfl⟩

/-- An inode comes back from the disk as `inode_sync` wrote it, and nothing else has changed:
neither the inodes beside it, which share its sectors, nor a sector outside of the table. -/
theorem inodeSync_roundTrip (hi : InodeFits i) (hlist : IsList s.inodeTag s.part.openInodes ps)
    (hlen : ps.length ≤ LIST_WALK) (hclosed : ∀ q ∈ ps, (s.inode q).iNo ≠ i.iNo)
    (hset : bitmapIsSet s.part.inodeBitmap i.iNo = true) (hnew : p ∉ ps) (ioBuf pad : Bytes) :
    let disk := (inodeSync s.part.sb s.disk i ioBuf pad).1
    (∃ s', inodeOpen { s with disk } i.iNo p = .ok (p, s') ∧ SameInode (s'.inode p) i ∧
      s'.disk = disk) ∧
    (∀ iNo < 4096, iNo ≠ i.iNo →
      ∀ k < 64, inodeByte s.part.sb disk iNo k = inodeByte s.part.sb s.disk iNo k) ∧
    ∀ lba, ¬InTable s.part.sb lba → disk lba = s.disk lba := by
  intro disk
  refine ⟨?_, fun iNo hno hne k hk => inodeSync_other hi.iNo hno hne hk,
    fun lba hl => inodeSync_outside hi.iNo hl⟩
  obtain ⟨s', hopen, hinode, hdisk⟩ :=
    inodeOpen_reads (s := { s with disk }) hlist hlen hclosed hi.iNo hset hnew
  refine ⟨s', hopen, ?_, hdisk⟩
  rw [hinode]
  exact inodeFromDisk_sync hi

/-- A file of 100 bytes with the number 9, in a file system without open inodes. -/
theorem inodeSync_roundTrip_nine :
    let i : Inode :=
      { iNo := 9, iFlags := 0, iSize := 100, iCount := 1, rwlock := rwlockInit, iMode := FT_NORMAL
        iSectors := fun k => if k = 0 then 600 else 0 }
    let s : FileSys :=
      { disk := fun _ _ => 0
        part := ⟨⟨2, 1, 3, 1, 4, 516⟩, ⟨0, fun _ => 0, 512, mutexLockInit⟩,
          ⟨0, fun _ => 0xff, 512, mutexLockInit⟩, listInit⟩
        inode := fun _ => i
        inodeTag := fun _ => ⟨none, none⟩ }
    ∃ s', inodeOpen { s with disk := (inodeSync s.part.sb s.disk i (fun _ => 0) fun _ => 0).1 } 9 16
        = .ok (16, s') ∧ SameInode (s'.inode 16) i := by
  intro i s
  have hfits : InodeFits i := by
    refine ⟨by decide, by decide, by decide, by decide, fun k _ => ?_⟩
    show (if k = 0 then 600 else 0) < 2 ^ 32
    split <;> decide
  have hclosed : ∀ q ∈ ([] : List Nat), (s.inode q).iNo ≠ i.iNo := fun q hq => nomatch hq
  have hset : bitmapIsSet ⟨0, fun _ => 0xff, 512, mutexLockInit⟩ 9 = true := by decide
  obtain ⟨⟨s', hopen, hsame, -⟩, -⟩ := inodeSync_roundTrip (s := s) (p := 16) hfits (IsList.init _)
    (Nat.zero_le _) hclosed hset List.not_mem_nil (fun _ => 0) fun _ => 0
  exact ⟨s', hopen, hsame⟩

end

/-! ### The bitmaps -/

/-- `bitmap_sync` returns, and has written the sector `lba + idx / 4096` of a bitmap, which has the
bit `idx`. -/
structure SyncCovers (disk : Disk) (lba sects : Nat) (bmap : Bitmap) (idx : Nat)
    (disk' : Disk) : Prop where
  inside : idx / BITS_PER_SECTOR < sects
  /-- `ide_write` takes the sector. -/
  writes : writeCheck (lba + idx / BITS_PER_SECTOR) 1 = .ok ()
  bytes : ∀ k < SECTOR_SIZE, disk' (lba + idx / BITS_PER_SECTOR) k
    = bmap.bytes (idx / BITS_PER_SECTOR * SECTOR_SIZE + k)
  bit : bitOnDisk disk' lba idx = bmap.bit idx
  others : ∀ l, l ≠ lba + idx / BITS_PER_SECTOR → disk' l = disk l

section
variable {disk disk' disk₀ disk₁ : Disk} {bmap bmap₁ bmap' : Bitmap} {btype : BitmapType}
  {startLba secCnt lba sects idx : Nat} {pad heap : Bytes} {current current' : Tid}

theorem bitmapSync_eq (sb : SuperBlock) :
    bitmapSync disk sb bmap idx current btype
      = bitmapWriteBack disk bmap (btype.lba sb) (btype.sects sb) idx current := by
  cases btype <;> rfl

/-- With a free lock only the assertion can fail. -/
theorem bitmapWriteBack_eq (hlock : bmap.lock = mutexLockInit) (hlt : idx / SECTOR_SIZE < sects) :
    bitmapWriteBack disk bmap lba sects idx current
      = .ok (ideWrite disk (lba + idx / BITS_PER_SECTOR) bmap.bytes
          ((idx - idx % BITS_PER_SECTOR) / 8) 1, bmap) := by
  obtain ⟨addr, bytes, byteSize, lock⟩ := bmap
  subst hlock
  rw [bitmapWriteBack, ASSERT_true hlt, ok_bind, acquire_free, ok_bind]
  dsimp only
  rw [release_one, ok_bind]
  rfl

/-- The areas behind the bitmaps could be written, so all sectors of the bitmaps can. -/
theorem partitionFormat_lba (hformat : partitionFormat disk₀ startLba secCnt pad heap = .ok disk₁)
    (btype : BitmapType) :
    btype.lba (formatSuperBlock startLba secCnt).toSuperBlock
      + btype.sects (formatSuperBlock startLba secCnt).toSuperBlock ≤ MAX_LBA := by
  simp only [partitionFormat, bind_eq_ok] at hformat
  obtain ⟨_, -, _, hblock, _, hinode, _, htable, -⟩ := hformat
  have hblock' := (writeSectors_ok hblock).1
  have hinode' := (writeSectors_ok hinode).1
  have htable' := (writeSectors_ok htable).1
  have hmax : MAX_LBA < 2 ^ 31 := by decide
  have hsects : blockBitmapSects secCnt < 2 ^ 20 := by
    have hlt := Nat.mod_lt (blockBitmapBitLen secCnt + BITS_PER_SECTOR - 1) (Nat.two_pow_pos 32)
    exact Nat.div_lt_of_lt_mul hlt
  have hone : inodeBitmapSects = 1 := by decide
  have hblockEnd : (formatSuperBlock startLba secCnt).inodeBitmapLba
      = ((formatSuperBlock startLba secCnt).blockBitmapLba + blockBitmapSects secCnt) % 2 ^ 32 := by
    simp only [formatSuperBlock]
  have hinodeEnd : (formatSuperBlock startLba secCnt).inodeTableLba
      = ((formatSuperBlock startLba secCnt).inodeBitmapLba + inodeBitmapSects) % 2 ^ 32 := by
    simp only [formatSuperBlock]
  have hcount : (formatSuperBlock startLba secCnt).blockBitmapSects = blockBitmapSects secCnt := by
    simp only [formatSuperBlock]
  have hcount' : (formatSuperBlock startLba secCnt).inodeBitmapSects = inodeBitmapSects := by
    simp only [formatSuperBlock]
  generalize formatSuperBlock startLba secCnt = sb at *
  -- the sums do not wrap around
  rw [Nat.mod_eq_of_lt (by omega)] at hblockEnd
  rw [Nat.mod_eq_of_lt (by omega)] at hinodeEnd
  cases btype with
  | BLOCK_BITMAP =>
      rw [BitmapType.lba, BitmapType.sects]
      omega
  | INODE_BITMAP =>
      rw [BitmapType.lba, BitmapType.sects]
      omega

/-- `bitmap_sync` covers the bit that `bitmap_scan_set` has set if `idx / 512` is a sector of the
bitmap, and else it stops. -/
theorem bitmapSync_covers_iff
    (hformat : partitionFormat disk₀ startLba secCnt pad heap = .ok disk₁)
    (hlock : bmap.lock = mutexLockInit)
    (hscan : bitmapScanSet bmap current = .ok (idx, bmap₁)) (disk : Disk) (current' : Tid) :
    (∃ disk' bmap', bitmapSync disk (formatSuperBlock startLba secCnt).toSuperBlock bmap₁ idx
        current' btype = .ok (disk', bmap') ∧
      SyncCovers disk (btype.lba (formatSuperBlock startLba secCnt).toSuperBlock)
        (btype.sects (formatSuperBlock startLba secCnt).toSuperBlock) bmap₁ idx disk')
      ↔ idx / SECTOR_SIZE < btype.sects (formatSuperBlock startLba secCnt).toSuperBlock := by
  rw [bitmapSync_eq]
  constructor
  · rintro ⟨disk', bmap', hok, -⟩
    exact (bitmapWriteBack_ok hok).1
  · intro hlt
    have hlba := partitionFormat_lba hformat btype
    generalize btype.lba (formatSuperBlock startLba secCnt).toSuperBlock = lba at hlba ⊢
    generalize btype.sects (formatSuperBlock startLba secCnt).toSuperBlock = sects at hlba hlt ⊢
    obtain ⟨-, -, -, lock, hbmap₁⟩ := bitmapScanSet_ok hscan
    have hlock₁ : bmap₁.lock = mutexLockInit := by
      rw [bitmapScanSet_eq hlock] at hscan
      split at hscan
      · cases hscan
        exact hlock
      · cases hscan
    have hok : bitmapWriteBack disk bmap₁ lba sects idx current' = .ok _ :=
      bitmapWriteBack_eq hlock₁ hlt
    refine ⟨_, _, hok, ?_⟩
    obtain ⟨-, -, hothers, hbits⟩ := bitmapWriteBack_ok hok
    -- The code divides the bit by 512 and not by 4096, so what passes its test is in the bitmap.
    have hsector : idx / 4096 ≤ idx / 512 := by omega
    have hinside : idx / BITS_PER_SECTOR < sects := hsector.trans_lt hlt
    refine ⟨hinside, writeCheck_one.mpr (by omega), fun k hk => ?_, ?_, hothers⟩
    · rw [ideWrite_one hk]
      congr 1
      show (idx - idx % 4096) / 8 + k = idx / 4096 * 512 + k
      omega
    · rw [hbits, if_pos rfl]

/-- An inode bitmap of one sector. The first numbers are in use, eight for each of `n` bytes. -/
def usedBitmap (n : Nat) : Bitmap := ⟨0, fun k => if k < n then 0xff else 0, 512, mutexLockInit⟩

theorem usedBitmap_scan {n : Nat} (h : bitmapScanIndex (usedBitmap n) = some (8 * n)) :
    bitmapScanSet (usedBitmap n) 0 = .ok (8 * n, Bitmap.set (usedBitmap n) (8 * n) true) := by
  rw [bitmapScanSet_eq rfl, h]

/-- The inode with the number 8 of a small partition. -/
theorem bitmapSync_covers_eight :
    ∃ disk' bmap', bitmapSync (fun _ _ => 0) (formatSuperBlock 63 600).toSuperBlock
        (Bitmap.set (usedBitmap 1) 8 true) 8 0 .INODE_BITMAP = .ok (disk', bmap') ∧
      SyncCovers (fun _ _ => 0) (formatSuperBlock 63 600).inodeBitmapLba
        (formatSuperBlock 63 600).inodeBitmapSects (Bitmap.set (usedBitmap 1) 8 true) 8 disk' := by
  obtain ⟨disk₁, hformat⟩ := partitionFormat_600
  show ∃ disk' bmap', bitmapSync (fun _ _ => 0) (formatSuperBlock 63 600).toSuperBlock
      (Bitmap.set (usedBitmap 1) 8 true) 8 0 .INODE_BITMAP = .ok (disk', bmap') ∧
    SyncCovers (fun _ _ => 0) (BitmapType.INODE_BITMAP.lba (formatSuperBlock 63 600).toSuperBlock)
      (BitmapType.INODE_BITMAP.sects (formatSuperBlock 63 600).toSuperBlock)
      (Bitmap.set (usedBitmap 1) 8 true) 8 disk'
  exact (bitmapSync_covers_iff hformat rfl
    (usedBitmap_scan (n := 1) (by decide +kernel)) (fun _ _ => 0) 0).mpr (by decide)

/-- The inode with the number 512 of the same partition. The bitmap has one sector, which has its
bit, but the assertion compares 512 / 512 with the number of sectors. -/
theorem bitmapSync_uncovered :
    ¬∀ (disk₀ disk₁ disk : Disk) (startLba secCnt : Nat) (pad heap : Bytes) (bmap bmap₁ : Bitmap)
      (btype : BitmapType) (idx : Nat) (current current' : Tid),
      partitionFormat disk₀ startLba secCnt pad heap = .ok disk₁ → bmap.lock = mutexLockInit →
      bmap.byteSize
        = btype.sects (formatSuperBlock startLba secCnt).toSuperBlock * SECTOR_SIZE →
      bitmapScanSet bmap current = .ok (idx, bmap₁) →
      ∃ disk' bmap', bitmapSync disk (formatSuperBlock startLba secCnt).toSuperBlock bmap₁ idx
          current' btype = .ok (disk', bmap') ∧
        SyncCovers disk (btype.lba (formatSuperBlock startLba secCnt).toSuperBlock)
          (btype.sects (formatSuperBlock startLba secCnt).toSuperBlock) bmap₁ idx disk' := by
  intro hall
  obtain ⟨disk₁, hformat⟩ := partitionFormat_600
  obtain ⟨disk', bmap', hok, -⟩ := hall _ _ (fun _ _ => 0) _ _ _ _ _ _ .INODE_BITMAP _ _ 0 hformat
    rfl (by decide) (usedBitmap_scan (n := 64) (by decide +kernel))
  -- the assertion asks for 512 / 512 < 1
  exact absurd (bitmapWriteBack_ok hok).1 (by decide)

end

end Fizzos.Proofs
