import Fizzos.Proofs.FileRead
import Fizzos.Proofs.Inodes

/-!
# `Fizzos.Proofs.Files`: regular files as byte stores, in memory and on disk

`FilesOk s files` is a file system whose regular files own different blocks. A file is named by
its inode in memory when it is open, and by its number when only the disk has it.

`file_write` changes the blocks of its own file and sectors of the block bitmap, and with
`inode_sync` one entry of the inode table (`Wrote.sector`). So the other files keep their bytes.
What the file has in memory then is also what the disk has. The inode is written when the size
grows, and only then are there new blocks.
-/

set_option autoImplicit false

namespace Fizzos.Proofs

open Fizzos.Device
open Fizzos.Fs
open Fizzos.Kernel
open Fizzos.LibKernel
open Fizzos.Support

/-! ### Files -/

/-- A regular file: an inode in memory, or a number in the inode table. -/
inductive FileRef where
  | «open» (p : Nat)
  | closed (iNo : Nat)
  deriving DecidableEq, Repr

/-- The inode of a file. -/
def FileRef.inode (s : FileSys) : FileRef → Inode
  | .open p => s.inode p
  | .closed iNo => inodeFromDisk s.part.sb s.disk iNo

/-- The block `j` of a file. -/
abbrev FileRef.block (s : FileSys) (f : FileRef) (j : Nat) : Nat := blockOf s.disk (f.inode s) j

/-- The regular files of a mounted partition. -/
structure FilesOk (s : FileSys) (files : List FileRef) : Prop where
  layout : LayoutOk s.part
  bits : BitsFit s.part.sb s.part.blockBitmap
  number : ∀ f ∈ files, (f.inode s).iNo < 4096
  distinct : ∀ f ∈ files, ∀ g ∈ files, (f.inode s).iNo = (g.inode s).iNo → f = g
  allocated : ∀ f ∈ files, Allocated s.disk (f.inode s)
  used : ∀ f ∈ files, ∀ j < BLOCKS, f.block s j ≠ 0 →
    Used s.part.sb s.part.blockBitmap (f.block s j)
  apart : ∀ f ∈ files, ∀ g ∈ files, ∀ j < BLOCKS, ∀ k < BLOCKS, f.block s j = g.block s k →
    f.block s j ≠ 0 → f = g ∧ j = k

/-- The inode table is in front of the data, and behind the bitmaps. -/
theorem tableSector_lt {part : Partition} (h : LayoutOk part) {iNo : Nat} (hno : iNo < 4096) :
    tableSector part.sb iNo < part.sb.dataStartLba ∧ ¬InBitmap part.sb (tableSector part.sb iNo) ∧
      ∀ l, InBitmap part.sb l → l ≠ tableSector part.sb iNo := by
  have h1 := h.blockBitmap
  have h2 := h.inodeBitmap
  have h3 := h.inodeTable
  have hsector : tableSector part.sb iNo = part.sb.inodeTableLba + iNo / 8 := rfl
  refine ⟨by omega, fun hin => ?_, fun l hin => ?_⟩
  · have hlt := hin.2
    omega
  · have hlt := hin.2
    omega

theorem Allocated.congr {disk disk' : Disk} {i i' : Inode} (h : Allocated disk i)
    (hsize : i'.iSize = i.iSize) (hblock : ∀ j, blockOf disk' i' j = blockOf disk i j) :
    Allocated disk' i' where
  sectors := fun j => by
    rw [hsize, hblock]
    exact h.sectors j
  index := by
    rw [hsize, hblock]
    exact h.index

/-- The blocks depend on the sectors of the inode, and on the index block. -/
theorem blockOf_congr {disk disk' : Disk} {i i' : Inode} (h : SameInode i' i)
    (hdisk : i.iSectors 12 ≠ 0 → disk' (i.iSectors 12) = disk (i.iSectors 12)) {j : Nat} :
    blockOf disk' i' j = blockOf disk i j := by
  rw [blockOf, blockOf, h.iSectors 12 (by decide)]
  by_cases hdirect : j < 12
  · rw [if_pos hdirect, if_pos hdirect, h.iSectors j (Nat.lt_trans hdirect (by decide))]
  · rw [if_neg hdirect, if_neg hdirect]
    by_cases hzero : i.iSectors 12 = 0
    · rw [if_pos hzero, if_pos hzero]
    · rw [hdisk hzero]

/-! ### A write, and the other files -/

namespace Wrote

variable {s s' : FileSys} {files : List FileRef} {p pos count j k l : Nat} {src pad : Bytes}
  {disk₁ : Disk} {g : FileRef}

/-- A block that was marked is marked. -/
theorem used_of_used (hw : Wrote s p pos count src pad s' disk₁)
    (hused : Used s.part.sb s.part.blockBitmap l) :
    Used s'.part.sb s'.part.blockBitmap l := by
  have hsb : s'.part.sb = s.part.sb := by rw [hw.part]
  rw [hsb]
  exact hw.progress.grown.used hused

/-- The inode table does not change before `inode_sync`. -/
theorem table_before (hw : Wrote s p pos count src pad s' disk₁) (h : FilesOk s files) {iNo : Nat}
    (hno : iNo < 4096) :
    SameInode (inodeFromDisk s.part.sb disk₁ iNo) (inodeFromDisk s.part.sb s.disk iNo) := by
  obtain ⟨hlt, hbitmap, -⟩ := tableSector_lt h.layout hno
  refine inodeFromDisk_congr hno fun k _ => ?_
  rw [hw.progress.frame _ (fun j hj hne heq => ?_) hbitmap]
  have hle := hw.progress.le_block hj hne
  omega

section
variable (hw : Wrote s p pos count src pad s' disk₁) (h : FilesOk s files)
  (hp : FileRef.open p ∈ files)

include hw h hp

/-- `inode_sync` writes the sector of the entry. -/
theorem table_of_ne (hl : l ≠ tableSector s.part.sb (s.inode p).iNo) : s'.disk l = disk₁ l := by
  rcases hw.table with ⟨hdisk, -⟩ | ⟨buf, hdisk⟩
  · rw [hdisk]
  · have hno : (s'.inode p).iNo < 4096 := hw.number ▸ h.number _ hp
    rw [hdisk]
    exact inodeSync_of_ne hno (hw.number ▸ hl)

/-- A new block of the file is in the data area. -/
theorem block_ne_table (hj : j < BLOCKS) (hne : blockOf disk₁ (s'.inode p) j ≠ 0) :
    blockOf disk₁ (s'.inode p) j ≠ tableSector s.part.sb (s.inode p).iNo := by
  have hle := hw.progress.le_block hj hne
  have hlt := (tableSector_lt h.layout (h.number _ hp)).1
  have hinode : (FileRef.open p).inode s = s.inode p := rfl
  rw [hinode] at hlt
  omega

/-- The blocks of the file, on the disk behind the call. -/
theorem block_self : blockOf s'.disk (s'.inode p) j = blockOf disk₁ (s'.inode p) j := by
  refine blockOf_congr (SameInode.refl _) fun hne => ?_
  exact hw.table_of_ne h hp (hw.block_ne_table h hp (Nat.lt_succ_self INDEX) hne)

/-- A sector that is neither the file's nor one of the tables. -/
theorem sector (hown : ∀ j < BLOCKS, blockOf disk₁ (s'.inode p) j ≠ 0 →
    blockOf disk₁ (s'.inode p) j ≠ l) (hbitmap : ¬InBitmap s.part.sb l)
    (htable : l ≠ tableSector s.part.sb (s.inode p).iNo) : s'.disk l = s.disk l := by
  rw [hw.table_of_ne h hp htable]
  exact hw.progress.frame l hown hbitmap

/-- No block of the file is one of another file. -/
theorem block_ne (hg : g ∈ files) (hgp : g ≠ .open p) (hj : j < BLOCKS) (hk : k < BLOCKS)
    (hne : blockOf disk₁ (s'.inode p) j ≠ 0) : blockOf disk₁ (s'.inode p) j ≠ g.block s k := by
  intro heq
  by_cases hold : blockOf s.disk (s.inode p) j = 0
  · -- A new block comes from a clear bit.
    obtain ⟨idx, hidx, hclear⟩ := hw.progress.fresh j hj hne hold
    obtain ⟨idx', -, hidx', -, hset⟩ := h.used g hg k hk (heq ▸ hne)
    obtain rfl : idx = idx' := by omega
    rw [hclear] at hset
    cases hset
  · rw [hw.progress.old j hj hold] at heq
    exact hgp (h.apart _ hp g hg j hj k hk heq hold).1.symm

/-- The blocks of another file stay as they are. -/
theorem sector_other (hg : g ∈ files) (hgp : g ≠ .open p) (hk : k < BLOCKS)
    (hne : g.block s k ≠ 0) : s'.disk (g.block s k) = s.disk (g.block s k) := by
  obtain ⟨idx, -, hidx, -, -⟩ := h.used g hg k hk hne
  obtain ⟨hlt, -, -⟩ := tableSector_lt h.layout (h.number _ hp)
  have hinode : (FileRef.open p).inode s = s.inode p := rfl
  rw [hinode] at hlt
  refine hw.sector h hp (fun j hj hne' => hw.block_ne h hp hg hgp hj hk hne')
    (fun hin => ?_) (by omega)
  have hbitmap := Stage.bitmap_le h.layout
  have hlast := hin.2
  omega

/-- The other entries of the table stay as they are. -/
theorem table_other {iNo : Nat} (hno : iNo < 4096) (hne : iNo ≠ (s.inode p).iNo) :
    SameInode (inodeFromDisk s.part.sb s'.disk iNo) (inodeFromDisk s.part.sb s.disk iNo) := by
  have hbefore := hw.table_before h hno
  rcases hw.table with ⟨hdisk, -⟩ | ⟨buf, hdisk⟩
  · rw [hdisk]
    exact hbefore
  · have hno' : (s'.inode p).iNo < 4096 := hw.number ▸ h.number _ hp
    rw [← hw.number] at hne
    rw [hdisk]
    exact (inodeFromDisk_sync_of_ne hno' hno hne).trans hbefore

/-- The inode of another file stays as it is. -/
theorem inode_other (hg : g ∈ files) (hgp : g ≠ .open p) : SameInode (g.inode s') (g.inode s) := by
  cases g with
  | «open» q =>
      have hqp : q ≠ p := by
        rintro rfl
        exact hgp rfl
      show SameInode (s'.inode q) (s.inode q)
      rw [hw.others q hqp]
      exact SameInode.refl _
  | closed iNo =>
      have hsb : s'.part.sb = s.part.sb := by rw [hw.part]
      show SameInode (inodeFromDisk s'.part.sb s'.disk iNo) (inodeFromDisk s.part.sb s.disk iNo)
      rw [hsb]
      exact hw.table_other h hp (h.number _ hg) fun heq => hgp (h.distinct _ hg _ hp heq)

/-- The blocks of another file. -/
theorem block_other (hg : g ∈ files) (hgp : g ≠ .open p) : g.block s' j = g.block s j :=
  blockOf_congr (hw.inode_other h hp hg hgp) fun hne =>
    hw.sector_other h hp hg hgp (Nat.lt_succ_self INDEX) hne

/-- The files are in order again. -/
theorem filesOk : FilesOk s' files := by
  have hsb : s'.part.sb = s.part.sb := by rw [hw.part]
  have hlayout := h.layout
  -- What the cache of `p` says of its blocks is what the call left on the disk.
  have hself : ∀ j, (FileRef.open p).block s' j = blockOf disk₁ (s'.inode p) j :=
    fun j => hw.block_self h hp
  have hnumber : ∀ g ∈ files, (g.inode s').iNo = (g.inode s).iNo := by
    intro g hg
    by_cases hgp : g = .open p
    · subst hgp
      exact hw.number
    · exact (hw.inode_other h hp hg hgp).iNo
  refine ⟨⟨?_, ?_, ?_, ?_⟩, ?_, ?_, ?_, ?_, ?_, ?_⟩
  · rw [hw.progress.byteSize, hsb]
    exact hlayout.bytes
  · rw [hsb]
    exact hlayout.blockBitmap
  · rw [hw.part]
    exact hlayout.inodeBitmap
  · rw [hsb]
    exact hlayout.inodeTable
  · rw [hsb]
    exact hw.progress.grown.bitsFit h.bits
  · intro g hg
    rw [hnumber g hg]
    exact h.number g hg
  · intro f hf g hg heq
    rw [hnumber f hf, hnumber g hg] at heq
    exact h.distinct f hf g hg heq
  · intro g hg
    by_cases hgp : g = .open p
    · subst hgp
      exact hw.allocated.congr rfl hself
    · exact (h.allocated g hg).congr (hw.inode_other h hp hg hgp).iSize
        fun j => hw.block_other h hp hg hgp
  · intro g hg j hj hne
    by_cases hgp : g = .open p
    · subst hgp
      rw [hself j] at hne ⊢
      rw [hsb]
      exact hw.progress.used j hj hne
    · rw [hw.block_other h hp hg hgp] at hne ⊢
      exact hw.used_of_used (h.used g hg j hj hne)
  · intro f hf g hg j hj k hk heq hne
    by_cases hfp : f = .open p
    · subst hfp
      rw [hself j] at heq hne
      by_cases hgp : g = .open p
      · subst hgp
        rw [hself k] at heq
        exact ⟨rfl, hw.progress.apart j hj k hk heq hne⟩
      · rw [hw.block_other h hp hg hgp] at heq
        exact absurd heq (hw.block_ne h hp hg hgp hj hk hne)
    · rw [hw.block_other h hp hf hfp] at heq hne
      by_cases hgp : g = .open p
      · subst hgp
        rw [hself k] at heq
        exact absurd heq.symm (hw.block_ne h hp hf hfp hk hj (heq ▸ hne))
      · rw [hw.block_other h hp hg hgp] at heq
        exact h.apart f hf g hg j hj k hk heq hne

/-- The bytes of the file. -/
theorem content_self (hpos : pos ≤ (s.inode p).iSize) {x : Nat} (hx : x < (s'.inode p).iSize) :
    contentAt s'.disk (s'.inode p) x
      = if pos ≤ x ∧ x < pos + count then src (x - pos) else contentAt s.disk (s.inode p) x := by
  have hsize : (s'.inode p).iSize ≤ 512 * INDEX := hw.allocated.size_le
  have hx' : x < 512 * INDEX := Nat.lt_of_lt_of_le hx hsize
  have hmax := hw.size
  have hne : blockOf disk₁ (s'.inode p) (x / 512) ≠ 0 :=
    ((hw.allocated.sectors (x / 512)).mpr (by omega)).2
  have hsector := hw.table_of_ne h hp (hw.block_ne_table h hp (div_lt_blocks hx') hne)
  rw [contentAt, hw.block_self h hp, hsector]
  by_cases hin : pos ≤ x ∧ x < pos + count
  · rw [if_pos hin]
    exact (hw.written.new x hx' hin).2
  · rw [if_neg hin]
    -- A byte that is not new was in the file before.
    have hold := ((h.allocated _ hp).sectors (x / 512)).mpr (by
      show 512 * (x / 512) < (s.inode p).iSize
      omega)
    exact hw.written.old x hx' hin hold.2

/-- The bytes of another file. -/
theorem content_other (hg : g ∈ files) (hgp : g ≠ .open p) {x : Nat} (hx : x < (g.inode s).iSize) :
    contentAt s'.disk (g.inode s') x = contentAt s.disk (g.inode s) x := by
  have hsize := (h.allocated g hg).size_le
  obtain ⟨hj, hne⟩ := ((h.allocated g hg).sectors (x / 512)).mpr (by omega)
  have hblock : g.block s' (x / 512) = g.block s (x / 512) := hw.block_other h hp hg hgp
  have hsector := hw.sector_other h hp hg hgp (Nat.lt_succ_of_lt hj) hne
  show s'.disk (g.block s' (x / 512)) (x % 512) = s.disk (g.block s (x / 512)) (x % 512)
  rw [hblock, hsector]

end

end Wrote

/-! ### Byte stores -/

section
variable {s s' : FileSys} {files : List FileRef} {p : Nat}

/-- Block numbers are `uint32_t`s. -/
theorem FilesOk.block_lt (h : FilesOk s files) {f : FileRef} (hf : f ∈ files) :
    ∀ j < BLOCKS, f.block s j < 2 ^ 32 := by
  intro j hj
  by_cases hzero : f.block s j = 0
  · rw [hzero]
    decide
  · obtain ⟨-, -, -, hlt, -⟩ := h.used f hf j hj hzero
    exact hlt

/-- What a call of `file_write` that returns does. -/
theorem FilesOk.fileWrite (h : FilesOk s files) (hp : FileRef.open p ∈ files)
    {src ioBuf pad : Bytes}
    {count pos ret pos' : Nat} {current : Tid} (hpos : pos ≤ (s.inode p).iSize)
    (hroom : pos + count ≤ MAX_FILE_SIZE)
    (hok : Fs.fileWrite s p src count pos ioBuf pad current = .ok (ret, pos', s')) :
    ret = count ∧ pos' = pos + count ∧ ∃ disk₁, Wrote s p pos count src pad s' disk₁ := by
  refine fileWrite_spec h.layout h.bits (h.allocated _ hp) (h.used _ hp) ?_ hpos hroom hok
  intro j hj k hk heq hne
  exact (h.apart _ hp _ hp j hj k hk heq hne).2

end

/-- A regular file is a byte store. `file_read` at a position in the file returns the bytes from
there on, up to `count` and to the end. `file_write` at a position in the file that returns puts the
bytes of `src` there, and leaves the rest of the file and the other files alone. -/
theorem file_isByteStore {s : FileSys} {files : List FileRef} (h : FilesOk s files) {p : Nat}
    (hp : FileRef.open p ∈ files) :
    (∀ dest count pos ioBuf, pos ≤ (s.inode p).iSize →
      ∃ dest', fileRead s p dest count pos ioBuf
        = .ok (min count ((s.inode p).iSize - pos),
          pos + min count ((s.inode p).iSize - pos), dest') ∧
      ∀ k, dest' k = if k < min count ((s.inode p).iSize - pos) then
        contentAt s.disk (s.inode p) (pos + k) else dest k) ∧
    ∀ src count pos ioBuf pad current ret pos' s', pos ≤ (s.inode p).iSize →
      pos + count ≤ MAX_FILE_SIZE →
      fileWrite s p src count pos ioBuf pad current = .ok (ret, pos', s') →
      ret = count ∧ pos' = pos + count ∧ (s'.inode p).iSize = max (s.inode p).iSize (pos + count) ∧
      (∀ x < (s'.inode p).iSize, contentAt s'.disk (s'.inode p) x
        = if pos ≤ x ∧ x < pos + count then src (x - pos) else contentAt s.disk (s.inode p) x) ∧
      (∀ g ∈ files, g ≠ .open p → SameInode (g.inode s') (g.inode s) ∧
        ∀ x < (g.inode s).iSize, contentAt s'.disk (g.inode s') x
          = contentAt s.disk (g.inode s) x) ∧
      FilesOk s' files := by
  constructor
  · intro dest count pos ioBuf hpos
    exact fileRead_spec (h.allocated _ hp) (h.block_lt hp) hpos dest ioBuf count
  · intro src count pos ioBuf pad current ret pos' s' hpos hroom hok
    obtain ⟨hret, hpos', disk₁, hw⟩ := h.fileWrite hp hpos hroom hok
    exact ⟨hret, hpos', hw.size, fun x hx => hw.content_self h hp hpos hx,
      fun g hg hgp => ⟨hw.inode_other h hp hg hgp, fun x hx => hw.content_other h hp hg hgp hx⟩,
      hw.filesOk h hp⟩

/-! ### The copy on disk -/

/-- An open file agrees with the disk. The table has its inode, and the bitmap on disk marks its
blocks. -/
structure OnDisk (s : FileSys) (p : Nat) : Prop where
  fits : InodeFits (s.inode p)
  bit : bitmapIsSet s.part.inodeBitmap (s.inode p).iNo = true
  table : SameInode (inodeFromDisk s.part.sb s.disk (s.inode p).iNo) (s.inode p)
  marked : ∀ j < BLOCKS, blockOf s.disk (s.inode p) j ≠ 0 →
    ∀ idx, blockOf s.disk (s.inode p) j = s.part.sb.dataStartLba + idx →
      bitOnDisk s.disk s.part.sb.blockBitmapLba idx = true

/-- The file system without its open inodes. -/
def closeAll (s : FileSys) : FileSys := { s with part := { s.part with openInodes := listInit } }

/-- `inode_open` reads the file back from the disk. -/
theorem OnDisk.reopen {s : FileSys} {p : Nat} (h : OnDisk s p) (i : Nat) : ∃ s',
    inodeOpen (closeAll s) (s.inode p).iNo i = .ok (i, s') ∧
      SameInode (s'.inode i) (s.inode p) ∧
      ∀ x, contentAt s'.disk (s'.inode i) x = contentAt s.disk (s.inode p) x := by
  obtain ⟨openInodes, inodeTag, hpush, -⟩ :=
    listPushFront_spec (IsList.init s.inodeTag) (x := i) List.not_mem_nil
  have hfind : findInode s.inode s.inodeTag (s.inode p).iNo LIST_WALK none = .ok none :=
    findInode_spec (Linked.nil _) (Nat.zero_le _)
  have hsame : SameInode (Function.update s.inode i
      (inodeFromDisk s.part.sb s.disk (s.inode p).iNo) i) (s.inode p) := by
    rw [Function.update_self]
    exact h.table
  rw [inodeOpen, ASSERT_true h.fits.iNo, ok_bind, closeAll]
  simp only [ASSERT_true h.bit, ok_bind, listInit] at hpush ⊢
  rw [hfind, ok_bind]
  simp only [FileSys.setInode, hpush, ok_bind, pure_eq_ok]
  refine ⟨_, rfl, hsame, fun x => ?_⟩
  have hblock := blockOf_congr (j := x / 512) hsame fun _ =>
      Eq.refl (s.disk ((s.inode p).iSectors 12))
  rw [contentAt, contentAt]
  exact congrFun (congrArg s.disk hblock) _

namespace Wrote

variable {s s' : FileSys} {files : List FileRef} {p q pos count : Nat} {src pad : Bytes}
  {disk₁ : Disk}

section
variable (hw : Wrote s p pos count src pad s' disk₁) (h : FilesOk s files)
  (hp : FileRef.open p ∈ files)

include hw h hp

/-- A marked bit of the bitmap in memory that was on disk before, or is new, is on disk. -/
theorem bit_onDisk {idx : Nat} (hlt : idx < 8 * s.part.blockBitmap.byteSize)
    (hset : s'.part.blockBitmap.bit idx = true)
    (hold : s.part.blockBitmap.bit idx = true →
      bitOnDisk s.disk s.part.sb.blockBitmapLba idx = true) :
    bitOnDisk s'.disk s'.part.sb.blockBitmapLba idx = true := by
  have hsb : s'.part.sb = s.part.sb := by rw [hw.part]
  have hbytes : s.part.blockBitmap.byteSize = s.part.sb.blockBitmapSects * 512 := h.layout.bytes
  have hsects : idx / BITS_PER_SECTOR < s.part.sb.blockBitmapSects := by
    show idx / 4096 < _
    omega
  have hbefore := hw.progress.onDisk idx hsects hset hold
  obtain ⟨-, -, htable⟩ := tableSector_lt h.layout (h.number _ hp)
  have hin : InBitmap s.part.sb (s.part.sb.blockBitmapLba + idx / BITS_PER_SECTOR) :=
    ⟨Nat.le_add_right _ _, Nat.add_lt_add_left hsects _⟩
  rw [hsb, bitOnDisk_congr (hw.table_of_ne h hp (htable _ hin))]
  exact hbefore

/-- The file agrees with the disk again. -/
theorem onDisk_self (hd : OnDisk s p) : OnDisk s' p := by
  have hsb : s'.part.sb = s.part.sb := by rw [hw.part]
  have hok := hw.filesOk h hp
  have hsize : (s'.inode p).iSize ≤ 512 * INDEX := hw.allocated.size_le
  have hsize' : (s'.inode p).iSize ≤ 512 * 140 := hsize
  have hfits : InodeFits (s'.inode p) := by
    refine ⟨hw.number ▸ hd.fits.iNo, hw.mode ▸ hd.fits.iMode, by omega, hw.flags ▸ hd.fits.iFlags,
      fun k hk => ?_⟩
    rcases Nat.lt_or_eq_of_le (Nat.le_of_lt_succ hk) with hlt | rfl
    · have hblock := hok.block_lt hp k (Nat.lt_trans hlt (by decide))
      have hdirect : (FileRef.open p).block s' k = (s'.inode p).iSectors k := if_pos hlt
      rwa [hdirect] at hblock
    · exact hok.block_lt hp INDEX (Nat.lt_succ_self _)
  refine ⟨hfits, ?_, ?_, fun j hj hne idx hidx => ?_⟩
  · rw [hw.part, hw.number]
    exact hd.bit
  · rw [hsb]
    rcases hw.table with ⟨hdisk, hsame⟩ | ⟨buf, hdisk⟩
    · -- Nothing was written to the table, and the inode is as before.
      rw [hdisk, hw.number]
      exact ((hw.table_before h hd.fits.iNo).trans hd.table).trans hsame.symm
    · rw [hdisk]
      exact inodeFromDisk_sync hfits
  · rw [hw.block_self h hp] at hne hidx
    obtain ⟨idx', hlt, hidx', -, hset⟩ := hw.progress.used j hj hne
    rw [hsb] at hidx
    obtain rfl : idx = idx' := by omega
    refine hw.bit_onDisk h hp (hw.progress.byteSize ▸ hlt) hset fun hset₀ => ?_
    by_cases hold : blockOf s.disk (s.inode p) j = 0
    · obtain ⟨idx', hidx'', hclear⟩ := hw.progress.fresh j hj hne hold
      obtain rfl : idx = idx' := by omega
      rw [hset₀] at hclear
      cases hclear
    · rw [hw.progress.old j hj hold] at hidx
      exact hd.marked j hj hold idx hidx

/-- The other files agree with the disk as before. -/
theorem onDisk_other (hq : FileRef.open q ∈ files) (hqp : q ≠ p) (hd : OnDisk s q) :
    OnDisk s' q := by
  have hsb : s'.part.sb = s.part.sb := by rw [hw.part]
  have hgp : FileRef.open q ≠ .open p := fun heq => hqp (FileRef.open.inj heq)
  have hinode := hw.others q hqp
  have hblock : ∀ j, blockOf s'.disk (s.inode q) j = blockOf s.disk (s.inode q) j := by
    intro j
    have hother : blockOf s'.disk (s'.inode q) j = blockOf s.disk (s.inode q) j :=
      hw.block_other h hp hq hgp
    rwa [hinode] at hother
  refine ⟨hinode ▸ hd.fits, ?_, ?_, fun j hj hne idx hidx => ?_⟩
  · rw [hw.part, hinode]
    exact hd.bit
  · rw [hsb, hinode]
    have hno : (s.inode q).iNo ≠ (s.inode p).iNo := fun heq => hgp (h.distinct _ hq _ hp heq)
    exact (hw.table_other h hp hd.fits.iNo hno).trans hd.table
  · rw [hinode, hblock] at hne hidx
    rw [hsb] at hidx
    obtain ⟨idx', hlt, hidx', -, hset⟩ := h.used _ hq j hj hne
    have hidx'' : blockOf s.disk (s.inode q) j = s.part.sb.dataStartLba + idx' := hidx'
    obtain rfl : idx = idx' := by omega
    exact hw.bit_onDisk h hp hlt (hw.progress.grow idx hset) fun _ => hd.marked j hj hne idx hidx

end

end Wrote

/-- Writes reach the disk. When the open files agree with the disk, they do so after a call of
`file_write` at a position in the file that returns. So an `inode_open` that finds no inode in
memory gives one with the same size and the same bytes. -/
theorem fileWrite_onDisk {s s' : FileSys} {files : List FileRef} (h : FilesOk s files)
    (hdisk : ∀ q, FileRef.open q ∈ files → OnDisk s q) {p : Nat} (hp : FileRef.open p ∈ files)
    {src ioBuf pad : Bytes} {count pos ret pos' : Nat} {current : Tid}
    (hpos : pos ≤ (s.inode p).iSize) (hroom : pos + count ≤ MAX_FILE_SIZE)
    (hok : fileWrite s p src count pos ioBuf pad current = .ok (ret, pos', s')) :
    ∀ q, FileRef.open q ∈ files → OnDisk s' q ∧
      ∀ i, ∃ s'', inodeOpen (closeAll s') (s'.inode q).iNo i = .ok (i, s'') ∧
        (s''.inode i).iSize = (s'.inode q).iSize ∧
        ∀ x, contentAt s''.disk (s''.inode i) x = contentAt s'.disk (s'.inode q) x := by
  obtain ⟨-, -, disk₁, hw⟩ := h.fileWrite hp hpos hroom hok
  intro q hq
  have hd : OnDisk s' q := by
    by_cases hqp : q = p
    · subst hqp
      exact hw.onDisk_self h hp (hdisk q hq)
    · exact hw.onDisk_other h hp hq hqp (hdisk q hq)
  refine ⟨hd, fun i => ?_⟩
  obtain ⟨s'', hopen, hsame, hcontent⟩ := hd.reopen i
  exact ⟨s'', hopen, hsame.iSize, hcontent⟩

/-! ### A file of three bytes -/

/-- A new regular file, with the inode at 16. -/
def newFile : FileSys :=
  { disk := fun lba k => if lba = 4 ∧ k = 67 then 0x10 else 0
    part :=
      { sb := ⟨2, 1, 3, 1, 4, 516⟩
        blockBitmap := ⟨0, fun k => if k = 0 then 1 else 0, 512, mutexLockInit⟩
        inodeBitmap := ⟨0, fun k => if k = 0 then 3 else 0, 512, mutexLockInit⟩
        openInodes := ⟨some 16, some 16⟩ }
    inode := fun _ => ⟨1, 0, 0, 1, rwlockInit, FT_NORMAL, fun _ => 0⟩
    inodeTag := fun _ => ⟨none, none⟩ }

theorem newFile_block (j : Nat) : blockOf newFile.disk (newFile.inode 16) j = 0 := by
  rw [blockOf]
  split
  · rfl
  · split
    · rfl
    · rfl

theorem newFile_ok : FilesOk newFile [.open 16] := by
  have hself : ∀ f ∈ [FileRef.open 16], f = .open 16 := fun f hf => List.mem_singleton.mp hf
  refine ⟨⟨rfl, by decide, by decide, by decide⟩, fun idx hlt _ => ?_, ?_, ?_, ?_, ?_, ?_⟩
  · have hlt' : idx < 8 * 512 := hlt
    show 516 + idx < 2 ^ 32
    omega
  · decide
  · intro f hf g hg _
    rw [hself f hf, hself g hg]
  · intro f hf
    rw [hself f hf]
    refine ⟨fun j => ⟨fun h => absurd (newFile_block j) h.2, fun h => absurd h (Nat.not_lt_zero _)⟩,
      ⟨fun h => absurd (newFile_block _) h, fun h => absurd h (Nat.not_lt_zero _)⟩⟩
  · intro f hf j _ hne
    rw [hself f hf] at hne
    exact absurd (newFile_block j) hne
  · intro f hf g _ j _ k _ _ hne
    rw [hself f hf] at hne
    exact absurd (newFile_block j) hne

theorem newFile_writes : ∃ s', fileWrite newFile 16 (fun _ => 0x61) 3 0 (fun _ => 0) (fun _ => 0) 0
    = .ok (3, 3, s') := ⟨_, rfl⟩

theorem newFile_onDisk : OnDisk newFile 16 where
  fits := ⟨by decide, by decide, by decide, by decide, by decide⟩
  bit := rfl
  table := ⟨rfl, by decide, by decide, by decide, by decide⟩
  marked := fun j _ hne => absurd (newFile_block j) hne

/-- The three bytes are in the file. -/
theorem file_isByteStore_newFile :
    ∃ s', fileWrite newFile 16 (fun _ => 0x61) 3 0 (fun _ => 0) (fun _ => 0) 0 = .ok (3, 3, s') ∧
      (s'.inode 16).iSize = 3 ∧ contentAt s'.disk (s'.inode 16) 1 = 0x61 := by
  obtain ⟨s', hok⟩ := newFile_writes
  obtain ⟨-, -, hsize, hcontent, -, -⟩ :=
    (file_isByteStore newFile_ok (List.mem_singleton_self _)).2
    _ _ _ _ _ _ _ _ _ (Nat.zero_le _) (by decide) hok
  have hsize' : (s'.inode 16).iSize = 3 := hsize
  exact ⟨s', hok, hsize', hcontent 1 (by omega)⟩

/-- The three bytes are on the disk. -/
theorem fileWrite_onDisk_newFile :
    ∃ s', fileWrite newFile 16 (fun _ => 0x61) 3 0 (fun _ => 0) (fun _ => 0) 0 = .ok (3, 3, s') ∧
      OnDisk s' 16 := by
  obtain ⟨s', hok⟩ := newFile_writes
  have hdisk : ∀ q, FileRef.open q ∈ [FileRef.open 16] → OnDisk newFile q := by
    intro q hq
    cases List.mem_singleton.mp hq
    exact newFile_onDisk
  have hmem : FileRef.open 16 ∈ [FileRef.open 16] := List.mem_singleton_self _
  exact ⟨s', hok, (fileWrite_onDisk newFile_ok hdisk hmem (Nat.zero_le _)
    (by decide) hok 16 hmem).1⟩

end Fizzos.Proofs
