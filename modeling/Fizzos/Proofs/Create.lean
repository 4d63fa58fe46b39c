import Fizzos.Fs.File
import Fizzos.Proofs.DirWrite
import Fizzos.Proofs.Mount

/-!
# `Fizzos.Proofs.Create`: new files and directories, and the next mount

`DirStored` is a directory of a mounted partition between two calls. The inode of the directory
in memory can name sectors that the inode on the disk does not name. `file_create` and `dir_create`
write the sector with the new entry, the inode of the new file, and both bitmaps. They never write
the inode of the directory.

So the next mount finds the new name when `dir_write` put it in a sector that the disk's inode
names already (`Reaches`). It does not find a name in a new sector, and no name of 24 characters.
-/

set_option autoImplicit false

namespace Fizzos.Proofs

open Fizzos.Device
open Fizzos.Fs
open Fizzos.Kernel
open Fizzos.Lib
open Fizzos.LibKernel
open Fizzos.Support

/-! ### Free slots -/

section
variable {t : FileTable} {f : Nat}

theorem getFreeFileOfTable_some (h : getFreeFileOfTable t = some f) :
    f < MAX_FILE_COUNT ∧ (t.file f).count = 0 := by
  rw [getFreeFileOfTable] at h
  exact ⟨List.mem_range.mp (List.mem_of_find?_eq_some h), by simpa using List.find?_some h⟩

theorem getFreeFileOfTable_isSome (hf : f < MAX_FILE_COUNT) (hzero : (t.file f).count = 0) :
    ∃ f', getFreeFileOfTable t = some f' := by
  refine Option.isSome_iff_exists.mp (List.find?_isSome.mpr ⟨f, List.mem_range.mpr hf, ?_⟩)
  exact decide_eq_true hzero

end

/-! ### The calls -/

/-- A call of `file_create` or `dir_create` reports success. `i` is the address of the new inode. -/
inductive Creates (s : DirSys) (parent : Nat) (filename : Bytes) (n : Nat) (buf : Bytes) (i : Nat) :
    DirSys → Prop
  | file {t t' : FileTable} {f dm : Nat} {pad : Bytes} {current : Tid} (hdirs : t.dirs = s)
      (hok : fileCreate t filename n parent buf i dm pad current = .ok (some f, t')) :
      Creates s parent filename n buf i t'.dirs
  | dir {s' : DirSys} {mode dm : Nat} {pad : Bytes} {current : Tid}
      (hok : dirCreate s parent mode buf filename n i dm pad current = .ok (0, s')) :
      Creates s parent filename n buf i s'

/-- What a call that succeeds does to the disk. `no` is the number of the new inode. -/
structure CreateRun (s : DirSys) (parent : Nat) (filename : Bytes) (n : Nat) (buf : Bytes)
    (no : Nat) (D' : Disk) : Prop where
  number : bitmapScanIndex s.fs.part.inodeBitmap = some no
  run : ∃ place c child inode x ioBuf pad b current, child.iNo = no ∧ child.iMode < 2 ^ 16 ∧
    child.iMode &&& 0xf000 ≠ FT_UNKNOWN ∧ x.iNo = no ∧
    findPlace s.fs.part.sb ⟨s.fs.disk, s.fs.part.blockBitmap, inodeOf s parent, buf⟩ current
      = .ok place ∧
    putEntry s.fs.part.sb place child filename n current = .ok (c, inode) ∧
    inodeBitmapSync (inodeSync s.fs.part.sb c.disk x ioBuf pad).1 s.fs.part.sb
      (Bitmap.set s.fs.part.inodeBitmap no true) no current = .ok (D', b)

section
variable {s s' : DirSys} {parent i n : Nat} {filename buf : Bytes} {ps : List Nat} {current : Tid}

/-- `inode_alloc` takes the number that the scan of the bitmap finds. -/
theorem inodeAlloc_number {s s' : FileSys} {p : Nat}
    (hlock : s.part.inodeBitmap.lock = mutexLockInit) (hok : inodeAlloc s p current = .ok s') :
    bitmapScanIndex s.part.inodeBitmap = some (s'.inode p).iNo := by
  rw [inodeAlloc, bitmapScanSet_eq hlock] at hok
  cases hidx : bitmapScanIndex s.part.inodeBitmap with
  | none =>
      rw [hidx] at hok
      cases hok
  | some idx =>
      rw [hidx] at hok
      simp only [ok_bind, bind_eq_ok, pure_eq_ok] at hok
      obtain ⟨_, -, hres⟩ := hok
      cases hres
      rw [FileSys.setInode_self]

/-- The part of both calls behind `inode_alloc`. -/
theorem createRun_ok {fs : FileSys} {dm d no : Nat} {buf' ioBuf pad : Bytes} {s₂ : DirSys}
    {child x : Inode} {D' : Disk} {b : Bitmap} (h : InodesOk s.fs ps) (hi : i < 2 ^ 32)
    (hnew : i ∉ ps)
    (hparent : (s.dentry parent).inode ∈ ps) (halloc : inodeAlloc s.fs i current = .ok fs)
    (hwrite : dirWrite (DirSys.mk (fs.setInode i child) s.dentry s.dChild) parent i
    buf filename n dm
      current = .ok (some d, buf', s₂))
    (hchild : child.iNo = (fs.inode i).iNo) (hmode : child.iMode < 2 ^ 16)
    (hused : child.iMode &&& 0xf000 ≠ FT_UNKNOWN)
    (hx : x.iNo = (s₂.fs.inode i).iNo)
    (hsync : inodeBitmapSync (inodeSync s₂.fs.part.sb s₂.fs.disk x ioBuf pad).1 s₂.fs.part.sb
      s₂.fs.part.inodeBitmap no current = .ok (D', b)) (hno : no = (s₂.fs.inode i).iNo) :
    CreateRun s parent filename n buf no D' := by
  have hne : i ≠ (s.dentry parent).inode := by
    rintro rfl
    exact hnew hparent
  obtain ⟨idx, -, hset, hidx, -, hothers, hdisk, hpart, -⟩ := h.alloc hi hnew halloc
  obtain ⟨place, c, inode, hplace, hput, hdisk₂, hsb₂, hbitmap₂, hinode⟩ :=
    dirWrite_ok (s := DirSys.mk (fs.setInode i child) s.dentry s.dChild) hne hwrite
  dsimp only [FileSys.setInode] at hplace hput hsb₂ hbitmap₂
  -- `dir_write` gives a new directory its first sector and its size, and leaves the number.
  have hnumber : (s₂.fs.inode i).iNo = idx := by
    rw [hinode, putEntry_iNo hput, Function.update_self, hchild]
    exact hidx
  have hsb : fs.part.sb = s.fs.part.sb := by rw [hpart]
  have hblock : fs.part.blockBitmap = s.fs.part.blockBitmap := by rw [hpart]
  rw [hsb, hblock, hdisk, Function.update_of_ne hne.symm, hothers _ hne.symm] at hplace
  rw [hsb, Function.update_self] at hput
  rw [hsb₂, hbitmap₂, hdisk₂, hsb, hset, hno, hnumber] at hsync
  refine ⟨?_, place, c, _, inode, x, ioBuf, pad, b, current, ?_, hmode, hused, ?_, hplace, hput, ?_⟩
  · rw [inodeAlloc_number h.lock halloc, hno, hnumber, hidx]
  · rw [hno, hnumber, hchild, ← hidx]
  · rw [hx, hno]
  · rw [hno, hnumber]
    exact hsync

/-- The modes of new inodes. -/
theorem dirMode_ok (mode : Nat) : (mode &&& 0x0fff) ||| FT_DIR < 2 ^ 16 ∧
    ((mode &&& 0x0fff) ||| FT_DIR) &&& 0xf000 ≠ FT_UNKNOWN := by
  have hlow : mode &&& 0x0fff < 2 ^ 16 := Nat.lt_of_le_of_lt Nat.and_le_right (by decide)
  refine ⟨Nat.or_lt_two_pow hlow (by decide), ?_⟩
  rw [Nat.and_or_distrib_right, Nat.and_assoc]
  show mode &&& 0 ||| 0x2000 ≠ 0
  rw [Nat.and_zero, Nat.zero_or]
  decide

/-- A call that succeeds. -/
theorem Creates.run (h : InodesOk s.fs ps) (hi : i < 2 ^ 32) (hnew : i ∉ ps)
    (hparent : (s.dentry parent).inode ∈ ps) (hcall : Creates s parent filename n buf i s') :
    CreateRun s parent filename n buf (s'.fs.inode i).iNo s'.fs.disk := by
  cases hcall with
  | file hdirs hok =>
      subst hdirs
      simp only [fileCreate, bind_eq_ok] at hok
      -- `file_create` makes a file object in addition to what `dir_create` makes.
      obtain ⟨fs, halloc, ⟨d, buf', s₂⟩, hwrite, hok⟩ := hok
      cases d with
      | none =>
          obtain ⟨fs', -, hok⟩ := bind_eq_ok.mp hok
          cases hok
      | some d =>
          obtain ⟨f, -, hok⟩ := bind_eq_ok.mp hok
          obtain ⟨⟨disk, bitmap⟩, hsync, hok⟩ := bind_eq_ok.mp hok
          cases hok
          rw [FileSys.setInode_self] at hsync
          show CreateRun _ parent filename n buf ((s₂.fs.setInode i _).inode i).iNo disk
          rw [FileSys.setInode_self]
          have hmode : FT_NORMAL < 2 ^ 16 := by decide
          have hused : FT_NORMAL &&& 0xf000 ≠ FT_UNKNOWN := by decide
          exact createRun_ok h hi hnew hparent halloc hwrite rfl hmode hused rfl hsync rfl
  | dir hok =>
      simp only [dirCreate, bind_eq_ok] at hok
      obtain ⟨fs, halloc, ⟨d, buf', s₂⟩, hwrite, hok⟩ := hok
      cases d with
      | none =>
          obtain ⟨fs', -, hok⟩ := bind_eq_ok.mp hok
          cases hok
      | some d =>
          obtain ⟨⟨disk, bitmap⟩, hsync, hok⟩ := bind_eq_ok.mp hok
          cases hok
          show CreateRun _ parent filename n buf ((FileSys.setInode _ i _).inode i).iNo disk
          rw [FileSys.setInode_self]
          exact createRun_ok h hi hnew hparent halloc hwrite rfl (dirMode_ok _).1
            (dirMode_ok _).2 rfl hsync rfl

end

/-! ### A directory that is stored -/

/-- The inode of a directory as the disk has it. -/
def storedInode (s : DirSys) (parent : Nat) : Inode :=
  inodeFromDisk s.fs.part.sb s.fs.disk (inodeOf s parent).iNo

/-- The directory `parent` of a mounted partition between two calls, with its `entries`. The inodes
`ps` are open. The inode on the disk names no sector that the inode in memory does not name. -/
structure DirStored (s : DirSys) (startLba parent : Nat) (entries : List DirEntry) (ps : List Nat) :
    Prop where
  super : superBlockOf s.fs.disk startLba = s.fs.part.sb
  boot : startLba + 1 < s.fs.part.sb.blockBitmapLba
  layout : LayoutOk s.fs.part
  inodeBitmap : s.fs.part.sb.inodeBitmapSects = 1
  bits : BitsFit s.fs.part.sb s.fs.part.blockBitmap
  inodes : InodesOk s.fs ps
  opened : (s.dentry parent).inode ∈ ps
  number : (inodeOf s parent).iNo < 4096
  directory : Directory s.fs.disk (inodeOf s parent) entries
  dots : [DOT] ∈ entries.map DirEntry.name ∧ [DOT, DOT] ∈ entries.map DirEntry.name
  entry : ∀ e ∈ entries, bitmapIsSet s.fs.part.inodeBitmap e.iNo = true
  clear : ∀ lba ∈ ownSectors s.fs.disk (inodeOf s parent), ∀ j < SLOTS,
    slotType (s.fs.disk lba) j = FT_UNKNOWN →
      ∀ k < SIZEOF_DENTRY_DISK, s.fs.disk lba (SIZEOF_DENTRY_DISK * j + k) = 0
  used : ∀ lba ∈ ownSectors s.fs.disk (inodeOf s parent),
    Used s.fs.part.sb s.fs.part.blockBitmap lba
  index : (inodeOf s parent).iSectors 12 ≠ 0 →
    Used s.fs.part.sb s.fs.part.blockBitmap ((inodeOf s parent).iSectors 12) ∧
      (inodeOf s parent).iSectors 12 ∉ ownSectors s.fs.disk (inodeOf s parent)
  stored : ∀ k < 13, (storedInode s parent).iSectors k = (inodeOf s parent).iSectors k ∨
    (storedInode s parent).iSectors k = 0

/-- The entry goes to a sector that the inode on the disk names. -/
def Reaches (s : DirSys) (parent : Nat) : Prop :=
  ∃ lba ∈ ownSectors s.fs.disk (storedInode s parent), room s.fs.disk (inodeOf s parent) = some lba

/-- When `dir_write` makes an index block, the first word of the buffer's second half is zero. -/
def ClearIndex (s : DirSys) (parent : Nat) (buf : Bytes) : Prop :=
  room s.fs.disk (inodeOf s parent) = none → (inodeOf s parent).iSectors 12 = 0 →
    load32 buf SECTOR_SIZE = 0

/-- A fresh mount finds the new name, and the names that it found before. -/
def Survives (s s' : DirSys) (startLba parent : Nat) (entries : List DirEntry)
    (nm : List (BitVec 8)) (no : Nat) : Prop :=
  FoundOnDisk s'.fs.disk startLba (inodeOf s parent).iNo nm no ∧
  ∀ e ∈ entries, FoundOnDisk s.fs.disk startLba (inodeOf s parent).iNo e.name e.iNo →
    FoundOnDisk s'.fs.disk startLba (inodeOf s parent).iNo e.name e.iNo

/-- When the new name lasts. It is not too long, and goes to a sector that the inode on the disk
names. Otherwise it takes luck: the search that does not find the name goes on in the sector 0, and
finds the new number there. -/
def Lasts (s : DirSys) (parent : Nat) (nm : List (BitVec 8)) (filename : Bytes) : Prop :=
  nm.length < MAX_FILE_NAME_LEN ∧ (Reaches s parent ∨
    0 ∈ readSectors s.fs.disk (storedInode s parent) ∧
      ∃ no, bitmapScanIndex s.fs.part.inodeBitmap = some no ∧
        findSlot (s.fs.disk 0) filename nm.length = some no)

/-- A place that `dir_write` can find. -/
structure PlaceOk (s : DirSys) (place : DirPlace) : Prop where
  grown : Grown s.fs.part.blockBitmap place.cursor.blockBitmap
  index : place.isSecond = true →
    FreeBlock s.fs.part.sb s.fs.part.blockBitmap (place.cursor.dir.iSectors 12)
  frame : ∀ l, ¬InBitmap s.fs.part.sb l → place.cursor.disk l = s.fs.disk l
  data : s.fs.part.sb.dataStartLba ≤ place.lba

/-- The disk behind a call that put the entry in the sector `lba`. -/
structure CreateEffect (s : DirSys) (startLba parent no lba : Nat) (D' : Disk) : Prop where
  number : no < 4096
  super : superBlockOf D' startLba = s.fs.part.sb
  zero : D' 0 = s.fs.disk 0
  inode : SameInode (inodeFromDisk s.fs.part.sb D' (inodeOf s parent).iNo) (storedInode s parent)
  bit : ∀ idx < 4096, bitOnDisk D' s.fs.part.sb.inodeBitmapLba idx
    = (Bitmap.set s.fs.part.inodeBitmap no true).bit idx
  sector : ∀ l, Used s.fs.part.sb s.fs.part.blockBitmap l → l ≠ lba → D' l = s.fs.disk l

namespace DirStored

variable {s s' : DirSys} {startLba parent : Nat} {entries : List DirEntry} {ps : List Nat}
  {no n i : Nat} {filename buf : Bytes} {D' : Disk} {place : DirPlace} {c : DirCursor}
  {child inode : Inode} {current : Tid}

theorem bitmap_le (h : DirStored s startLba parent entries ps) :
    s.fs.part.sb.blockBitmapLba + s.fs.part.sb.blockBitmapSects ≤ s.fs.part.sb.dataStartLba := by
  have h1 := h.layout.blockBitmap
  have h2 := h.layout.inodeBitmap
  have h3 := h.layout.inodeTable
  omega

/-- The number of the directory is not the new one. -/
theorem number_ne (h : DirStored s startLba parent entries ps)
    (hscan : bitmapScanIndex s.fs.part.inodeBitmap = some no) : (inodeOf s parent).iNo ≠ no := by
  rintro rfl
  have hset := h.inodes.bits _ h.opened
  have hclear := (bitmapScanIndex_eq_some hscan).2.1
  rw [inodeOf, hset] at hclear
  cases hclear

/-- The sectors that `dir_write` does not write. -/
theorem dirWrite_frame (h : DirStored s startLba parent entries ps) (hplace : PlaceOk s place)
    (hput : putEntry s.fs.part.sb place child filename n current = .ok (c, inode)) {l : Nat}
    (hbitmap : ¬InBitmap s.fs.part.sb l)
    (hfree : ¬FreeBlock s.fs.part.sb s.fs.part.blockBitmap l) (hl : l ≠ place.lba) :
    c.disk l = s.fs.disk l := by
  have hentry := putEntry_ok h.bitmap_le (hplace.grown.bitsFit h.bits) hput
  rw [hentry.frame l hl (fun hsecond heq => hfree (heq ▸ hplace.index hsecond)) hbitmap
    fun hfree' => hfree (hplace.grown.free hfree')]
  exact hplace.frame l hbitmap

/-- What `inode_sync` and `bitmap_sync` do behind `dir_write`. -/
theorem sync_frame (h : DirStored s startLba parent entries ps) {x : Inode} {ioBuf pad : Bytes}
    {b : Bitmap} (hsync : inodeBitmapSync (inodeSync s.fs.part.sb c.disk x ioBuf pad).1 s.fs.part.sb
      (Bitmap.set s.fs.part.inodeBitmap no true) no current = .ok (D', b)) :
    no < 4096 ∧ (∀ idx < 4096, bitOnDisk D' s.fs.part.sb.inodeBitmapLba idx
        = (Bitmap.set s.fs.part.inodeBitmap no true).bit idx) ∧
      ∀ l, l ≠ s.fs.part.sb.inodeBitmapLba →
        D' l = (inodeSync s.fs.part.sb c.disk x ioBuf pad).1 l := by
  obtain ⟨hsects, -, hframe, hbits⟩ := bitmapWriteBack_ok hsync
  have hone := h.inodeBitmap
  have hlt : no < 4096 := by
    have hsects' : no / 512 < s.fs.part.sb.inodeBitmapSects := hsects
    omega
  have hzero : ∀ idx < 4096, idx / BITS_PER_SECTOR = 0 := fun idx hidx => Nat.div_eq_of_lt hidx
  refine ⟨hlt, fun idx hidx => ?_, fun l hl => ?_⟩
  · rw [hbits, if_pos (by rw [hzero idx hidx, hzero no hlt])]
  · refine hframe l ?_
    rw [hzero no hlt, Nat.add_zero]
    exact hl

/-- The disk behind the call. -/
theorem effect (h : DirStored s startLba parent entries ps) (hplace : PlaceOk s place)
    (hput : putEntry s.fs.part.sb place child filename n current = .ok (c, inode)) {x : Inode}
    {ioBuf pad : Bytes} {b : Bitmap} (hx : x.iNo = no)
    (hscan : bitmapScanIndex s.fs.part.inodeBitmap = some no)
    (hsync : inodeBitmapSync (inodeSync s.fs.part.sb c.disk x ioBuf pad).1 s.fs.part.sb
      (Bitmap.set s.fs.part.inodeBitmap no true) no current = .ok (D', b)) :
    CreateEffect s startLba parent no place.lba D' ∧
      ∀ l, s.fs.part.sb.dataStartLba ≤ l → D' l = c.disk l := by
  obtain ⟨hno, hbits, hframe⟩ := h.sync_frame hsync
  have h1 := h.layout.blockBitmap
  have h2 := h.layout.inodeBitmap
  have h3 := h.layout.inodeTable
  have hone := h.inodeBitmap
  have hboot := h.boot
  have hdata := hplace.data
  have htable : ∀ iNo < 4096, s.fs.part.sb.inodeTableLba ≤ tableSector s.fs.part.sb iNo ∧
      tableSector s.fs.part.sb iNo < s.fs.part.sb.dataStartLba := by
    intro iNo hlt
    have hsector : tableSector s.fs.part.sb iNo = s.fs.part.sb.inodeTableLba + iNo / 8 := rfl
    omega
  have hno' : x.iNo < 4096 := hx ▸ hno
  have htable' := htable no hno
  -- The sectors outside of the metadata, and those in front of it.
  have hlow : ∀ l, l < s.fs.part.sb.blockBitmapLba → D' l = s.fs.disk l := by
    intro l hl
    rw [hframe l (by omega), inodeSync_of_ne hno' (by rw [hx]; omega)]
    refine h.dirWrite_frame hplace hput (fun hin => ?_) (fun hfree => ?_) (by omega)
    · have hle := hin.1
      omega
    · have hle := hfree.1
      omega
  have hhigh : ∀ l, s.fs.part.sb.dataStartLba ≤ l → D' l = c.disk l := by
    intro l hl
    rw [hframe l (by omega), inodeSync_of_ne hno' (by rw [hx]; omega)]
  refine ⟨⟨hno, ?_, hlow 0 (by omega), ?_, hbits, fun l hused hl => ?_⟩, hhigh⟩
  · rw [superBlockOf, hlow _ hboot]
    exact h.super
  · have hne : (inodeOf s parent).iNo ≠ x.iNo := hx ▸ h.number_ne hscan
    have hdir := htable _ h.number
    have hbefore : SameInode (inodeFromDisk s.fs.part.sb c.disk (inodeOf s parent).iNo)
        (storedInode s parent) := by
      refine inodeFromDisk_congr h.number fun k _ => ?_
      rw [h.dirWrite_frame hplace hput (fun hin => ?_) (fun hfree => ?_) (by omega)]
      · have hlt := hin.2
        omega
      · have hle := hfree.1
        omega
    have hsynced : SameInode
        (inodeFromDisk s.fs.part.sb (inodeSync s.fs.part.sb c.disk x ioBuf pad).1
        (inodeOf s parent).iNo)
        (inodeFromDisk s.fs.part.sb c.disk (inodeOf s parent).iNo) :=
      inodeFromDisk_sync_of_ne hno' h.number hne
    refine (inodeFromDisk_congr h.number fun k _ => ?_).trans (hsynced.trans hbefore)
    rw [hframe _ (by omega)]
  · obtain ⟨idx, -, hidx, -, -⟩ := id hused
    rw [hhigh l (by omega)]
    exact h.dirWrite_frame hplace hput (hused.not_inBitmap h.bitmap_le)
      (fun hfree => hfree.2 hused) hl

/-- A number that the loops stop at is of a sector of the directory. -/
theorem room_own {disk : Disk} {p : Inode} {lba : Nat} (hroom : room disk p = some lba)
    (hne : lba ≠ 0) : lba ∈ ownSectors disk p := by
  refine mem_ownSectors.mpr ⟨?_, hne⟩
  have hmem := List.mem_of_find?_eq_some hroom
  rw [scanned, List.mem_append] at hmem
  rw [readSectors_eq, List.mem_append]
  refine hmem.imp_left fun hdirect => ?_
  obtain ⟨idx, hidx, rfl⟩ := List.mem_map.mp hdirect
  have hlt : idx < 12 := List.mem_range.mp hidx
  refine List.mem_flatMap.mpr ⟨idx, hidx, ?_⟩
  rw [sectorsAt, if_neg hne, if_neg (by omega)]
  exact List.mem_singleton_self _

/-- Where `dir_write` puts the entry. -/
theorem place_ok (h : DirStored s startLba parent entries ps) (hclear : ClearIndex s parent buf)
    (hfind : findPlace s.fs.part.sb ⟨s.fs.disk, s.fs.part.blockBitmap,
    inodeOf s parent, buf⟩ current
      = .ok place) :
    PlaceOk s place ∧
    ((∃ lba, room s.fs.disk (inodeOf s parent) = some lba ∧ lba ≠ 0 ∧ place.isSecond = false ∧
        OldPlace ⟨s.fs.disk, s.fs.part.blockBitmap, inodeOf s parent, buf⟩ lba place) ∨
      ((∀ lba, room s.fs.disk (inodeOf s parent) = some lba → lba = 0) ∧
        FreeBlock s.fs.part.sb s.fs.part.blockBitmap place.lba)) := by
  rcases findPlace_ok h.bits hfind with ⟨hsecond, lba, hroom, hplace⟩ | ⟨hroom, hzero, hnew⟩
  · have hfalse : place.isSecond ≠ true := by
      rw [hsecond]
      decide
    rcases hplace with ⟨hne, hold⟩ | ⟨rfl, hnew⟩
    · refine ⟨⟨?_, fun htrue => absurd htrue hfalse, fun l _ => by rw [hold.disk], ?_⟩,
        .inl ⟨lba, hroom, hne, hsecond, hold⟩⟩
      · rw [hold.blockBitmap]
        exact Grown.refl _
      · obtain ⟨idx, -, hidx, -, -⟩ := h.used lba (room_own hroom hne)
        rw [hold.sector]
        omega
    · refine ⟨⟨hnew.grown, fun htrue => absurd htrue hfalse, hnew.frame, hnew.free.1⟩,
        .inr ⟨fun l hl => ?_, hnew.free⟩⟩
      exact Option.some.inj (hl.symm.trans hroom)
  · -- A new index block.
    obtain ⟨hnew, hindex⟩ := hnew (hclear hroom hzero)
    refine ⟨⟨hnew.grown, fun _ => hindex, hnew.frame, hnew.free.1⟩,
      .inr ⟨fun l hl => ?_, hnew.free⟩⟩
    have hnone : room s.fs.disk (inodeOf s parent) = none := hroom
    rw [hnone] at hl
    cases hl

/-- What the disk has of the directory, before and behind the call. -/
theorem listing (h : DirStored s startLba parent entries ps) {nm : List (BitVec 8)}
    (hnm : NameOk nm) (hnew : nm ∉ entries.map DirEntry.name) (hs : IsString filename nm)
    (hclear : ClearIndex s parent buf)
    (hrun : CreateRun s parent filename nm.length buf no D') :
    ∃ lba es, CreateEffect s startLba parent no lba D' ∧ (∀ e ∈ es, e ∈ entries) ∧
      Directory s.fs.disk (storedInode s parent) es ∧
      readSectors D' (inodeFromDisk s.fs.part.sb D' (inodeOf s parent).iNo)
        = readSectors s.fs.disk (storedInode s parent) ∧
      ((Reaches s parent ∧ ∃ e, e.name = nm ∧ e.iNo = no ∧
          Directory D' (inodeFromDisk s.fs.part.sb D' (inodeOf s parent).iNo) (e :: es)) ∨
        (¬Reaches s parent ∧
          Directory D' (inodeFromDisk s.fs.part.sb D' (inodeOf s parent).iNo) es)) := by
  obtain ⟨place, c, child, inode, x, ioBuf, pad, b, current, hchild, hmode, hused, hx, hfind, hput,
    hsync⟩ := hrun.run
  obtain ⟨hplace, hwhere⟩ := h.place_ok hclear hfind
  obtain ⟨heffect, hdata⟩ := h.effect hplace hput hx hrun.number hsync
  obtain ⟨hown, es, hes, hdir⟩ := h.directory.restrict h.stored
  have hsector : ∀ l ∈ ownSectors s.fs.disk (storedInode s parent), l ≠ place.lba →
      D' l = s.fs.disk l := fun l hl hne => heffect.sector l (h.used l (hown l hl)) hne
  -- The new entry does not touch the index block, so the sector list reads as before.
  have hread : readSectors D' (inodeFromDisk s.fs.part.sb D' (inodeOf s parent).iNo)
      = readSectors s.fs.disk (storedInode s parent) := by
    refine readSectors_congr heffect.inode.iSectors fun hne => ?_
    rcases h.stored 12 (by decide) with hsame | hzero
    · rw [hsame] at hne ⊢
      obtain ⟨hused', hnot⟩ := h.index hne
      refine heffect.sector _ hused' ?_
      rcases hwhere with ⟨lba, hroom, hlba, -, hold⟩ | ⟨-, hfree⟩
      · rw [hold.sector]
        rintro heq
        exact hnot (heq ▸ room_own hroom hlba)
      · rintro heq
        exact hfree.2 (heq ▸ hused')
    · exact absurd hzero hne
  refine ⟨place.lba, es, heffect, hes, hdir, hread, ?_⟩
  -- A slot in a sector that is there, or a new sector.
  rcases hwhere with ⟨lba, hroom, hlba, hsecond, hold⟩ | ⟨hroom, hfree⟩
  · obtain rfl := hold.sector
    by_cases hmem : place.lba ∈ ownSectors s.fs.disk (storedInode s parent)
    · -- The entry is in a sector that the disk's inode names.
      refine .inl ⟨⟨place.lba, hmem, hroom⟩, ⟨nm, child.iMode, no⟩, rfl, rfl, ?_⟩
      have hok : (DirEntry.mk nm child.iMode no).Ok :=
        ⟨hnm, hmode, hused, Nat.lt_trans heffect.number (by decide)⟩
      have hnew' : nm ∉ es.map DirEntry.name := by
        intro hin
        obtain ⟨e, he, hname⟩ := List.mem_map.mp hin
        exact hnew (hname ▸ List.mem_map_of_mem (hes e he))
      obtain ⟨hslot, hunknown⟩ := freeSlot_eq_some hold.slot
      have hmarked := h.used _ (hown _ hmem)
      obtain ⟨idx, -, hidx, -, -⟩ := id hmarked
      have hentry := putEntry_ok h.bitmap_le (hplace.grown.bitsFit h.bits) hput
      have hbytes : ∀ k < SECTOR_SIZE, D' place.lba k
          = writeSlot place.cursor.buf place.slot child.iMode no filename nm.length k := by
        intro k hk
        rw [hdata _ (by omega), hentry.sector hsecond (hplace.grown.used hmarked) k hk, hchild]
      have hin : ∀ k < SIZEOF_DENTRY_DISK, SIZEOF_DENTRY_DISK * place.slot + k < SECTOR_SIZE := by
        intro k hk
        have hslot' : place.slot < 16 := hslot
        have hk' : k < 32 := hk
        show 32 * place.slot + k < 512
        omega
      -- `writeSlot` leaves the bytes behind the name, so the slot must be zero before.
      have hzero : ∀ k < SIZEOF_DENTRY_DISK,
          place.cursor.buf (SIZEOF_DENTRY_DISK * place.slot + k) = 0 := by
        intro k hk
        rw [hold.buf _ (hin k hk)]
        exact h.clear _ (hown _ hmem) place.slot hslot hunknown k hk
      have hheld : HoldsAt (D' place.lba) place.slot ⟨nm, child.iMode, no⟩ :=
        (writeSlot_holds hok hs hzero).congr fun k hk => hbytes _ (hin k hk)
      refine hdir.insert hread hmem hsector hok hnew' hslot hunknown hheld fun k hk hother => ?_
      rw [hbytes k hk, writeSlot_of_ne hnm.le hother, hold.buf k hk]
    · -- The sector is one of the inode in memory only: the disk's directory does not reach it.
      refine .inr ⟨?_, hdir.congr hread fun l hl => hsector l hl ?_⟩
      · rintro ⟨l, hl, hroom'⟩
        exact hmem (Option.some.inj (hroom.symm.trans hroom') ▸ hl)
      · rintro rfl
        exact hmem hl
  · refine .inr ⟨?_, hdir.congr hread fun l hl => hsector l hl ?_⟩
    · rintro ⟨l, hl, hroom'⟩
      exact (mem_ownSectors.mp hl).2 (hroom l hroom')
    · rintro rfl
      exact hfree.2 (h.used _ (hown _ hl))

section
variable {lba : Nat} {nm : List (BitVec 8)} {iNo : Nat}

/-- What a mount behind the call finds. -/
theorem foundOnDisk_effect (h : DirStored s startLba parent entries ps)
    (heffect : CreateEffect s startLba parent no lba D')
    (hdots : ¬(nm = [DOT] ∨ nm = [DOT, DOT])) :
    FoundOnDisk D' startLba (inodeOf s parent).iNo nm iNo ↔
      iNo < 4096 ∧ (Bitmap.set s.fs.part.inodeBitmap no true).bit iNo = true ∧
      ∀ dname buf, IsString dname nm →
        (searchDisk D' (inodeFromDisk s.fs.part.sb D' (inodeOf s parent).iNo) dname nm.length buf).1
          = some iNo := by
  have hparent : (Bitmap.set s.fs.part.inodeBitmap no true).bit (inodeOf s parent).iNo = true := by
    rw [Bitmap.bit_set]
    split
    · rfl
    · exact h.inodes.bits _ h.opened
  have hsects : (superBlockOf D' startLba).inodeBitmapSects = 1 := by
    rw [heffect.super]
    exact h.inodeBitmap
  rw [foundOnDisk_iff h.number hsects hdots
    (rfl : (DirSys.mk (FileSys.mk D' s.fs.part s.fs.inode s.fs.inodeTag) s.dentry s.dChild).fs.disk
      = D'), heffect.super, heffect.bit _ h.number]
  constructor
  · rintro ⟨-, hlt, hset, hfind⟩
    exact ⟨hlt, heffect.bit _ hlt ▸ hset, hfind⟩
  · rintro ⟨hlt, hset, hfind⟩
    exact ⟨hparent, hlt, (heffect.bit _ hlt).trans hset, hfind⟩

/-- A new name is neither `.` nor `..`. -/
theorem not_dots_of_new (h : DirStored s startLba parent entries ps)
    (hnew : nm ∉ entries.map DirEntry.name) : ¬(nm = [DOT] ∨ nm = [DOT, DOT]) := by
  rintro (rfl | rfl)
  · exact hnew h.dots.1
  · exact hnew h.dots.2

/-- The new name. -/
theorem found_new (h : DirStored s startLba parent entries ps) (hnm : NameOk nm)
    (hnew : nm ∉ entries.map DirEntry.name) (hs : IsString filename nm)
    (hclear : ClearIndex s parent buf) (hrun : CreateRun s parent filename nm.length buf no D') :
    FoundOnDisk D' startLba (inodeOf s parent).iNo nm no ↔ Lasts s parent nm filename := by
  obtain ⟨lba, es, heffect, hes, hdir, hread, hwhere⟩ := h.listing hnm hnew hs hclear hrun
  have hset : (Bitmap.set s.fs.part.inodeBitmap no true).bit no = true := by
    rw [Bitmap.bit_set, if_pos rfl]
  rw [h.foundOnDisk_effect heffect (h.not_dots_of_new hnew)]
  rcases hwhere with ⟨hreaches, e, hname, hno, hdir'⟩ | ⟨hnot, hdir'⟩
  · constructor
    · rintro ⟨-, -, hfind⟩
      refine ⟨Nat.lt_of_le_of_ne hnm.le fun hfull => ?_, .inl hreaches⟩
      -- No sector has a name of 24 characters, and neither has the sector 0.
      have hnone := hfind filename (fun _ => 0) hs
      rw [hdir'.searchDisk_missing hnm hs fun _ _ _ => hfull,
        findSlot_eq_none_iff.mpr fun j _ => slotMatches_full hnm hs hfull, ite_self] at hnone
      cases hnone
    · rintro ⟨hlt, -⟩
      refine ⟨heffect.number, hset, fun dname buf hs' => ?_⟩
      rw [hdir'.searchDisk_found hnm hs' List.mem_cons_self hname hlt, hno]
  · have hmissing : ∀ e ∈ es, e.name = nm → nm.length = MAX_FILE_NAME_LEN := fun e he hname =>
      absurd (hname ▸ List.mem_map_of_mem (hes e he)) hnew
    constructor
    · rintro ⟨-, -, hfind⟩
      have hluck := hfind filename (fun _ => 0) hs
      rw [hdir'.searchDisk_missing hnm hs hmissing, hread, heffect.zero] at hluck
      split at hluck
      · rename_i hzero
        refine ⟨Nat.lt_of_le_of_ne hnm.le fun hfull => ?_, .inr ⟨hzero, no, hrun.number, hluck⟩⟩
        rw [findSlot_eq_none_iff.mpr fun j _ => slotMatches_full hnm hs hfull] at hluck
        cases hluck
      · cases hluck
    · rintro ⟨-, hreaches | ⟨hzero, no', hscan, hluck⟩⟩
      · exact absurd hreaches hnot
      · obtain rfl := Option.some.inj (hrun.number.symm.trans hscan)
        refine ⟨heffect.number, hset, fun dname buf hs' => ?_⟩
        rw [hdir'.searchDisk_missing hnm hs' hmissing, hread, if_pos hzero, heffect.zero, ← hluck]
        exact findSlot_name fun i hi => (hs' i hi).trans (hs i hi).symm

/-- A name that was there. -/
theorem found_old (h : DirStored s startLba parent entries ps) (hnm : NameOk nm)
    (hnew : nm ∉ entries.map DirEntry.name) (hs : IsString filename nm)
    (hclear : ClearIndex s parent buf) (hrun : CreateRun s parent filename nm.length buf no D')
    {e : DirEntry} (he : e ∈ entries)
    (hfound : FoundOnDisk s.fs.disk startLba (inodeOf s parent).iNo e.name e.iNo) :
    FoundOnDisk D' startLba (inodeOf s parent).iNo e.name e.iNo := by
  obtain ⟨lba, es, heffect, hes, hdir, hread, hwhere⟩ := h.listing hnm hnew hs hclear hrun
  have hsects : (superBlockOf s.fs.disk startLba).inodeBitmapSects = 1 := by
    rw [h.super]
    exact h.inodeBitmap
  by_cases hdots : e.name = [DOT] ∨ e.name = [DOT, DOT]
  · have hsects' : (superBlockOf D' startLba).inodeBitmapSects = 1 := by
      rw [heffect.super]
      exact h.inodeBitmap
    have hno := ((foundOnDisk_dots h.number hsects hdots rfl).mp hfound).2
    refine (foundOnDisk_dots h.number hsects' hdots (rfl : (DirSys.mk
      (FileSys.mk D' s.fs.part s.fs.inode s.fs.inodeTag) s.dentry s.dChild).fs.disk
      = D')).mpr ⟨?_, hno⟩
    rw [heffect.super, heffect.bit _ h.number, Bitmap.bit_set]
    split
    · rfl
    · exact h.inodes.bits _ h.opened
  · obtain ⟨-, hlt, -, hfind⟩ := (foundOnDisk_iff h.number hsects hdots rfl).mp hfound
    rw [h.super] at hfind
    refine (h.foundOnDisk_effect heffect hdots).mpr ⟨hlt, ?_, fun dname buf hs' => ?_⟩
    · rw [Bitmap.bit_set]
      split
      · rfl
      · rw [← bitmapIsSet_eq]
        exact h.entry e he
    · have hok := (h.directory.ok e he).name
      rw [← hfind dname buf hs']
      rcases hwhere with ⟨-, e', hname', -, hdir'⟩ | ⟨-, hdir'⟩
      · refine hdir.searchDisk_congr hdir' hread heffect.zero hok hs' (fun e'' hname'' => ?_) buf
        rw [List.mem_cons, or_iff_right]
        -- The new entry has another name.
        rintro rfl
        exact hnew (hname' ▸ hname''.symm ▸ List.mem_map_of_mem he)
      · exact hdir.searchDisk_congr hdir' hread heffect.zero hok hs' (fun _ _ => Iff.rfl) buf

/-- A name that lasts needs no new index block. -/
theorem clearIndex (h : DirStored s startLba parent entries ps)
    (hlasts : Lasts s parent nm filename) : ClearIndex s parent buf := by
  intro hroom hindex
  rcases hlasts.2 with ⟨lba, -, hsome⟩ | ⟨hzero, -⟩
  · rw [hroom] at hsome
    cases hsome
  · have hne := index_ne_zero hzero
    rcases h.stored 12 (by decide) with hsame | hnone
    · exact absurd (hsame.trans hindex) hne
    · exact absurd hnone hne

end

end DirStored

/-- A name that `file_create` or `dir_create` has made survives a mount, and so do the others, when
the name lasts. For a name of the right length this is the only case, unless the call makes an
index block from what the caller's buffer has. -/
theorem create_survives_iff {s s' : DirSys} {startLba parent : Nat} {entries : List DirEntry}
    {ps : List Nat} (h : DirStored s startLba parent entries ps) {nm : List (BitVec 8)}
    (hpos : 1 ≤ nm.length) (hnul : 0 ∉ nm) (hslash : SLASH ∉ nm)
    (hnew : nm ∉ entries.map DirEntry.name) {filename : Bytes} (hs : IsString filename nm)
    {buf : Bytes} {i : Nat} (hi : i < 2 ^ 32) (hfresh : i ∉ ps)
    (hcall : Creates s parent filename nm.length buf i s') :
    (Lasts s parent nm filename →
      Survives s s' startLba parent entries nm (s'.fs.inode i).iNo) ∧
    (nm.length ≤ MAX_FILE_NAME_LEN → ClearIndex s parent buf →
      (Survives s s' startLba parent entries nm (s'.fs.inode i).iNo ↔
      Lasts s parent nm filename)) := by
  have hrun := hcall.run h.inodes hi hfresh h.opened
  have hiff : nm.length ≤ MAX_FILE_NAME_LEN → ClearIndex s parent buf →
      (Survives s s' startLba parent entries nm (s'.fs.inode i).iNo ↔
        Lasts s parent nm filename) := by
    intro hle hclear
    have hnm : NameOk nm := ⟨hpos, hle, hnul, hslash⟩
    constructor
    · exact fun hsurvives => (h.found_new hnm hnew hs hclear hrun).mp hsurvives.1
    · intro hlasts
      exact ⟨(h.found_new hnm hnew hs hclear hrun).mpr hlasts, fun e he hfound =>
        h.found_old hnm hnew hs hclear hrun he hfound⟩
  refine ⟨fun hlasts => ?_, hiff⟩
  exact (hiff (Nat.le_of_lt hlasts.1) (h.clearIndex hlasts)).mpr hlasts

/-! ### A root directory -/

/-- A partition that starts at sector 0. The root directory has one sector with `entries`, and the
inodes below `n` are in use. -/
def rootDisk (entries : List DirEntry) (n : Nat) : Disk := fun lba =>
  if lba = 1 then
    storeLE 4 (storeLE 4 (storeLE 4 (storeLE 4 (storeLE 4 (storeLE 4 (fun _ => 0) 16 2) 20 1) 24 3)
      28 1) 32 4) 40 516
  else if lba = 3 then byteLE (2 ^ n - 1)
  else if lba = 4 then storeLE 4 (storeLE 2 (fun _ => 0) 2 FT_DIR) 12 516
  else if lba = 516 then sectorOf entries
  else fun _ => 0

/-- The partition is mounted, and its root directory open: the dentry at 64 and the inode at 16. -/
def rootMounted (entries : List DirEntry) (n : Nat) : DirSys :=
  { fs :=
      { disk := rootDisk entries n
        part :=
          { sb := ⟨2, 1, 3, 1, 4, 516⟩
            blockBitmap := ⟨0, fun k => if k = 0 then 1 else 0, 512, mutexLockInit⟩
            inodeBitmap := ⟨0, byteLE (2 ^ n - 1), 512, mutexLockInit⟩
            openInodes := ⟨some 16, some 16⟩ }
        inode := fun _ => ⟨0, 0, 64, 1, rwlockInit, FT_DIR, fun k => if k = 0 then 516 else 0⟩
        inodeTag := fun _ => ⟨none, none⟩ }
    dentry := fun _ => ⟨1, 16, cstring [SLASH], 1, 64, listInit⟩
    dChild := fun _ => ⟨none, none⟩ }

section
variable {entries : List DirEntry} {n : Nat}

theorem byteLE_bit {i : Nat} (hi : i < n) :
    (Bitmap.mk 0 (byteLE (2 ^ n - 1)) 512 mutexLockInit).bit i = true := by
  have hpow : (256 : Nat) ^ (i / 8) = 2 ^ (8 * (i / 8)) := by rw [Nat.pow_mul]
  show (BitVec.ofNat 8 ((2 ^ n - 1) / 256 ^ (i / 8))).getLsbD (i % 8) = true
  rw [BitVec.getLsbD_ofNat, hpow, Nat.testBit_div_two_pow, Nat.testBit_two_pow_sub_one,
    Bool.and_eq_true, decide_eq_true_iff, decide_eq_true_iff]
  omega

theorem rootMounted_stored (hok : ∀ e ∈ entries, e.Ok) (hnodup : (entries.map DirEntry.name).Nodup)
    (hlen : entries.length ≤ SLOTS)
    (hdots : [DOT] ∈ entries.map DirEntry.name ∧ [DOT, DOT] ∈ entries.map DirEntry.name)
    (hno : ∀ e ∈ entries, e.iNo < n) (hpos : 0 < n) :
    DirStored (rootMounted entries n) 0 64 entries [16] where
  super := rfl
  boot := by
    show 0 + 1 < 2
    omega
  layout :=
    { bytes := by
        show 512 = 1 * 512
        omega
      blockBitmap := by
        show 2 + 1 ≤ 3
        omega
      inodeBitmap := by
        show 3 + 1 ≤ 4
        omega
      inodeTable := by
        show 4 + 512 ≤ 516
        omega }
  inodeBitmap := rfl
  bits := fun idx hidx _ => by
    have hidx' : idx < 8 * 512 := hidx
    show 516 + idx < 2 ^ 32
    omega
  inodes :=
    { isList := ⟨rfl, rfl, Linked.singleton rfl⟩
      pointer := by decide
      lock := rfl
      nodup := List.nodup_singleton _
      bits := fun p hp => byteLE_bit hpos
      count := fun _ _ => by
        show -2 ^ 31 ≤ (1 : Int) ∧ (1 : Int) < 2 ^ 31
        omega }
  opened := List.mem_singleton_self _
  number := by
    show 0 < 4096
    decide
  directory := directory_sectorOf hok hnodup hlen (by decide : (516 : Nat) ≠ 0) rfl rfl
  dots := hdots
  entry := fun e he => by
    rw [bitmapIsSet_eq]
    exact byteLE_bit (hno e he)
  clear := by
    intro lba hlba j _ hfree k hk
    obtain rfl : lba = 516 := List.mem_singleton.mp hlba
    exact sectorOf_clear hok hfree hk
  used := by
    intro lba hlba
    obtain rfl : lba = 516 := List.mem_singleton.mp hlba
    have hbit : (Bitmap.mk 0 (fun k => if k = 0 then 1 else 0) 512 mutexLockInit).bit 0 = true := by
      decide
    have hlt : 0 < 8 * 512 := by decide
    exact ⟨0, hlt, rfl, by decide, hbit⟩
  index := fun hne => absurd rfl hne
  stored := by
    intro k hk
    -- Sector 0 of the inode is the one stored, and the others are zero.
    obtain ⟨-, -, -, -, hsectors⟩ :=
      inodeFromDisk_eq ⟨2, 1, 3, 1, 4, 516⟩ (rootDisk entries n) (by decide : 0 < 4096)
    have hload : (storedInode (rootMounted entries n) 64).iSectors k
        = load32 (storeLE 4 (storeLE 2 (fun _ => 0) 2 FT_DIR) 12 516) (0 + 12 + 4 * k) :=
          hsectors k hk
    rcases Nat.eq_zero_or_pos k with rfl | hpos
    · left
      rw [hload]
      exact loadLE_storeLE (by decide)
    · right
      rw [hload, load32, loadLE_storeLE_of_ne (by omega), loadLE_storeLE_of_ne (by omega)]
      exact loadLE_eq_zero fun _ _ _ => rfl

end

/-- The entries of a root directory with `k` files: `a`, `b`, and so on. -/
def rootFiles (k : Nat) : List DirEntry :=
  [⟨[DOT], FT_DIR, 0⟩, ⟨[DOT, DOT], FT_DIR, 0⟩] ++
    (List.range k).map fun j => ⟨[BitVec.ofNat 8 (0x61 + j)], FT_NORMAL, j + 1⟩

theorem rootFiles_stored {k : Nat} (hk : k ≤ 14)
    (hnodup : ((rootFiles k).map DirEntry.name).Nodup) :
    DirStored (rootMounted (rootFiles k) (k + 1)) 0 64 (rootFiles k) [16] := by
  have hdot : NameOk [DOT] := ⟨by decide, by decide, by decide, by decide⟩
  have hdots : NameOk [DOT, DOT] := ⟨by decide, by decide, by decide, by decide⟩
  -- The names are letters, so they hold neither NUL nor a slash.
  have hletter : ∀ j < 14, ∀ v < 0x61, BitVec.ofNat 8 v ≠ BitVec.ofNat 8 (0x61 + j) := by
    intro j hj v hv heq
    have hnat := congrArg BitVec.toNat heq
    rw [BitVec.toNat_ofNat, BitVec.toNat_ofNat] at hnat
    omega
  refine rootMounted_stored (fun e he => ?_) hnodup ?_ ⟨List.mem_cons_self, ?_⟩ (fun e he => ?_)
    (Nat.succ_pos k)
  · rcases List.mem_append.mp he with hhead | hfile
    · simp only [List.mem_cons, List.not_mem_nil, or_false] at hhead
      rcases hhead with rfl | rfl
      · exact ⟨hdot, by decide, by decide, by decide⟩
      · exact ⟨hdots, by decide, by decide, by decide⟩
    · obtain ⟨j, hj, rfl⟩ := List.mem_map.mp hfile
      have hj' : j < 14 := Nat.lt_of_lt_of_le (List.mem_range.mp hj) hk
      have hname : NameOk [BitVec.ofNat 8 (0x61 + j)] :=
        ⟨Nat.le_refl 1, by show 1 ≤ 24; omega,
          fun hmem => hletter j hj' 0 (by decide) (List.mem_singleton.mp hmem),
          fun hmem => hletter j hj' 0x2f (by decide) (List.mem_singleton.mp hmem)⟩
      have hmode : FT_NORMAL < 2 ^ 16 := by decide
      have hused : FT_NORMAL &&& 0xf000 ≠ FT_UNKNOWN := by decide
      have hno : j + 1 < 2 ^ 32 := by omega
      exact ⟨hname, hmode, hused, hno⟩
  · rw [rootFiles, List.length_append, List.length_map, List.length_range]
    show 2 + k ≤ 16
    omega
  · exact List.mem_cons_of_mem _ List.mem_cons_self
  · rcases List.mem_append.mp he with hhead | hfile
    · simp only [List.mem_cons, List.not_mem_nil, or_false] at hhead
      rcases hhead with rfl | rfl
      · exact Nat.succ_pos k
      · exact Nat.succ_pos k
    · obtain ⟨j, hj, rfl⟩ := List.mem_map.mp hfile
      exact Nat.succ_lt_succ (List.mem_range.mp hj)

/-- A file `b` in the root directory. -/
theorem create_survives_iff_root : ∃ s', Creates (rootMounted (rootFiles 0) 1) 64 (cstring [0x62]) 1
      (fun _ => 0) 32 s' ∧
    Survives (rootMounted (rootFiles 0) 1) s' 0 64 (rootFiles 0) [0x62] (s'.fs.inode 32).iNo := by
  obtain ⟨t', hok⟩ : ∃ t', fileCreate ⟨rootMounted (rootFiles 0) 1, fun _ => ⟨0, 0, 0⟩⟩
      (cstring [0x62]) 1 64 (fun _ => 0) 32 128 (fun _ => 0) 0 = .ok (some 0, t') := ⟨_, rfl⟩
  have hcall := Creates.file rfl hok
  have hstored := rootFiles_stored (k := 0) (by decide) (by decide)
  have hlasts : Lasts (rootMounted (rootFiles 0) 1) 64 [0x62] (cstring [0x62]) :=
    ⟨by decide, .inl ⟨516, by decide, by decide⟩⟩
  exact ⟨_, hcall, (create_survives_iff hstored (by decide) (by decide) (by decide) (by decide)
    (isString_cstring [0x62]) (by decide) (by decide) hcall).1 hlasts⟩

/-- A file `q` in the root directory when its sector is full. The new sector is lost: its number is
in the inode in memory, and nothing writes this inode. -/
theorem create_loses_name :
    ¬∀ s startLba parent entries ps, DirStored s startLba parent entries ps → ∀ nm, NameOk nm →
      nm ∉ entries.map DirEntry.name → ∀ filename, IsString filename nm → ∀ buf i,
      i < 2 ^ 32 → i ∉ ps →
      ∀ s', Creates s parent filename nm.length buf i s' →
        Survives s s' startLba parent entries nm (s'.fs.inode i).iNo := by
  intro hall
  obtain ⟨t', hok⟩ : ∃ t', fileCreate ⟨rootMounted (rootFiles 14) 15, fun _ => ⟨0, 0, 0⟩⟩
      (cstring [0x71]) 1 64 (fun _ => 0) 32 128 (fun _ => 0) 0 = .ok (some 0, t') := ⟨_, rfl⟩
  have hcall := Creates.file rfl hok
  have hstored := rootFiles_stored (k := 14) (by decide) (by decide)
  have hnm : NameOk [0x71] := ⟨by decide, by decide, by decide, by decide⟩
  have hnew : [0x71] ∉ (rootFiles 14).map DirEntry.name := by decide
  have hs := isString_cstring [0x71]
  have hsurvives := hall _ _ _ _ _ hstored _ hnm hnew _ hs _ 32 (by decide) (by decide) _ hcall
  have hroom : room (rootMounted (rootFiles 14) 15).fs.disk
      (inodeOf (rootMounted (rootFiles 14) 15) 64) = some 0 := by rfl
  have hclear : ClearIndex (rootMounted (rootFiles 14) 15) 64 (fun _ => 0) := by
    intro hnone
    rw [hroom] at hnone
    cases hnone
  have hrun := hcall.run hstored.inodes (by decide) (by decide) hstored.opened
  obtain ⟨-, ⟨lba, hlba, hsome⟩ | ⟨hzero, -⟩⟩ :=
    (hstored.found_new hnm hnew hs hclear hrun).mp hsurvives.1
  · rw [hroom] at hsome
    obtain rfl := Option.some.inj hsome
    exact (mem_ownSectors.mp hlba).2 rfl
  · -- There is no index block, so the search does not read the sector 0.
    exact index_ne_zero hzero rfl

end Fizzos.Proofs
