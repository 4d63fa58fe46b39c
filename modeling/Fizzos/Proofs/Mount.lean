import Fizzos.Fs.Fs
import Fizzos.Proofs.Metadata
import Fizzos.Proofs.Search

/-!
# `Fizzos.Proofs.Mount`: what a fresh mount finds

`FoundOnDisk` is about the disk alone. It mounts the partition, opens a directory by its number, and
looks a name up. `foundOnDisk_iff` breaks this down. The search of the directory's sectors has to
give the number, and the inode bitmap on the disk has to have the bits of the directory and of the
number, since `inode_open` asserts them.
-/

set_option autoImplicit false

namespace Fizzos.Proofs

open Fizzos.Device
open Fizzos.Fs
open Fizzos.Kernel
open Fizzos.Lib
open Fizzos.LibKernel
open Fizzos.Support

/-- The super block on the disk. -/
def superBlockOf (disk : Disk) (startLba : Nat) : SuperBlock := loadSuperBlock (disk (startLba + 1))

/-- The directory `dirNo` after a mount, as `open_root_dir` opens the root. The dentry at `dir` has
the inode and an empty cache, and is its own parent. -/
def mountDir (m : DirSys) (startLba blockBits inodeBits dirNo p dir : Nat) :
    Except Halt DirSys := do
  let (inode, fs) ← inodeOpen (mountPartition m.fs startLba blockBits inodeBits) dirNo p
  pure (DirSys.setDentry { m with fs } dir
    { m.dentry dir with inode, dParent := dir, dSubdirs := listInit })

/-- A fresh mount of the disk finds the name `nm` in the directory `dirNo`, with the inode number
`iNo`. Nothing else is known of the memory `m`. -/
def FoundOnDisk (disk : Disk) (startLba dirNo : Nat) (nm : List (BitVec 8)) (iNo : Nat) : Prop :=
  ∀ (m : DirSys) (blockBits inodeBits p i dir d : Nat) (dname buf : Bytes),
    m.fs.disk = disk → i ≠ p → d ≠ dir → IsString dname nm →
    ∃ s r s', mountDir m startLba blockBits inodeBits dirNo p dir = .ok s ∧
      searchDentry s dir dname nm.length buf i d = .ok (some r, s') ∧ (inodeOf s' r).iNo = iNo

section
variable {disk : Disk} {m : DirSys} {startLba blockBits inodeBits dirNo p i dir d idx iNo : Nat}
  {nm : List (BitVec 8)} {dname buf : Bytes}

/-- `mount_partition` reads the sector behind the boot sector. -/
theorem loadSuperBlock_ideRead :
    loadSuperBlock (ideRead disk (startLba + 1) (fun _ => 0) 0 1) = superBlockOf disk startLba := by
  have hload : ∀ o, o + 4 ≤ 512 →
      load32 (ideRead disk (startLba + 1) (fun _ => 0) 0 1) o = load32 (disk (startLba + 1)) o :=
    fun o ho => loadLE_ideRead ho
  rw [superBlockOf, loadSuperBlock, loadSuperBlock, hload 16 (by decide), hload 20 (by decide),
    hload 24 (by decide), hload 28 (by decide), hload 32 (by decide), hload 40 (by decide)]

/-- The bits that a mount reads. -/
theorem loadBitmap_bit (bmap : Bitmap) {bits lba sects : Nat} (hidx : idx < 4096 * sects) :
    (loadBitmap disk bmap bits lba sects).bit idx = bitOnDisk disk lba idx := by
  have hin : 0 ≤ idx / 8 ∧ idx / 8 < 0 + sects * SECTOR_SIZE := by
    show 0 ≤ idx / 8 ∧ idx / 8 < 0 + sects * 512
    omega
  have hsector : (idx / 8 - 0) / SECTOR_SIZE = idx / BITS_PER_SECTOR := by
    show (idx / 8 - 0) / 512 = idx / 4096
    omega
  have hbyte : (idx / 8 - 0) % SECTOR_SIZE = idx % BITS_PER_SECTOR / 8 := by
    show (idx / 8 - 0) % 512 = idx % 4096 / 8
    omega
  rw [Bitmap.bit, loadBitmap, bitOnDisk]
  dsimp only
  rw [ideRead, if_pos hin, hsector, hbyte]

/-- The directory is open, and nothing else is. -/
structure Mounted (D : Disk) (sb : SuperBlock) (dirNo p dir : Nat) (s : DirSys) : Prop where
  disk : s.fs.disk = D
  bit : ∀ idx < 4096, s.fs.part.inodeBitmap.bit idx = bitOnDisk D sb.inodeBitmapLba idx
  inode : inodeOf s dir = inodeFromDisk sb D dirNo
  opened : IsList s.fs.inodeTag s.fs.part.openInodes [p]
  number : (s.fs.inode p).iNo = dirNo
  children : (s.dentry dir).dSubdirs = listInit
  up : (s.dentry dir).dParent = dir

/-- `inode_open` of a number in use, when nothing is open. -/
theorem inodeOpen_first (fs : FileSys) (hlist : fs.part.openInodes = listInit) (hno : iNo < 4096)
    (hset : fs.part.inodeBitmap.bit iNo = true) (p : Nat) :
    ∃ fs', inodeOpen fs iNo p = .ok (p, fs') ∧ fs'.disk = fs.disk ∧
      fs'.part.inodeBitmap = fs.part.inodeBitmap ∧ IsList fs'.inodeTag fs'.part.openInodes [p] ∧
      fs'.inode p = inodeFromDisk fs.part.sb fs.disk iNo := by
  have hset' : bitmapIsSet fs.part.inodeBitmap iNo = true := by
    rw [bitmapIsSet_eq]
    exact hset
  have hfind : findInode fs.inode fs.inodeTag iNo LIST_WALK none = .ok none :=
    findInode_spec (Linked.nil _) (Nat.zero_le _)
  obtain ⟨openInodes, inodeTag, hpush, hpushed, -⟩ :=
    listPushFront_spec (IsList.init fs.inodeTag) (List.not_mem_nil (a := p))
  rw [inodeOpen, ASSERT_true hno, ok_bind, ASSERT_true hset', ok_bind, hlist, listInit,
    hfind, ok_bind]
  simp only [FileSys.setInode, hlist, hpush, ok_bind, pure_eq_ok]
  exact ⟨_, rfl, rfl, rfl, hpushed, Function.update_self _ _ _⟩

section
variable (hno : dirNo < 4096) (hsects : (superBlockOf disk startLba).inodeBitmapSects = 1)
  (hm : m.fs.disk = disk)

include hsects hm

/-- The bits of the mounted partition. -/
theorem mountPartition_bit (hidx : idx < 4096) :
    (mountPartition m.fs startLba blockBits inodeBits).part.inodeBitmap.bit idx
      = bitOnDisk disk (superBlockOf disk startLba).inodeBitmapLba idx := by
  subst hm
  rw [mountPartition]
  dsimp only
  rw [loadSuperBlock_ideRead]
  exact loadBitmap_bit _ (by omega)

include hno

/-- The directory is there when its bit is set. -/
theorem mountDir_ok (hset : bitOnDisk disk (superBlockOf disk startLba).inodeBitmapLba dirNo = true)
    (p dir : Nat) : ∃ s, mountDir m startLba blockBits inodeBits dirNo p dir = .ok s ∧
      Mounted disk (superBlockOf disk startLba) dirNo p dir s := by
  have hbits : ∀ idx < 4096, (mountPartition m.fs startLba blockBits inodeBits).part.inodeBitmap.bit
      idx = bitOnDisk disk (superBlockOf disk startLba).inodeBitmapLba idx :=
    fun idx hidx => mountPartition_bit hsects hm hidx
  have hsb : (mountPartition m.fs startLba blockBits inodeBits).part.sb
      = superBlockOf disk startLba := hm ▸ loadSuperBlock_ideRead
  have hdisk : (mountPartition m.fs startLba blockBits inodeBits).disk = disk := hm
  obtain ⟨fs', hopen, hdisk', hbitmap, hlist, hinode⟩ :=
    inodeOpen_first (mountPartition m.fs startLba blockBits inodeBits) rfl hno
      ((hbits dirNo hno).trans hset) p
  rw [mountDir, hopen, ok_bind]
  refine ⟨_, rfl, ?_⟩
  rw [hsb, hdisk] at hinode
  exact
    { disk := hdisk'.trans hdisk
      bit := fun idx hidx => by
        rw [← hbits idx hidx, ← hbitmap]
        rfl
      inode := by
        rw [inodeOf, DirSys.setDentry]
        dsimp only
        rw [Function.update_self]
        exact hinode
      opened := hlist
      number := by
        show (fs'.inode p).iNo = dirNo
        rw [hinode]
        rfl
      children := by
        rw [DirSys.setDentry]
        dsimp only
        rw [Function.update_self]
      up := by
        rw [DirSys.setDentry]
        dsimp only
        rw [Function.update_self] }

/-- A mount that opens the directory finds its bit set. -/
theorem mountDir_bit {s : DirSys} {p dir : Nat}
    (hok : mountDir m startLba blockBits inodeBits dirNo p dir = .ok s) :
    bitOnDisk disk (superBlockOf disk startLba).inodeBitmapLba dirNo = true := by
  simp only [mountDir, inodeOpen, bind_eq_ok, ASSERT_eq_ok] at hok
  obtain ⟨-, ⟨-, -, -, hset, -⟩, -⟩ := hok
  rwa [bitmapIsSet_eq, mountPartition_bit hsects hm hno] at hset

end

namespace Mounted

variable {sb : SuperBlock} {s : DirSys} {r : Nat} {s' : DirSys}

theorem cache (h : Mounted disk sb dirNo p dir s) (len : Nat) :
    findCached s.dentry s.dChild dname len LIST_WALK (s.dentry dir).dSubdirs.head = .ok none := by
  rw [h.children]
  exact findCached_spec (Linked.nil _) (Nat.zero_le _)

/-- The search succeeds when the sectors have the name, and the bit of the number is set. -/
theorem search_ok (h : Mounted disk sb dirNo p dir s) (hs : IsString dname nm)
    (hdots : ¬(nm = [DOT] ∨ nm = [DOT, DOT])) (hi : i ≠ p) (hd : d ≠ dir) (hlt : iNo < 4096)
    (hset : bitOnDisk disk sb.inodeBitmapLba iNo = true)
    (hfind : (searchDisk disk (inodeFromDisk sb disk dirNo) dname nm.length buf).1 = some iNo) :
    ∃ s', searchDentry s dir dname nm.length buf i d = .ok (some d, s') ∧
      (inodeOf s' d).iNo = iNo := by
  have hset' : bitmapIsSet s.fs.part.inodeBitmap iNo = true := by
    rw [bitmapIsSet_eq, h.bit iNo hlt]
    exact hset
  have hlen : [p].length ≤ LIST_WALK := by
    show 1 ≤ 2 ^ 32
    decide
  have hnew : i ∉ [p] := fun hmem => hi (List.mem_singleton.mp hmem)
  obtain ⟨r, fs, hopen, hr⟩ := inodeOpen_number h.opened hlen hnew hlt hset'
  rw [← h.inode, ← h.disk] at hfind
  refine searchDentry_opened hs hdots (h.cache _) hfind hopen hr ?_ List.not_mem_nil hd
  rw [h.children]
  exact IsList.init _

/-- A search that succeeds has found the name in the sectors. -/
theorem search_inv (h : Mounted disk sb dirNo p dir s) (hs : IsString dname nm)
    (hdots : ¬(nm = [DOT] ∨ nm = [DOT, DOT])) (hi : i ≠ p) (hd : d ≠ dir)
    (hok : searchDentry s dir dname nm.length buf i d = .ok (some r, s')) :
    ∃ iNo < 4096, bitOnDisk disk sb.inodeBitmapLba iNo = true ∧ (inodeOf s' r).iNo = iNo ∧
      (searchDisk disk (inodeFromDisk sb disk dirNo) dname nm.length buf).1 = some iNo := by
  cases hfind : (searchDisk disk (inodeFromDisk sb disk dirNo) dname nm.length buf).1 with
  | none =>
      rw [← h.inode, ← h.disk] at hfind
      rw [searchDentry_missing hs hdots (h.cache _) hfind] at hok
      cases hok
  | some iNo =>
      have hfind' := hfind
      rw [← h.inode, ← h.disk] at hfind'
      have hrun := hok
      rw [searchDentry_disk hs hdots (h.cache _) hfind'] at hrun
      simp only [inodeOpen, bind_eq_ok, ASSERT_eq_ok] at hrun
      obtain ⟨-, ⟨-, hlt, -, hset, -⟩, -⟩ := hrun
      rw [bitmapIsSet_eq, h.bit iNo hlt] at hset
      obtain ⟨s'', hok', hno⟩ := h.search_ok hs hdots hi hd hlt hset hfind
      rw [hok] at hok'
      cases hok'
      exact ⟨iNo, hlt, hset, hno, rfl⟩

end Mounted

/-- What the disk needs for a mount to find the name. -/
theorem foundOnDisk_iff (hno : dirNo < 4096)
    (hsects : (superBlockOf disk startLba).inodeBitmapSects = 1)
    (hdots : ¬(nm = [DOT] ∨ nm = [DOT, DOT])) (hm : m.fs.disk = disk) :
    FoundOnDisk disk startLba dirNo nm iNo ↔
      bitOnDisk disk (superBlockOf disk startLba).inodeBitmapLba dirNo = true ∧
      iNo < 4096 ∧ bitOnDisk disk (superBlockOf disk startLba).inodeBitmapLba iNo = true ∧
      ∀ dname buf, IsString dname nm →
        (searchDisk disk (inodeFromDisk (superBlockOf disk startLba) disk dirNo) dname
          nm.length buf).1 = some iNo := by
  constructor
  · intro hfound
    -- One mount of the disk for each name and buffer.
    have hrun : ∀ dname buf, IsString dname nm →
        bitOnDisk disk (superBlockOf disk startLba).inodeBitmapLba dirNo = true ∧
        iNo < 4096 ∧ bitOnDisk disk (superBlockOf disk startLba).inodeBitmapLba iNo = true ∧
        (searchDisk disk (inodeFromDisk (superBlockOf disk startLba) disk dirNo) dname nm.length
          buf).1 = some iNo := by
      intro dname buf hs
      obtain ⟨s, r, s', hmount, hok, rfl⟩ :=
        hfound m 0 0 0 1 0 1 dname buf hm (by decide) (by decide) hs
      have hset := mountDir_bit hno hsects hm hmount
      obtain ⟨s₀, hmount₀, hmounted⟩ := mountDir_ok hno hsects hm hset 0 0
      rw [hmount] at hmount₀
      cases hmount₀
      obtain ⟨iNo, hlt, hset', rfl, hfind⟩ :=
        hmounted.search_inv hs hdots (by decide) (by decide) hok
      exact ⟨hset, hlt, hset', hfind⟩
    obtain ⟨hset, hlt, hset', -⟩ := hrun (cstring nm) (fun _ => 0) (isString_cstring nm)
    exact ⟨hset, hlt, hset', fun dname buf hs => (hrun dname buf hs).2.2.2⟩
  · rintro ⟨hset, hlt, hset', hfind⟩ m blockBits inodeBits p i dir d dname buf hm hi hd hs
    obtain ⟨s, hmount, hmounted⟩ := mountDir_ok hno hsects hm hset p dir
    obtain ⟨s', hok, hnumber⟩ :=
      hmounted.search_ok hs hdots hi hd hlt hset' (hfind dname buf hs)
    exact ⟨s, d, s', hmount, hok, hnumber⟩

/-- The names `.` and `..` lead to the directory, whatever its sectors hold. -/
theorem foundOnDisk_dots (hno : dirNo < 4096)
    (hsects : (superBlockOf disk startLba).inodeBitmapSects = 1)
    (hdots : nm = [DOT] ∨ nm = [DOT, DOT]) (hm : m.fs.disk = disk) :
    FoundOnDisk disk startLba dirNo nm iNo ↔
      bitOnDisk disk (superBlockOf disk startLba).inodeBitmapLba dirNo = true ∧ dirNo = iNo := by
  -- Both names are answered in front of the search of the sectors.
  have hself : ∀ {s : DirSys} {p i dir d : Nat} {dname buf : Bytes}, IsString dname nm →
      Mounted disk (superBlockOf disk startLba) dirNo p dir s →
      searchDentry s dir dname nm.length buf i d = .ok (some dir, s) ∧ (inodeOf s dir).iNo
      = dirNo := by
    intro s p i dir d dname buf hs h
    refine ⟨?_, h.inode ▸ rfl⟩
    rcases hdots with rfl | rfl
    · rw [searchDentry, if_pos ⟨rfl, hs 0 (Nat.zero_le _)⟩]
      rfl
    · have hlen : [DOT, DOT].length = 2 := rfl
      rw [searchDentry, if_neg (by omega),
        if_pos ⟨rfl, hs 0 (Nat.zero_le _), hs 1 (by decide)⟩, h.up]
      rfl
  constructor
  · intro hfound
    obtain ⟨s, r, s', hmount, hok, rfl⟩ :=
      hfound m 0 0 0 1 0 1 (cstring nm) (fun _ => 0) hm (by decide) (by decide)
        (isString_cstring nm)
    have hset := mountDir_bit hno hsects hm hmount
    obtain ⟨s₀, hmount₀, hmounted⟩ := mountDir_ok hno hsects hm hset 0 0
    rw [hmount] at hmount₀
    cases hmount₀
    obtain ⟨hok', hnumber⟩ := hself (isString_cstring nm) hmounted
    rw [hok'] at hok
    cases hok
    exact ⟨hset, hnumber.symm⟩
  · rintro ⟨hset, rfl⟩ m blockBits inodeBits p i dir d dname buf hm hi hd hs
    obtain ⟨s, hmount, hmounted⟩ := mountDir_ok hno hsects hm hset p dir
    obtain ⟨hok, hnumber⟩ := hself hs hmounted
    exact ⟨s, dir, s, hmount, hok, hnumber⟩

end

end Fizzos.Proofs
