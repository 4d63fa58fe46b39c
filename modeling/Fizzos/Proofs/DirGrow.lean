import Fizzos.Proofs.DirLoops

/-!
# `Fizzos.Proofs.DirGrow`: directories that grow

`dir_write` has four ways to a sector with a free entry. A sector that the directory has, and a new
direct sector, are right. A new sector that an old index block should name is lost, since the block
is not written back. With a new index block the loop takes each word of the caller's buffer up to
the first zero for a sector of the directory, and the block keeps the words behind that zero.

So the entry is kept in three cases (`CanGrow`, `dirWrite_grows_iff`). In each of them the sectors
that are read and written have to be on the disk (`ReadsOnDisk`), or the kernel stops.
-/

set_option autoImplicit false

namespace Fizzos.Proofs

open Fizzos.Device
open Fizzos.Fs
open Fizzos.Kernel
open Fizzos.Lib
open Fizzos.LibKernel
open Fizzos.Support

/-- The number of blocks that a new inode needs: a directory has a sector for `.` and `..`. -/
def dotBlocks (i : Inode) : Nat := if i.iMode &&& 0xf000 = FT_DIR then 1 else 0

/-- The blocks of a directory are marked in the bitmap. -/
structure DirBlocks (s : DirSys) (parent : Nat) : Prop where
  boot : 0 < s.fs.part.sb.blockBitmapLba
  layout : s.fs.part.sb.blockBitmapLba + s.fs.part.sb.blockBitmapSects ≤ s.fs.part.sb.dataStartLba
  bits : BitsFit s.fs.part.sb s.fs.part.blockBitmap
  used : ∀ lba ∈ ownSectors s.fs.disk (inodeOf s parent),
    Used s.fs.part.sb s.fs.part.blockBitmap lba
  index : (inodeOf s parent).iSectors 12 ≠ 0 →
    Used s.fs.part.sb s.fs.part.blockBitmap ((inodeOf s parent).iSectors 12) ∧
      (inodeOf s parent).iSectors 12 ∉ ownSectors s.fs.disk (inodeOf s parent)
  list : (s.dentry parent).dSubdirs.head = none → (s.dentry parent).dSubdirs.tail = none

/-- When the loops come to a place for the entry that lasts, and the blocks for it are there. `m` is
the number of blocks that the new inode needs. A new index block is right only when the words that
the buffer has for it are zeros and sectors of the directory. The new sector goes to the first zero,
so its number may stand behind that. -/
inductive CanGrow (sb : SuperBlock) (B : Bitmap) (current : Tid) (D : Disk)
    (p : Inode) (buf : Bytes) (m : Nat) : Prop
  | room (lba : Nat) (hroom : room D p = some lba) (hne : lba ≠ 0) (rest : List Nat)
      (hlen : rest.length = m) (halloc : Allocs sb current rest B)
  | direct (hfind : (directNumbers p).find? (hasRoom D) = some 0) (lba : Nat) (rest : List Nat)
      (hlen : rest.length = m) (halloc : Allocs sb current (lba :: rest) B)
  | index (hroom : room D p = none) (hzero : p.iSectors 12 = 0) (block lba : Nat) (rest : List Nat)
      (hlen : rest.length = m) (halloc : Allocs sb current (block :: lba :: rest) B)
      (ws zs : List Nat) (hsplit : indexWords buf = ws ++ 0 :: zs)
      (hws : ∀ w ∈ ws, w ∈ ownSectors D p)
      (hzs : ∀ w ∈ zs, w = 0 ∨ w ∈ ownSectors D p ∨ w = lba)

/-- The sectors that the loops read are on the disk. The index block is read behind twelve full
sectors. -/
structure ReadsOnDisk (D : Disk) (p : Inode) (buf : Bytes) : Prop where
  reads : ∀ l ∈ entryReads D (loopNumbers D p buf), l ≤ MAX_LBA
  index : (directNumbers p).find? (hasRoom D) = none → p.iSectors 12 ≤ MAX_LBA

/-- What `dir_write` is for: the entry is in a free slot of a sector that the directory has behind
the call, all sectors but this one were its sectors before, no other sector is read or written with
entries, and the old entries are where they were. `D` and `p` are the disk and the inode before the
call, and `D'` and `p'` behind it. -/
structure EntryKept (sb : SuperBlock) (B : Bitmap) (D D' : Disk) (p p' : Inode) (buf : Bytes)
    (place : DirPlace) (entry : Bytes) : Prop where
  slot : freeSlot place.cursor.buf = some place.slot
  owned : place.lba ∈ ownSectors D' p'
  block : place.lba ∈ ownSectors D p ∨ FreeBlock sb B place.lba
  stored : ∀ k < SECTOR_SIZE, D' place.lba k = entry k
  sectors : ∀ l ∈ ownSectors D' p', l ∈ ownSectors D p ∨ l = place.lba
  reads : ∀ l ∈ entryReads D (loopNumbers D p buf), l ∈ ownSectors D p
  writes : ∀ l, l ∉ ownSectors D' p' → ¬InBitmap sb l → ¬FreeBlock sb B l → D' l = D l
  earlier : ∀ l ∈ ownSectors D p, l ∈ ownSectors D' p' ∧ (l ≠ place.lba → D' l = D l) ∧
    (l = place.lba → ∀ k < SECTOR_SIZE, place.cursor.buf k = D l k)

/-! ### The sectors that are read -/

section
variable {D : Disk} {p : Inode} {buf : Bytes} {lba l : Nat} {ws zs : List Nat}

/-- With room in a direct sector, only direct sectors are read. -/
theorem reads_direct (hfind : (directNumbers p).find? (hasRoom D) = some lba)
    (hl : l ∈ entryReads D (loopNumbers D p buf)) : l ∈ ownSectors D p := by
  rw [loopNumbers, entryReads_of_some hfind] at hl
  obtain ⟨hmem, hne⟩ := mem_entryReads hl
  exact mem_own_iff.mpr ⟨.inl hmem, hne⟩

/-- With an index block, the sectors that are read are in it or direct. -/
theorem reads_indexed (hne : p.iSectors 12 ≠ 0) (hl : l ∈ entryReads D (loopNumbers D p buf)) :
    l ∈ ownSectors D p := by
  rw [loopNumbers, if_neg hne] at hl
  obtain ⟨hmem, hne⟩ := mem_entryReads hl
  exact mem_own_iff.mpr ⟨List.mem_append.mp hmem, hne⟩

/-- With a new index block, the loops read the words up to the first zero or free entry. -/
theorem entryReads_newIndex (hdirect : (directNumbers p).find? (hasRoom D) = none)
    (hzero : p.iSectors 12 = 0) (hsplit : indexWords buf = ws ++ lba :: zs)
    (hfull : ∀ w ∈ ws, hasRoom D w = false) :
    entryReads D (loopNumbers D p buf) = directNumbers p ++ (ws ++ entryReads D (lba :: zs)) := by
  have hnone : ws.find? (hasRoom D) = none :=
    List.find?_eq_none.mpr fun w hw => by simp [hfull w hw]
  rw [loopNumbers, if_pos hzero, entryReads_of_full hdirect, hsplit, entryReads_of_full hnone]

/-- The direct sectors that are read are on the disk. -/
theorem ReadsOnDisk.direct (h : ReadsOnDisk D p buf) :
    ∀ l ∈ entryReads D (directNumbers p), l ≤ MAX_LBA := fun l hl =>
  h.reads l (mem_entryReads_append hl)

/-- The direct sectors that are full. -/
theorem own_of_direct (hdirect : (directNumbers p).find? (hasRoom D) = none)
    (hl : l ∈ directNumbers p) : l ∈ ownSectors D p := by
  have hfull : hasRoom D l = false := by simpa using List.find?_eq_none.mp hdirect l hl
  exact mem_own_iff.mpr ⟨.inl hl, (hasRoom_eq_false.mp hfull).1⟩

/-- The first sector with room is a direct one, or one of the index block. -/
theorem room_eq (D : Disk) (p : Inode) : room D p =
    ((directNumbers p).find? (hasRoom D)).or ((sectorsAt D p 12).find? (hasRoom D)) :=
  List.find?_append

/-- Without room in both there is none. -/
theorem room_eq_none (hdirect : (directNumbers p).find? (hasRoom D) = none)
    (hwords : (sectorsAt D p 12).find? (hasRoom D) = none) : room D p = none := by
  rw [room_eq, hdirect, hwords]
  rfl

end

/-! ### The entry -/

/-- The disk and the inode of the directory when the `entry` is written. -/
structure Behind (sb : SuperBlock) (place : DirPlace) (entry : Bytes) (D' : Disk)
    (p' : Inode) : Prop where
  disk : ∀ l, ¬InBitmap sb l → ¬FreeBlock sb place.cursor.blockBitmap l →
    D' l = (entryWritten place entry).disk l
  dir : p'.iSectors = place.cursor.dir.iSectors

section
variable {sb : SuperBlock} {current : Tid} {c : DirCursor} {place : DirPlace} {entry : Bytes}
  {D' : Disk} {p' : Inode} {lba block l : Nat} {ws zs : List Nat}

/-- The sectors that a call of `dir_write` leaves alone. -/
theorem Behind.of_ne (h : Behind sb place entry D' p')
    (hgrown : Grown c.blockBitmap place.cursor.blockBitmap)
    (hframe : ∀ l, ¬InBitmap sb l → place.cursor.disk l = c.disk l) (hbitmap : ¬InBitmap sb l)
    (hfree : ¬FreeBlock sb c.blockBitmap l) (hl : l ≠ place.lba)
    (hsecond : place.isSecond = true → l ≠ place.cursor.dir.iSectors 12) : D' l = c.disk l := by
  have hfree' : ¬FreeBlock sb place.cursor.blockBitmap l := fun h' => hfree (hgrown.free h')
  rw [h.disk l hbitmap hfree', (entryPut_written sb place entry).frame l hl hsecond hbitmap hfree',
    hframe l hbitmap]

/-- The sector with the entry. -/
theorem Behind.entry_at (h : Behind sb place entry D' p')
    (hused : Used sb place.cursor.blockBitmap place.lba)
    (hlayout : sb.blockBitmapLba + sb.blockBitmapSects ≤ sb.dataStartLba)
    (hsecond : place.isSecond = true → place.lba ≠ place.cursor.dir.iSectors 12) {k : Nat}
    (hk : k < SECTOR_SIZE) : D' place.lba k = entry k := by
  rw [h.disk _ (hused.not_inBitmap hlayout) fun hfree => hfree.2 hused, entryWritten]
  have hwrite : ideWrite place.cursor.disk place.lba entry 0 1 place.lba k = entry k :=
    (ideWrite_one hk).trans (by rw [Nat.zero_add])
  split
  next htrue => exact (congrFun (ideWrite_of_ne (hsecond htrue)) k).trans hwrite
  next => exact hwrite

/-- The new index block. -/
theorem Behind.index_at (h : Behind sb place entry D' p') (hsecond : place.isSecond = true)
    (hlayout : sb.blockBitmapLba + sb.blockBitmapSects ≤ sb.dataStartLba)
    (hused : Used sb place.cursor.blockBitmap (place.cursor.dir.iSectors 12)) {k : Nat}
    (hk : k < SECTOR_SIZE) : D' (place.cursor.dir.iSectors 12) k = entry (SECTOR_SIZE + k) := by
  rw [h.disk _ (hused.not_inBitmap hlayout) fun hfree => hfree.2 hused, entryWritten,
    if_pos hsecond]
  exact ideWrite_one hk

/-- The entry is kept when the directory has its sector, and no other new one. -/
theorem entryKept_of_own (h : Behind sb place entry D' p') (hway : OnTheWay sb c place)
    (hlayout : sb.blockBitmapLba + sb.blockBitmapSects ≤ sb.dataStartLba)
    (hused : ∀ l ∈ ownSectors c.disk c.dir, Used sb c.blockBitmap l)
    (hown : ∀ l, l ∈ ownSectors D' p' ↔ l ∈ ownSectors c.disk c.dir ∨ l = place.lba)
    (hsecond : place.isSecond = true → FreeBlock sb c.blockBitmap (place.cursor.dir.iSectors 12) ∧
      place.lba ≠ place.cursor.dir.iSectors 12)
    (hblock : place.lba ∈ ownSectors c.disk c.dir ∧
        (∀ k < SECTOR_SIZE, place.cursor.buf k = c.disk place.lba k) ∨
      FreeBlock sb c.blockBitmap place.lba)
    (hreads : ∀ l ∈ entryReads c.disk (loopNumbers c.disk c.dir c.buf),
    l ∈ ownSectors c.disk c.dir) :
    EntryKept sb c.blockBitmap c.disk D' c.dir p' c.buf place entry where
  slot := hway.slot
  owned := (hown _).mpr (.inr rfl)
  block := hblock.imp_left And.left
  stored := fun k hk => h.entry_at hway.used hlayout (fun htrue => (hsecond htrue).2) hk
  sectors := fun l hl => (hown l).mp hl
  reads := hreads
  writes := fun l hl hbitmap hfree => by
    refine h.of_ne hway.grown hway.frame hbitmap hfree (fun heq => hl ((hown l).mpr (.inr heq)))
      fun htrue heq => ?_
    exact hfree (heq ▸ (hsecond htrue).1)
  earlier := fun l hl => by
    have hmarked := hused l hl
    refine ⟨(hown l).mpr (.inl hl), fun hne => ?_, fun heq k hk => ?_⟩
    · refine h.of_ne hway.grown hway.frame (hmarked.not_inBitmap hlayout)
        (fun hfree => hfree.2 hmarked) hne fun htrue heq => ?_
      exact (hsecond htrue).1.2 (heq ▸ hmarked)
    · -- a sector that was in use is the one of the entry only if it had room
      rcases hblock with ⟨-, hbuf⟩ | hfree
      · rw [heq]
        exact hbuf k hk
      · exact absurd (heq ▸ hmarked) hfree.2

/-- A sector behind the metadata. -/
theorem FreeBlock.ne_zero {B : Bitmap} (h : FreeBlock sb B l) (hboot : 0 < sb.blockBitmapLba)
    (hlayout : sb.blockBitmapLba + sb.blockBitmapSects ≤ sb.dataStartLba) : l ≠ 0 := by
  have hle := h.1
  omega

/-- A place that is not in a new index block leaves the old index block alone. -/
theorem Behind.index_of_ne (h : Behind sb place entry D' p')
    (hgrown : Grown c.blockBitmap place.cursor.blockBitmap)
    (hframe : ∀ l, ¬InBitmap sb l → place.cursor.disk l = c.disk l)
    (hlayout : sb.blockBitmapLba + sb.blockBitmapSects ≤ sb.dataStartLba)
    (hindex : c.dir.iSectors 12 ≠ 0 → Used sb c.blockBitmap (c.dir.iSectors 12) ∧
      c.dir.iSectors 12 ∉ ownSectors c.disk c.dir)
    (hsecond : place.isSecond = false)
    (hblock : place.lba ∈ ownSectors c.disk c.dir ∨ FreeBlock sb c.blockBitmap place.lba)
    (hne : c.dir.iSectors 12 ≠ 0) : D' (c.dir.iSectors 12) = c.disk (c.dir.iSectors 12) := by
  obtain ⟨hused, hnot⟩ := hindex hne
  refine h.of_ne hgrown hframe (hused.not_inBitmap hlayout) (fun hfree => hfree.2 hused)
    (fun heq => ?_) fun htrue => ?_
  · rcases hblock with hown | hfree
    · exact hnot (heq ▸ hown)
    · exact hfree.2 (heq ▸ hused)
  · rw [hsecond] at htrue
    cases htrue

/-- The directory names the sectors that it had. -/
theorem Behind.own_old (h : Behind sb place entry D' p') (hdir : place.cursor.dir.iSectors
    = c.dir.iSectors)
    (hindex : c.dir.iSectors 12 ≠ 0 → D' (c.dir.iSectors 12) = c.disk (c.dir.iSectors 12)) :
    ownSectors D' p' = ownSectors c.disk c.dir := by
  have hread : readSectors D' p' = readSectors c.disk c.dir :=
    readSectors_congr (fun k _ => by rw [h.dir, hdir]) hindex
  rw [ownSectors, hread, ownSectors]

/-- A new direct sector. -/
theorem mem_direct_update {f : Nat → Nat} {idx : Nat} (hidx : idx < 12) (hzero : f idx = 0)
    (hl : l ≠ 0) : l ∈ (List.range 12).map (Function.update f idx lba) ↔
      l ∈ (List.range 12).map f ∨ l = lba := by
  simp only [List.mem_map, List.mem_range]
  constructor
  · rintro ⟨k, hk, rfl⟩
    by_cases heq : k = idx
    · subst heq
      exact .inr (Function.update_self _ _ _)
    · exact .inl ⟨k, hk, (Function.update_of_ne heq _ _).symm⟩
  · rintro (⟨k, hk, rfl⟩ | rfl)
    · have hne : k ≠ idx := fun heq => hl (heq ▸ hzero)
      exact ⟨k, hk, Function.update_of_ne hne _ _⟩
    · exact ⟨idx, hidx, Function.update_self _ _ _⟩

/-- The places that last. -/
theorem Lasting.own (h : Behind sb place entry D' p') (hway : OnTheWay sb c place)
    (hboot : 0 < sb.blockBitmapLba)
    (hlayout : sb.blockBitmapLba + sb.blockBitmapSects ≤ sb.dataStartLba)
    (hindex : c.dir.iSectors 12 ≠ 0 → Used sb c.blockBitmap (c.dir.iSectors 12) ∧
      c.dir.iSectors 12 ∉ ownSectors c.disk c.dir) (hlast : Lasting sb c place) :
    l ∈ ownSectors D' p' ↔ l ∈ ownSectors c.disk c.dir ∨ l = place.lba := by
  cases hlast with
  | old hsecond hdir hown hbuf =>
      rw [h.own_old (congrArg Inode.iSectors hdir)
        (h.index_of_ne hway.grown hway.frame hlayout hindex hsecond (.inl hown))]
      constructor
      · exact .inl
      · rintro (hl | rfl)
        · exact hl
        · exact hown
  | direct hsecond idx hidx hzero hfree hdir =>
      have htwelve : p'.iSectors 12 = c.dir.iSectors 12 := by
        rw [h.dir, hdir, Function.update_of_ne (by omega)]
      -- The new direct sector is not the index block, so the words there stay.
      have hwords : sectorsAt D' p' 12 = sectorsAt c.disk c.dir 12 := by
        rw [sectorsAt, sectorsAt, htwelve]
        split
        next => rfl
        next hne => rw [h.index_of_ne hway.grown hway.frame hlayout hindex hsecond (.inr hfree) hne]
      have hnumbers : l ≠ 0 → (l ∈ directNumbers p' ↔ l ∈ directNumbers c.dir ∨ l = place.lba) := by
        intro hl
        rw [directNumbers, h.dir, hdir]
        exact mem_direct_update hidx hzero hl
      rw [mem_own_iff, mem_own_iff, hwords]
      by_cases hl : l = 0
      · have hne := hfree.ne_zero hboot hlayout
        refine iff_of_false (fun hmem => hmem.2 hl) ?_
        rintro (hmem | heq)
        · exact hmem.2 hl
        · exact hne (heq ▸ hl)
      · rw [hnumbers hl]
        tauto

/-- The sectors of a directory with a new index block. -/
theorem NewIndex.own (h : Behind sb place entry D' p') (hnew : NewIndex sb c place block ws zs)
    (hlayout : sb.blockBitmapLba + sb.blockBitmapSects ≤ sb.dataStartLba)
    (hboot : 0 < sb.blockBitmapLba) (hzero : c.dir.iSectors 12 = 0)
    (hentry : ∀ k, SECTOR_SIZE ≤ k → entry k = place.cursor.buf k) :
    l ∈ ownSectors D' p' ↔ l ∈ ownSectors c.disk c.dir ∨
    (l ∈ ws ∨ l = place.lba ∨ l ∈ zs) ∧ l ≠ 0 := by
  have hblock : place.cursor.dir.iSectors 12 = block := by rw [hnew.dir, Function.update_self]
  have hnumbers : directNumbers p' = directNumbers c.dir := by
    refine List.map_congr_left fun k hk => ?_
    have hlt : k < 12 := List.mem_range.mp hk
    rw [h.dir, hnew.dir, Function.update_of_ne (by omega)]
  have hwords : sectorsAt D' p' 12 = ws ++ place.lba :: zs := by
    have hne : p'.iSectors 12 ≠ 0 := by
      rw [h.dir, hblock]
      exact hnew.index.ne_zero hboot hlayout
    rw [sectorsAt, if_neg hne, if_pos rfl, ← hnew.words]
    refine List.map_congr_left fun t ht => ?_
    have ht' : t < 128 := List.mem_range.mp ht
    refine loadLE_shift (SECTOR_SIZE + 4 * t) fun j hj => ?_
    have hlt : 4 * t + j < SECTOR_SIZE := by
      show 4 * t + j < 512
      omega
    have hat : D' block (4 * t + j) = entry (SECTOR_SIZE + (4 * t + j)) :=
      hblock ▸ h.index_at hnew.second hlayout (hblock.symm ▸ hnew.used) hlt
    rw [h.dir, hblock, hat, hentry _ (by omega), Nat.add_assoc]
  rw [mem_own_iff, mem_own_direct hzero, hnumbers, hwords, List.mem_append, List.mem_cons]
  tauto

end

/-! ### The two directions -/

section
variable {sb : SuperBlock} {current : Tid} {c : DirCursor} {m : Nat}

/-- The blocks of the directory of a cursor. -/
structure CursorBlocks (sb : SuperBlock) (c : DirCursor) : Prop where
  boot : 0 < sb.blockBitmapLba
  layout : sb.blockBitmapLba + sb.blockBitmapSects ≤ sb.dataStartLba
  bits : BitsFit sb c.blockBitmap
  used : ∀ l ∈ ownSectors c.disk c.dir, Used sb c.blockBitmap l
  index : c.dir.iSectors 12 ≠ 0 → Used sb c.blockBitmap (c.dir.iSectors 12) ∧
    c.dir.iSectors 12 ∉ ownSectors c.disk c.dir

/-- With a lasting place, the entry is kept: the inode on the disk leads to its sector. -/
theorem entryKept_lasting {place : DirPlace} {entry : Bytes} {D' : Disk} {p' : Inode}
    (h : CursorBlocks sb c) (hway : OnTheWay sb c place) (hlast : Lasting sb c place)
    (hbehind : Behind sb place entry D' p')
    (hreads : ∀ l ∈ entryReads c.disk (loopNumbers c.disk c.dir c.buf),
    l ∈ ownSectors c.disk c.dir) :
    EntryKept sb c.blockBitmap c.disk D' c.dir p' c.buf place entry := by
  have hsecond : place.isSecond ≠ true := by
    cases hlast with
    | old hsecond => simp [hsecond]
    | direct hsecond => simp [hsecond]
  refine entryKept_of_own hbehind hway h.layout h.used
    (fun l => hlast.own hbehind hway h.boot h.layout h.index) (fun htrue => absurd htrue hsecond) ?_
    hreads
  cases hlast with
  | old _ _ hown hbuf => exact .inl ⟨hown, hbuf⟩
  | direct _ _ _ _ hfree => exact .inr hfree

/-- A sector that the directory has takes no block. -/
theorem bitmap_of_room {place : DirPlace} {lba : Nat} (hfit : BitsFit sb c.blockBitmap)
    (hroom : room c.disk c.dir = some lba) (hne : lba ≠ 0)
    (hok : findPlace sb c current = .ok place) : place.cursor.blockBitmap = c.blockBitmap := by
  rcases findPlace_ok hfit hok with ⟨-, l, hfind, hplace⟩ | ⟨hnone, -⟩
  · obtain rfl := Option.some.inj (hroom.symm.trans hfind)
    rcases hplace with ⟨-, hold⟩ | ⟨hzero, -⟩
    · exact hold.blockBitmap
    · exact absurd hzero hne
  · rw [hroom] at hnone
    cases hnone

/-- The loops come to a place, and the entry is kept there. -/
theorem findPlace_of_canGrow (h : CursorBlocks sb c) (hd : ReadsOnDisk c.disk c.dir c.buf)
    (hgrow : CanGrow sb c.blockBitmap current c.disk c.dir c.buf m) :
    ∃ place rest, findPlace sb c current = .ok place ∧ rest.length = m ∧
      Allocs sb current rest place.cursor.blockBitmap ∧ OnTheWay sb c place ∧
      ∀ entry D' p', Behind sb place entry D' p' →
        (place.slot = 0 → ∀ k, SECTOR_SIZE ≤ k → entry k = place.cursor.buf k) →
        EntryKept sb c.blockBitmap c.disk D' c.dir p' c.buf place entry := by
  cases hgrow with
  | room lba hroom hne rest hlen halloc =>
      -- An old sector with room: one of the direct ones, or one that the index block names.
      have hlasts : ∃ place, findPlace sb c current = .ok place ∧ Lasting sb c place ∧
          OnTheWay sb c place := by
        rw [room_eq] at hroom
        cases hdirect : (directNumbers c.dir).find? (hasRoom c.disk) with
        | some l =>
            rw [hdirect] at hroom
            obtain rfl := Option.some.inj hroom
            exact findPlace_direct h.used hd.direct hdirect hne
        | none =>
            rw [hdirect, Option.none_or] at hroom
            have hne₁₂ : c.dir.iSectors 12 ≠ 0 := by
              intro hzero
              rw [sectorsAt, if_pos hzero] at hroom
              cases hroom
            have hreads := hd.reads
            rw [loopNumbers, if_neg hne₁₂] at hreads
            exact findPlace_indexed h.used hreads (hd.index hdirect) hdirect hroom hne
      obtain ⟨place, hplace, hlast, hway⟩ := hlasts
      refine ⟨place, rest, hplace, hlen, bitmap_of_room h.bits hroom hne hplace ▸ halloc, hway,
        fun entry D' p' hbehind _ => entryKept_lasting h hway hlast hbehind fun l hl => ?_⟩
      rw [room_eq] at hroom
      cases hdirect : (directNumbers c.dir).find? (hasRoom c.disk) with
      | some l' => exact reads_direct hdirect hl
      | none =>
          refine reads_indexed (fun hzero => ?_) hl
          rw [hdirect, sectorsAt, if_pos hzero] at hroom
          cases hroom
  | direct hfind lba rest hlen halloc =>
      obtain ⟨place, hplace, hlast, hway, hrest⟩ := findPlace_new h.bits halloc hd.direct hfind
      refine ⟨place, rest, hplace, hlen, hrest, hway, fun entry D' p' hbehind _ => ?_⟩
      exact entryKept_lasting h hway hlast hbehind fun l => reads_direct hfind
  | index hroom hzero block lba rest hlen halloc ws zs hsplit hws hzs =>
      rw [room_eq, Option.or_eq_none_iff] at hroom
      obtain ⟨hdirect, -⟩ := hroom
      have hreads := hd.reads
      rw [entryReads_newIndex hdirect hzero hsplit fun w hw => own_full hdirect hzero w (hws w hw)]
        at hreads
      obtain ⟨place, hplace, rfl, hnew, hway, hrest⟩ :=
        findPlace_newIndex h.bits h.layout h.used halloc hd.direct hdirect hzero hsplit fun w hw =>
          ⟨hws w hw, hreads w (List.mem_append_right _ (List.mem_append_left _ hw))⟩
      refine ⟨place, rest, hplace, hlen, hrest, hway, fun entry D' p' hbehind hentry => ?_⟩
      -- The new index block gets the words of the buffer, with the new sector for the first zero.
      have hindex : place.cursor.dir.iSectors 12 = block := by rw [hnew.dir, Function.update_self]
      refine entryKept_of_own hbehind hway h.layout h.used (fun l => ?_)
        (fun _ => hindex.symm ▸ ⟨hnew.index, hnew.ne⟩) (.inr hnew.free) fun l hl => ?_
      · have hne := hnew.free.ne_zero h.boot h.layout
        rw [hnew.own hbehind h.layout h.boot hzero (hentry hnew.slot)]
        constructor
        · rintro (hl | ⟨hl | hl | hl, hl₀⟩)
          · exact .inl hl
          · exact .inl (hws l hl)
          · exact .inr hl
          · exact (hzs l hl).resolve_left hl₀
        · rintro (hl | rfl)
          · exact .inl hl
          · exact .inr ⟨.inr (.inl rfl), hne⟩
      · rw [entryReads_newIndex hdirect hzero hsplit fun w hw =>
          own_full hdirect hzero w (hws w hw),
          List.mem_append, List.mem_append, entryReads, if_pos rfl] at hl
        rcases hl with hl | hl | hl
        · exact own_of_direct hdirect hl
        · exact hws l hl
        · cases hl

/-- The loop over an old index block leaves the inode alone. -/
theorem findPlace_dir {place : DirPlace} (hfit : BitsFit sb c.blockBitmap)
    (hdirect : (directNumbers c.dir).find? (hasRoom c.disk) = none) (hne : c.dir.iSectors 12 ≠ 0)
    (hok : findPlace sb c current = .ok place) : place.cursor.dir = c.dir := by
  obtain ⟨c', hscanned, hskip⟩ := findDirect_full sb current (findPlace_directReads hok) hdirect
  cases findPlace_foundBy hok with
  | direct c₁ hfound => cases hskip.symm.trans hfound
  | newIndex c₁ c₂ block hnone hzero halloc hindexed =>
      cases hskip.symm.trans hnone
      exact absurd (by rwa [hscanned.dir] at hzero) hne
  | oldIndex c₁ hnone hne' _ hindexed =>
      cases hskip.symm.trans hnone
      exact (findIndexed_ok (hscanned.blockBitmap.symm ▸ hfit) hindexed).2.1.trans hscanned.dir

/-- In an old index block, a new sector is lost. -/
theorem not_owned_indexed {place : DirPlace} {entry : Bytes} {D' : Disk} {p' : Inode}
    (h : CursorBlocks sb c) (hok : findPlace sb c current = .ok place)
    (hbehind : Grown c.blockBitmap place.cursor.blockBitmap → Behind sb place entry D' p')
    (hdirect : (directNumbers c.dir).find? (hasRoom c.disk) = none) (hne : c.dir.iSectors 12 ≠ 0)
    (hroom : room c.disk c.dir = some 0) : place.lba ∉ ownSectors D' p' := by
  have hdir := findPlace_dir h.bits hdirect hne hok
  rcases findPlace_ok h.bits hok with ⟨hsecond, l, hfind, hplace⟩ | ⟨-, hzero, -⟩
  · obtain rfl := Option.some.inj (hroom.symm.trans hfind)
    rcases hplace with ⟨hl, -⟩ | ⟨-, hnew⟩
    · exact absurd rfl hl
    · have hput := hbehind hnew.grown
      rw [hput.own_old (congrArg Inode.iSectors hdir)
        (hput.index_of_ne hnew.grown hnew.frame h.layout h.index hsecond (.inr hnew.free))]
      exact fun hown => hnew.free.2 (h.used _ hown)
  · exact absurd hzero hne

/-- The loop over a new index block finds a number at which it stops. -/
theorem indexWords_find {place : DirPlace} (h : CursorBlocks sb c)
    (hdirect : (directNumbers c.dir).find? (hasRoom c.disk) = none) (hzero : c.dir.iSectors 12 = 0)
    (hok : findPlace sb c current = .ok place)
    (hreads : ∀ l ∈ entryReads c.disk (loopNumbers c.disk c.dir c.buf),
    l ∈ ownSectors c.disk c.dir) :
    ∃ ws zs, indexWords c.buf = ws ++ 0 :: zs ∧ ∀ w ∈ ws, w ∈ ownSectors c.disk c.dir := by
  have hfull := own_full hdirect hzero
  cases hfind : (indexWords c.buf).find? (hasRoom c.disk) with
  | some w =>
      obtain ⟨hroom, ws, zs, hsplit, hws⟩ := List.find?_eq_some_iff_append.mp hfind
      have hws' : ∀ w ∈ ws, hasRoom c.disk w = false := fun w hw => by simpa using hws w hw
      rw [entryReads_newIndex hdirect hzero hsplit hws'] at hreads
      by_cases hw : w = 0
      · subst hw
        refine ⟨ws, zs, hsplit, fun w hw => hreads w ?_⟩
        exact List.mem_append_right _ (List.mem_append_left _ hw)
      · -- a sector with a free entry is not one of the full sectors of the directory
        have hsome : (freeSlot (c.disk w)).isSome = true := by
          rwa [hasRoom, decide_eq_false hw, Bool.false_or] at hroom
        have hmem : w ∈ ownSectors c.disk c.dir := by
          refine hreads w (List.mem_append_right _ (List.mem_append_right _ ?_))
          rw [entryReads, if_neg hw, if_pos hsome]
          exact List.mem_singleton_self w
        rw [hfull w hmem] at hroom
        cases hroom
  | none =>
      -- the loop goes over all of the words, and nothing is left but `PANIC`
      have hall : ∀ w ∈ indexWords c.buf, w ∈ ownSectors c.disk c.dir := by
        intro w hw
        refine hreads w ?_
        have hsame : entryReads c.disk (indexWords c.buf ++ []) = indexWords c.buf ++ [] :=
          entryReads_of_full hfind
        rw [List.append_nil] at hsame
        rw [loopNumbers, if_pos hzero, entryReads_of_full hdirect, hsame]
        exact List.mem_append_right _ (List.mem_append_left _ hw)
      obtain ⟨c₁, c₂, block, hscanned, halloc₂, hindexed⟩ :=
        findPlace_inNewIndex hdirect hzero hok
      obtain ⟨hwords, hdisk⟩ := newIndex_start hscanned h.bits h.layout h.used halloc₂
      obtain ⟨c₃, hc₃⟩ : ∃ c₃, c₃ = (c₂.setSector 12 block).clear := ⟨_, rfl⟩
      rw [← hc₃] at hwords hdisk hindexed
      have hpass : ∀ j ∈ List.range (SECTOR_SIZE / 4), hasRoom c₃.disk (indexWord c₃.buf j)
          = false := by
        intro j hj
        have hmem : indexWord c₃.buf j ∈ ownSectors c.disk c.dir := by
          refine hall _ ?_
          rw [← hwords]
          exact List.mem_map_of_mem hj
        rw [hasRoom_congr (hdisk _ hmem)]
        exact hfull _ hmem
      have hnone : (indexWords c₃.buf).find? (hasRoom c₃.disk) = none := by
        rw [List.find?_eq_none]
        intro w hw
        obtain ⟨j, hj, rfl⟩ := List.mem_map.mp hw
        simp [hpass j hj]
      have hsame : entryReads c₃.disk (indexWords c₃.buf ++ []) = indexWords c₃.buf ++ [] :=
        entryReads_of_full hnone
      rw [List.append_nil] at hsame
      have hreads₃ := findIndexed_reads hindexed
      rw [← indexWords, hsame] at hreads₃
      obtain ⟨c₄, -, hskip₄⟩ := findIndexed_skip sb true current [] hpass fun j hj =>
        hreads₃ _ (List.mem_map_of_mem hj)
      rw [List.append_nil, findIndexed] at hskip₄
      rw [hskip₄] at hindexed
      cases hindexed

/-- The part of the loops with an old index block. -/
theorem indexed_of_findPlace {place : DirPlace}
    (hdirect : (directNumbers c.dir).find? (hasRoom c.disk) = none) (hne : c.dir.iSectors 12 ≠ 0)
    (hok : findPlace sb c current = .ok place) :
    c.dir.iSectors 12 ≤ MAX_LBA ∧ ∀ l ∈ entryReads c.disk (sectorsAt c.disk c.dir 12),
      l ≤ MAX_LBA := by
  obtain ⟨c', hscanned, hskip⟩ := findDirect_full sb current (findPlace_directReads hok) hdirect
  cases findPlace_foundBy hok with
  | direct c₁ hfound => cases hskip.symm.trans hfound
  | newIndex c₁ c₂ block hnone hzero halloc hindexed =>
      cases hskip.symm.trans hnone
      exact absurd (by rwa [hscanned.dir] at hzero) hne
  | oldIndex c₁ hnone hne' hlba hindexed =>
      cases hskip.symm.trans hnone
      rw [hscanned.dir] at hlba
      refine ⟨hlba, ?_⟩
      have hreads := findIndexed_reads hindexed
      have hwords : (List.range (SECTOR_SIZE / 4)).map (indexWord
          (ideRead c'.disk (c'.dir.iSectors 12) c'.buf SECTOR_SIZE 1))
            = sectorsAt c.disk c.dir 12 := by
        rw [sectorsAt, if_neg hne, if_pos rfl, hscanned.dir, hscanned.disk]
        exact List.map_congr_left fun t ht => load32_index (List.mem_range.mp ht)
      dsimp only at hreads
      rwa [hwords, hscanned.disk] at hreads

/-- When the loops come to a place and read no other sectors than the directory's, these are on the
disk. -/
theorem onDisk_of_findPlace {place : DirPlace} (h : CursorBlocks sb c)
    (hok : findPlace sb c current = .ok place)
    (hreads : ∀ l ∈ entryReads c.disk (loopNumbers c.disk c.dir c.buf),
    l ∈ ownSectors c.disk c.dir) : ReadsOnDisk c.disk c.dir c.buf := by
  have hdirectReads := findPlace_directReads hok
  cases hdirect : (directNumbers c.dir).find? (hasRoom c.disk) with
  | some l =>
      refine ⟨?_, fun hnone => ?_⟩
      · rw [loopNumbers, entryReads_of_some hdirect]
        exact hdirectReads
      · rw [hdirect] at hnone
        cases hnone
  | none =>
      have hpast : ∀ l ∈ directNumbers c.dir, l ≤ MAX_LBA := by
        rw [entryReads_full hdirect] at hdirectReads
        exact hdirectReads
      by_cases hzero : c.dir.iSectors 12 = 0
      · -- the loop over the new index block runs on what the buffer holds, up to the first zero
        obtain ⟨ws, zs, hsplit, hws⟩ := indexWords_find h hdirect hzero hok hreads
        have hwords := newIndex_reads h.bits h.layout h.used hdirect hzero hsplit hws hok
        refine ⟨fun l hl => ?_, fun _ => hzero ▸ Nat.zero_le _⟩
        rw [entryReads_newIndex hdirect hzero hsplit fun w hw =>
          own_full hdirect hzero w (hws w hw),
          List.mem_append, List.mem_append, entryReads, if_pos rfl] at hl
        rcases hl with hl | hl | hl
        · exact hpast l hl
        · exact hwords l hl
        · cases hl
      · obtain ⟨hlba, hindexed⟩ := indexed_of_findPlace hdirect hzero hok
        refine ⟨fun l hl => ?_, fun _ => hlba⟩
        rw [loopNumbers, if_neg hzero, entryReads_of_full hdirect, List.mem_append] at hl
        exact hl.elim (hpast l) (hindexed l)

/-- When the entry is kept, the loops have come to a place that lasts. -/
theorem canGrow_of_kept {place : DirPlace} {rest : List Nat} {entry : Bytes}
    {D' : Disk} {p' : Inode}
    (h : CursorBlocks sb c) (hok : findPlace sb c current = .ok place) (hlen : rest.length = m)
    (hrest : Allocs sb current rest place.cursor.blockBitmap)
    (hlba : place.lba ≤ MAX_LBA)
    (hsecond : place.isSecond = true → place.cursor.dir.iSectors 12 ≤ MAX_LBA)
    (hbehind : Grown c.blockBitmap place.cursor.blockBitmap → Behind sb place entry D' p')
    (hentry : place.slot = 0 → ∀ k, SECTOR_SIZE ≤ k → entry k = place.cursor.buf k)
    (hkept : EntryKept sb c.blockBitmap c.disk D' c.dir p' c.buf place entry) :
    CanGrow sb c.blockBitmap current c.disk c.dir c.buf m := by
  cases hroom : room c.disk c.dir with
  | some lba =>
      by_cases hne : lba = 0
      · subst hne
        cases hdirect : (directNumbers c.dir).find? (hasRoom c.disk) with
        | some l =>
            rw [room_eq, hdirect, Option.some_or] at hroom
            obtain rfl := Option.some.inj hroom
            exact .direct hdirect place.lba rest hlen (allocs_of_new hdirect hok hlba hrest)
        | none =>
            have hindex : c.dir.iSectors 12 ≠ 0 := by
              intro hzero
              rw [room_eq, hdirect, sectorsAt, if_pos hzero] at hroom
              cases hroom
            -- In an old index block the number of a new sector is not written to the disk.
            exact absurd hkept.owned (not_owned_indexed h hok hbehind hdirect hindex hroom)
      · exact .room lba hroom hne rest hlen (bitmap_of_room h.bits hroom hne hok ▸ hrest)
  | none =>
      rcases findPlace_ok h.bits hok with ⟨-, l, hfind, -⟩ | ⟨-, hzero, -⟩
      · have hsome : room c.disk c.dir = some l := hfind
        rw [hroom] at hsome
        cases hsome
      · rw [room_eq, Option.or_eq_none_iff] at hroom
        obtain ⟨hdirect, hwords⟩ := hroom
        obtain ⟨ws, zs, hsplit, hws⟩ := indexWords_find h hdirect hzero hok hkept.reads
        obtain ⟨block, halloc⟩ :=
          allocs_of_newIndex h.bits h.layout h.used hdirect hzero hsplit hws hok hlba hsecond hrest
        refine .index (room_eq_none hdirect hwords) hzero block place.lba rest hlen
          halloc ws zs hsplit hws fun w hw => ?_
        have hpast := newIndex_reads h.bits h.layout h.used hdirect hzero hsplit hws hok
        obtain ⟨place', hok', -, hnew, hway, -⟩ :=
          findPlace_newIndex h.bits h.layout h.used halloc (findPlace_directReads hok) hdirect hzero
            hsplit fun w hw => ⟨hws w hw, hpast w hw⟩
        obtain rfl : place = place' := Except.ok.inj (hok.symm.trans hok')
        by_cases hw₀ : w = 0
        · exact .inl hw₀
        · -- the index block on the disk has what was behind the zero
          refine .inr (hkept.sectors w ?_)
          exact (hnew.own (hbehind hway.grown) h.layout h.boot hzero (hentry hnew.slot)).mpr
            (.inr ⟨.inr (.inr hw), hw₀⟩)

end

/-! ### The call -/

section
variable {sb : SuperBlock} {place : DirPlace} {current : Tid} {i i' : Inode} {filename : Bytes}
  {n : Nat} {c : DirCursor} {rest : List Nat}

/-- `dir_write` behind the loops, up to the blocks of a new directory. -/
theorem putEntry_behind {p' : Inode} (hfit : BitsFit sb place.cursor.blockBitmap)
    (hok : putEntry sb place i filename n current = .ok (c, i'))
    (hp : p'.iSectors = c.dir.iSectors) :
    Behind sb place (writeSlot place.cursor.buf place.slot i.iMode i.iNo filename n) c.disk p' := by
  obtain ⟨entry, hentry⟩ : ∃ entry,
      entry = writeSlot place.cursor.buf place.slot i.iMode i.iNo filename n := ⟨_, rfl⟩
  have hbitmap := entryWritten_blockBitmap place entry
  have hdir : p'.iSectors = place.cursor.dir.iSectors :=
    hp.trans (congrArg Inode.iSectors (putEntry_dir hok))
  obtain ⟨-, -, hby⟩ := putEntry_by hok
  rw [← hentry] at hby
  rw [← hentry]
  cases hby with
  | file => exact ⟨fun _ _ _ => rfl, hdir⟩
  | dir hmode lba c₁ dots halloc =>
      obtain ⟨hfree, -, hframe, -⟩ :=
        allocBlock_free (c := entryWritten place entry) (hbitmap.symm ▸ hfit) halloc
      refine ⟨fun l hl hused => ?_, hdir⟩
      rw [hbitmap] at hfree
      have hne : l ≠ lba := by
        rintro rfl
        exact hused hfree
      exact (ideWrite_of_ne hne).trans (hframe l hl)

/-- The entry can be written when its place is on the disk and there are the blocks for it. -/
theorem putEntry_returns (halloc : Allocs sb current rest place.cursor.blockBitmap)
    (hlen : rest.length = dotBlocks i) (hlba : place.lba ≤ MAX_LBA)
    (hsecond : place.isSecond = true → place.cursor.dir.iSectors 12 ≤ MAX_LBA) (filename : Bytes)
    (n : Nat) :
    ∃ c i', putEntry sb place i filename n current = .ok (c, i') := by
  obtain ⟨entry, hentry⟩ : ∃ entry,
      entry = writeSlot place.cursor.buf place.slot i.iMode i.iNo filename n := ⟨_, rfl⟩
  rw [putEntry, ← hentry, storeEntry_ok.mpr ⟨hlba, hsecond, rfl⟩, ok_bind]
  by_cases hdir : i.iMode &&& 0xf000 = FT_DIR
  · rw [dotBlocks, if_pos hdir] at hlen
    obtain ⟨lba, rfl⟩ := List.length_eq_one_iff.mp hlen
    obtain ⟨c₁, hnew, -⟩ := allocBlock_of_allocs (c := entryWritten place entry)
      ((entryWritten_blockBitmap place entry).symm ▸ halloc)
    rw [if_pos hdir]
    exact ⟨_, _, bind_eq_ok.mpr ⟨(lba, c₁), hnew,
      bind_eq_ok.mpr ⟨(), writeCheck_le halloc.1, rfl⟩⟩⟩
  · rw [if_neg hdir]
    exact ⟨_, _, rfl⟩

/-- An entry that has been written had its blocks. -/
theorem allocs_of_putEntry (hok : putEntry sb place i filename n current = .ok (c, i')) :
    ∃ rest, rest.length = dotBlocks i ∧ Allocs sb current rest place.cursor.blockBitmap := by
  rw [dotBlocks]
  obtain ⟨-, -, hby⟩ := putEntry_by hok
  cases hby with
  | file hmode =>
      rw [if_neg hmode]
      exact ⟨[], rfl, trivial⟩
  | dir hmode lba c₁ dots halloc hlba =>
      have hblocks : Allocs sb current [lba] place.cursor.blockBitmap :=
        entryWritten_blockBitmap place _ ▸ allocs_of_allocBlock halloc hlba trivial
      rw [if_pos hmode]
      exact ⟨[lba], rfl, hblocks⟩

/-- The name of an entry stays in its sector when the entry is the first one. -/
theorem writeSlot_index {buf : Bytes} {j iMode iNo k : Nat} (hname : n ≤ SECTOR_SIZE) (hj : j = 0)
    (hk : SECTOR_SIZE ≤ k) : writeSlot buf j iMode iNo filename n k = buf k := by
  subst hj
  have hname' : n ≤ 512 := hname
  have hk' : 512 ≤ k := hk
  rw [writeSlot, Nat.mul_zero, storeLE_of_ne (by omega), strncpy_of_ne (by omega),
    storeLE_of_ne (by omega), storeLE_of_ne (by omega)]

end

section
variable {s s' : DirSys} {parent i n dm d : Nat} {buf buf' filename : Bytes} {current : Tid}
  {place : DirPlace} {c : DirCursor} {inode : Inode}

/-- Where the loops of a call start. -/
def dirCursor (s : DirSys) (parent : Nat) (buf : Bytes) : DirCursor :=
  ⟨s.fs.disk, s.fs.part.blockBitmap, inodeOf s parent, buf⟩

/-- The cursor of a call of `dir_write` starts with the blocks of the directory. -/
theorem DirBlocks.cursor (h : DirBlocks s parent) (buf : Bytes) :
    CursorBlocks s.fs.part.sb (dirCursor s parent buf) :=
  ⟨h.boot, h.layout, h.bits, h.used, h.index⟩

/-- A list without a head has no tail, so it takes another dentry. -/
theorem pushChild_returns (s : DirSys) (d : Nat) (hlist : (s.dentry parent).dSubdirs.head = none →
    (s.dentry parent).dSubdirs.tail = none) : ∃ s', s.pushChild parent d = .ok s' := by
  rw [DirSys.pushChild, listPushFront]
  by_cases hempty : (s.dentry parent).dSubdirs.head = none ∧ (s.dentry parent).dSubdirs.tail = none
  · rw [if_pos hempty]
    exact ⟨_, rfl⟩
  · rw [if_neg hempty]
    cases hhead : (s.dentry parent).dSubdirs.head with
    | none => exact absurd ⟨hhead, hlist hhead⟩ hempty
    | some head => exact ⟨_, rfl⟩

/-- `dir_write` returns when there is a place and the entry can be written. -/
theorem dirWrite_returns (hsize : (inodeOf s parent).iSize ≠ MAX_FILE_SIZE)
    (hlist : (s.dentry parent).dSubdirs.head = none → (s.dentry parent).dSubdirs.tail = none)
    (hplace : findPlace s.fs.part.sb (dirCursor s parent buf) current = .ok place)
    (hput : putEntry s.fs.part.sb place (s.fs.inode i) filename n current = .ok (c, inode)) :
    ∃ s', dirWrite s parent i buf filename n dm current = .ok (some dm, c.buf, s') := by
  obtain ⟨s₁, hs₁⟩ : ∃ s₁, s₁ = DirSys.setDentry
      { s with fs := ({ s.fs with disk := c.disk, part := { s.fs.part with
        blockBitmap := c.blockBitmap } } : FileSys).setInode i inode } dm
      { dParent := parent, fname := strncpy (fun _ => 0) 0 filename n, fnameLen := n, inode := i,
        count := 1, dSubdirs := listInit } := ⟨_, rfl⟩
  obtain ⟨s₂, hpush⟩ : ∃ s₂, s₁.pushChild parent dm = .ok s₂ := by
    refine pushChild_returns s₁ dm ?_
    rw [hs₁]
    show (Function.update s.dentry dm _ parent).dSubdirs.head = none →
      (Function.update s.dentry dm _ parent).dSubdirs.tail = none
    -- The two addresses may be the same, and then the list of children is a new one.
    by_cases heq : parent = dm
    · subst heq
      rw [Function.update_self]
      exact fun _ => rfl
    · rw [Function.update_of_ne heq]
      exact hlist
  rw [hs₁] at hpush
  refine ⟨{ s₂ with fs := s₂.fs.setInode (s.dentry parent).inode { c.dir with
    iSize := (c.dir.iSize + SIZEOF_DENTRY_DISK) % 2 ^ 32 } }, ?_⟩
  rw [dirWrite]
  refine (if_neg hsize).trans
    (bind_eq_ok.mpr ⟨place, hplace, bind_eq_ok.mpr ⟨(c, inode), hput, ?_⟩⟩)
  exact bind_eq_ok.mpr ⟨s₂, hpush, rfl⟩

/-- What a call that returns a dentry has done. -/
theorem dirWrite_parent
    (hok : dirWrite s parent i buf filename n dm current = .ok (some d, buf', s')) :
    ∃ place c inode, findPlace s.fs.part.sb (dirCursor s parent buf) current = .ok place ∧
      putEntry s.fs.part.sb place (s.fs.inode i) filename n current = .ok (c, inode) ∧
      s'.fs.disk = c.disk ∧
      (s'.fs.inode (s.dentry parent).inode).iSectors = c.dir.iSectors := by
  rw [dirWrite] at hok
  dsimp only at hok
  split at hok
  · cases hok
  · simp only [bind_eq_ok, pure_eq_ok] at hok
    obtain ⟨place, hplace, ⟨c, inode⟩, hput, s₁, hpush, hok⟩ := hok
    have hfs := pushChild_fs hpush
    cases hok
    refine ⟨place, c, inode, hplace, hput, ?_, ?_⟩
    · show s₁.fs.disk = c.disk
      rw [hfs]
      rfl
    · show ((s₁.fs.setInode (s.dentry parent).inode _).inode (s.dentry parent).inode).iSectors = _
      rw [FileSys.setInode_self]

end

/-- The entry is kept in no other case. -/
theorem canGrow_of_dirWrite {s s' : DirSys} {parent i n dm d : Nat} {buf buf' filename : Bytes}
    {current : Tid} {place : DirPlace} (h : DirBlocks s parent) (hname : n ≤ SECTOR_SIZE)
    (hok : dirWrite s parent i buf filename n dm current = .ok (some d, buf', s'))
    (hplace : findPlace s.fs.part.sb (dirCursor s parent buf) current = .ok place)
    (hkept : EntryKept s.fs.part.sb s.fs.part.blockBitmap s.fs.disk s'.fs.disk (inodeOf s parent)
      (s'.fs.inode (s.dentry parent).inode) buf place (writeSlot place.cursor.buf place.slot
        (s.fs.inode i).iMode (s.fs.inode i).iNo filename n)) :
    ReadsOnDisk s.fs.disk (inodeOf s parent) buf ∧
      CanGrow s.fs.part.sb s.fs.part.blockBitmap current s.fs.disk (inodeOf s parent) buf
        (dotBlocks (s.fs.inode i)) := by
  obtain ⟨place', c, inode, hplace', hput, hdisk, hdir⟩ := dirWrite_parent hok
  obtain rfl : place = place' := Except.ok.inj (hplace.symm.trans hplace')
  refine ⟨onDisk_of_findPlace (h.cursor buf) hplace hkept.reads, ?_⟩
  obtain ⟨rest, hlen, hrest⟩ := allocs_of_putEntry hput
  obtain ⟨hlba, hsecond, -⟩ := putEntry_by hput
  refine canGrow_of_kept (h.cursor buf) hplace hlen hrest hlba hsecond (fun hgrown => ?_)
    (fun hslot k hk => writeSlot_index hname hslot hk) hkept
  rw [hdisk]
  exact putEntry_behind (hgrown.bitsFit h.bits) hput hdir

section
variable {sb : SuperBlock} {current : Tid} {c c' : DirCursor} {place : DirPlace}

/-- The loop over the direct sectors does not touch the number of the index block. -/
theorem findDirect_index {idxs : List Nat} (hidxs : 12 ∉ idxs)
    (hok : findDirect sb current idxs c = .ok (some place, c')) :
    place.cursor.dir.iSectors 12 = c.dir.iSectors 12 := by
  induction idxs generalizing c with
  | nil => cases hok
  | cons idx rest ih =>
      obtain ⟨hidx, hrest⟩ := not_or.mp fun h => hidxs (List.mem_cons.mpr h)
      by_cases hzero : c.dir.iSectors idx = 0
      · rw [findDirect, if_pos hzero] at hok
        simp only [bind_eq_ok, pure_eq_ok, Except.ok.injEq] at hok
        obtain ⟨⟨lba, c₁⟩, halloc, _, rfl, hok⟩ := hok
        rw [freeSlot_clear] at hok
        cases hok
        show Function.update c₁.dir.iSectors idx lba 12 = c.dir.iSectors 12
        rw [Function.update_of_ne hidx, allocBlock_dir halloc]
      · rw [findDirect_read sb current rest hzero (findDirect_lba hzero hok)] at hok
        cases hslot : freeSlot (c.disk (c.dir.iSectors idx)) with
        | some slot =>
            rw [hslot] at hok
            cases hok
            rfl
        | none =>
            rw [hslot] at hok
            exact ih (c := c.load (c.dir.iSectors idx)) hrest hok

/-- A call takes a new index block, or keeps the one that there is. -/
theorem findPlace_index (hfit : BitsFit sb c.blockBitmap)
    (hok : findPlace sb c current = .ok place) :
    place.isSecond = true ∨ place.cursor.dir.iSectors 12 = c.dir.iSectors 12 := by
  cases findPlace_foundBy hok with
  | direct c₁ hdirect => exact .inr (findDirect_index (by decide) hdirect)
  | newIndex c₁ c₂ block hdirect hzero halloc hindexed =>
      have hscanned := (findDirect_none hfit hdirect).2
      have hfit₁ : BitsFit sb c₁.blockBitmap := hscanned.blockBitmap ▸ hfit
      obtain ⟨-, hgrown, -⟩ := allocBlock_free hfit₁ halloc
      exact .inl (findIndexed_ok (c := (c₂.setSector 12 block).clear)
        (hgrown.bitsFit hfit₁) hindexed).1
  | oldIndex c₁ hdirect hne _ hindexed =>
      have hscanned := (findDirect_none hfit hdirect).2
      have hdir := (findIndexed_ok (hscanned.blockBitmap.symm ▸ hfit) hindexed).2.1
      exact .inr (congrArg (fun p => p.iSectors 12) (hdir.trans hscanned.dir))

/-- The sectors that `search_dentry` and `dir_search_disk` read stay on the disk when `dir_write`
returns and keeps its entry. -/
theorem SectorsOnDisk.dirWrite {s s' : DirSys} {parent i n dm d : Nat} {buf buf' filename : Bytes}
    (h : DirBlocks s parent) (hsectors : SectorsOnDisk s.fs.disk (inodeOf s parent))
    (hok : dirWrite s parent i buf filename n dm current = .ok (some d, buf', s'))
    (hplace : findPlace s.fs.part.sb (dirCursor s parent buf) current = .ok place)
    (hkept : EntryKept s.fs.part.sb s.fs.part.blockBitmap s.fs.disk s'.fs.disk (inodeOf s parent)
      (s'.fs.inode (s.dentry parent).inode) buf place (writeSlot place.cursor.buf place.slot
        (s.fs.inode i).iMode (s.fs.inode i).iNo filename n)) :
    SectorsOnDisk s'.fs.disk (s'.fs.inode (s.dentry parent).inode) := by
  obtain ⟨place', c, inode, hplace', hput, -, hdir⟩ := dirWrite_parent hok
  obtain rfl : place = place' := Except.ok.inj (hplace.symm.trans hplace')
  obtain ⟨hlba, hsecond, -⟩ := putEntry_by hput
  constructor
  · intro l hl
    rcases hkept.sectors l hl with hold | rfl
    · exact hsectors.sectors l hold
    · exact hlba
  · rw [hdir, putEntry_dir hput]
    rcases findPlace_index (h.cursor buf).bits hplace with hnew | hold
    · exact hsecond hnew
    · exact hold ▸ hsectors.index

end

/-! ### A full directory -/

/-- A directory that is stored has its blocks. -/
theorem DirStored.blocks {s : DirSys} {startLba parent : Nat} {entries : List DirEntry}
    {ps : List Nat}
    (h : DirStored s startLba parent entries ps) (hlist : (s.dentry parent).dSubdirs.head = none →
      (s.dentry parent).dSubdirs.tail = none) : DirBlocks s parent where
  boot := Nat.zero_lt_of_lt h.boot
  layout := h.bitmap_le
  bits := h.bits
  used := h.used
  index := h.index
  list := hlist

/-- Sixteen files that fill the sector `t` of a directory: `aa`, `ab`, and so on. -/
def fullSector (t : Nat) : List DirEntry :=
  (List.range 16).map fun j =>
    ⟨[BitVec.ofNat 8 (0x61 + t), BitVec.ofNat 8 (0x61 + j)], FT_NORMAL, 16 * t + j⟩

/-- A root directory with 208 entries. Its twelve direct sectors are full, and so is the first
sector that the index block names. -/
def fullMounted : DirSys :=
  { fs :=
      { disk := fun lba =>
          if lba = 516 then sectorOf (rootFiles 14)
          else if lba = 528 then storeLE 4 (fun _ => 0) 0 529
          else if 516 < lba ∧ lba ≤ 529 then sectorOf (fullSector (lba - 516))
          else fun _ => 0
        part :=
          { sb := ⟨2, 1, 3, 1, 4, 516⟩
            blockBitmap := ⟨0, byteLE (2 ^ 14 - 1), 512, mutexLockInit⟩
            inodeBitmap := ⟨0, byteLE (2 ^ 224 - 1), 512, mutexLockInit⟩
            openInodes := ⟨some 16, some 16⟩ }
        inode := fun _ => ⟨0, 0, 6656, 1, rwlockInit, FT_DIR, fun k =>
          if k < 13 then 516 + k else 0⟩
        inodeTag := fun _ => ⟨none, none⟩ }
    dentry := fun _ => ⟨1, 16, cstring [SLASH], 1, 64, listInit⟩
    dChild := fun _ => ⟨none, none⟩ }

/-- The sectors of the directory: twelve direct ones, and one of the index block. -/
theorem fullMounted_own : ownSectors fullMounted.fs.disk (inodeOf fullMounted 64)
    = (List.range 12).map (516 + ·) ++ [529] := by decide +kernel

/-- Their blocks are in use. -/
theorem fullMounted_used {idx : Nat} (hidx : idx < 14) :
    Used fullMounted.fs.part.sb fullMounted.fs.part.blockBitmap (516 + idx) := by
  have hsize : idx < 8 * 512 := by omega
  have hrange : 516 + idx < 2 ^ 32 := by omega
  exact ⟨idx, hsize, rfl, hrange, byteLE_bit hidx⟩

/-- So the blocks of this directory are in order. -/
theorem fullMounted_blocks : DirBlocks fullMounted 64 where
  boot := by decide
  layout := by decide
  bits := fun idx hidx _ => by
    have hidx' : idx < 8 * 512 := hidx
    show 516 + idx < 2 ^ 32
    omega
  used := by
    intro lba hlba
    rw [fullMounted_own, List.mem_append, List.mem_map, List.mem_singleton] at hlba
    rcases hlba with ⟨idx, hidx, rfl⟩ | rfl
    · have hlt : idx < 12 := List.mem_range.mp hidx
      exact fullMounted_used (by omega)
    · exact fullMounted_used (by decide : 13 < 14)
  index := fun _ => by
    refine ⟨fullMounted_used (by decide : 12 < 14), ?_⟩
    rw [fullMounted_own]
    decide
  list := fun _ => rfl

end Fizzos.Proofs
