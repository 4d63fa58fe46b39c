import Fizzos.Proofs.FileBlocks

/-!
# `Fizzos.Proofs.FileWrite`: the loop of `file_write`

`cursorBlock` reads the table of block numbers off the variables of the loop. Up to sector 12 the
index block is on the disk, and behind it in `io_buf`. `Stage` is what every part of the body keeps,
and `WriteInv` holds between two rounds.

`is_sync_second` is false only while the index block on the disk is the one in `io_buf`. A round at
sector 12 finds either no index block, or one that has the sector already. So the round that sets an
entry without the flag does not exist.
-/

set_option autoImplicit false

namespace Fizzos.Proofs

open Fizzos.Device
open Fizzos.Fs
open Fizzos.Kernel
open Fizzos.Lib
open Fizzos.LibKernel
open Fizzos.Support

/-- The block numbers in the loop. `loaded` says that the index block is in `io_buf`. -/
def cursorBlock (loaded : Bool) (c : WriteCursor) (j : Nat) : Nat :=
  if loaded then
    if j = INDEX then c.inode.iSectors 12 else nextLba c.inode c.ioBuf j
  else blockOf c.disk c.inode j

/-- The index block on the disk is the one in `io_buf`. -/
def IndexSynced (c : WriteCursor) : Prop :=
  ∀ k < 512, c.disk (c.inode.iSectors 12) k = c.ioBuf (512 + k)

/-- The inode has other blocks only. -/
structure SameHead (a b : Inode) : Prop where
  iNo : b.iNo = a.iNo
  iMode : b.iMode = a.iMode
  iSize : b.iSize = a.iSize
  iFlags : b.iFlags = a.iFlags

theorem SameHead.trans {a b c : Inode} (h : SameHead a b) (h' : SameHead b c) : SameHead a c :=
  ⟨h'.iNo.trans h.iNo, h'.iMode.trans h.iMode, h'.iSize.trans h.iSize, h'.iFlags.trans h.iFlags⟩

/-- A part of the body leaves the place in the data alone. -/
structure SamePlace (c c' : WriteCursor) : Prop where
  count : c'.count = c.count
  src : c'.src = c.src
  offset : c'.offset = c.offset

/-- `block_bimap_alloc` works on the disk and the bitmap. -/
structure AllocFrame (c c' : WriteCursor) : Prop where
  inode : c'.inode = c.inode
  ioBuf : c'.ioBuf = c.ioBuf
  isSyncSecond : c'.isSyncSecond = c.isSyncSecond
  place : SamePlace c c'

theorem SamePlace.trans {c c' c'' : WriteCursor} (h : SamePlace c c') (h' : SamePlace c' c'') :
    SamePlace c c'' :=
  ⟨h'.count.trans h.count, h'.src.trans h.src, h'.offset.trans h.offset⟩

section
variable {c : WriteCursor} {loaded : Bool} {j sec lba : Nat}

theorem cursorBlock_index : cursorBlock loaded c INDEX = c.inode.iSectors 12 := by
  cases loaded with
  | true => rfl
  | false => rfl

theorem cursorBlock_direct (hj : j < 12) : cursorBlock loaded c j = c.inode.iSectors j := by
  have hne : j ≠ INDEX := Nat.ne_of_lt (Nat.lt_trans hj (by decide))
  cases loaded with
  | true => rw [cursorBlock, if_pos rfl, if_neg hne, nextLba, if_pos hj]
  | false => exact if_pos hj

/-- `*next_lba` is the block number. -/
theorem nextLba_eq (hsec : sec < INDEX) (hloaded : 12 ≤ sec → loaded = true) :
    nextLba c.inode c.ioBuf sec = cursorBlock loaded c sec := by
  by_cases hlt : sec < 12
  · rw [cursorBlock_direct hlt, nextLba, if_pos hlt]
  · rw [cursorBlock, if_pos (hloaded (Nat.le_of_not_lt hlt)), if_neg (Nat.ne_of_lt hsec)]

/-- `*next_lba = lba`. -/
theorem cursorBlock_setNextLba (hsec : sec < INDEX) (hloaded : 12 ≤ sec → loaded = true)
    (hlba : lba < 2 ^ 32) :
    cursorBlock loaded (c.setNextLba sec lba) j
      = Function.update (cursorBlock loaded c) sec lba j := by
  -- A number of the inode, or a word of the index block in the buffer.
  by_cases hlt : sec < 12
  · rw [WriteCursor.setNextLba, if_pos hlt]
    by_cases hjs : j = sec
    · subst hjs
      rw [Function.update_self, cursorBlock_direct hlt]
      exact Function.update_self _ _ _
    · have hother : Function.update c.inode.iSectors sec lba j = c.inode.iSectors j :=
        Function.update_of_ne hjs _ _
      have hindex : Function.update c.inode.iSectors sec lba 12 = c.inode.iSectors 12 :=
        Function.update_of_ne (Nat.ne_of_gt hlt) _ _
      rw [Function.update_of_ne hjs]
      simp only [cursorBlock, nextLba, blockOf, WriteCursor.setSector, hother, hindex]
  · obtain rfl := hloaded (Nat.le_of_not_lt hlt)
    rw [WriteCursor.setNextLba, if_neg hlt]
    by_cases hjs : j = sec
    · subst hjs
      rw [Function.update_self, cursorBlock, if_pos rfl, if_neg (Nat.ne_of_lt hsec), nextLba,
        if_neg hlt]
      exact loadLE_storeLE hlba
    · rw [Function.update_of_ne hjs, cursorBlock, cursorBlock, if_pos rfl, if_pos rfl]
      dsimp only
      by_cases hindex : j = INDEX
      · rw [if_pos hindex, if_pos hindex]
      · rw [if_neg hindex, if_neg hindex, nextLba, nextLba]
        by_cases hdirect : j < 12
        · rw [if_pos hdirect, if_pos hdirect]
        · rw [if_neg hdirect, if_neg hdirect]
          exact loadLE_storeLE_of_ne (by omega)

/-- The table of a disk that has the index block of `io_buf`. -/
theorem blockOf_synced {disk : Disk} (hne : c.inode.iSectors 12 ≠ 0)
    (hbyte : ∀ k < 512, disk (c.inode.iSectors 12) k = c.ioBuf (512 + k)) (hj : j < BLOCKS) :
    blockOf disk c.inode j = cursorBlock true c j := by
  have hj' : j < 141 := hj
  by_cases hindex : j = INDEX
  · rw [hindex, cursorBlock_index]
    rfl
  · by_cases hdirect : j < 12
    · rw [cursorBlock_direct hdirect, blockOf, if_pos hdirect]
    · have hlt : j < 140 := Nat.lt_of_le_of_ne (Nat.le_of_lt_succ hj') hindex
      rw [cursorBlock, if_pos rfl, if_neg hindex, nextLba, if_neg hdirect, blockOf, if_neg hdirect,
        if_neg hindex, if_neg hne]
      refine (loadLE_shift _ fun k hk => ?_).symm
      show c.ioBuf (512 + 4 * (j - 12) + k) = _
      rw [Nat.add_assoc]
      exact (hbyte _ (by omega)).symm

/-- The index block right after it was read. -/
theorem indexSynced_load {buf : Bytes}
    (hbuf : c.ioBuf = ideRead c.disk (c.inode.iSectors 12) buf SECTOR_SIZE 1) : IndexSynced c := by
  intro k hk
  have hsize : SECTOR_SIZE = 512 := rfl
  show _ = c.ioBuf (SECTOR_SIZE + k)
  rw [hbuf, ideRead_one (by omega) (by omega), Nat.add_sub_cancel_left]

/-- What `*next_lba = lba` leaves alone. -/
theorem setNextLba_frame (c : WriteCursor) (sec lba : Nat) :
    (c.setNextLba sec lba).disk = c.disk ∧
    (c.setNextLba sec lba).blockBitmap = c.blockBitmap ∧
    (c.setNextLba sec lba).isSyncSecond = c.isSyncSecond ∧
    SameHead c.inode (c.setNextLba sec lba).inode ∧ SamePlace c (c.setNextLba sec lba) := by
  rw [WriteCursor.setNextLba]
  split
  · exact ⟨rfl, rfl, rfl, ⟨rfl, rfl, rfl, rfl⟩, ⟨rfl, rfl, rfl⟩⟩
  · exact ⟨rfl, rfl, rfl, ⟨rfl, rfl, rfl, rfl⟩, ⟨rfl, rfl, rfl⟩⟩

/-- A sector in the first half of `io_buf` leaves the numbers alone. -/
theorem nextLba_copy {disk : Disk} {src : Bytes} {l k m : Nat} (hle : c.offset + m ≤ 512) :
    nextLba c.inode (copyBytes (ideRead disk l c.ioBuf 0 1) c.offset src k m) sec
      = nextLba c.inode c.ioBuf sec := by
  have hword : load32 (copyBytes (ideRead disk l c.ioBuf 0 1) c.offset src k m)
      (SECTOR_SIZE + 4 * (sec - 12)) = load32 c.ioBuf (SECTOR_SIZE + 4 * (sec - 12)) := by
    refine loadLE_congr fun x hlo _ => ?_
    have hx : 512 + 4 * (sec - 12) ≤ x := hlo
    have hx' : 0 + SECTOR_SIZE ≤ x := by
      show 0 + 512 ≤ x
      omega
    rw [copyBytes_of_ne (by omega), ideRead_of_ne (.inr hx')]
  rw [nextLba, nextLba, hword]

/-- The number after `*next_lba = lba`. -/
theorem nextLba_set (hlba : lba < 2 ^ 32) :
    nextLba (c.setNextLba sec lba).inode (c.setNextLba sec lba).ioBuf sec = lba := by
  rw [WriteCursor.setNextLba, nextLba]
  by_cases hlt : sec < 12
  · rw [if_pos hlt, if_pos hlt]
    exact Function.update_self _ _ _
  · rw [if_neg hlt, if_neg hlt]
    exact loadLE_storeLE hlba

/-- The table depends on the index block, the inode and `io_buf`. -/
theorem cursorBlock_congr {c' : WriteCursor} (hinode : c'.inode = c.inode)
    (hbuf : ∀ k, 512 ≤ k → c'.ioBuf k = c.ioBuf k)
    (hdisk : c.inode.iSectors 12 ≠ 0 →
    c'.disk (c.inode.iSectors 12) = c.disk (c.inode.iSectors 12)) :
    cursorBlock loaded c' j = cursorBlock loaded c j := by
  cases loaded with
  | true =>
      have hword : load32 c'.ioBuf (SECTOR_SIZE + 4 * (j - 12))
          = load32 c.ioBuf (SECTOR_SIZE + 4 * (j - 12)) :=
        loadLE_congr fun k hlo _ => hbuf k (Nat.le_trans (Nat.le_add_right _ _) hlo)
      rw [cursorBlock, cursorBlock, if_pos rfl, if_pos rfl, hinode, nextLba, nextLba, hword]
  | false =>
      show blockOf c'.disk c'.inode j = blockOf c.disk c.inode j
      rw [hinode, blockOf, blockOf]
      by_cases hzero : c.inode.iSectors 12 = 0
      · rw [if_pos hzero, if_pos hzero]
      · rw [hdisk hzero]

end

/-! ### The parts of the body -/

/-- What the parts of the body keep, after `n` bytes. -/
structure Stage (s : FileSys) (i₀ : Inode) (pos n : Nat) (src : Bytes) (loaded : Bool)
    (c : WriteCursor) : Prop where
  head : SameHead i₀ c.inode
  progress : Progress s.part.sb s.disk s.part.blockBitmap (blockOf s.disk i₀) c.disk c.blockBitmap
    (cursorBlock loaded c)
  written : Written s.disk (blockOf s.disk i₀) c.disk (cursorBlock loaded c) pos n src

namespace Stage

variable {s : FileSys} {i₀ : Inode} {pos n sec j lba : Nat} {src : Bytes} {loaded : Bool}
  {c c' : WriteCursor} {current : Tid}

/-- The areas of the disk are apart. -/
theorem bitmap_le (hlayout : LayoutOk s.part) :
    s.part.sb.blockBitmapLba + s.part.sb.blockBitmapSects ≤ s.part.sb.dataStartLba := by
  have h1 := hlayout.blockBitmap
  have h2 := hlayout.inodeBitmap
  have h3 := hlayout.inodeTable
  omega

theorem data_pos (hlayout : LayoutOk s.part) : 0 < s.part.sb.dataStartLba := by
  have h3 := hlayout.inodeTable
  omega

/-- A block is no sector of the bitmap. -/
theorem not_inBitmap (h : Stage s i₀ pos n src loaded c) (hlayout : LayoutOk s.part)
    (hj : j < BLOCKS) (hne : cursorBlock loaded c j ≠ 0) :
    ¬InBitmap s.part.sb (cursorBlock loaded c j) := by
  have hle := h.progress.le_block hj hne
  have hbitmap := bitmap_le hlayout
  exact fun hin => by
    have hlt := hin.2
    omega

/-- A new block for the file. The table `T'` is that of the cursor after it. -/
theorem alloc (h : Stage s i₀ pos n src loaded c) (hlayout : LayoutOk s.part)
    (hfit : BitsFit s.part.sb s.part.blockBitmap) (hj : j < BLOCKS)
    (hzero : cursorBlock loaded c j = 0)
    (hok : c.allocBlock s.part.sb current = .ok (lba, c')) :
    lba ≠ 0 ∧ lba < 2 ^ 32 ∧ AllocFrame c c' ∧
    (∀ k < BLOCKS, cursorBlock loaded c' k = cursorBlock loaded c k) ∧
    ∀ (loaded' : Bool) (c'' : WriteCursor), c''.disk = c'.disk → c''.blockBitmap = c'.blockBitmap →
      SameHead i₀ c''.inode →
      (∀ k < BLOCKS, cursorBlock loaded' c'' k
        = Function.update (cursorBlock loaded c) j lba k) →
      Stage s i₀ pos n src loaded' c'' := by
  simp only [WriteCursor.allocBlock, bind_eq_ok, pure_eq_ok] at hok
  obtain ⟨⟨l, disk', bmap'⟩, halloc, hres⟩ := hok
  cases hres
  obtain ⟨hne, hlt, hframe, hprogress⟩ := h.progress.alloc hfit (data_pos hlayout) hj hzero halloc
  -- The allocation writes the bitmap on the disk, where no block of the file lies.
  have hblocks : ∀ k < BLOCKS, cursorBlock loaded c k ≠ 0 →
      disk' (cursorBlock loaded c k) = c.disk (cursorBlock loaded c k) :=
    fun k hk hk0 => hframe _ (h.not_inBitmap hlayout hk hk0)
  refine ⟨hne, hlt, ⟨rfl, rfl, rfl, ⟨rfl, rfl, rfl⟩⟩, fun k hk => ?_,
    fun loaded' c'' hdisk hbitmap hhead htable => ?_⟩
  · refine cursorBlock_congr rfl (fun _ _ => rfl) fun hindex => ?_
    have hblock := hblocks INDEX (Nat.lt_succ_self _)
    rw [cursorBlock_index] at hblock
    exact hblock hindex
  · refine ⟨hhead, ?_, ?_⟩
    · rw [hdisk, hbitmap]
      exact hprogress.congr htable
    · rw [hdisk]
      exact ((h.written.frame h.progress fun k hk => hblocks k (Nat.lt_succ_of_lt hk)).alloc
        h.progress.old hzero).congr htable

/-- A new index block has no entries. -/
theorem openIndex_new (h : Stage s i₀ pos n src false c) (hlayout : LayoutOk s.part)
    (hfit : BitsFit s.part.sb s.part.blockBitmap) (hzero : c.inode.iSectors 12 = 0)
    (hok : c.openIndex s.part.sb current = .ok c') :
    Stage s i₀ pos n src true c' ∧ SamePlace c c' ∧ cursorBlock true c' INDEX ≠ 0 ∧
      (∀ j < INDEX, cursorBlock true c' j = cursorBlock false c j) ∧ c'.isSyncSecond = true := by
  rw [WriteCursor.openIndex, if_pos hzero] at hok
  obtain ⟨⟨lba, c₁⟩, halloc, hok⟩ := bind_eq_ok.mp hok
  obtain ⟨-, -, hres⟩ := bind_eq_ok.mp hok
  obtain ⟨hne, hlt, hframe, -, hstage⟩ :=
    h.alloc hlayout hfit (Nat.lt_succ_self INDEX) (cursorBlock_index.trans hzero) halloc
  have hc' := Except.ok.inj hres
  have hinode : c'.inode
      = { c.inode with iSectors := Function.update c.inode.iSectors 12 lba } := by
    rw [← hc', ← hframe.inode]
    rfl
  have hindex : c'.inode.iSectors 12 = lba := by
    rw [hinode]
    exact Function.update_self 12 lba c.inode.iSectors
  -- The second half of the buffer is cleared for the new block.
  have hclear : ∀ k, 512 ≤ k → k < 1024 → c'.ioBuf k = 0 := by
    intro k hlo hhi
    rw [← hc']
    exact if_pos ⟨hlo, hhi⟩
  have htable : ∀ j < INDEX, cursorBlock true c' j = cursorBlock false c j := by
    intro j hj
    by_cases hdirect : j < 12
    · rw [cursorBlock_direct hdirect, cursorBlock_direct hdirect, hinode]
      have hother : Function.update c.inode.iSectors 12 lba j = c.inode.iSectors j :=
        Function.update_of_ne (Nat.ne_of_lt hdirect) _ _
      exact hother
    · have hj' : j < 140 := hj
      -- Without an index block these entries read as zero before, too.
      have hnone : cursorBlock false c j = 0 := by
        show blockOf c.disk c.inode j = 0
        rw [blockOf, if_neg hdirect, if_neg (Nat.ne_of_lt hj), if_pos hzero]
      rw [hnone, cursorBlock, if_pos rfl, if_neg (Nat.ne_of_lt hj), nextLba, if_neg hdirect]
      refine loadLE_eq_zero fun k hlo hhi => hclear k ?_ ?_
      · exact Nat.le_trans (Nat.le_add_right _ _) hlo
      · have hhi' : k < 512 + 4 * (j - 12) + 4 := hhi
        omega
  refine ⟨hstage true c' ?_ ?_ ?_ fun k hk => ?_, ?_, ?_, htable, ?_⟩
  · rw [← hc']
    rfl
  · rw [← hc']
    rfl
  · rw [hinode]
    exact ⟨h.head.iNo, h.head.iMode, h.head.iSize, h.head.iFlags⟩
  · by_cases hkI : k = INDEX
    · rw [hkI, Function.update_self, cursorBlock_index, hindex]
    · rw [Function.update_of_ne hkI]
      exact htable k (Nat.lt_of_le_of_ne (Nat.le_of_lt_succ hk) hkI)
  · rw [← hc']
    exact ⟨hframe.place.count, hframe.place.src, hframe.place.offset⟩
  · rw [cursorBlock_index, hindex]
    exact hne
  · rw [← hc']

/-- An index block is read from the disk. -/
theorem openIndex_old (h : Stage s i₀ pos n src false c) (hne : c.inode.iSectors 12 ≠ 0)
    (hok : c.openIndex s.part.sb current = .ok c') :
    Stage s i₀ pos n src true c' ∧ SamePlace c c' ∧
      (∀ j < BLOCKS, cursorBlock true c' j = cursorBlock false c j) ∧ IndexSynced c' ∧
      c'.isSyncSecond = c.isSyncSecond := by
  rw [WriteCursor.openIndex, if_neg hne] at hok
  obtain ⟨-, -, hres⟩ := bind_eq_ok.mp hok
  obtain rfl := Except.ok.inj hres
  let c₁ := { c with ioBuf := ideRead c.disk (c.inode.iSectors 12) c.ioBuf SECTOR_SIZE 1 }
  have hsynced : IndexSynced c₁ := indexSynced_load rfl
  have htable : ∀ j < BLOCKS, cursorBlock true c₁ j = cursorBlock false c j :=
    fun j hj => (blockOf_synced (c := c₁) hne hsynced hj).symm
  exact ⟨⟨h.head, h.progress.congr htable, h.written.congr htable⟩, ⟨rfl, rfl, rfl⟩, htable,
    hsynced, rfl⟩

/-- The branch for `*next_lba == 0`. -/
theorem openSector (h : Stage s i₀ pos n src loaded c) (hlayout : LayoutOk s.part)
    (hfit : BitsFit s.part.sb s.part.blockBitmap) (hsec : sec < INDEX)
    (hloaded : 12 ≤ sec → loaded = true) (hok : c.openSector s.part.sb sec current = .ok c') :
    Stage s i₀ pos n src loaded c' ∧ SamePlace c c' ∧ cursorBlock loaded c' sec ≠ 0 ∧
      (∀ j < BLOCKS, j ≠ sec → cursorBlock loaded c' j = cursorBlock loaded c j) ∧
      (sec < 12 → c'.isSyncSecond = c.isSyncSecond) ∧
      (12 ≤ sec → (sec = 12 → cursorBlock loaded c 12 = 0 → c.isSyncSecond = true) →
        c'.isSyncSecond = false → c' = c) := by
  rw [WriteCursor.openSector, nextLba_eq hsec hloaded] at hok
  by_cases hzero : cursorBlock loaded c sec = 0
  · rw [if_pos hzero] at hok
    obtain ⟨⟨lba, c₁⟩, halloc, hres⟩ := bind_eq_ok.mp hok
    -- `is_sync_second` is set in front of the allocation, and no block depends on it.
    have hflag : Stage s i₀ pos n src loaded
        { c with isSyncSecond := c.isSyncSecond || decide (sec > 12) } :=
      ⟨h.head, h.progress, h.written⟩
    obtain ⟨hne, hlt, hframe, hsame, hstage⟩ :=
      hflag.alloc hlayout hfit (Nat.lt_succ_of_lt hsec) hzero halloc
    obtain rfl := Except.ok.inj hres
    obtain ⟨hdisk, hbitmap, hsync, hhead, hplace⟩ := setNextLba_frame c₁ sec lba
    rw [hframe.inode] at hhead
    rw [hframe.isSyncSecond] at hsync
    have htable : ∀ k < BLOCKS, cursorBlock loaded (c₁.setNextLba sec lba) k
        = Function.update (cursorBlock loaded c) sec lba k := by
      intro k hk
      rw [cursorBlock_setNextLba hsec hloaded hlt]
      by_cases hks : k = sec
      · rw [hks, Function.update_self, Function.update_self]
      · rw [Function.update_of_ne hks, Function.update_of_ne hks]
        exact hsame k hk
    refine ⟨hstage loaded _ hdisk hbitmap (h.head.trans hhead) htable,
      SamePlace.trans ⟨hframe.place.count, hframe.place.src, hframe.place.offset⟩ hplace, ?_,
      fun j hj hne' => ?_, fun hlo => ?_, fun hhi hentry hfalse => ?_⟩
    · rw [htable sec (Nat.lt_succ_of_lt hsec), Function.update_self]
      exact hne
    · rw [htable j hj, Function.update_of_ne hne']
    · rw [hsync, decide_eq_false (Nat.lt_asymm hlo), Bool.or_false]
    · -- The flag is set, except at sector 12, where it is set already.
      rw [hsync, Bool.or_eq_false_iff, decide_eq_false_iff_not] at hfalse
      obtain rfl : sec = 12 := Nat.le_antisymm (Nat.le_of_not_lt hfalse.2) hhi
      rw [hentry rfl hzero] at hfalse
      cases hfalse.1
  · rw [if_neg hzero] at hok
    cases hok
    exact ⟨h, ⟨rfl, rfl, rfl⟩, hzero, fun _ _ _ => rfl, fun _ => rfl, fun _ _ _ => rfl⟩

/-- The rest of the body writes up to the end of the sector, or of the data. -/
theorem writeSector (h : Stage s i₀ pos c.src src loaded c) (hlayout : LayoutOk s.part)
    (hsec : sec < INDEX) (hloaded : 12 ≤ sec → loaded = true) (hne : cursorBlock loaded c sec ≠ 0)
    (hplace : pos + c.src = 512 * sec + c.offset) (hoffset : c.offset < 512)
    (hok : c.writeSector src sec = .ok c') :
    ∃ m, m = min c.count (512 - c.offset) ∧ c'.count = c.count - m ∧ c'.src = c.src + m ∧
      c'.offset = 0 ∧ Stage s i₀ pos (c.src + m) src loaded c' ∧
      (∀ j < BLOCKS, cursorBlock loaded c' j = cursorBlock loaded c j) ∧
      c'.isSyncSecond = c.isSyncSecond ∧ (IndexSynced c → IndexSynced c') := by
  simp only [WriteCursor.writeSector, nextLba_eq hsec hloaded, ASSERT_true hne, ok_bind,
    pure_eq_ok] at hok
  obtain ⟨-, -, hok⟩ := bind_eq_ok.mp hok
  obtain ⟨-, -, hok⟩ := bind_eq_ok.mp hok
  have hm : ∃ m, m = min c.count (SECTOR_SIZE - c.offset) := ⟨_, rfl⟩
  obtain ⟨m, hm⟩ := hm
  rw [← hm] at hok
  have hle : c.offset + m ≤ 512 := by
    have hroom : m ≤ 512 - c.offset := hm ▸ Nat.min_le_right _ _
    omega
  generalize hres : copyBytes (ideRead c.disk (cursorBlock loaded c sec) c.ioBuf 0 1) c.offset src
    c.src m = buf at hok
  have hbuf : ∀ k < 512, buf k = if c.offset ≤ k ∧
      k < c.offset + m then src (c.src + (k - c.offset))
      else c.disk (cursorBlock loaded c sec) k := by
    intro k hk
    have hk' : k < 0 + SECTOR_SIZE := by
      show k < 0 + 512
      omega
    rw [← hres]
    by_cases hin : c.offset ≤ k ∧ k < c.offset + m
    · rw [if_pos hin, copyBytes_at hin.1 hin.2]
    · rw [if_neg hin, copyBytes_of_ne (by omega), ideRead_one (Nat.zero_le k) hk', Nat.sub_zero]
  -- The half with the index block stays.
  have hhigh : ∀ k, 512 ≤ k → buf k = c.ioBuf k := by
    intro k hk
    have hk' : 0 + SECTOR_SIZE ≤ k := by
      show 0 + 512 ≤ k
      omega
    rw [← hres, copyBytes_of_ne (by omega), ideRead_of_ne (.inr hk')]
  have hnext : nextLba c.inode buf sec = cursorBlock loaded c sec := by
    rw [← hres, nextLba_copy hle, nextLba_eq hsec hloaded]
  rw [hnext] at hok
  have hblock : sec < BLOCKS := Nat.lt_succ_of_lt hsec
  -- The sector is not the index block.
  have hindex : ideWrite c.disk (cursorBlock loaded c sec) buf 0 1 (c.inode.iSectors 12)
      = c.disk (c.inode.iSectors 12) := by
    refine ideWrite_of_ne fun heq => ?_
    have hI : cursorBlock loaded c INDEX = c.inode.iSectors 12 := cursorBlock_index
    rw [← hI] at heq
    have hsame := h.progress.apart sec hblock INDEX (Nat.lt_succ_self _) heq.symm hne
    exact Nat.ne_of_lt hsec hsame
  have hc' := Except.ok.inj hok
  have htable : ∀ j < BLOCKS, cursorBlock loaded c' j = cursorBlock loaded c j := by
    intro j _
    rw [← hc']
    exact cursorBlock_congr rfl hhigh fun _ => hindex
  refine ⟨m, hm, ?_, ?_, ?_, ⟨?_, ?_, ?_⟩, htable, ?_, fun hsynced k hk => ?_⟩
  · rw [← hc']
  · rw [← hc']
  · rw [← hc']
  · rw [← hc']
    exact h.head
  · rw [← hc'] at htable ⊢
    exact (h.progress.write (bitmap_le hlayout) hblock hne buf 0).congr htable
  · rw [← hc'] at htable ⊢
    exact (h.written.write h.progress hsec hne hplace hle hbuf).congr htable
  · rw [← hc']
  · rw [← hc']
    show ideWrite c.disk (cursorBlock loaded c sec) buf 0 1 (c.inode.iSectors 12) k = buf (512 + k)
    rw [hindex, hhigh _ (Nat.le_add_right _ _)]
    exact hsynced k hk

end Stage

/-! ### The loop -/

/-- The three parts of the body. -/
theorem step_ok {c c' : WriteCursor} {sb : SuperBlock} {src : Bytes} {sec : Nat} {current : Tid}
    (hok : c.step sb src sec current = .ok c') :
    ∃ c₁ c₂, (if sec = 12 then c.openIndex sb current else pure c) = .ok c₁ ∧
      c₁.openSector sb sec current = .ok c₂ ∧ c₂.writeSector src sec = .ok c' := by
  rw [WriteCursor.step] at hok
  by_cases hsec : sec = 12
  · rw [if_pos hsec] at hok ⊢
    obtain ⟨c₁, hopen, hok⟩ := bind_eq_ok.mp hok
    obtain ⟨c₂, hsector, hwrite⟩ := bind_eq_ok.mp hok
    exact ⟨c₁, c₂, hopen, hsector, hwrite⟩
  · rw [if_neg hsec] at hok ⊢
    obtain ⟨c₁, hopen, hok⟩ := bind_eq_ok.mp hok
    obtain ⟨c₂, hsector, hwrite⟩ := bind_eq_ok.mp hok
    exact ⟨c₁, c₂, hopen, hsector, hwrite⟩

/-- The loop of `file_write` before the sector `sec`. -/
structure WriteInv (s : FileSys) (i₀ : Inode) (pos total : Nat) (src : Bytes) (sec : Nat)
    (c : WriteCursor) : Prop where
  stage : Stage s i₀ pos c.src src (decide (12 < sec)) c
  total : c.src + c.count = total
  place : c.count ≠ 0 → pos + c.src = 512 * sec + c.offset
  offset : c.offset < 512
  sectors : ∀ j < INDEX, cursorBlock (decide (12 < sec)) c j ≠ 0 ↔
    512 * j < max i₀.iSize (pos + c.src)
  index : cursorBlock (decide (12 < sec)) c INDEX ≠ 0 ↔ 512 * 12 < max i₀.iSize (pos + c.src)
  late : 12 < sec → cursorBlock (decide (12 < sec)) c INDEX ≠ 0
  early : sec ≤ 12 → c.isSyncSecond = false
  synced : 12 < sec → c.isSyncSecond = false → IndexSynced c
  /-- The loop has not come to these sectors. -/
  ahead : ∀ j < INDEX, sec ≤ j → cursorBlock (decide (12 < sec)) c j = blockOf s.disk i₀ j
  aheadIndex : sec ≤ 12 → cursorBlock (decide (12 < sec)) c INDEX = blockOf s.disk i₀ INDEX

namespace WriteInv

variable {s : FileSys} {i₀ : Inode} {pos total sec : Nat} {src : Bytes} {c c' c₁ : WriteCursor}
  {current : Tid}

/-- The first part of the body. From sector 12 on the index block is in `io_buf`. -/
theorem openIndex (h : WriteInv s i₀ pos total src sec c) (hlayout : LayoutOk s.part)
    (hfit : BitsFit s.part.sb s.part.blockBitmap)
    (hok : (if sec = 12 then c.openIndex s.part.sb current else pure c) = .ok c₁) :
    Stage s i₀ pos c.src src (decide (12 < sec + 1)) c₁ ∧ SamePlace c c₁ ∧
      (∀ j < INDEX, cursorBlock (decide (12 < sec + 1)) c₁ j
        = cursorBlock (decide (12 < sec)) c j) ∧
      (sec < 12 → c₁ = c) ∧
      (12 ≤ sec → cursorBlock (decide (12 < sec + 1)) c₁ INDEX ≠ 0 ∧
        (c₁.isSyncSecond = false → IndexSynced c₁)) ∧
      (sec = 12 → cursorBlock (decide (12 < sec + 1)) c₁ 12 = 0 → c₁.isSyncSecond = true) := by
  rcases Nat.lt_trichotomy sec 12 with hlt | rfl | hgt
  · rw [if_neg (Nat.ne_of_lt hlt)] at hok
    cases hok
    have hloaded : decide (12 < sec + 1) = decide (12 < sec) := by
      rw [decide_eq_false (by omega), decide_eq_false (by omega)]
    rw [hloaded]
    exact ⟨h.stage, ⟨rfl, rfl, rfl⟩, fun _ _ => rfl, fun _ => rfl, fun hle => by omega,
      fun heq => by omega⟩
  · rw [if_pos rfl] at hok
    by_cases hzero : c.inode.iSectors 12 = 0
    · obtain ⟨hstage, hplace, hindex, htable, hsync⟩ :=
        h.stage.openIndex_new hlayout hfit hzero hok
      exact ⟨hstage, hplace, htable, fun hlt => by omega,
        fun _ => ⟨hindex, fun hfalse => by rw [hsync] at hfalse; cases hfalse⟩, fun _ _ => hsync⟩
    · obtain ⟨hstage, hplace, htable, hsynced, hsync⟩ := h.stage.openIndex_old hzero hok
      have hindex : cursorBlock (decide (12 < 12)) c INDEX ≠ 0 := by
        rw [cursorBlock_index]
        exact hzero
      -- The file is longer than 12 sectors, so it has the sector 12, too.
      have hentry := (h.sectors 12 (by decide)).mpr (h.index.mp hindex)
      refine ⟨hstage, hplace, fun j hj => htable j (Nat.lt_succ_of_lt hj), fun hlt => by omega,
        fun _ => ⟨?_, fun _ => hsynced⟩, fun _ hnone => ?_⟩
      · exact (htable INDEX (by decide)).symm ▸ hindex
      · exact absurd ((htable 12 (by decide)).symm.trans hnone) hentry
  · rw [if_neg (Nat.ne_of_gt hgt)] at hok
    cases hok
    have hloaded : decide (12 < sec + 1) = decide (12 < sec) := by
      rw [decide_eq_true (by omega), decide_eq_true hgt]
    rw [hloaded]
    refine ⟨h.stage, ⟨rfl, rfl, rfl⟩, fun _ _ => rfl, fun hlt => by omega,
      fun _ => ⟨h.late hgt, h.synced hgt⟩, fun heq => by omega⟩

/-- A round. -/
theorem step (h : WriteInv s i₀ pos total src sec c) (hlayout : LayoutOk s.part)
    (hfit : BitsFit s.part.sb s.part.blockBitmap) (hcount : c.count ≠ 0) (hsec : sec < INDEX)
    (hok : c.step s.part.sb src sec current = .ok c') :
    WriteInv s i₀ pos total src (sec + 1) c' := by
  obtain ⟨c₁, c₂, hopen, hsector, hwrite⟩ := step_ok hok
  obtain ⟨hstage₁, hplace₁, htable₁, hearly₁, hlate₁, hentry₁⟩ := h.openIndex hlayout hfit hopen
  have hloaded : 12 ≤ sec → decide (12 < sec + 1) = true := fun hle => decide_eq_true (by omega)
  obtain ⟨hstage₂, hplace₂, hne₂, htable₂, hearly₂, hlate₂⟩ :=
    hstage₁.openSector hlayout hfit hsec hloaded hsector
  have hplace := hplace₁.trans hplace₂
  have hstart := h.place hcount
  have hoffset := h.offset
  rw [← hplace.src] at hstage₂
  obtain ⟨m, hm, hcount₃, hsrc₃, hoffset₃, hstage₃, htable₃, hsync₃, hsynced₃⟩ :=
    hstage₂.writeSector hlayout hsec hloaded hne₂ (by rw [hplace.src, hplace.offset, hstart])
      (hplace.offset ▸ hoffset) hwrite
  rw [hplace.src] at hsrc₃ hstage₃
  rw [hplace.count, hplace.offset] at hm
  rw [hplace.count] at hcount₃
  have hle : m ≤ c.count := hm ▸ Nat.min_le_left _ _
  have hroom : m ≤ 512 - c.offset := hm ▸ Nat.min_le_right _ _
  have hpos : 0 < m := by omega
  have hsum := h.total
  -- The table after the round: the sector `sec` is there, and the others are as before.
  have hthis : cursorBlock (decide (12 < sec + 1)) c' sec ≠ 0 := by
    rw [htable₃ sec (Nat.lt_succ_of_lt hsec)]
    exact hne₂
  have hother : ∀ j < INDEX, j ≠ sec → cursorBlock (decide (12 < sec + 1)) c' j
      = cursorBlock (decide (12 < sec)) c j := by
    intro j hj hne
    have hj' : j < BLOCKS := Nat.lt_succ_of_lt hj
    rw [htable₃ j hj', htable₂ j hj' hne, htable₁ j hj]
  have hindex : cursorBlock (decide (12 < sec + 1)) c' INDEX
      = cursorBlock (decide (12 < sec + 1)) c₁ INDEX := by
    rw [htable₃ INDEX (Nat.lt_succ_self _), htable₂ INDEX (Nat.lt_succ_self _) (Nat.ne_of_gt hsec)]
  refine ⟨hsrc₃ ▸ hstage₃, by omega, fun hrest => by omega, by omega, fun j hj => ?_, ?_,
    fun hgt => ?_, fun hle12 => ?_, fun hgt hfalse => ?_, fun j hj hle' => ?_, fun hle12 => ?_⟩
  · by_cases hjs : j = sec
    · subst hjs
      exact ⟨fun _ => by omega, fun _ => hthis⟩
    · rw [hother j hj hjs, h.sectors j hj]
      constructor
      · intro hlt
        omega
      · intro hlt
        omega
  · rw [hindex]
    rcases Nat.lt_or_ge sec 12 with hlt | hge
    · obtain rfl := hearly₁ hlt
      have hsame : decide (12 < sec + 1) = decide (12 < sec) := by
        rw [decide_eq_false (by omega), decide_eq_false (by omega)]
      rw [hsame, h.index]
      constructor
      · intro hlong
        omega
      · intro hlong
        omega
    · exact ⟨fun _ => by omega, fun _ => (hlate₁ hge).1⟩
  · rw [hindex]
    exact (hlate₁ (Nat.le_of_lt_succ hgt)).1
  · have hlt : sec < 12 := by omega
    obtain rfl := hearly₁ hlt
    rw [hsync₃, hearly₂ hlt]
    exact h.early (by omega)
  · have hge : 12 ≤ sec := by omega
    rw [hsync₃] at hfalse
    -- Nothing is new in the index block, or the flag would be set.
    obtain rfl := hlate₂ hge hentry₁ hfalse
    exact hsynced₃ ((hlate₁ hge).2 hfalse)
  · rw [hother j hj (by omega), h.ahead j hj (by omega)]
  · have hlt : sec < 12 := by omega
    obtain rfl := hearly₁ hlt
    have hsame : decide (12 < sec + 1) = decide (12 < sec) := by
      rw [decide_eq_false (by omega), decide_eq_false (by omega)]
    rw [hindex, hsame, h.aheadIndex (by omega)]

/-- The loop. -/
theorem loop (hlayout : LayoutOk s.part) (hfit : BitsFit s.part.sb s.part.blockBitmap) (n : Nat)
    (h : WriteInv s i₀ pos total src sec c) (hsec : sec + n = INDEX ∨ n = 0)
    (hok : writeLoop s.part.sb src current (List.range' sec n) c = .ok c') :
    ∃ last, WriteInv s i₀ pos total src last c' := by
  induction n generalizing sec c with
  | zero =>
      cases hok
      exact ⟨sec, h⟩
  | succ n ih =>
      rw [List.range'_succ, writeLoop] at hok
      by_cases hcount : c.count > 0
      · rw [if_pos hcount] at hok
        obtain ⟨c₁, hstep, hrest⟩ := bind_eq_ok.mp hok
        have hround := h.step hlayout hfit (Nat.ne_of_gt hcount) (by omega) hstep
        exact ih hround (by omega) hrest
      · rw [if_neg hcount] at hok
        cases hok
        exact ⟨sec, h⟩

end WriteInv

/-! ### The call -/

/-- The blocks of a file are those that its size needs. -/
structure Allocated (disk : Disk) (i : Inode) : Prop where
  sectors : ∀ j, (j < INDEX ∧ blockOf disk i j ≠ 0) ↔ 512 * j < i.iSize
  index : blockOf disk i INDEX ≠ 0 ↔ 512 * 12 < i.iSize

theorem Allocated.size_le {disk : Disk} {i : Inode} (h : Allocated disk i) :
    i.iSize ≤ 512 * INDEX := by
  refine Nat.le_of_not_lt fun hlt => ?_
  have hin := ((h.sectors INDEX).mpr hlt).1
  exact Nat.lt_irrefl _ hin

/-- What `file_write` does. `disk₁` is the disk before `inode_sync`. -/
structure Wrote (s : FileSys) (p pos count : Nat) (src pad : Bytes) (s' : FileSys) (disk₁ : Disk) :
    Prop where
  progress : Progress s.part.sb s.disk s.part.blockBitmap (blockOf s.disk (s.inode p)) disk₁
    s'.part.blockBitmap (blockOf disk₁ (s'.inode p))
  written : Written s.disk (blockOf s.disk (s.inode p)) disk₁ (blockOf disk₁ (s'.inode p)) pos count
    src
  allocated : Allocated disk₁ (s'.inode p)
  size : (s'.inode p).iSize = max (s.inode p).iSize (pos + count)
  number : (s'.inode p).iNo = (s.inode p).iNo
  mode : (s'.inode p).iMode = (s.inode p).iMode
  flags : (s'.inode p).iFlags = (s.inode p).iFlags
  others : ∀ q, q ≠ p → s'.inode q = s.inode q
  part : s'.part = { s.part with blockBitmap := s'.part.blockBitmap }
  table : (s'.disk = disk₁ ∧ SameInode (s'.inode p) (s.inode p)) ∨
    ∃ buf, s'.disk = (inodeSync s.part.sb disk₁ (s'.inode p) buf pad).1

section
variable {s s' : FileSys} {p pos count ret pos' : Nat} {src ioBuf pad : Bytes} {current : Tid}

/-- The loop starts with the blocks of the file. -/
theorem WriteInv.start {c : WriteCursor} (ha : Allocated s.disk (s.inode p))
    (hused : ∀ j < BLOCKS, blockOf s.disk (s.inode p) j ≠ 0 →
      Used s.part.sb s.part.blockBitmap (blockOf s.disk (s.inode p) j))
    (hapart : ∀ j < BLOCKS, ∀ k < BLOCKS, blockOf s.disk (s.inode p) j
    = blockOf s.disk (s.inode p) k →
      blockOf s.disk (s.inode p) j ≠ 0 → j = k)
    (hpos : pos ≤ (s.inode p).iSize) (hdisk : c.disk = s.disk)
    (hbitmap : c.blockBitmap = s.part.blockBitmap) (hinode : c.inode = s.inode p)
    (hsync : c.isSyncSecond = false) (hcount : c.count = count) (hsrc : c.src = 0)
    (hoffset : c.offset = pos % 512)
    (hindex : 12 < pos / 512 → (s.inode p).iSectors 12 ≠ 0 ∧
      c.ioBuf = ideRead s.disk ((s.inode p).iSectors 12) ioBuf SECTOR_SIZE 1) :
    WriteInv s (s.inode p) pos count src (pos / 512) c := by
  -- A write that starts behind sector 12 has the index block in its buffer already.
  have htable : ∀ j < BLOCKS, cursorBlock (decide (12 < pos / 512)) c j
      = blockOf s.disk (s.inode p) j := by
    intro j hj
    by_cases hlate : 12 < pos / 512
    · obtain ⟨hne, hbuf⟩ := hindex hlate
      rw [← hinode, ← hdisk] at hbuf
      rw [← hinode] at hne
      rw [decide_eq_true hlate, ← blockOf_synced hne (indexSynced_load hbuf) hj, hdisk, hinode]
    · rw [decide_eq_false hlate, ← hdisk, ← hinode]
      rfl
  have hmax : max (s.inode p).iSize (pos + c.src) = (s.inode p).iSize := by
    rw [hsrc]
    exact Nat.max_eq_left hpos
  refine ⟨⟨?_, ?_, ?_⟩, ?_, fun _ => ?_, ?_, fun j hj => ?_, ?_, fun hlate => ?_, fun _ => hsync,
    fun hlate _ => ?_, fun j hj _ => htable j (Nat.lt_succ_of_lt hj),
    fun _ => htable INDEX (Nat.lt_succ_self _)⟩
  · rw [hinode]
    exact ⟨rfl, rfl, rfl, rfl⟩
  · rw [hdisk, hbitmap]
    exact (Progress.start hused hapart).congr htable
  · rw [hdisk, hsrc]
    exact (Written.start pos src).congr htable
  · rw [hsrc, hcount, Nat.zero_add]
  · rw [hsrc, hoffset]
    omega
  · rw [hoffset]
    exact Nat.mod_lt _ (by decide)
  · rw [htable j (Nat.lt_succ_of_lt hj), hmax, ← ha.sectors j]
    exact ⟨fun hne => ⟨hj, hne⟩, fun h => h.2⟩
  · rw [htable INDEX (Nat.lt_succ_self _), hmax]
    exact ha.index
  · rw [cursorBlock_index, hinode]
    exact (hindex hlate).1
  · obtain ⟨hne, hbuf⟩ := hindex hlate
    rw [← hinode, ← hdisk] at hbuf
    exact indexSynced_load hbuf

/-- The parts of a call that returns. -/
theorem fileWrite_ok (hok : fileWrite s p src count pos ioBuf pad current = .ok (ret, pos', s')) :
    ∃ c₀ c, c₀.disk = s.disk ∧ c₀.blockBitmap = s.part.blockBitmap ∧ c₀.inode = s.inode p ∧
      c₀.isSyncSecond = false ∧ c₀.count = count ∧ c₀.src = 0 ∧ c₀.offset = pos % 512 ∧
      (12 < pos / 512 → (s.inode p).iSectors 12 ≠ 0 ∧
        c₀.ioBuf = ideRead s.disk ((s.inode p).iSectors 12) ioBuf SECTOR_SIZE 1) ∧
      writeLoop s.part.sb src current (List.range' (pos / 512) (FILE_SECTORS - pos / 512)) c₀
        = .ok c ∧ c.count = 0 ∧ ret = count ∧ pos' = pos + count ∧
      s' = c.finish s p (pos + count) pad := by
  rw [fileWrite] at hok
  dsimp only at hok
  by_cases hlate : pos / SECTOR_SIZE > 12
  · rw [if_pos hlate] at hok
    simp only [bind_eq_ok, ASSERT_eq_ok] at hok
    obtain ⟨-, hne, -, -, buf, hbuf, c, hloop, -, hcount, -, -, hres⟩ := hok
    cases hbuf
    cases hres
    exact ⟨_, c, rfl, rfl, rfl, rfl, rfl, rfl, rfl, fun _ => ⟨hne, rfl⟩, hloop, hcount,
      rfl, rfl, rfl⟩
  · rw [if_neg hlate] at hok
    simp only [bind_eq_ok, ASSERT_eq_ok] at hok
    obtain ⟨buf, hbuf, c, hloop, -, hcount, -, -, hres⟩ := hok
    cases hbuf
    cases hres
    exact ⟨_, c, rfl, rfl, rfl, rfl, rfl, rfl, rfl, fun hgt => absurd hgt hlate, hloop, hcount, rfl,
      rfl, rfl⟩

/-- The disk before `inode_sync`. -/
def diskBehind (c : WriteCursor) : Disk :=
  if c.isSyncSecond then ideWrite c.disk (c.inode.iSectors 12) c.ioBuf SECTOR_SIZE 1 else c.disk

/-- The index block reaches the disk. -/
theorem WriteInv.behind {i₀ : Inode} {total sec : Nat} {c : WriteCursor}
    (h : WriteInv s i₀ pos total src sec c) (hlayout : LayoutOk s.part) :
    Progress s.part.sb s.disk s.part.blockBitmap (blockOf s.disk i₀) (diskBehind c) c.blockBitmap
      (blockOf (diskBehind c) c.inode) ∧
    Written s.disk (blockOf s.disk i₀) (diskBehind c)
      (blockOf (diskBehind c) c.inode) pos c.src src ∧
    ∀ j < BLOCKS, blockOf (diskBehind c) c.inode j = cursorBlock (decide (12 < sec)) c j := by
  cases hsync : c.isSyncSecond with
  | true =>
      have hlate : 12 < sec := by
        refine Nat.lt_of_not_le fun hle => ?_
        rw [h.early hle] at hsync
        cases hsync
      have hne := h.late hlate
      have hindex : cursorBlock (decide (12 < sec)) c INDEX = c.inode.iSectors 12 :=
        cursorBlock_index
      have hdisk : diskBehind c
          = ideWrite c.disk (cursorBlock (decide (12 < sec)) c INDEX) c.ioBuf SECTOR_SIZE 1 := by
        rw [diskBehind, hsync, if_pos rfl, hindex]
      have hbyte : ∀ k < 512, diskBehind c (c.inode.iSectors 12) k = c.ioBuf (512 + k) := by
        intro k hk
        rw [hdisk, hindex]
        exact ideWrite_one hk
      have htable : ∀ j < BLOCKS, blockOf (diskBehind c) c.inode j
          = cursorBlock (decide (12 < sec)) c j := by
        intro j hj
        rw [decide_eq_true hlate]
        exact blockOf_synced (hindex ▸ hne) hbyte hj
      -- A sector of the file is not the index block.
      have hframe : ∀ j < INDEX, cursorBlock (decide (12 < sec)) c j ≠ 0 →
          diskBehind c (cursorBlock (decide (12 < sec)) c j)
            = c.disk (cursorBlock (decide (12 < sec)) c j) := by
        intro j hj hj0
        rw [hdisk]
        refine ideWrite_of_ne fun heq => ?_
        have hsame := h.stage.progress.apart j (Nat.lt_succ_of_lt hj) INDEX (Nat.lt_succ_self _) heq
          hj0
        exact Nat.ne_of_lt hj hsame
      have hprogress := h.stage.progress.write (Stage.bitmap_le hlayout)
        (Nat.lt_succ_self INDEX) hne c.ioBuf SECTOR_SIZE
      rw [← hdisk] at hprogress
      exact ⟨hprogress.congr htable, (h.stage.written.frame h.stage.progress hframe).congr htable,
        htable⟩
  | false =>
      have hdisk : diskBehind c = c.disk := by
        rw [diskBehind, hsync]
        rfl
      rw [hdisk]
      have htable : ∀ j < BLOCKS, blockOf c.disk c.inode j
          = cursorBlock (decide (12 < sec)) c j := by
        intro j hj
        by_cases hlate : 12 < sec
        · have hne := h.late hlate
          rw [cursorBlock_index] at hne
          rw [decide_eq_true hlate]
          exact blockOf_synced hne (h.synced hlate hsync) hj
        · rw [decide_eq_false hlate]
          rfl
      exact ⟨h.stage.progress.congr htable, h.stage.written.congr htable, htable⟩

/-- The part behind the loop for a file that grows. -/
theorem finish_grown (s : FileSys) (p : Nat) (pad : Bytes) {c : WriteCursor} {fin : Nat}
    (h : c.inode.iSize < fin) :
    (c.finish s p fin pad).inode p = { c.inode with iSize := fin % 2 ^ 32 } ∧
    (c.finish s p fin pad).disk
      = (inodeSync s.part.sb (diskBehind c) ((c.finish s p fin pad).inode p) c.ioBuf pad).1 := by
  have hinode : (c.finish s p fin pad).inode p = { c.inode with iSize := fin % 2 ^ 32 } := by
    rw [WriteCursor.finish, decide_eq_true h]
    exact FileSys.setInode_self _ _ _
  refine ⟨hinode, ?_⟩
  rw [hinode, WriteCursor.finish, decide_eq_true h]
  rfl

/-- The part behind the loop for a file that keeps its size. -/
theorem finish_kept (s : FileSys) (p : Nat) (pad : Bytes) {c : WriteCursor} {fin : Nat}
    (h : ¬c.inode.iSize < fin) :
    (c.finish s p fin pad).inode p = c.inode ∧ (c.finish s p fin pad).disk = diskBehind c := by
  rw [WriteCursor.finish, decide_eq_false h]
  exact ⟨FileSys.setInode_self _ _ _, rfl⟩

/-- What `file_write` does. -/
theorem fileWrite_spec (hlayout : LayoutOk s.part) (hfit : BitsFit s.part.sb s.part.blockBitmap)
    (ha : Allocated s.disk (s.inode p))
    (hused : ∀ j < BLOCKS, blockOf s.disk (s.inode p) j ≠ 0 →
      Used s.part.sb s.part.blockBitmap (blockOf s.disk (s.inode p) j))
    (hapart : ∀ j < BLOCKS, ∀ k < BLOCKS, blockOf s.disk (s.inode p) j
    = blockOf s.disk (s.inode p) k →
      blockOf s.disk (s.inode p) j ≠ 0 → j = k)
    (hpos : pos ≤ (s.inode p).iSize) (hroom : pos + count ≤ MAX_FILE_SIZE)
    (hok : fileWrite s p src count pos ioBuf pad current = .ok (ret, pos', s')) :
    ret = count ∧ pos' = pos + count ∧ ∃ disk₁, Wrote s p pos count src pad s' disk₁ := by
  obtain ⟨c₀, c, hdisk₀, hbitmap₀, hinode₀, hsync₀, hcount₀, hsrc₀, hoffset₀, hindex₀,
    hloop, hcount, hret, hpos', rfl⟩ := fileWrite_ok hok
  have hsize : (s.inode p).iSize ≤ 512 * 140 := ha.size_le
  have hroom' : pos + count ≤ 512 * 140 := hroom
  have hsectors : pos / 512 + (FILE_SECTORS - pos / 512) = INDEX := by
    show pos / 512 + (140 - pos / 512) = 140
    omega
  have hstart : WriteInv s (s.inode p) pos count src (pos / 512) c₀ :=
    WriteInv.start ha hused hapart hpos hdisk₀ hbitmap₀ hinode₀ hsync₀ hcount₀ hsrc₀
      hoffset₀ hindex₀
  obtain ⟨last, h⟩ := WriteInv.loop hlayout hfit _ hstart (.inl hsectors) hloop
  obtain ⟨hprogress, hwritten, htable⟩ := h.behind hlayout
  have hsrc : c.src = count := by
    have htotal := h.total
    omega
  rw [hsrc] at hwritten
  have hsectors' : ∀ j, (j < INDEX ∧ blockOf (diskBehind c) c.inode j ≠ 0) ↔
      512 * j < max (s.inode p).iSize (pos + count) := by
    intro j
    constructor
    · rintro ⟨hj, hne⟩
      rw [htable j (Nat.lt_succ_of_lt hj), h.sectors j hj, hsrc] at hne
      exact hne
    · intro hlt
      have hj : j < INDEX := by
        show j < 140
        omega
      refine ⟨hj, ?_⟩
      rw [htable j (Nat.lt_succ_of_lt hj), h.sectors j hj, hsrc]
      exact hlt
  have hindex' : blockOf (diskBehind c) c.inode INDEX ≠ 0 ↔
      512 * 12 < max (s.inode p).iSize (pos + count) := by
    rw [htable INDEX (Nat.lt_succ_self _), h.index, hsrc]
  have hhead := h.stage.head
  have hothers : ∀ q, q ≠ p → (c.finish s p (pos + count) pad).inode q = s.inode q :=
    fun q hq => FileSys.setInode_of_ne _ _ hq
  refine ⟨hret, hpos', diskBehind c, ?_⟩
  by_cases hgrow : c.inode.iSize < pos + count
  · obtain ⟨hinode, hdisk⟩ := finish_grown s p pad hgrow
    have hfin : (pos + count) % 2 ^ 32 = max (s.inode p).iSize (pos + count) := by
      rw [hhead.iSize] at hgrow
      rw [Nat.mod_eq_of_lt (by omega)]
      omega
    refine ⟨?_, ?_, ⟨?_, ?_⟩, ?_, ?_, ?_, ?_, hothers, rfl, .inr ⟨c.ioBuf, hdisk⟩⟩
    · rw [hinode]
      exact hprogress
    · rw [hinode]
      exact hwritten
    · rw [hinode, hfin]
      exact hsectors'
    · rw [hinode, hfin]
      exact hindex'
    · rw [hinode]
      exact hfin
    · rw [hinode]
      exact hhead.iNo
    · rw [hinode]
      exact hhead.iMode
    · rw [hinode]
      exact hhead.iFlags
  · obtain ⟨hinode, hdisk⟩ := finish_kept s p pad hgrow
    rw [hhead.iSize] at hgrow
    have hmax : max (s.inode p).iSize (pos + count) = (s.inode p).iSize := by omega
    rw [hmax] at hsectors' hindex'
    -- Without growth there is no new block.
    have hsame : ∀ j < BLOCKS, blockOf (diskBehind c) c.inode j = blockOf s.disk (s.inode p) j := by
      intro j hj
      by_cases hold : blockOf s.disk (s.inode p) j = 0
      · rw [hold]
        refine Classical.byContradiction fun hne => ?_
        by_cases hindex : j = INDEX
        · rw [hindex] at hold hne
          exact ha.index.mpr (hindex'.mp hne) hold
        · have hj' : j < INDEX := Nat.lt_of_le_of_ne (Nat.le_of_lt_succ hj) hindex
          exact ((ha.sectors j).mpr ((hsectors' j).mp ⟨hj', hne⟩)).2 hold
      · exact hprogress.old j hj hold
    have hkeep : SameInode c.inode (s.inode p) := by
      refine ⟨hhead.iNo, hhead.iMode, hhead.iSize, hhead.iFlags, fun k hk => ?_⟩
      rcases Nat.lt_or_eq_of_le (Nat.le_of_lt_succ hk) with hlt | rfl
      · have hk' := hsame k (Nat.lt_trans hlt (by decide))
        rwa [blockOf, if_pos hlt, blockOf, if_pos hlt] at hk'
      · exact hsame INDEX (Nat.lt_succ_self _)
    refine ⟨?_, ?_, ⟨?_, ?_⟩, ?_, ?_, ?_, ?_, hothers, rfl, .inl ⟨hdisk, ?_⟩⟩
    · rw [hinode]
      exact hprogress
    · rw [hinode]
      exact hwritten
    · rw [hinode, hhead.iSize]
      exact hsectors'
    · rw [hinode, hhead.iSize]
      exact hindex'
    · rw [hinode, hhead.iSize, hmax]
    · rw [hinode]
      exact hhead.iNo
    · rw [hinode]
      exact hhead.iMode
    · rw [hinode]
      exact hhead.iFlags
    · rw [hinode]
      exact hkeep

end

end Fizzos.Proofs
