import Fizzos.Proofs.Directory
import Fizzos.Proofs.FileBlocks

/-!
# `Fizzos.Proofs.DirWrite`: where `dir_write` puts an entry

The loops of `dir_write` go over the numbers of the directory's sectors (`scanned`). They stop at
the first that is zero or has a free entry (`room`). At a sector that the directory has, the entry
goes there (`OldPlace`). At a zero, it goes to a block that was free (`NewPlace`).

A directory without an index block that is full gets one. `dir_write` clears the wrong half of the
buffer then, and takes what the other half has as the number of the next sector. That is a new one
only if the caller's buffer has a zero there.
-/

set_option autoImplicit false

namespace Fizzos.Proofs

open Fizzos.Device
open Fizzos.Fs
open Fizzos.Kernel
open Fizzos.Lib
open Fizzos.LibKernel
open Fizzos.Support

/-! ### Free entries -/

/-- The loops of `dir_write` stop at this number of a sector. -/
def hasRoom (disk : Disk) (lba : Nat) : Bool := decide (lba = 0) || (freeSlot (disk lba)).isSome

/-- The numbers that the loops go over. -/
def scanned (disk : Disk) (p : Inode) : List Nat := (List.range 12).map p.iSectors ++
    sectorsAt disk p 12

/-- The first number that the loops stop at. It is 0 for a new sector. -/
def room (disk : Disk) (p : Inode) : Option Nat := (scanned disk p).find? (hasRoom disk)

section
variable {buf buf' : Bytes} {disk : Disk} {lba j : Nat}

/-- The types of the slots depend on the sector only. -/
theorem slotType_congr (h : ∀ k < SECTOR_SIZE, buf' k = buf k) (hj : j < SLOTS) :
    slotType buf' j = slotType buf j := by
  have hj' : j < 16 := hj
  refine slotType_slot fun k hk => h _ ?_
  have hk' : k < 32 := hk
  show 32 * j + k < 512
  omega

/-- And so does the first free one. -/
theorem freeSlot_congr (h : ∀ k < SECTOR_SIZE, buf' k = buf k) : freeSlot buf' = freeSlot buf :=
  List.find?_congr fun j hj => by rw [slotType_congr h (List.mem_range.mp hj)]

/-- A sector in the first half of the buffer. -/
theorem freeSlot_load (c : DirCursor) : freeSlot (c.load lba).buf = freeSlot (c.disk lba) :=
  freeSlot_congr fun k hk => ideRead_one (Nat.zero_le k) (by omega)

/-- A new sector has free entries only. -/
theorem freeSlot_clear (c : DirCursor) : freeSlot c.clear.buf = some 0 := by
  have hzero : slotType c.clear.buf 0 = FT_UNKNOWN := by
    have hload : load16 c.clear.buf (SIZEOF_DENTRY_DISK * 0 + 26) = 0 := by
      refine loadLE_eq_zero fun k _ hhi => if_pos ⟨Nat.zero_le k, ?_⟩
      have hhi' : k < 32 * 0 + 26 + 2 := hhi
      show k < 0 + 512
      omega
    rw [slotType, hload]
    rfl
  have hslots : SLOTS = 15 + 1 := rfl
  rw [freeSlot, hslots, List.range_succ_eq_map, List.find?_cons, hzero]
  rfl

/-- The free entry that the loops find. -/
theorem freeSlot_eq_some (h : freeSlot buf = some j) : j < SLOTS ∧ slotType buf j = FT_UNKNOWN :=
  ⟨List.mem_range.mp (List.mem_of_find?_eq_some h),
    of_decide_eq_true (List.find?_some (p := fun j => decide (slotType buf j = FT_UNKNOWN)) h)⟩

end

/-! ### Places -/

/-- The place is a free entry of the sector `lba`, and nothing has changed yet. -/
structure OldPlace (c : DirCursor) (lba : Nat) (place : DirPlace) : Prop where
  sector : place.lba = lba
  slot : freeSlot (c.disk lba) = some place.slot
  disk : place.cursor.disk = c.disk
  blockBitmap : place.cursor.blockBitmap = c.blockBitmap
  buf : ∀ k < SECTOR_SIZE, place.cursor.buf k = c.disk lba k

/-- The place is in a block that was free. -/
structure NewPlace (sb : SuperBlock) (c : DirCursor) (place : DirPlace) : Prop where
  free : FreeBlock sb c.blockBitmap place.lba
  grown : Grown c.blockBitmap place.cursor.blockBitmap
  frame : ∀ l, ¬InBitmap sb l → place.cursor.disk l = c.disk l

/-- The place belongs to the first of the numbers that the loops stop at. -/
def Placed (sb : SuperBlock) (c : DirCursor) (lbas : List Nat) (place : DirPlace) : Prop :=
  ∃ lba, lbas.find? (hasRoom c.disk) = some lba ∧
    ((lba ≠ 0 ∧ OldPlace c lba place) ∨ (lba = 0 ∧ NewPlace sb c place))

/-- The loops have read some sectors, to the first half of the buffer. -/
structure Scanned (c c' : DirCursor) : Prop where
  disk : c'.disk = c.disk
  blockBitmap : c'.blockBitmap = c.blockBitmap
  dir : c'.dir = c.dir
  index : ∀ k, SECTOR_SIZE ≤ k → c'.buf k = c.buf k

section
variable {sb : SuperBlock} {current : Tid} {c c' : DirCursor} {place : DirPlace} {lba : Nat}
  {lbas : List Nat}

theorem Scanned.refl (c : DirCursor) : Scanned c c := ⟨rfl, rfl, rfl, fun _ _ => rfl⟩

/-- To load a sector is to scan it. -/
theorem Scanned.load (c : DirCursor) (lba : Nat) : Scanned c (c.load lba) where
  disk := rfl
  blockBitmap := rfl
  dir := rfl
  index := fun k hk => ideRead_of_ne (.inr (by omega))

theorem Scanned.trans {c'' : DirCursor} (h : Scanned c c') (h' : Scanned c' c'') :
    Scanned c c'' where
  disk := h'.disk.trans h.disk
  blockBitmap := h'.blockBitmap.trans h.blockBitmap
  dir := h'.dir.trans h.dir
  index := fun k hk => (h'.index k hk).trans (h.index k hk)

/-- A place that is found later on. -/
theorem Placed.congr (hplaced : Placed sb c' lbas place) (hdisk : c'.disk = c.disk)
    (hbitmap : c'.blockBitmap = c.blockBitmap) : Placed sb c lbas place := by
  obtain ⟨l, hfind, hplace⟩ := hplaced
  rw [hdisk] at hfind
  refine ⟨l, hfind, ?_⟩
  rcases hplace with ⟨hne, hold⟩ | ⟨hzero, hnew⟩
  · refine .inl ⟨hne, ?_⟩
    exact
      { sector := hold.sector
        slot := hdisk ▸ hold.slot
        disk := hold.disk.trans hdisk
        blockBitmap := hold.blockBitmap.trans hbitmap
        buf := hdisk ▸ hold.buf }
  · refine .inr ⟨hzero, ?_⟩
    exact
      { free := hbitmap ▸ hnew.free
        grown := hbitmap ▸ hnew.grown
        frame := hdisk ▸ hnew.frame }

/-- The first numbers have a place. -/
theorem Placed.append (hplaced : Placed sb c lbas place) (lbas' : List Nat) :
    Placed sb c (lbas ++ lbas') place := by
  obtain ⟨l, hfind, hplace⟩ := hplaced
  exact ⟨l, by rw [List.find?_append, hfind, Option.some_or], hplace⟩

/-- The first numbers are of full sectors. -/
theorem Placed.behind {lbas' : List Nat} (hnone : lbas'.find? (hasRoom c.disk) = none)
    (hplaced : Placed sb c lbas place) : Placed sb c (lbas' ++ lbas) place := by
  obtain ⟨l, hfind, hplace⟩ := hplaced
  exact ⟨l, by rw [List.find?_append, hnone, Option.none_or, hfind], hplace⟩

/-- The loops go on behind a sector that is full. -/
theorem Placed.cons (hfull : hasRoom c.disk lba = false) (h : Placed sb c lbas place) :
    Placed sb c (lba :: lbas) place := by
  obtain ⟨l, hfind, hplace⟩ := h
  exact ⟨l, by rw [List.find?_cons, hfull]; exact hfind, hplace⟩

/-- The loops stop at a sector with a free entry. -/
theorem Placed.old (hne : lba ≠ 0) {slot : Nat} (hslot : freeSlot (c.disk lba) = some slot)
    (isSecond : Bool) :
    Placed sb c (lba :: lbas) { cursor := c.load lba, lba, slot, isSecond } := by
  refine ⟨lba, ?_, .inl ⟨hne, ?_⟩⟩
  · rw [List.find?_cons, hasRoom, hslot, Option.isSome_some, Bool.or_true]
  · exact
      { sector := rfl
        slot := hslot
        disk := rfl
        blockBitmap := rfl
        buf := fun k hk => ideRead_one (Nat.zero_le k) (by omega) }

/-- The loops stop at a zero. -/
theorem Placed.new (hnew : NewPlace sb c place) : Placed sb c (0 :: lbas) place :=
  ⟨0, by rw [List.find?_cons, hasRoom, decide_eq_true rfl, Bool.true_or], .inr ⟨rfl, hnew⟩⟩

/-- A sector without a free entry. -/
theorem hasRoom_full {disk : Disk} (hne : lba ≠ 0) (hfull : freeSlot (disk lba) = none) :
    hasRoom disk lba = false := by
  rw [hasRoom, hfull, decide_eq_false hne]
  rfl

/-! ### The loops -/

/-- A new block does not change the inode by itself. -/
theorem allocBlock_dir {c₁ : DirCursor} (hok : c.allocBlock sb current = .ok (lba, c₁)) :
    c₁.dir = c.dir := by
  simp only [DirCursor.allocBlock, bind_eq_ok, pure_eq_ok] at hok
  obtain ⟨_, -, hres⟩ := hok
  cases hres
  rfl

/-- The body of the loops for a new sector. -/
theorem allocBlock_free {c₁ : DirCursor} (hfit : BitsFit sb c.blockBitmap)
    (hok : c.allocBlock sb current = .ok (lba, c₁)) :
    FreeBlock sb c.blockBitmap lba ∧ Grown c.blockBitmap c₁.blockBitmap ∧
      (∀ l, ¬InBitmap sb l → c₁.disk l = c.disk l) ∧ c₁.dir = c.dir ∧ c₁.buf = c.buf := by
  simp only [DirCursor.allocBlock, bind_eq_ok, pure_eq_ok] at hok
  obtain ⟨⟨lba', disk, blockBitmap⟩, halloc, hres⟩ := hok
  cases hres
  obtain ⟨hfree, -, hgrown, hframe⟩ := blockBimapAlloc_free hfit halloc
  exact ⟨hfree, hgrown, hframe, rfl, rfl⟩

/-- A new block is a new place. -/
theorem newPlace_alloc {c₁ : DirCursor} (hfit : BitsFit sb c.blockBitmap)
    (hok : c.allocBlock sb current = .ok (lba, c₁)) (hlba : place.lba = lba)
    (hdisk : place.cursor.disk = c₁.disk) (hbitmap : place.cursor.blockBitmap = c₁.blockBitmap) :
    NewPlace sb c place := by
  obtain ⟨hfree, hgrown, hframe, -, -⟩ := allocBlock_free hfit hok
  exact ⟨hlba ▸ hfree, hbitmap ▸ hgrown, hdisk ▸ hframe⟩

/-- A sector of the disk is loaded. -/
theorem DirCursor.read_le (h : lba ≤ MAX_LBA) : c.read lba = .ok (c.load lba) := by
  rw [DirCursor.read, readCheck_le h]
  rfl

/-- A load that returns was of a sector of the disk. -/
theorem DirCursor.read_ok (hok : c.read lba = .ok c') : lba ≤ MAX_LBA := by
  obtain ⟨u, hcheck, -⟩ := bind_eq_ok.mp hok
  exact readCheck_one.mp hcheck

/-- A number that is not zero is of a sector on the disk, or the kernel stops. -/
theorem findDirect_lba {idx : Nat} {rest : List Nat} {r : Option DirPlace × DirCursor}
    (hne : c.dir.iSectors idx ≠ 0) (hok : findDirect sb current (idx :: rest) c = .ok r) :
    c.dir.iSectors idx ≤ MAX_LBA := by
  rw [findDirect, if_neg hne] at hok
  simp only [bind_eq_ok] at hok
  obtain ⟨c₁, hread, -⟩ := hok
  exact DirCursor.read_ok hread

/-- The round of `findDirect` for such a sector. -/
theorem findDirect_read (sb : SuperBlock) (current : Tid) {idx : Nat} (rest : List Nat)
    (hne : c.dir.iSectors idx ≠ 0) (hlba : c.dir.iSectors idx ≤ MAX_LBA) :
    findDirect sb current (idx :: rest) c =
      match freeSlot (c.disk (c.dir.iSectors idx)) with
      | some slot =>
          .ok (some { cursor := c.load (c.dir.iSectors idx), lba := c.dir.iSectors idx, slot,
                      isSecond := false }, c.load (c.dir.iSectors idx))
      | none => findDirect sb current rest (c.load (c.dir.iSectors idx)) := by
  rw [findDirect, if_neg hne]
  dsimp only
  rw [DirCursor.read_le hlba]
  cases hslot : freeSlot (c.disk (c.dir.iSectors idx)) with
  | some slot => simp only [ok_bind, pure_eq_ok, freeSlot_load, hslot]
  | none => simp only [ok_bind, pure_eq_ok, freeSlot_load, hslot]

/-- The word `t` of the index block in the buffer. -/
abbrev indexWord (buf : Bytes) (t : Nat) : Nat := load32 buf (SECTOR_SIZE + 4 * t)

/-- So was the one at which the loop stops. -/
theorem findIndexed_lba {isSecond : Bool} {times : Nat} {rest : List Nat} {r : Option DirPlace}
    (hne : indexWord c.buf times ≠ 0)
    (hok : findIndexed sb isSecond current (times :: rest) c = .ok r) :
    indexWord c.buf times ≤ MAX_LBA := by
  rw [findIndexed, if_neg hne] at hok
  simp only [bind_eq_ok] at hok
  obtain ⟨c₁, hread, -⟩ := hok
  exact DirCursor.read_ok hread

/-- The round of `findIndexed` for a sector that the index block names. -/
theorem findIndexed_read (sb : SuperBlock) (isSecond : Bool) (current : Tid) {times : Nat}
    (rest : List Nat) (hne : indexWord c.buf times ≠ 0) (hlba : indexWord c.buf times ≤ MAX_LBA) :
    findIndexed sb isSecond current (times :: rest) c =
      match freeSlot (c.disk (indexWord c.buf times)) with
      | some slot =>
          .ok (some { cursor := c.load (indexWord c.buf times), lba := indexWord c.buf times, slot,
                      isSecond })
      | none => findIndexed sb isSecond current rest (c.load (indexWord c.buf times)) := by
  rw [findIndexed, if_neg hne]
  dsimp only
  rw [DirCursor.read_le hlba]
  cases hslot : freeSlot (c.disk (indexWord c.buf times)) with
  | some slot => simp only [ok_bind, pure_eq_ok, freeSlot_load, hslot]
  | none => simp only [ok_bind, pure_eq_ok, freeSlot_load, hslot]

/-- The loop over the sectors that the inode names. -/
theorem findDirect_ok {idxs : List Nat} {r : Option DirPlace} (hfit : BitsFit sb c.blockBitmap)
    (hok : findDirect sb current idxs c = .ok (r, c')) :
    (∃ place, r = some place ∧ place.isSecond = false ∧
      Placed sb c (idxs.map c.dir.iSectors) place) ∨
    (r = none ∧ (idxs.map c.dir.iSectors).find? (hasRoom c.disk) = none ∧ Scanned c c') := by
  induction idxs generalizing c with
  | nil =>
      cases hok
      exact .inr ⟨rfl, rfl, Scanned.refl _⟩
  | cons idx rest ih =>
      -- A number that is zero gets a new sector, whose first slot is free.
      by_cases hzero : c.dir.iSectors idx = 0
      · rw [findDirect, if_pos hzero] at hok
        simp only [bind_eq_ok, pure_eq_ok, Except.ok.injEq] at hok
        obtain ⟨⟨lba, c₁⟩, halloc, _, rfl, hok⟩ := hok
        rw [freeSlot_clear] at hok
        cases hok
        refine .inl ⟨_, rfl, rfl, ?_⟩
        rw [List.map_cons, hzero]
        exact Placed.new (newPlace_alloc hfit halloc rfl rfl rfl)
      · rw [findDirect_read sb current rest hzero (findDirect_lba hzero hok)] at hok
        cases hslot : freeSlot (c.disk (c.dir.iSectors idx)) with
        | some slot =>
            rw [hslot] at hok
            cases hok
            exact .inl ⟨_, rfl, rfl, Placed.old hzero hslot false⟩
        | none =>
            rw [hslot] at hok
            have hfull : hasRoom c.disk (c.dir.iSectors idx) = false := hasRoom_full hzero hslot
            have hload : Scanned c (c.load (c.dir.iSectors idx)) := Scanned.load c _
            rcases ih (c := c.load (c.dir.iSectors idx)) hfit hok
              with ⟨place, hr, hsecond, hplaced⟩ | ⟨hr, hnone, hscanned⟩
            · have hplaced' : Placed sb c (rest.map c.dir.iSectors) place := hplaced.congr rfl rfl
              exact .inl ⟨place, hr, hsecond, hplaced'.cons hfull⟩
            · refine .inr ⟨hr, ?_, hload.trans hscanned⟩
              rw [List.map_cons, List.find?_cons, hfull]
              exact hnone

/-- The loop over the sectors that the index block in the second half of the buffer names. -/
theorem findIndexed_ok {idxs : List Nat} {isSecond : Bool} (hfit : BitsFit sb c.blockBitmap)
    (hok : findIndexed sb isSecond current idxs c = .ok (some place)) :
    place.isSecond = isSecond ∧ place.cursor.dir = c.dir ∧
      Placed sb c (idxs.map fun t => load32 c.buf (SECTOR_SIZE + 4 * t)) place := by
  induction idxs generalizing c with
  | nil => cases hok
  | cons times rest ih =>
      by_cases hzero : load32 c.buf (SECTOR_SIZE + 4 * times) = 0
      · rw [findIndexed, if_pos hzero] at hok
        simp only [bind_eq_ok, pure_eq_ok, Except.ok.injEq] at hok
        obtain ⟨⟨lba, c₁⟩, halloc, _, rfl, hok⟩ := hok
        rw [freeSlot_clear] at hok
        cases hok
        obtain ⟨-, -, -, hdir, -⟩ := allocBlock_free hfit halloc
        refine ⟨rfl, hdir, ?_⟩
        rw [List.map_cons, hzero]
        exact Placed.new (newPlace_alloc hfit halloc rfl rfl rfl)
      · rw [findIndexed_read sb isSecond current rest hzero (findIndexed_lba hzero hok)] at hok
        cases hslot : freeSlot (c.disk (load32 c.buf (SECTOR_SIZE + 4 * times))) with
        | some slot =>
            rw [hslot] at hok
            cases hok
            exact ⟨rfl, rfl, Placed.old hzero hslot isSecond⟩
        | none =>
            rw [hslot] at hok
            dsimp only at hok
            have hfull := hasRoom_full hzero hslot
            have hload := Scanned.load c (load32 c.buf (SECTOR_SIZE + 4 * times))
            -- A sector in the first half leaves the index block alone.
            have hindex : ∀ t, load32 (c.load (load32 c.buf (SECTOR_SIZE + 4 * times))).buf
                (SECTOR_SIZE + 4 * t) = load32 c.buf (SECTOR_SIZE + 4 * t) :=
              fun t => loadLE_congr fun k hlo _ => hload.index k (by omega)
            obtain ⟨hsecond, hdir, hplaced⟩ :=
              ih (c := c.load (load32 c.buf (SECTOR_SIZE + 4 * times))) hfit hok
            simp only [hindex] at hplaced
            have hplaced' : Placed sb c
                (rest.map fun t => load32 c.buf (SECTOR_SIZE + 4 * t)) place :=
                  hplaced.congr rfl rfl
            exact ⟨hsecond, hdir, hplaced'.cons hfull⟩

/-- How the loops come to a place. -/
inductive FoundBy (sb : SuperBlock) (current : Tid) (c : DirCursor) (place : DirPlace) : Prop
  | direct (c₁ : DirCursor) (hdirect : findDirect sb current (List.range 12) c
      = .ok (some place, c₁))
  | newIndex (c₁ c₂ : DirCursor) (block : Nat)
      (hdirect : findDirect sb current (List.range 12) c = .ok (none, c₁))
      (hzero : c₁.dir.iSectors 12 = 0) (halloc : c₁.allocBlock sb current = .ok (block, c₂))
      (hindexed : findIndexed sb true current (List.range (SECTOR_SIZE / 4))
        (c₂.setSector 12 block).clear = .ok (some place))
  | oldIndex (c₁ : DirCursor) (hdirect : findDirect sb current (List.range 12) c = .ok (none, c₁))
      (hne : c₁.dir.iSectors 12 ≠ 0) (hlba : c₁.dir.iSectors 12 ≤ MAX_LBA)
      (hindexed : findIndexed sb false current (List.range (SECTOR_SIZE / 4))
        { c₁ with buf := ideRead c₁.disk (c₁.dir.iSectors 12) c₁.buf SECTOR_SIZE 1 }
          = .ok (some place))

/-- A place comes from one of the three loops. -/
theorem findPlace_foundBy (hok : findPlace sb c current = .ok place) :
    FoundBy sb current c place := by
  rw [findPlace, bind_eq_ok] at hok
  obtain ⟨⟨r, c₁⟩, hdirect, hok⟩ := hok
  cases r with
  | some found =>
      cases hok
      exact .direct c₁ hdirect
  | none =>
      dsimp only at hok
      by_cases hzero : c₁.dir.iSectors 12 = 0
      · rw [if_pos hzero] at hok
        simp only [bind_eq_ok, pure_eq_ok, Except.ok.injEq] at hok
        obtain ⟨⟨block, c₂⟩, halloc, _, rfl, r, hindexed, hok⟩ := hok
        cases r with
        | none => cases hok
        | some found =>
            cases hok
            exact .newIndex c₁ c₂ block hdirect hzero halloc hindexed
      · rw [if_neg hzero] at hok
        simp only [bind_eq_ok, pure_eq_ok, Except.ok.injEq] at hok
        obtain ⟨u, hcheck, _, rfl, r, hindexed, hok⟩ := hok
        cases r with
        | none => cases hok
        | some found =>
            cases hok
            exact .oldIndex c₁ hdirect hzero (readCheck_one.mp hcheck) hindexed

/-- The loop over the direct sectors found nothing. -/
theorem findDirect_none {idxs : List Nat} (hfit : BitsFit sb c.blockBitmap)
    (hok : findDirect sb current idxs c = .ok (none, c')) :
    (idxs.map c.dir.iSectors).find? (hasRoom c.disk) = none ∧ Scanned c c' := by
  rcases findDirect_ok hfit hok with ⟨found, hfound, -⟩ | ⟨-, hnone, hscanned⟩
  · cases hfound
  · exact ⟨hnone, hscanned⟩

/-- It found a place. -/
theorem findDirect_some {idxs : List Nat} (hfit : BitsFit sb c.blockBitmap)
    (hok : findDirect sb current idxs c = .ok (some place, c')) :
    place.isSecond = false ∧ Placed sb c (idxs.map c.dir.iSectors) place := by
  rcases findDirect_ok hfit hok with ⟨found, hfound, hsecond, hplaced⟩ | ⟨hnone, -⟩
  · obtain rfl := Option.some.inj hfound
    exact ⟨hsecond, hplaced⟩
  · cases hnone

/-- Where `dir_write` puts the entry. In the last case there was no index block, and the word of the
buffer is the caller's. -/
theorem findPlace_ok (hfit : BitsFit sb c.blockBitmap)
    (hok : findPlace sb c current = .ok place) :
    (place.isSecond = false ∧ Placed sb c (scanned c.disk c.dir) place) ∨
    (room c.disk c.dir = none ∧ c.dir.iSectors 12 = 0 ∧ (load32 c.buf SECTOR_SIZE = 0 →
      NewPlace sb c place ∧ FreeBlock sb c.blockBitmap (place.cursor.dir.iSectors 12))) := by
  cases findPlace_foundBy hok with
  | direct c₁ hdirect =>
      obtain ⟨hsecond, hplaced⟩ := findDirect_some hfit hdirect
      exact .inl ⟨hsecond, hplaced.append _⟩
  | newIndex c₁ c₂ block hdirect hzero halloc hindexed =>
      -- the sectors before the new index block are full, and there is none behind
      obtain ⟨hnone, hscanned⟩ := findDirect_none hfit hdirect
      rw [hscanned.dir] at hzero
      have hroom : room c.disk c.dir = none := by
        rw [room, scanned, sectorsAt, if_pos hzero, List.append_nil, hnone]
      have hfit₁ : BitsFit sb c₁.blockBitmap := hscanned.blockBitmap ▸ hfit
      obtain ⟨hfree, hgrown, hframe, -, hbuf⟩ := allocBlock_free hfit₁ halloc
      obtain ⟨-, hdir', l, hfind, hplaced⟩ :=
        findIndexed_ok (c := (c₂.setSector 12 block).clear) (hgrown.bitsFit hfit₁) hindexed
      refine .inr ⟨hroom, hzero, fun hword => ?_⟩
      -- the first word of the block in the buffer is the caller's
      have hfirst : load32 (c₂.setSector 12 block).clear.buf (SECTOR_SIZE + 4 * 0) = 0 := by
        refine Eq.trans (loadLE_congr fun k hlo _ => ?_) hword
        have hclear : (c₂.setSector 12 block).clear.buf k = c₂.buf k := if_neg (by omega)
        rw [hclear, hbuf, hscanned.index k (by omega)]
      have hwords : SECTOR_SIZE / 4 = 127 + 1 := rfl
      rw [hwords, List.range_succ_eq_map, List.map_cons, hfirst, List.find?_cons, hasRoom,
        decide_eq_true rfl, Bool.true_or] at hfind
      cases hfind
      rcases hplaced with ⟨hne, -⟩ | ⟨-, hnew⟩
      · exact absurd rfl hne
      · have hindex : place.cursor.dir.iSectors 12 = block := by
          rw [hdir']
          show Function.update c₂.dir.iSectors 12 block 12 = block
          rw [Function.update_self]
        rw [hindex, ← hscanned.blockBitmap]
        refine ⟨⟨hscanned.blockBitmap ▸ hgrown.free hnew.free,
          hscanned.blockBitmap ▸ hgrown.trans hnew.grown, fun l hl => ?_⟩, hfree⟩
        rw [hnew.frame l hl, ← hscanned.disk]
        exact hframe l hl
  | oldIndex c₁ hdirect hne _ hindexed =>
      obtain ⟨hnone, hscanned⟩ := findDirect_none hfit hdirect
      rw [hscanned.dir] at hne hindexed
      obtain ⟨hsecond, -, hplaced⟩ := findIndexed_ok (hscanned.blockBitmap ▸ hfit) hindexed
      refine .inl ⟨hsecond, Placed.behind hnone ?_⟩
      have hwords : (List.range (SECTOR_SIZE / 4)).map (fun t =>
          load32 (ideRead c₁.disk (c.dir.iSectors 12) c₁.buf SECTOR_SIZE 1) (SECTOR_SIZE + 4 * t))
            = sectorsAt c.disk c.dir 12 := by
        rw [sectorsAt, if_neg hne, if_pos rfl, ← hscanned.disk]
        exact List.map_congr_left fun t ht => load32_index (List.mem_range.mp ht)
      dsimp only at hplaced
      rw [hwords] at hplaced
      exact hplaced.congr hscanned.disk hscanned.blockBitmap

end

/-! ### The entry -/

/-- What the part of `dir_write` behind the loops does to the disk: `D` becomes `D'`. -/
structure EntryPut (sb : SuperBlock) (place : DirPlace) (entry : Bytes) (D' : Disk) : Prop where
  sector : place.isSecond = false → Used sb place.cursor.blockBitmap place.lba →
    ∀ k < SECTOR_SIZE, D' place.lba k = entry k
  frame : ∀ l, l ≠ place.lba → (place.isSecond = true → l ≠ place.cursor.dir.iSectors 12) →
    ¬InBitmap sb l → ¬FreeBlock sb place.cursor.blockBitmap l → D' l = place.cursor.disk l

/-- The cursor once the entry is on the disk. -/
def entryWritten (place : DirPlace) (entry : Bytes) : DirCursor :=
  let c := { place.cursor with
    buf := entry, disk := ideWrite place.cursor.disk place.lba entry 0 1 }
  if place.isSecond then
    { c with disk := ideWrite c.disk (c.dir.iSectors 12) entry SECTOR_SIZE 1 }
  else c

section
variable {sb : SuperBlock} {place : DirPlace} {current : Tid} {entry : Bytes}
  {D D' : Disk} {l : Nat}

/-- To write the entry takes no block. -/
theorem entryWritten_blockBitmap (place : DirPlace) (entry : Bytes) :
    (entryWritten place entry).blockBitmap = place.cursor.blockBitmap := by
  rw [entryWritten]
  split <;> rfl

/-- The entry is on the disk behind the write, and the rest is as before. -/
theorem entryPut_written (sb : SuperBlock) (place : DirPlace) (entry : Bytes) :
    EntryPut sb place entry (entryWritten place entry).disk where
  sector := fun hsecond _ k hk => by
    rw [entryWritten, hsecond]
    exact (ideWrite_one hk).trans (by rw [Nat.zero_add])
  frame := fun l hl hindex _ _ => by
    rw [entryWritten]
    split
    · rename_i hsecond
      exact (ideWrite_of_ne (hindex hsecond)).trans (ideWrite_of_ne hl)
    · exact ideWrite_of_ne hl

/-- The entry gets to the disk when its sector is there, and a new index block too. -/
theorem storeEntry_ok {c : DirCursor} : storeEntry place entry = .ok c ↔
    place.lba ≤ MAX_LBA ∧ (place.isSecond = true → place.cursor.dir.iSectors 12 ≤ MAX_LBA) ∧
      c = entryWritten place entry := by
  simp only [storeEntry, bind_eq_ok, writeCheck_one]
  rw [entryWritten]
  by_cases hsecond : place.isSecond = true
  · rw [if_pos hsecond, if_pos hsecond]
    simp only [bind_eq_ok, writeCheck_one, pure_eq_ok, Except.ok.injEq]
    constructor
    · rintro ⟨_, hlba, _, hindex, rfl⟩
      exact ⟨hlba, fun _ => hindex, rfl⟩
    · rintro ⟨hlba, hindex, rfl⟩
      exact ⟨(), hlba, (), hindex hsecond, rfl⟩
  · rw [if_neg hsecond, if_neg hsecond]
    simp only [pure_eq_ok, Except.ok.injEq]
    constructor
    · rintro ⟨_, hlba, rfl⟩
      exact ⟨hlba, fun htrue => absurd htrue hsecond, rfl⟩
    · rintro ⟨hlba, -, rfl⟩
      exact ⟨(), hlba, rfl⟩

/-- A block that is marked is behind the bitmap. -/
theorem Used.not_inBitmap {B : Bitmap} (h : Used sb B l)
    (hlayout : sb.blockBitmapLba + sb.blockBitmapSects ≤ sb.dataStartLba) : ¬InBitmap sb l := by
  obtain ⟨idx, -, hidx, -, -⟩ := h
  intro hin
  have hlt := hin.2
  omega

/-- Changes in the bitmap and in blocks that were free. -/
theorem EntryPut.congr (h : EntryPut sb place entry D)
    (hlayout : sb.blockBitmapLba + sb.blockBitmapSects ≤ sb.dataStartLba)
    (hD : ∀ l, ¬InBitmap sb l → ¬FreeBlock sb place.cursor.blockBitmap l → D' l = D l) :
    EntryPut sb place entry D' where
  sector := fun hsecond hused k hk => by
    rw [hD place.lba (hused.not_inBitmap hlayout) fun hfree => hfree.2 hused]
    exact h.sector hsecond hused k hk
  frame := fun l hl hindex hbitmap hfree => by
    rw [hD l hbitmap hfree]
    exact h.frame l hl hindex hbitmap hfree

/-- What `dir_write` does behind the entry: nothing for a file, and for a directory a new block with
`.` and `..`. -/
inductive PutBy (sb : SuperBlock) (current : Tid) (c₀ : DirCursor) (i : Inode) :
    DirCursor → Inode → Prop
  | file (hmode : i.iMode &&& 0xf000 ≠ FT_DIR) : PutBy sb current c₀ i c₀ i
  | dir (hmode : i.iMode &&& 0xf000 = FT_DIR) (lba : Nat) (c₁ : DirCursor) (dots : Bytes)
      (halloc : c₀.allocBlock sb current = .ok (lba, c₁)) (hlba : lba ≤ MAX_LBA) :
      PutBy sb current c₀ i { c₁ with buf := dots, disk := ideWrite c₁.disk lba dots 0 1 }
        { i with iSectors := Function.update i.iSectors 0 lba, iSize := SIZEOF_DENTRY_DISK * 2 }

/-- The sectors that a call has written are on the disk. -/
theorem putEntry_by {i i' : Inode} {filename : Bytes} {n : Nat} {c : DirCursor}
    (hok : putEntry sb place i filename n current = .ok (c, i')) :
    place.lba ≤ MAX_LBA ∧ (place.isSecond = true → place.cursor.dir.iSectors 12 ≤ MAX_LBA) ∧
      PutBy sb current (entryWritten place
        (writeSlot place.cursor.buf place.slot i.iMode i.iNo filename n)) i c i' := by
  rw [putEntry, bind_eq_ok] at hok
  obtain ⟨c₀, hstore, hok⟩ := hok
  obtain ⟨hlba, hsecond, rfl⟩ := storeEntry_ok.mp hstore
  refine ⟨hlba, hsecond, ?_⟩
  by_cases hdir : i.iMode &&& 0xf000 = FT_DIR
  · rw [if_pos hdir, bind_eq_ok] at hok
    obtain ⟨⟨lba, c₁⟩, halloc, hok⟩ := hok
    obtain ⟨_, hcheck, hok⟩ := bind_eq_ok.mp hok
    cases hok
    exact .dir hdir lba c₁ _ halloc (writeCheck_one.mp hcheck)
  · rw [if_neg hdir] at hok
    cases hok
    exact .file hdir

/-- The entry changes nothing in the inode of the directory. -/
theorem putEntry_dir {i i' : Inode} {filename : Bytes} {n : Nat} {c : DirCursor}
    (hok : putEntry sb place i filename n current = .ok (c, i')) : c.dir = place.cursor.dir := by
  have hdir : ∀ entry, (entryWritten place entry).dir = place.cursor.dir := by
    intro entry
    rw [entryWritten]
    split <;> rfl
  obtain ⟨-, -, hby⟩ := putEntry_by hok
  cases hby with
  | file => exact hdir _
  | dir hmode lba c₁ dots halloc => exact (allocBlock_dir halloc).trans (hdir _)

/-- The new inode keeps its number and its mode. -/
theorem putEntry_keeps {i i' : Inode} {filename : Bytes} {n : Nat} {c : DirCursor}
    (hok : putEntry sb place i filename n current = .ok (c, i')) :
    i'.iNo = i.iNo ∧ i'.iMode = i.iMode := by
  obtain ⟨-, -, hput⟩ := putEntry_by hok
  cases hput with
  | file => exact ⟨rfl, rfl⟩
  | dir => exact ⟨rfl, rfl⟩

/-- The number of the inode does not change, also when it gets a first sector. -/
theorem putEntry_iNo {i i' : Inode} {filename : Bytes} {n : Nat} {c : DirCursor}
    (hok : putEntry sb place i filename n current = .ok (c, i')) : i'.iNo = i.iNo :=
  (putEntry_keeps hok).1

/-- The entry of a file or of a directory is on the disk. A directory has its two first entries in a
block of its own. -/
theorem putEntry_ok {i i' : Inode} {filename : Bytes} {n : Nat} {c : DirCursor}
    (hlayout : sb.blockBitmapLba + sb.blockBitmapSects ≤ sb.dataStartLba)
    (hfit : BitsFit sb place.cursor.blockBitmap)
    (hok : putEntry sb place i filename n current = .ok (c, i')) :
    EntryPut sb place (writeSlot place.cursor.buf place.slot i.iMode i.iNo filename n) c.disk := by
  have hbitmap := entryWritten_blockBitmap place
    (writeSlot place.cursor.buf place.slot i.iMode i.iNo filename n)
  have hput := entryPut_written sb place
    (writeSlot place.cursor.buf place.slot i.iMode i.iNo filename n)
  obtain ⟨-, -, hby⟩ := putEntry_by hok
  cases hby with
  | file => exact hput
  | dir hmode lba c₁ dots halloc =>
      obtain ⟨hfree, -, hframe, -, -⟩ := allocBlock_free
        (c := entryWritten place (writeSlot place.cursor.buf place.slot i.iMode i.iNo filename n))
        (hbitmap ▸ hfit) halloc
      -- The sector with `.` and `..` is in a block that was free.
      refine hput.congr hlayout fun l hl hused => ?_
      rw [hbitmap] at hfree
      have hne : l ≠ lba := by
        rintro rfl
        exact hused hfree
      show ideWrite c₁.disk lba _ 0 1 l = _
      rw [ideWrite_of_ne hne, hframe l hl]

end

/-! ### The call -/

/-- The list of children is in memory, so the file system stays. -/
theorem pushChild_fs {s s' : DirSys} {parent d : Nat} (hok : s.pushChild parent d = .ok s') :
    s'.fs = s.fs := by
  simp only [DirSys.pushChild, bind_eq_ok, pure_eq_ok] at hok
  obtain ⟨⟨dSubdirs, dChild⟩, -, hres⟩ := hok
  cases hres
  rfl

/-- What a call of `dir_write` that returns a dentry does to the disk. -/
theorem dirWrite_ok {s s' : DirSys} {parent i n dm d : Nat} {buf buf' filename : Bytes}
    {current : Tid} (hne : i ≠ (s.dentry parent).inode)
    (hok : dirWrite s parent i buf filename n dm current = .ok (some d, buf', s')) :
    ∃ place c inode,
      findPlace s.fs.part.sb ⟨s.fs.disk, s.fs.part.blockBitmap,
      s.fs.inode (s.dentry parent).inode, buf⟩
        current = .ok place ∧
      putEntry s.fs.part.sb place (s.fs.inode i) filename n current = .ok (c, inode) ∧
      s'.fs.disk = c.disk ∧ s'.fs.part.sb = s.fs.part.sb ∧
      s'.fs.part.inodeBitmap = s.fs.part.inodeBitmap ∧ s'.fs.inode i = inode := by
  rw [dirWrite] at hok
  dsimp only at hok
  split at hok
  · cases hok
  · simp only [bind_eq_ok, pure_eq_ok] at hok
    obtain ⟨place, hplace, ⟨c, inode⟩, hput, s₁, hpush, hok⟩ := hok
    -- The dentry goes to the list of its parent, in memory only.
    have hfs := pushChild_fs hpush
    cases hok
    refine ⟨place, c, inode, hplace, hput, ?_, ?_, ?_, ?_⟩
    · show s₁.fs.disk = c.disk
      rw [hfs]
      rfl
    · show s₁.fs.part.sb = s.fs.part.sb
      rw [hfs]
      rfl
    · show s₁.fs.part.inodeBitmap = s.fs.part.inodeBitmap
      rw [hfs]
      rfl
    · rw [FileSys.setInode_of_ne _ _ hne, hfs]
      exact FileSys.setInode_self _ _ _

end Fizzos.Proofs
