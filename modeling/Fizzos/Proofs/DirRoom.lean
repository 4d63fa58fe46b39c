import Fizzos.Proofs.DirLoops
import Fizzos.Proofs.WriteLimit

/-!
# `Fizzos.Proofs.DirRoom`: when a directory takes another entry

The loops of `dir_write` stop at the first sector with a free entry, or at the first number that is
zero and gets a new block. `Stops` says that there is such a number, and a block for it, and that
the sectors up to there are on the disk. When the index block is new, the loop reads the numbers
that the caller has left in the buffer.

`findPlace_iff` is about both loops, up to the entry of a file on the disk (`Storable`). When none
of the numbers will do, or no block is free, or a sector is past `MAX_LBA`, the kernel stops.
-/

set_option autoImplicit false

namespace Fizzos.Proofs

open Fizzos.Device
open Fizzos.Fs
open Fizzos.Kernel
open Fizzos.Lib
open Fizzos.LibKernel
open Fizzos.Support

/-- The loops stop at one of the numbers and read sectors of the disk only, and there is a block for
a new sector. -/
def Stops (sb : SuperBlock) (disk : Disk) (bmap : Bitmap) (lbas : List Nat) : Prop :=
  (∀ l ∈ entryReads disk lbas, l ≤ MAX_LBA) ∧
    ∃ lba, lbas.find? (hasRoom disk) = some lba ∧ (lba = 0 → 0 < blocksLeft sb bmap)

/-- The directory takes an entry. In the second case there is no index block yet, and in the third
it is read behind twelve full sectors. -/
def TakesEntry (sb : SuperBlock) (c : DirCursor) (current : Tid) : Prop :=
  Stops sb c.disk c.blockBitmap (directNumbers c.dir) ∨
    ((directNumbers c.dir).find? (hasRoom c.disk) = none ∧
      (∀ l ∈ directNumbers c.dir, l ≤ MAX_LBA) ∧ c.dir.iSectors 12 = 0 ∧
      ∃ lba disk bmap, blockBimapAlloc c.disk sb c.blockBitmap current = .ok (lba, disk, bmap) ∧
        lba ≤ MAX_LBA ∧ Stops sb disk bmap (indexWords c.buf)) ∨
    ((directNumbers c.dir).find? (hasRoom c.disk) = none ∧
      (∀ l ∈ directNumbers c.dir, l ≤ MAX_LBA) ∧ c.dir.iSectors 12 ≠ 0 ∧
      c.dir.iSectors 12 ≤ MAX_LBA ∧ Stops sb c.disk c.blockBitmap (sectorsAt c.disk c.dir 12))

/-- The sectors that get the entry, and the index block if it is new, are on the disk. -/
def Storable (place : DirPlace) : Prop :=
  place.lba ≤ MAX_LBA ∧ (place.isSecond = true → place.cursor.dir.iSectors 12 ≤ MAX_LBA)

section
variable {sb : SuperBlock} {current : Tid} {disk : Disk} {bmap : Bitmap} {c c' : DirCursor}
  {lba : Nat} {lbas lbas' : List Nat}

theorem not_stops_of_none (h : lbas.find? (hasRoom disk) = none) : ¬Stops sb disk bmap lbas := by
  rintro ⟨-, lba, hfind, -⟩
  rw [h] at hfind
  cases hfind

/-- There is a block when one is free. -/
theorem allocBlock_iff (current : Tid) (h : BitmapReady sb c.blockBitmap)
    (hfit : BitsFit sb c.blockBitmap) :
    (∃ lba c₁, c.allocBlock sb current = .ok (lba, c₁) ∧ lba ≤ MAX_LBA) ↔
      0 < blocksLeft sb c.blockBitmap := by
  constructor
  · rintro ⟨lba, c₁, hok, hlba⟩
    obtain ⟨⟨lba', disk, bmap⟩, halloc, hres⟩ := bind_eq_ok.mp hok
    cases hres
    have hspent := blockBimapAlloc_spent hfit halloc hlba
    omega
  · intro hfree
    obtain ⟨lba, disk, bmap, halloc, hlba⟩ := blockBimapAlloc_succeeds h hfree c.disk current
    rw [DirCursor.allocBlock, halloc, ok_bind]
    exact ⟨lba, _, rfl, hlba⟩

/-- The loop over the sectors that the inode names. -/
theorem findDirect_iff (current : Tid) (h : BitmapReady sb c.blockBitmap)
    (hfit : BitsFit sb c.blockBitmap) :
    (∃ place c', findDirect sb current (List.range 12) c = .ok (some place, c') ∧
        place.lba ≤ MAX_LBA) ↔
      Stops sb c.disk c.blockBitmap (directNumbers c.dir) := by
  constructor
  · rintro ⟨place, c', hok, hlba⟩
    refine ⟨findDirect_reads hok, ?_⟩
    obtain ⟨-, l, hfind, -⟩ := findDirect_some hfit hok
    refine ⟨l, hfind, fun hzero => ?_⟩
    obtain ⟨pre, idx, post, hsplit, hidx, -, hfull⟩ := exists_split hfind
    have hreads := findDirect_reads hok
    rw [hsplit] at hok hreads
    obtain ⟨c₁, hscanned, hskip⟩ :=
      findDirect_skip sb current (idx :: post) hfull (le_of_reads hfull hreads).1
    have hidx' : c₁.dir.iSectors idx = 0 := by rw [hscanned.dir, hidx, hzero]
    rw [hskip] at hok
    obtain ⟨lba, c₂, halloc⟩ := findDirect_alloc hidx' hok
    obtain ⟨c₃, hzero'⟩ := findDirect_zero post hidx' halloc
    rw [hzero'] at hok
    cases hok
    rw [← hscanned.blockBitmap]
    exact (allocBlock_iff current (hscanned.blockBitmap ▸ h) (hscanned.blockBitmap ▸ hfit)).mp
      ⟨lba, c₂, halloc, hlba⟩
  · rintro ⟨hreads, lba, hfind, hblocks⟩
    obtain ⟨pre, idx, post, hsplit, hidx, hroom, hfull⟩ := exists_split hfind
    rw [directNumbers, hsplit] at hreads
    obtain ⟨hpre, hlba⟩ := le_of_reads hfull hreads
    rw [hidx] at hlba
    obtain ⟨c₁, hscanned, hskip⟩ := findDirect_skip sb current (idx :: post) hfull hpre
    have hidx' : c₁.dir.iSectors idx = lba := by rw [hscanned.dir, hidx]
    rw [hsplit, hskip]
    by_cases hzero : lba = 0
    · -- a new sector
      rw [hzero] at hidx'
      obtain ⟨l, c₂, halloc, hl⟩ := (allocBlock_iff current (c := c₁) (hscanned.blockBitmap ▸ h)
        (hscanned.blockBitmap ▸ hfit)).mpr (hscanned.blockBitmap ▸ hblocks hzero)
      obtain ⟨c₃, hok⟩ := findDirect_zero post hidx' halloc
      exact ⟨_, c₃, hok, hl⟩
    · obtain ⟨slot, hslot⟩ := exists_freeSlot hroom hzero
      rw [← hscanned.disk, ← hidx'] at hslot
      obtain ⟨c₂, hok⟩ := findDirect_room sb current post (by rw [hidx']; exact hzero)
        (by rw [hidx']; exact hlba hzero) hslot
      refine ⟨_, c₂, hok, ?_⟩
      rw [hidx']
      exact hlba hzero

/-- The loop over the sectors that the second half of the buffer names. -/
theorem findIndexed_iff (current : Tid) (h : BitmapReady sb c.blockBitmap)
    (hfit : BitsFit sb c.blockBitmap) (isSecond : Bool) :
    (∃ place, findIndexed sb isSecond current (List.range (SECTOR_SIZE / 4)) c = .ok (some place) ∧
        place.lba ≤ MAX_LBA) ↔
      Stops sb c.disk c.blockBitmap (indexWords c.buf) := by
  constructor
  · rintro ⟨place, hok, hlba⟩
    refine ⟨findIndexed_reads hok, ?_⟩
    obtain ⟨-, -, l, hfind, -⟩ := findIndexed_ok hfit hok
    refine ⟨l, hfind, fun hzero => ?_⟩
    -- The sectors `pre` are full, and `t` is the first word that stops the loop.
    obtain ⟨pre, t, post, hsplit, ht, -, hfull⟩ := exists_split hfind
    have hreads := findIndexed_reads hok
    rw [hsplit] at hok hreads
    obtain ⟨c₁, hscanned, hskip⟩ :=
      findIndexed_skip sb isSecond current (t :: post) hfull (le_of_reads hfull hreads).1
    have ht' : indexWord c₁.buf t = 0 := (hscanned.indexWord t).trans (ht.trans hzero)
    rw [hskip] at hok
    obtain ⟨lba, c₂, halloc⟩ := findIndexed_alloc ht' hok
    rw [findIndexed_zero isSecond post ht' halloc] at hok
    cases hok
    rw [← hscanned.blockBitmap]
    exact (allocBlock_iff current (hscanned.blockBitmap ▸ h) (hscanned.blockBitmap ▸ hfit)).mp
      ⟨lba, c₂, halloc, hlba⟩
  · -- the same split, with the two ways for the loop to stop: a word that is 0, or a sector with
    -- room
    rintro ⟨hreads, lba, hfind, hblocks⟩
    obtain ⟨pre, t, post, hsplit, ht, hroom, hfull⟩ := exists_split hfind
    rw [indexWords, hsplit] at hreads
    obtain ⟨hpre, hlba⟩ := le_of_reads hfull hreads
    rw [ht] at hlba
    obtain ⟨c₁, hscanned, hskip⟩ := findIndexed_skip sb isSecond current (t :: post) hfull hpre
    have ht' : indexWord c₁.buf t = lba := (hscanned.indexWord t).trans ht
    rw [hsplit, hskip]
    by_cases hzero : lba = 0
    · rw [hzero] at ht'
      obtain ⟨l, c₂, halloc, hl⟩ := (allocBlock_iff current (c := c₁) (hscanned.blockBitmap ▸ h)
        (hscanned.blockBitmap ▸ hfit)).mpr (hscanned.blockBitmap ▸ hblocks hzero)
      exact ⟨_, findIndexed_zero isSecond post ht' halloc, hl⟩
    · obtain ⟨slot, hslot⟩ := exists_freeSlot hroom hzero
      rw [← hscanned.disk, ← ht'] at hslot
      refine ⟨_, findIndexed_room sb isSecond current post (by rw [ht']; exact hzero)
        (by rw [ht']; exact hlba hzero) hslot, ?_⟩
      dsimp only
      rw [ht']
      exact hlba hzero

/-- The part of `dir_write` with an index block. -/
theorem findPlace_indexed_iff (h : BitmapReady sb c.blockBitmap) (hfit : BitsFit sb c.blockBitmap)
    (hscanned : Scanned c c') (hindex : c.dir.iSectors 12 ≠ 0)
    (hfull : findDirect sb current (List.range 12) c = .ok (none, c')) :
    (∃ place, findPlace sb c current = .ok place ∧ Storable place) ↔
      c.dir.iSectors 12 ≤ MAX_LBA ∧ Stops sb c.disk c.blockBitmap (sectorsAt c.disk c.dir 12) := by
  have hindex' : c'.dir.iSectors 12 ≠ 0 := hscanned.dir ▸ hindex
  have hwords : indexWords (ideRead c.disk (c.dir.iSectors 12) c'.buf SECTOR_SIZE 1)
      = sectorsAt c.disk c.dir 12 := by
    rw [indexWords, sectorsAt, if_neg hindex, if_pos rfl]
    exact List.map_congr_left fun t ht => load32_index (List.mem_range.mp ht)
  -- `c₁` is the state in front of the loop, with the index block in the second half of the buffer.
  obtain ⟨c₁, hc₁⟩ : ∃ c₁, c₁ = { c' with
      buf := ideRead c'.disk (c'.dir.iSectors 12) c'.buf SECTOR_SIZE 1 } := ⟨_, rfl⟩
  have hfit₁ : BitsFit sb c₁.blockBitmap := by
    rw [hc₁]
    exact hscanned.blockBitmap ▸ hfit
  have hloop := findIndexed_iff current (c := c₁)
    (by rw [hc₁]; exact hscanned.blockBitmap ▸ h) hfit₁ false
  have hstops : Stops sb c₁.disk c₁.blockBitmap (indexWords c₁.buf) ↔
      Stops sb c.disk c.blockBitmap (sectorsAt c.disk c.dir 12) := by
    rw [hc₁]
    dsimp only
    rw [hscanned.disk, hscanned.blockBitmap, hscanned.dir, hwords]
  rw [hstops] at hloop
  rw [← hloop]
  constructor
  · rintro ⟨place, hok, hlba, -⟩
    -- The direct sectors are full and the index block is there, so one case is left.
    cases findPlace_foundBy hok with
    | direct c₂ hfound => cases hfull.symm.trans hfound
    | newIndex c₂ c₃ block hnone hzero =>
        cases hfull.symm.trans hnone
        exact absurd hzero hindex'
    | oldIndex c₂ hnone hne hblock hindexed =>
        cases hfull.symm.trans hnone
        rw [← hc₁] at hindexed
        exact ⟨hscanned.dir ▸ hblock, place, hindexed, hlba⟩
  · rintro ⟨hblock, place, hok, hlba⟩
    obtain ⟨hsecond, -, -⟩ := findIndexed_ok hfit₁ hok
    refine ⟨place, ?_, hlba, fun htrue => ?_⟩
    · rw [findPlace, hfull, ok_bind]
      dsimp only
      rw [if_neg hindex', readCheck_le (hscanned.dir.symm ▸ hblock), ok_bind, pure_eq_ok, ok_bind]
      dsimp only
      rw [← hc₁, hok]
      rfl
    · rw [hsecond] at htrue
      cases htrue

/-- The part of `dir_write` that makes an index block. -/
theorem findPlace_newIndex_iff (h : BitmapReady sb c.blockBitmap) (hfit : BitsFit sb c.blockBitmap)
    (hscanned : Scanned c c') (hindex : c.dir.iSectors 12 = 0)
    (hfull : findDirect sb current (List.range 12) c = .ok (none, c')) :
    (∃ place, findPlace sb c current = .ok place ∧ Storable place) ↔
      ∃ lba disk bmap, blockBimapAlloc c.disk sb c.blockBitmap current = .ok (lba, disk, bmap) ∧
        lba ≤ MAX_LBA ∧ Stops sb disk bmap (indexWords c.buf) := by
  have hindex' : c'.dir.iSectors 12 = 0 := hscanned.dir ▸ hindex
  -- the first half of the buffer is cleared, and the numbers are in the other one
  have hwords : indexWords (memsetZero c'.buf 0 SECTOR_SIZE) = indexWords c.buf := by
    rw [← hscanned.indexWords]
    exact List.map_congr_left fun t _ => loadLE_congr fun k hlo _ => if_neg (by omega)
  have hloop : ∀ (lba : Nat) (disk : Disk) (bmap : Bitmap),
      blockBimapAlloc c.disk sb c.blockBitmap current = .ok (lba, disk, bmap) →
      ((∃ place, findIndexed sb true current (List.range (SECTOR_SIZE / 4))
          (DirCursor.clear (DirCursor.setSector { c' with disk, blockBitmap := bmap } 12 lba))
        = .ok (some place) ∧ place.lba ≤ MAX_LBA) ↔ Stops sb disk bmap (indexWords c.buf)) := by
    intro lba disk bmap halloc
    rw [← hwords]
    obtain ⟨-, -, hgrown, -⟩ := blockBimapAlloc_free hfit halloc
    exact findIndexed_iff current (c := DirCursor.clear (DirCursor.setSector
      { c' with disk, blockBitmap := bmap } 12 lba)) (blockBimapAlloc_ready h halloc)
        (hgrown.bitsFit hfit) true
  -- the new block is in the inode
  have hself : ∀ (lba : Nat) (disk : Disk) (bmap : Bitmap) (place : DirPlace),
      blockBimapAlloc c.disk sb c.blockBitmap current = .ok (lba, disk, bmap) →
      findIndexed sb true current (List.range (SECTOR_SIZE / 4))
          (DirCursor.clear (DirCursor.setSector { c' with disk, blockBitmap := bmap } 12 lba))
        = .ok (some place) → place.isSecond = true ∧ place.cursor.dir.iSectors 12 = lba := by
    intro lba disk bmap place halloc hok
    obtain ⟨-, -, hgrown, -⟩ := blockBimapAlloc_free hfit halloc
    obtain ⟨hsecond, hdir, -⟩ := findIndexed_ok (c := DirCursor.clear (DirCursor.setSector
      { c' with disk, blockBitmap := bmap } 12 lba)) (hgrown.bitsFit hfit) hok
    refine ⟨hsecond, ?_⟩
    rw [hdir]
    show Function.update c'.dir.iSectors 12 lba 12 = lba
    rw [Function.update_self]
  constructor
  · rintro ⟨place, hok, hlba, hsecond⟩
    cases findPlace_foundBy hok with
    | direct c₂ hfound => cases hfull.symm.trans hfound
    | newIndex c₂ c₃ block hnone hzero halloc hindexed =>
        cases hfull.symm.trans hnone
        obtain ⟨⟨lba, disk, bmap⟩, halloc', hres⟩ := bind_eq_ok.mp halloc
        cases hres
        rw [hscanned.disk, hscanned.blockBitmap] at halloc'
        obtain ⟨htrue, hblock⟩ := hself _ _ _ _ halloc' hindexed
        exact ⟨_, disk, bmap, halloc', hblock ▸ hsecond htrue,
          (hloop _ _ _ halloc').mp ⟨place, hindexed, hlba⟩⟩
    | oldIndex c₂ hnone hne =>
        cases hfull.symm.trans hnone
        exact absurd hindex' hne
  · rintro ⟨lba, disk, bmap, halloc, hblock, hstops⟩
    obtain ⟨place, hok, hlba⟩ := (hloop lba disk bmap halloc).mpr hstops
    refine ⟨place, ?_, hlba, fun _ => (hself _ _ _ _ halloc hok).2.symm ▸ hblock⟩
    rw [findPlace, hfull, ok_bind]
    dsimp only
    rw [if_pos hindex', DirCursor.allocBlock, hscanned.disk, hscanned.blockBitmap]
    simp only [halloc, ok_bind, pure_eq_ok, hok]

/-- `dir_write` finds a place that it can write to when the directory takes an entry. -/
theorem findPlace_iff (current : Tid) (h : BitmapReady sb c.blockBitmap)
    (hfit : BitsFit sb c.blockBitmap) :
    (∃ place, findPlace sb c current = .ok place ∧ Storable place) ↔ TakesEntry sb c current := by
  rw [TakesEntry]
  cases hfind : (directNumbers c.dir).find? (hasRoom c.disk) with
  | some lba =>
      rw [or_iff_left (by simp), ← findDirect_iff current h hfit]
      constructor
      · rintro ⟨place, hok, hlba, -⟩
        obtain ⟨⟨r, c₁⟩, hr, hplace⟩ := bind_eq_ok.mp hok
        rcases findDirect_ok hfit hr with ⟨found, rfl, -⟩ | ⟨rfl, hfull, -⟩
        · cases hplace
          exact ⟨place, c₁, hr, hlba⟩
        · exact absurd (hfind.symm.trans hfull) (Option.some_ne_none _)
      · rintro ⟨place, c₁, hok, hlba⟩
        refine ⟨place, ?_, hlba, fun htrue => ?_⟩
        · rw [findPlace, hok]
          rfl
        · rw [(findDirect_some hfit hok).1] at htrue
          cases htrue
  | none =>
      rw [or_iff_right (not_stops_of_none hfind), and_iff_right rfl, and_iff_right rfl]
      -- All direct sectors are full, so the loop reads each of them.
      have hsame := entryReads_full hfind
      by_cases hpast : ∀ l ∈ directNumbers c.dir, l ≤ MAX_LBA
      · rw [and_iff_right hpast, and_iff_right hpast]
        obtain ⟨c₁, hscanned, hfull⟩ := findDirect_full sb current (hsame.symm ▸ hpast) hfind
        by_cases hindex : c.dir.iSectors 12 = 0
        · rw [findPlace_newIndex_iff h hfit hscanned hindex hfull, and_iff_right hindex,
            or_iff_left fun hand => hand.1 hindex]
        · rw [findPlace_indexed_iff h hfit hscanned hindex hfull, and_iff_right hindex,
            or_iff_right fun hand => hindex hand.1]
      · refine iff_of_false ?_ (by tauto)
        rintro ⟨place, hok, -⟩
        exact hpast (hsame ▸ findPlace_directReads hok)

end

end Fizzos.Proofs
