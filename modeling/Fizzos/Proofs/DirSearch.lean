import Fizzos.Fs.DirSearch
import Fizzos.Proofs.FileBlocks
import Fizzos.Proofs.SearchReads

/-!
# `Fizzos.Proofs.DirSearch`: which entries `dir_search_disk` shows

`dir_search_disk` visits the sectors block by block (`searchIdxs_eq`): a `false` of `func` ends the
loop over one sector, and the loops around it go on. The loop over the index block does not skip
zeros, so the sector 0 counts as a sector of the directory.

`func` is called on the live entries of the directory, up to the first `false`, exactly when these
two do not show (`dirSearch_visits_iff`).
-/

set_option autoImplicit false

namespace Fizzos.Proofs

open Fizzos.Device
open Fizzos.Fs
open Fizzos.Kernel
open Fizzos.Support

/-! ### The entries of a directory -/

/-- The entries in use in the sector with the number `sec`. -/
def liveEntries (sector : Bytes) (sec : Nat) : List EntryCall :=
  ((List.range SLOTS).filter fun j => decide (slotType sector j ≠ FT_UNKNOWN)).map fun j =>
    ⟨sec, j, entryAt sector j⟩

/-- They, for each sector of the directory. -/
def dirBlocks (disk : Disk) (p : Inode) : List (List EntryCall) :=
  (List.range FILE_SECTORS).map fun k =>
    if blockOf disk p k = 0 then [] else liveEntries (disk (blockOf disk p k)) k

/-- The entries in use in a directory, in on-disk order. -/
def dirEntries (disk : Disk) (p : Inode) : List EntryCall := (dirBlocks disk p).flatten

/-- What `func` does in a call. -/
def onEntry {σ : Type} (func : σ → EntryBytes → Bool × σ) (arg : σ) (call : EntryCall) : Bool × σ :=
  func arg call.entry

/-- The entries that the loops come to because of `i_sectors[idx]`. -/
def blocksAt (disk : Disk) (p : Inode) (idx : Nat) : List (List EntryCall) :=
  if idx = 12 then
    (List.range (SECTOR_SIZE / 4)).map fun t =>
      if p.iSectors 12 = 0 then [] else liveEntries (disk (indexEntry disk p t)) (12 + t)
  else [if p.iSectors idx = 0 then [] else liveEntries (disk (p.iSectors idx)) idx]

section
variable {disk : Disk} {p : Inode} {sector buf : Bytes} {call : EntryCall} {sec k : Nat}

theorem mem_liveEntries (h : call ∈ liveEntries sector sec) : call.sec = sec := by
  obtain ⟨j, -, rfl⟩ := List.mem_map.mp h
  rfl

theorem liveEntries_eq_nil :
    liveEntries sector sec = [] ↔ ∀ j < SLOTS, slotType sector j = FT_UNKNOWN := by
  rw [liveEntries, List.map_eq_nil_iff, List.filter_eq_nil_iff]
  simp only [List.mem_range, decide_eq_true_eq, not_not]

/-- The number of its sector tells where an entry is. -/
theorem mem_dirEntries (h : call ∈ dirEntries disk p) :
    blockOf disk p call.sec ≠ 0 ∧ call ∈ liveEntries (disk (blockOf disk p call.sec)) call.sec := by
  obtain ⟨block, hblock, hmem⟩ := List.mem_flatten.mp h
  obtain ⟨k, -, rfl⟩ := List.mem_map.mp hblock
  split at hmem
  next => exact absurd hmem List.not_mem_nil
  next hne =>
    obtain rfl := mem_liveEntries hmem
    exact ⟨hne, hmem⟩

/-- No entry is listed twice. -/
theorem dirEntries_nodup : (dirEntries disk p).Nodup := by
  have hsector : ∀ (sector : Bytes) (sec : Nat), (liveEntries sector sec).Nodup := by
    intro sector sec
    refine (List.nodup_range.filter _).map fun j j' heq => ?_
    exact congrArg EntryCall.slot heq
  rw [dirEntries, dirBlocks, ← List.flatMap_def, List.nodup_flatMap]
  constructor
  · intro k _
    split
    next => exact List.nodup_nil
    next => exact hsector _ _
  · refine List.nodup_range.imp fun {k k'} hne call hk hk' => ?_
    dsimp only at hk hk'
    split at hk
    next => exact List.not_mem_nil hk
    next =>
      split at hk'
      next => exact List.not_mem_nil hk'
      next => exact hne ((mem_liveEntries hk).symm.trans (mem_liveEntries hk'))

/-- A sector in `buf` has its entries. -/
theorem liveEntries_ideRead (lba : Nat) :
    liveEntries (ideRead disk lba buf 0 1) sec = liveEntries (disk lba) sec := by
  have hbyte : ∀ j < SLOTS, ∀ k < SIZEOF_DENTRY_DISK,
      ideRead disk lba buf 0 1 (SIZEOF_DENTRY_DISK * j + k)
      = disk lba (SIZEOF_DENTRY_DISK * j + k) := by
    intro j hj k hk
    have hj' : j < 16 := hj
    have hk' : k < 32 := hk
    have hlt : SIZEOF_DENTRY_DISK * j + k < 0 + SECTOR_SIZE := by
      show 32 * j + k < 0 + 512
      omega
    exact ideRead_one (Nat.zero_le _) hlt
  have hentry : ∀ j < SLOTS, entryAt (ideRead disk lba buf 0 1) j = entryAt (disk lba) j :=
    fun j hj => List.map_congr_left fun k hk => hbyte j hj k (List.mem_range.mp hk)
  have htype : ∀ j < SLOTS, slotType (ideRead disk lba buf 0 1) j = slotType (disk lba) j :=
    fun j hj => slotType_slot fun k hk => hbyte j hj k hk
  -- the same slots are in use
  have hfilter : ((List.range SLOTS).filter fun j =>
      decide (slotType (ideRead disk lba buf 0 1) j ≠ FT_UNKNOWN))
      = (List.range SLOTS).filter fun j => decide (slotType (disk lba) j ≠ FT_UNKNOWN) :=
    List.filter_congr fun j hj => by rw [htype j (List.mem_range.mp hj)]
  rw [liveEntries, liveEntries, hfilter]
  refine List.map_congr_left fun j hj => ?_
  rw [hentry j (List.mem_range.mp (List.mem_filter.mp hj).1)]

end

/-! ### The loops visit block by block -/

section
variable {σ : Type} {func : σ → EntryBytes → Bool × σ} {disk : Disk} {p : Inode} {buf : Bytes}
  {arg : σ}

/-- The innermost loop stops at a `false`. -/
theorem searchEntries_eq (sec : Nat) (js : List Nat) :
    searchEntries func buf sec js arg = visit (onEntry func)
      ((js.filter fun j => decide (slotType buf j ≠ FT_UNKNOWN)).map fun j =>
        ⟨sec, j, entryAt buf j⟩)
      arg := by
  induction js generalizing arg with
  | nil => rfl
  | cons j rest ih =>
      rw [searchEntries, List.filter_cons]
      by_cases hlive : slotType buf j ≠ FT_UNKNOWN
      · rw [if_pos hlive, if_pos (decide_eq_true hlive), List.map_cons, visit, onEntry]
        rcases func arg (entryAt buf j) with ⟨_ | _, arg'⟩
        · rfl
        · exact congrArg _ (funext fun _ => ih)
      · rw [if_neg hlive, if_neg (by rw [decide_eq_false hlive]; exact Bool.false_ne_true)]
        exact ih

theorem searchEntries_sector (lba sec : Nat) :
    searchEntries func (ideRead disk lba buf 0 1) sec (List.range SLOTS) arg =
      visit (onEntry func) (liveEntries (disk lba) sec) arg := by
  rw [searchEntries_eq, ← liveEntries, liveEntries_ideRead]

/-- The loop over the index block in `buf`. -/
theorem searchTimes_index (n times : Nat) :
    Prod.snd <$> searchTimes func disk 12 n times (load32 buf (SECTOR_SIZE + 4 * times)) buf arg =
      visitBlocks (onEntry func) ((List.range' times n).map fun t =>
        liveEntries (disk (load32 buf (SECTOR_SIZE + 4 * t))) (12 + t)) arg := by
  induction n generalizing times buf arg with
  | zero => rfl
  | succ n ih =>
      -- the index block is at `SECTOR_SIZE`, and a sector that is read goes below it
      rw [searchTimes, searchEntries_sector, List.range'_succ, List.map_cons, visitBlocks, map_bind]
      congr 1
      funext arg
      rw [ih]
      simp only [load32_behind]

theorem searchTimes_one (idx lba : Nat) :
    Prod.snd <$> searchTimes func disk idx 1 0 lba buf arg =
      visit (onEntry func) (liveEntries (disk lba) idx) arg := by
  rw [searchTimes, searchEntries_sector, map_bind, Nat.add_zero]
  exact bind_pure _

/-- The loops visit the sectors, each as a block of its own. -/
theorem searchIdxs_eq (idxs : List Nat) :
    Prod.snd <$> searchIdxs func disk p idxs buf arg =
      visitBlocks (onEntry func) (idxs.flatMap (blocksAt disk p)) arg := by
  induction idxs generalizing buf arg with
  | nil => rfl
  | cons idx rest ih =>
      -- The result does not depend on what a sector leaves in the buffer.
      have hrest : ∀ x : Logged EntryCall (Bytes × σ),
          Prod.snd <$> (x >>= fun r => searchIdxs func disk p rest r.1 r.2) =
            Prod.snd <$> x >>= visitBlocks (onEntry func) (rest.flatMap (blocksAt disk p)) := by
        intro x
        rw [map_bind, bind_map_left]
        exact congrArg _ (funext fun r => ih)
      rw [searchIdxs, List.flatMap_cons, visitBlocks_append, blocksAt]
      by_cases hzero : p.iSectors idx = 0
      · -- the sector is skipped, and so are all of an index block
        have hempty : ∀ block ∈ blocksAt disk p idx, block = [] := by
          intro block hblock
          rw [blocksAt] at hblock
          by_cases hindex : idx = 12
          · rw [if_pos hindex] at hblock
            obtain ⟨t, -, rfl⟩ := List.mem_map.mp hblock
            rw [hindex] at hzero
            exact if_pos hzero
          · rw [if_neg hindex, if_pos hzero] at hblock
            exact List.mem_singleton.mp hblock
        rw [if_pos hzero, ← blocksAt, visitBlocks_nil hempty, pure_bind, ih]
      · rw [if_neg hzero]
        by_cases hindex : idx = 12
        · subst hindex
          have hentry : ∀ t ∈ List.range (SECTOR_SIZE / 4),
              liveEntries (disk (load32 (ideRead disk (p.iSectors 12) buf SECTOR_SIZE 1)
                (SECTOR_SIZE + 4 * t))) (12 + t)
              = if p.iSectors 12 = 0 then [] else liveEntries (disk (indexEntry disk p t))
              (12 + t) := by
            intro t ht
            rw [if_neg hzero, load32_index (List.mem_range.mp ht), indexEntry]
          have hloop := @searchTimes_index _ func disk
              (ideRead disk (p.iSectors 12) buf SECTOR_SIZE 1)
            arg (SECTOR_SIZE / 4) 0
          rw [← List.range_eq_range', List.map_congr_left hentry] at hloop
          rw [if_pos rfl, if_pos rfl, ← hloop]
          exact hrest _
        · rw [if_neg hindex, if_neg hindex, if_neg hzero, visitBlocks_singleton,
            ← @searchTimes_one _ func disk buf arg idx]
          exact hrest _

end

/-! ### The blocks that are visited, and the blocks of the directory -/

/-- What the loops come to as the sector with the number `k`. -/
def shownBlock (disk : Disk) (p : Inode) (k : Nat) : List EntryCall :=
  if k < 12 then if p.iSectors k = 0 then [] else liveEntries (disk (p.iSectors k)) k
  else if p.iSectors 12 = 0 then [] else liveEntries (disk (indexEntry disk p (k - 12))) k

/-- No entries show because of zeros in the index block: there is no such block, or no zero in it,
or the sector 0 has nothing that looks like an entry in use. -/
def ZerosQuiet (disk : Disk) (p : Inode) : Prop :=
  p.iSectors 12 = 0 ∨ (∀ t < SECTOR_SIZE / 4, indexEntry disk p t ≠ 0) ∨
    ∀ j < SLOTS, slotType (disk 0) j = FT_UNKNOWN

/-- `dir_search_disk` calls `func` on the entries in use in the directory, on each of them once, up
to the first one that it returns `false` for. -/
def VisitsEntries {σ : Type} (func : σ → EntryBytes → Bool × σ) (disk : Disk) (p : Inode)
    (buf : Bytes) (arg : σ) : Prop :=
  ∃ run, dirSearchDisk func disk p buf arg = .ok run ∧
    run.log = (visit (onEntry func) (dirEntries disk p) arg).log ∧ run.log.Nodup

section
variable {disk : Disk} {p : Inode} {k : Nat}

theorem blocksAt_flatMap : (List.range 13).flatMap (blocksAt disk p)
    = (List.range FILE_SECTORS).map (shownBlock disk p) := by
  have hdirect : ∀ idx ∈ List.range 12, blocksAt disk p idx = [shownBlock disk p idx] := by
    intro idx hidx
    have hlt : idx < 12 := List.mem_range.mp hidx
    rw [blocksAt, if_neg (by omega), shownBlock, if_pos hlt]
  have hindex : blocksAt disk p 12
      = (List.range (SECTOR_SIZE / 4)).map fun t => shownBlock disk p (12 + t) := by
    rw [blocksAt, if_pos rfl]
    refine List.map_congr_left fun t _ => ?_
    rw [shownBlock, if_neg (Nat.not_lt.mpr (Nat.le_add_right 12 t)), Nat.add_sub_cancel_left]
  rw [show FILE_SECTORS = 12 + SECTOR_SIZE / 4 from rfl, List.range_add, List.map_append,
    List.map_map, show List.range 13 = List.range 12 ++ [12] from List.range_succ,
    List.flatMap_append, List.flatMap_singleton, hindex, List.flatMap_congr hdirect]
  rfl

theorem blockOf_index (hlo : 12 ≤ k) (hk : k < FILE_SECTORS) :
    blockOf disk p k = if p.iSectors 12 = 0 then 0 else indexEntry disk p (k - 12) := by
  have hne : k ≠ INDEX := Nat.ne_of_lt hk
  rw [blockOf, if_neg (Nat.not_lt.mpr hlo), if_neg hne, indexEntry]

/-- A sector shows its own entries, unless it is a zero of the index block. -/
theorem shownBlock_own (hk : k < FILE_SECTORS)
    (hzero : ¬(12 ≤ k ∧ p.iSectors 12 ≠ 0 ∧ indexEntry disk p (k - 12) = 0)) :
    shownBlock disk p k =
      if blockOf disk p k = 0 then [] else liveEntries (disk (blockOf disk p k)) k := by
  rw [shownBlock]
  split
  next hsmall => rw [blockOf, if_pos hsmall]
  next hlarge =>
    have hlo := Nat.le_of_not_lt hlarge
    rw [blockOf_index hlo hk]
    split
    next => rw [if_pos rfl]
    next hindex => exact (if_neg fun h => hzero ⟨hlo, hindex, h⟩).symm

/-- With quiet zeros every sector shows its own entries. -/
theorem shown_of_quiet (h : ZerosQuiet disk p) :
    (List.range FILE_SECTORS).map (shownBlock disk p) = dirBlocks disk p := by
  refine List.map_congr_left fun k hk => ?_
  have hlt := List.mem_range.mp hk
  by_cases hzero : 12 ≤ k ∧ p.iSectors 12 ≠ 0 ∧ indexEntry disk p (k - 12) = 0
  · obtain ⟨hlo, hindex, hentry⟩ := hzero
    have hentry' : k - 12 < SECTOR_SIZE / 4 := by
      have hlt' : k < 140 := hlt
      show k - 12 < 128
      omega
    have hblock : blockOf disk p k = 0 := by
      rw [blockOf_index hlo hlt, if_neg hindex]
      exact hentry
    rw [if_pos hblock, shownBlock, if_neg (by omega), if_neg hindex, hentry]
    rcases h with hnone | hfull | hquiet
    · exact absurd hnone hindex
    · exact absurd hentry (hfull _ hentry')
    · exact liveEntries_eq_nil.mpr hquiet
  · exact shownBlock_own hlt hzero

/-- A zero that is not quiet shows an entry that is not the directory's. -/
theorem exists_shown_of_not_quiet (h : ¬ZerosQuiet disk p) :
    ∃ k < FILE_SECTORS, blockOf disk p k = 0 ∧ shownBlock disk p k ≠ [] ∧
      ∀ call ∈ shownBlock disk p k, call.sec = k := by
  rw [ZerosQuiet, not_or, not_or, Classical.not_forall] at h
  obtain ⟨hindex, ⟨t, hzero⟩, hlive⟩ := h
  rw [Classical.not_imp, not_not] at hzero
  have ht : t < 128 := hzero.1
  have hlt : 12 + t < FILE_SECTORS := by
    show 12 + t < 140
    omega
  have hshown : shownBlock disk p (12 + t) = liveEntries (disk 0) (12 + t) := by
    rw [shownBlock, if_neg (by omega), if_neg hindex, Nat.add_sub_cancel_left, hzero.2]
  -- the zero at `t` has the sector 0 read as the sector `12 + t` of the directory
  refine ⟨12 + t, hlt, ?_, ?_, fun call hcall => ?_⟩
  · rw [blockOf_index (Nat.le_add_right 12 t) hlt, if_neg hindex, Nat.add_sub_cancel_left]
    exact hzero.2
  · rw [hshown]
    exact mt liveEntries_eq_nil.mp hlive
  · rw [hshown] at hcall
    exact mem_liveEntries hcall

end

/-! ### The condition -/

section
variable {σ : Type} {func : σ → EntryBytes → Bool × σ} {disk : Disk} {p : Inode} {buf : Bytes}
  {arg : σ}

/-- `dir_search_disk` visits the blocks that show. -/
theorem dirSearchDisk_eq (hdir : p.iMode &&& 0xf000 = FT_DIR) :
    dirSearchDisk func disk p buf arg =
      .ok (visitBlocks (onEntry func) ((List.range FILE_SECTORS).map (shownBlock disk p)) arg) := by
  have hloops : Prod.snd <$> searchIdxs func disk p (List.range 13) buf arg = _ := searchIdxs_eq _
  rw [dirSearchDisk, ASSERT_true hdir, ok_bind, ← blocksAt_flatMap, ← hloops]
  rfl

theorem goesOn_addDentry (calls : List EntryCall) (list : List EntryBytes) :
    goesOn (onEntry addDentry) calls list = some (list ++ calls.map EntryCall.entry) := by
  induction calls generalizing list with
  | nil => rw [List.map_nil, List.append_nil, goesOn]
  | cons call rest ih =>
      rw [goesOn, onEntry, addDentry, if_pos rfl, ih, List.append_assoc, List.map_cons,
        List.singleton_append]

/-- `sys_printdir` gets the entries in use, when the zeros are quiet. -/
theorem printdir_lists (hdir : p.iMode &&& 0xf000 = FT_DIR) (hquiet : ZerosQuiet disk p) :
    ∃ run, dirSearchDisk addDentry disk p buf [] = .ok run ∧
      run.value = (dirEntries disk p).map EntryCall.entry := by
  have hgoes : goesOn (onEntry addDentry) (dirBlocks disk p).flatten []
      = some ((dirEntries disk p).map EntryCall.entry) := goesOn_addDentry (dirEntries disk p) []
  refine ⟨_, dirSearchDisk_eq hdir, ?_⟩
  rw [shown_of_quiet hquiet, visitBlocks_goesOn hgoes]

end

/-! ### A directory with two sectors -/

/-- The sectors 516 and 517 have the entries `.` and `..`. -/
def twoSectors : Disk := fun lba =>
  if lba = 516 ∨ lba = 517 then sectorOf (rootEntries.take 2) else fun _ => 0

/-- A directory of these sectors. -/
def twoSectorDir : Inode :=
  ⟨0, 0, 128, 1, rwlockInit, FT_DIR, fun k => if k = 0 then 516 else if k = 1 then 517 else 0⟩

end Fizzos.Proofs
