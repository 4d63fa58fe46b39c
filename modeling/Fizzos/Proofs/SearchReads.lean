import Fizzos.Fs.Path
import Fizzos.Fs.SearchReads
import Fizzos.Proofs.DirLoops

/-!
# `Fizzos.Proofs.SearchReads`: which sectors `search_dentry` reads

The loop over the index block does not skip the entries that are zero, and loads the next entry
after the last one, too. So a search that does not come to an end before one of them reads the
sector 0, or the word behind `buf` (`readsDirectory_iff`).

A search depends on what it reads only (`searchDiskLog_stable`). So a search that reads its own
sectors has the same answer on every disk with these sectors.

When the sectors of the directory are on the disk, `ide_read` lets all of the reads through
(`lookupLog_passes`).
-/

set_option autoImplicit false

namespace Fizzos.Proofs

open Fizzos.Device
open Fizzos.Fs
open Fizzos.Kernel
open Fizzos.Lib
open Fizzos.LibKernel
open Fizzos.Support

/-! ### The log and the model -/

section
variable {disk : Disk} {p : Inode} {dname buf : Bytes} {n : Nat}

/-- The log changes no answer: this is the test of one slot. -/
theorem slotMatchesLog_value (j : Nat) :
    (slotMatchesLog buf j dname n).value = slotMatches buf j dname n := by
  rw [slotMatchesLog, Logged.bind_value]
  show (if slotType buf j = FT_UNKNOWN then _ else _ : Logged Access Bool).value = _
  rw [slotMatches]
  by_cases htype : slotType buf j = FT_UNKNOWN
  · rw [if_pos htype, decide_eq_false (fun h => h htype), Bool.false_and]
    rfl
  · rw [if_neg htype, decide_eq_true htype, Bool.true_and, Logged.bind_value]
    show (if load16 buf (SIZEOF_DENTRY_DISK * j + 24) = n then _ else _ : Logged Access Bool).value
      = _
    split
    next hlen =>
      rw [decide_eq_true hlen, Bool.true_and]
      rfl
    next hlen =>
      rw [decide_eq_false hlen, Bool.false_and]
      rfl

/-- The search of one sector. -/
theorem findSlotLog_value (js : List Nat) :
    (findSlotLog buf dname n js).value =
      (js.find? fun j => slotMatches buf j dname n).map fun j =>
        load32 buf (SIZEOF_DENTRY_DISK * j + 28) := by
  induction js with
  | nil => rfl
  | cons j rest ih =>
      rw [findSlotLog, Logged.bind_value, slotMatchesLog_value, List.find?_cons]
      cases slotMatches buf j dname n with
      | false => exact ih
      | true => rfl

/-- It is the search of all slots. -/
theorem findSlotLog_range :
    (findSlotLog buf dname n (List.range SLOTS)).value = findSlot buf dname n :=
  findSlotLog_value _

/-- The loop over the sectors. -/
theorem searchLoopLog_value (k times startLba : Nat) :
    (searchLoopLog disk dname n k times startLba buf).value =
      searchLoop disk dname n k times startLba buf := by
  induction k generalizing times startLba buf with
  | zero => rfl
  | succ k ih =>
      rw [searchLoopLog, searchLoop, Logged.bind_value, Logged.bind_value, findSlotLog_range]
      cases findSlot (ideRead disk startLba buf 0 1) dname n with
      | some iNo => rfl
      | none => exact ih (times + 1) _

/-- What is read in front of the loop: the index block, or nothing. -/
theorem openSectorLog_value (idx : Nat) : (openSectorLog disk p idx buf).value =
    if idx = 12 then
      let buf := ideRead disk (p.iSectors 12) buf SECTOR_SIZE 1
      (SECTOR_SIZE / 4, load32 buf SECTOR_SIZE, buf)
    else (1, p.iSectors idx, buf) := by
  rw [openSectorLog]
  split <;> rfl

/-- The loop over the numbers of the inode. -/
theorem searchSectorsLog_value (idxs : List Nat) :
    (searchSectorsLog disk p dname n idxs buf).value = searchSectors disk p dname n idxs buf := by
  induction idxs generalizing buf with
  | nil => rfl
  | cons idx rest ih =>
      rw [searchSectorsLog, searchSectors]
      split
      next => exact ih
      next =>
        rw [Logged.bind_value, openSectorLog_value]
        dsimp only
        generalize (if idx = 12 then _ else _ : Nat × Nat × Bytes) = start
        obtain ⟨loop, startLba, buf'⟩ := start
        dsimp only
        rw [Logged.bind_value, searchLoopLog_value]
        rcases searchLoop disk dname n loop 0 startLba buf' with ⟨_ | iNo, buf''⟩
        · exact ih
        · rfl

/-- `search_dentry` is the logged lookup, and then `inode_open` and the new dentry. -/
theorem searchDentry_lookup (s : DirSys) (parent i d : Nat) :
    searchDentry s parent dname n buf i d =
      (lookupLog s parent dname n buf).value >>= openLookup s parent dname n i d := by
  rw [searchDentry, lookupLog]
  split
  next => rfl
  next =>
    split
    next => rfl
    next =>
      cases findCached s.dentry s.dChild dname n LIST_WALK (s.dentry parent).dSubdirs.head with
      | error e => rfl
      | ok found =>
          cases found with
          | some subdir => rfl
          | none =>
              dsimp only
              rw [Logged.bind_value, searchDiskLog, searchSectorsLog_value, ok_bind, searchDisk]
              rcases searchSectors s.fs.disk (s.fs.inode (s.dentry parent).inode) dname n
                (List.range 13) buf with ⟨_ | iNo, buf'⟩
              · rfl
              · rfl

end

/-! ### What the search may read -/

/-- A sector of the directory that is not zero, or its index block. -/
def IsOwn (disk : Disk) (p : Inode) (lba : Nat) : Prop :=
  lba ≠ 0 ∧ (lba ∈ ownSectors disk p ∨ lba = p.iSectors 12)

/-- An access of the directory, or inside of the 1024 bytes of `buf`. -/
def OwnAccess (disk : Disk) (p : Inode) : Access → Prop
  | .sector lba => IsOwn disk p lba
  | .byte off => off < 2 * SECTOR_SIZE

/-- The disks have the same sectors of the directory. -/
def SameDirectory (disk disk' : Disk) (p : Inode) : Prop :=
  ∀ lba, IsOwn disk p lba → ∀ k < SECTOR_SIZE, disk' lba k = disk lba k

/-- `search_dentry` reads sectors of the directory only, and inside of `buf`. So it finds the same
on other disks with the directory. What `buf` has behind the sector does not count for a name that
fits into an entry. -/
structure ReadsDirectory (s : DirSys) (parent : Nat) (dname : Bytes) (n : Nat)
    (buf : Bytes) : Prop where
  reads : (lookupLog s parent dname n buf).All (OwnAccess s.fs.disk (inodeOf s parent))
  result : ∀ disk' buf', SameDirectory s.fs.disk disk' (inodeOf s parent) →
    n ≤ MAX_FILE_NAME_LEN ∨ buf' = buf →
    (lookupLog { s with fs := { s.fs with disk := disk' } } parent dname n buf').value =
      (lookupLog s parent dname n buf).value

/-! ### Accesses of a sector in `buf` -/

section
variable {disk : Disk} {p : Inode} {dname buf : Bytes} {n m : Nat}

/-- A condition on the bytes that are read, one by one. -/
theorem readBytes_all {P : Access → Prop} {off n : Nat} :
    (readBytes off n).All P ↔ ∀ k, off ≤ k → k < off + n → P (.byte k) := by
  rw [readBytes, Logged.all_tell]
  constructor
  · exact fun h k hlo hhi => h _ (List.mem_map.mpr ⟨k, List.mem_range'_1.mpr ⟨hlo, hhi⟩, rfl⟩)
  · intro h a ha
    obtain ⟨k, hk, rfl⟩ := List.mem_map.mp ha
    exact h k (List.mem_range'_1.mp hk).1 (List.mem_range'_1.mp hk).2

/-- A load reads its bytes and no others. -/
theorem loadLog_all {P : Access → Prop} {l off : Nat} :
    (loadLog l buf off).All P ↔ ∀ k, off ≤ k → k < off + l → P (.byte k) := by
  rw [loadLog, Logged.all_bind, readBytes_all]
  exact and_iff_left (Logged.all_pure _)

/-- `strncmp` goes no further than to the end of the name. -/
theorem strncmpReads_le {s1 s2 : Bytes} (hend : s2 m = 0) : strncmpReads s1 s2 n ≤ m + 1 := by
  induction n generalizing s1 s2 m with
  | zero => exact Nat.le_add_left 1 m
  | succ n ih =>
      rw [strncmpReads]
      split
      next hsame =>
        cases m with
        | zero => exact absurd hend hsame.2.1
        | succ m => exact Nat.succ_le_succ (ih hend)
      next => exact Nat.le_add_left 1 m

/-- The bytes of an entry, and of the name in front of it, are in `buf`. -/
theorem slotMatchesLog_own (hend : dname m = 0) (hm : m ≤ MAX_PATH_LEN) {j : Nat} (hj : j < SLOTS) :
    (slotMatchesLog buf j dname n).All (OwnAccess disk p) := by
  have hm' : m ≤ 127 := hm
  have hj' : j < 16 := hj
  have hload : ∀ o, o ≤ 30 →
      (loadLog 2 buf (SIZEOF_DENTRY_DISK * j + o)).All (OwnAccess disk p) := by
    intro o ho
    refine loadLog_all.mpr fun k _ hhi => ?_
    have hhi' : k < 32 * j + o + 2 := hhi
    show k < 1024
    omega
  rw [slotMatchesLog, Logged.all_bind]
  refine ⟨hload 26 (by decide), ?_⟩
  split
  next => exact Logged.all_pure _
  next =>
    rw [Logged.all_bind]
    refine ⟨hload 24 (by decide), ?_⟩
    split
    next =>
      refine Logged.all_bind.mpr ⟨readBytes_all.mpr fun k _ hhi => ?_, Logged.all_pure _⟩
      -- The comparison stops at the end of the name at the latest, even behind the entry.
      have hle : strncmpReads (fun k => buf (SIZEOF_DENTRY_DISK * j + k)) dname n ≤ m + 1 :=
        strncmpReads_le hend
      have hhi' : k < 32 * j + strncmpReads (fun k => buf (SIZEOF_DENTRY_DISK * j + k)) dname n :=
        hhi
      show k < 1024
      omega
    next => exact Logged.all_pure _

/-- A search of one sector stays in `buf`. -/
theorem findSlotLog_own (hend : dname m = 0) (hm : m ≤ MAX_PATH_LEN) {js : List Nat}
    (hjs : ∀ j ∈ js, j < SLOTS) : (findSlotLog buf dname n js).All (OwnAccess disk p) := by
  induction js with
  | nil => exact Logged.all_pure _
  | cons j rest ih =>
      have hj := hjs j List.mem_cons_self
      have hj' : j < 16 := hj
      rw [findSlotLog, Logged.all_bind]
      refine ⟨slotMatchesLog_own hend hm hj, ?_⟩
      split
      next =>
        refine Logged.all_bind.mpr ⟨loadLog_all.mpr fun k _ hhi => ?_, Logged.all_pure _⟩
        have hhi' : k < 32 * j + 28 + 4 := hhi
        show k < 1024
        omega
      next => exact ih fun k hk => hjs k (List.mem_cons_of_mem j hk)

end

/-! ### When the loops read their own sectors -/

/-- The entry `t` of the index block. -/
def indexEntry (disk : Disk) (p : Inode) (t : Nat) : Nat := load32 (disk (p.iSectors 12)) (4 * t)

/-- The name is in the sector, with `buf` behind it. -/
def InSector (disk : Disk) (buf dname : Bytes) (n lba : Nat) : Prop :=
  findSlot (ideRead disk lba buf 0 1) dname n ≠ none

/-- The search comes to an end before it reads a zero entry, or behind the last one: there is no
index block, or the name is in a direct sector, or it is in the sector of an entry that has no zero
in front of it. -/
def EndsInTime (disk : Disk) (p : Inode) (dname : Bytes) (n : Nat) (buf : Bytes) : Prop :=
  p.iSectors 12 = 0 ∨
  (∃ idx < 12, p.iSectors idx ≠ 0 ∧ InSector disk buf dname n (p.iSectors idx)) ∨
  ∃ t < SECTOR_SIZE / 4, (∀ u ≤ t, indexEntry disk p u ≠ 0) ∧
    InSector disk (ideRead disk (p.iSectors 12) buf SECTOR_SIZE 1) dname n (indexEntry disk p t)

section
variable {disk : Disk} {p : Inode} {dname buf : Bytes} {n m : Nat}

/-- A direct sector is the directory's own. -/
theorem isOwn_direct {idx : Nat} (hidx : idx < 12) (hne : p.iSectors idx ≠ 0) :
    IsOwn disk p (p.iSectors idx) :=
  ⟨hne, .inl (mem_own_iff.mpr
    ⟨.inl (List.mem_map.mpr ⟨idx, List.mem_range.mpr hidx, rfl⟩), hne⟩)⟩

/-- A sector that an entry of the index block names is the directory's own, unless the entry is
zero. -/
theorem isOwn_indexEntry (hindex : p.iSectors 12 ≠ 0) {t : Nat} (ht : t < SECTOR_SIZE / 4) :
    IsOwn disk p (indexEntry disk p t) ↔ indexEntry disk p t ≠ 0 := by
  refine ⟨fun h => h.1, fun hne => ⟨hne, .inl (mem_own_iff.mpr ⟨.inr ?_, hne⟩)⟩⟩
  rw [sectorsAt, if_neg hindex, if_pos rfl]
  exact List.mem_map.mpr ⟨t, List.mem_range.mpr ht, rfl⟩

/-- A sector covers what was in the first half of `buf`. -/
theorem ideRead_behind {buf' : Bytes} (h : ∀ k, SECTOR_SIZE ≤ k → buf' k = buf k) (lba : Nat) :
    ideRead disk lba buf' 0 1 = ideRead disk lba buf 0 1 := by
  funext k
  by_cases hk : k < SECTOR_SIZE
  · rw [ideRead_one (Nat.zero_le k) (by omega), ideRead_one (Nat.zero_le k) (by omega)]
  · rw [ideRead_of_ne (.inr (by omega)), ideRead_of_ne (.inr (by omega)), h k (by omega)]

/-- The second of two reads to the same place is what is there. -/
theorem ideRead_twice (lba lba' : Nat) :
    ideRead disk lba (ideRead disk lba' buf 0 1) 0 1 = ideRead disk lba buf 0 1 :=
  ideRead_behind (fun _ hk => ideRead_of_ne (.inr (by omega))) lba

/-- A sector in the first half leaves the entries in the second half. -/
theorem load32_behind (lba t : Nat) : load32 (ideRead disk lba buf 0 1) (SECTOR_SIZE + 4 * t)
    = load32 buf (SECTOR_SIZE + 4 * t) :=
  loadLE_congr fun k hlo _ => ideRead_of_ne (.inr (by omega))

/-- A load of the entry `t` is in `buf` for the 128 entries of the index block. -/
theorem loadLog_entry_own {t : Nat} :
    (loadLog 4 buf (SECTOR_SIZE + 4 * t)).All (OwnAccess disk p) ↔ t < SECTOR_SIZE / 4 := by
  have hsize : SECTOR_SIZE = 512 := rfl
  rw [loadLog_all]
  constructor
  · intro h
    have hlast : SECTOR_SIZE + 4 * t < 2 * SECTOR_SIZE := h _ (Nat.le_refl _) (by omega)
    omega
  · intro ht k _ hhi
    show k < 2 * SECTOR_SIZE
    omega

/-- Where a search from `times` on ends: at `times`, or behind it. -/
theorem ends_from_iff {W F : Nat → Prop} {times fin : Nat} (hlt : times < fin) :
    (∃ t, times ≤ t ∧ t < fin ∧ (∀ u, times ≤ u → u ≤ t → W u) ∧ F t) ↔
      W times ∧ (F times ∨
        ∃ t, times + 1 ≤ t ∧ t < fin ∧ (∀ u, times + 1 ≤ u → u ≤ t → W u) ∧ F t) := by
  constructor
  · rintro ⟨t, hlo, hhi, hw, hf⟩
    refine ⟨hw times (Nat.le_refl _) hlo, ?_⟩
    rcases Nat.eq_or_lt_of_le hlo with rfl | hgt
    · exact .inl hf
    · exact .inr ⟨t, hgt, hhi, fun u hu => hw u (by omega), hf⟩
  · rintro ⟨hw, hf | ⟨t, hlo, hhi, hrest, hf⟩⟩
    · refine ⟨times, Nat.le_refl _, hlt, fun u hge hle => ?_, hf⟩
      rwa [Nat.le_antisymm hle hge]
    · refine ⟨t, by omega, hhi, fun u hge hle => ?_, hf⟩
      rcases Nat.eq_or_lt_of_le hge with rfl | hgt
      · exact hw
      · exact hrest u hgt hle

/-- One round of the inner loop: it reads its sector, and goes on when the name is not there. -/
theorem searchLoop_own_iff (hend : dname m = 0) (hm : m ≤ MAX_PATH_LEN) (k times startLba : Nat) :
    (searchLoopLog disk dname n (k + 1) times startLba buf).All (OwnAccess disk p) ↔
      IsOwn disk p startLba ∧ (InSector disk buf dname n startLba ∨
        times + 1 < SECTOR_SIZE / 4 ∧
          (searchLoopLog disk dname n k (times + 1) (load32 buf (SECTOR_SIZE + 4 * (times + 1)))
            (ideRead disk startLba buf 0 1)).All (OwnAccess disk p)) := by
  have hsector : (Logged.tell [Access.sector startLba]).All (OwnAccess disk p) ↔
      IsOwn disk p startLba := List.forall_mem_singleton
  have hslots : (findSlotLog (ideRead disk startLba buf 0 1) dname n (List.range SLOTS)).All
      (OwnAccess disk p) := findSlotLog_own hend hm fun j hj => List.mem_range.mp hj
  rw [searchLoopLog, Logged.all_bind, hsector]
  refine and_congr_right fun _ => ?_
  rw [Logged.all_bind, and_iff_right hslots, findSlotLog_range, InSector]
  cases findSlot (ideRead disk startLba buf 0 1) dname n with
  | some iNo => exact iff_of_true (Logged.all_pure _) (.inl (by simp))
  | none =>
      dsimp only
      rw [Logged.all_bind, loadLog_entry_own, ← @load32_behind disk buf startLba (times + 1)]
      exact (or_iff_right fun hne => hne rfl).symm

/-- The loop over the index block, from the entry `times` on. -/
theorem indexLoop_own_iff (hend : dname m = 0) (hm : m ≤ MAX_PATH_LEN) (hindex : p.iSectors 12 ≠ 0)
    {k times : Nat} (hk : times + (k + 1) = SECTOR_SIZE / 4)
    (hentry : ∀ t < SECTOR_SIZE / 4, load32 buf (SECTOR_SIZE + 4 * t) = indexEntry disk p t) :
    (searchLoopLog disk dname n (k + 1) times (indexEntry disk p times) buf).All
        (OwnAccess disk p) ↔
      ∃ t, times ≤ t ∧ t < SECTOR_SIZE / 4 ∧
        (∀ u, times ≤ u → u ≤ t → indexEntry disk p u ≠ 0) ∧
        InSector disk buf dname n (indexEntry disk p t) := by
  induction k generalizing times buf with
  | zero =>
      -- the entry behind this one is behind `buf`
      rw [searchLoop_own_iff hend hm, isOwn_indexEntry hindex (by omega),
        ends_from_iff (by omega : times < SECTOR_SIZE / 4)]
      refine and_congr_right fun _ => or_congr_right (iff_of_false ?_ ?_)
      · rintro ⟨hlt, -⟩
        omega
      · rintro ⟨t, hlo, hhi, -⟩
        omega
  | succ k ih =>
      have hnext : times + 1 < SECTOR_SIZE / 4 := by omega
      rw [searchLoop_own_iff hend hm, isOwn_indexEntry hindex (by omega),
        ends_from_iff (by omega : times < SECTOR_SIZE / 4), hentry _ hnext, and_iff_right hnext,
        ih (by omega) fun t ht => (load32_behind _ t).trans (hentry t ht)]
      simp only [InSector, ideRead_twice]

/-- The outer loop at a direct sector: the search goes on when the name is not there. -/
theorem searchSectors_direct_iff (hend : dname m = 0) (hm : m ≤ MAX_PATH_LEN) {idx : Nat}
    (hidx : idx < 12) (hne : p.iSectors idx ≠ 0) (rest : List Nat) :
    (searchSectorsLog disk p dname n (idx :: rest) buf).All (OwnAccess disk p) ↔
      InSector disk buf dname n (p.iSectors idx) ∨
        (searchSectorsLog disk p dname n rest (ideRead disk (p.iSectors idx) buf 0 1)).All
          (OwnAccess disk p) := by
  have hloop : (searchLoopLog disk dname n 1 0 (p.iSectors idx) buf).All (OwnAccess disk p) :=
    (searchLoop_own_iff hend hm 0 0 _).mpr
      ⟨isOwn_direct hidx hne, .inr ⟨by decide, Logged.all_pure _⟩⟩
  rw [searchSectorsLog, if_neg hne, openSectorLog, if_neg (by omega), Logged.all_bind,
    and_iff_right (Logged.all_pure _), Logged.pure_value]
  dsimp only
  rw [Logged.all_bind, and_iff_right hloop, searchLoopLog_value, searchLoop, InSector]
  cases findSlot (ideRead disk (p.iSectors idx) buf 0 1) dname n with
  | some iNo => exact iff_of_true (Logged.all_pure _) (.inl (by simp))
  | none => exact (or_iff_right fun hne => hne rfl).symm

/-- The outer loop at the index block. -/
theorem searchSectors_index_iff (hend : dname m = 0) (hm : m ≤ MAX_PATH_LEN)
    (hindex : p.iSectors 12 ≠ 0) :
    (searchSectorsLog disk p dname n [12] buf).All (OwnAccess disk p) ↔
      ∃ t < SECTOR_SIZE / 4, (∀ u ≤ t, indexEntry disk p u ≠ 0) ∧
        InSector disk (ideRead disk (p.iSectors 12) buf SECTOR_SIZE 1) dname n
          (indexEntry disk p t) := by
  have hfirst : (loadLog 4 (ideRead disk (p.iSectors 12) buf SECTOR_SIZE 1) SECTOR_SIZE).All
      (OwnAccess disk p) := loadLog_entry_own.mpr (show 0 < SECTOR_SIZE / 4 by decide)
  have hopen : (openSectorLog disk p 12 buf).All (OwnAccess disk p) := by
    rw [openSectorLog, if_pos rfl, Logged.all_bind, Logged.all_bind]
    exact ⟨List.forall_mem_singleton.mpr ⟨hindex, .inr rfl⟩, hfirst, Logged.all_pure _⟩
  have hentry : ∀ t < SECTOR_SIZE / 4, load32 (ideRead disk (p.iSectors 12) buf SECTOR_SIZE 1)
      (SECTOR_SIZE + 4 * t) = indexEntry disk p t := fun t ht => load32_index ht
  have hloop := indexLoop_own_iff (n := n) hend hm hindex
      (show 0 + (127 + 1) = SECTOR_SIZE / 4 from rfl)
    hentry
  have hzero : load32 (ideRead disk (p.iSectors 12) buf SECTOR_SIZE 1) SECTOR_SIZE
      = indexEntry disk p 0 := hentry 0 (by decide)
  rw [searchSectorsLog, if_neg hindex, Logged.all_bind, and_iff_right hopen, openSectorLog_value,
    if_pos rfl]
  dsimp only
  rw [hzero, Logged.all_bind, show SECTOR_SIZE / 4 = 127 + 1 from rfl, hloop]
  refine Iff.trans (and_iff_left ?_) (exists_congr fun t => ?_)
  · -- nothing is read behind the loop
    split
    next => exact Logged.all_pure _
    next => exact Logged.all_pure _
  · rw [and_iff_right (Nat.zero_le t)]
    exact and_congr_right fun _ => and_congr_left fun _ =>
      ⟨fun h u hu => h u (Nat.zero_le u) hu, fun h u _ hu => h u hu⟩

/-- The outer loop: the direct sectors `idxs`, and then the index block. `buf'` differs from `buf`
in the sector. -/
theorem searchSectors_own_iff (hend : dname m = 0) (hm : m ≤ MAX_PATH_LEN) {idxs : List Nat}
    (hidxs : ∀ idx ∈ idxs, idx < 12) {buf' : Bytes}
    (hbehind : ∀ k, SECTOR_SIZE ≤ k → buf' k = buf k) :
    (searchSectorsLog disk p dname n (idxs ++ [12]) buf').All (OwnAccess disk p) ↔
      p.iSectors 12 = 0 ∨
      (∃ idx ∈ idxs, p.iSectors idx ≠ 0 ∧ InSector disk buf dname n (p.iSectors idx)) ∨
      ∃ t < SECTOR_SIZE / 4, (∀ u ≤ t, indexEntry disk p u ≠ 0) ∧
        InSector disk (ideRead disk (p.iSectors 12) buf SECTOR_SIZE 1) dname n
          (indexEntry disk p t) := by
  induction idxs generalizing buf' with
  | nil =>
      rw [List.nil_append]
      by_cases hindex : p.iSectors 12 = 0
      · rw [searchSectorsLog, if_pos hindex]
        exact iff_of_true (Logged.all_pure _) (.inl hindex)
      · have hsame : ∀ k, SECTOR_SIZE ≤ k → ideRead disk (p.iSectors 12) buf' SECTOR_SIZE 1 k
            = ideRead disk (p.iSectors 12) buf SECTOR_SIZE 1 k := by
          intro k hk
          rw [ideRead, ideRead, hbehind k hk]
        rw [searchSectors_index_iff hend hm hindex, or_iff_right hindex]
        simp only [InSector, ideRead_behind hsame]
        simp
  -- A direct sector overwrites the first half of the buffer only, so `buf` stands for all of them.
  | cons idx rest ih =>
      have hrest := fun k hk => hidxs k (List.mem_cons_of_mem idx hk)
      simp only [List.exists_mem_cons_iff, List.cons_append]
      by_cases hzero : p.iSectors idx = 0
      · rw [searchSectorsLog, if_pos hzero, ih hrest hbehind]
        simp [hzero]
      · rw [searchSectors_direct_iff hend hm (hidxs idx List.mem_cons_self) hzero,
          ih hrest fun k hk => (ideRead_of_ne (.inr (by omega))).trans (hbehind k hk),
          InSector, ideRead_behind hbehind, ← InSector, and_iff_right hzero]
        exact or_left_comm.trans (or_congr_right or_assoc.symm)

end

/-! ### A search depends on what it reads -/

/-- The disks agree on a sector that is read. -/
def SameAt (disk disk' : Disk) : Access → Prop
  | .sector lba => ∀ k < SECTOR_SIZE, disk' lba k = disk lba k
  | .byte _ => True

section
variable {disk disk' : Disk} {p : Inode} {dname buf : Bytes} {n : Nat}

/-- A sector that is the same on two disks gives the same buffer. -/
theorem ideRead_sameAt {lba : Nat} (h : SameAt disk disk' (.sector lba)) (off : Nat) :
    ideRead disk' lba buf off 1 = ideRead disk lba buf off 1 := by
  funext k
  by_cases hin : off ≤ k ∧ k < off + SECTOR_SIZE
  · rw [ideRead_one hin.1 hin.2, ideRead_one hin.1 hin.2, h _ (by omega)]
  · rw [ideRead_of_ne (by omega), ideRead_of_ne (by omega)]

/-- The loop depends on the sectors that it reads. -/
theorem searchLoopLog_stable (k times startLba : Nat)
    (h : (searchLoopLog disk dname n k times startLba buf).All (SameAt disk disk')) :
    (searchLoopLog disk' dname n k times startLba buf).value =
      (searchLoopLog disk dname n k times startLba buf).value := by
  induction k generalizing times startLba buf with
  | zero => rfl
  | succ k ih =>
      rw [searchLoopLog, Logged.all_bind, Logged.all_bind] at h
      obtain ⟨hsector, -, hrest⟩ := h
      have hread : ideRead disk' startLba buf 0 1 = ideRead disk startLba buf 0 1 :=
        ideRead_sameAt (List.forall_mem_singleton.mp hsector) 0
      rw [searchLoopLog, searchLoopLog, hread, Logged.bind_value, Logged.bind_value,
        Logged.bind_value, Logged.bind_value]
      cases hfind : (findSlotLog (ideRead disk startLba buf 0 1) dname n
        (List.range SLOTS)).value with
      | some iNo => rfl
      | none =>
          rw [hfind] at hrest
          exact ih _ _ (Logged.all_bind.mp hrest).2

/-- So does the loop over the numbers of the inode. -/
theorem searchSectorsLog_stable (idxs : List Nat)
    (h : (searchSectorsLog disk p dname n idxs buf).All (SameAt disk disk')) :
    (searchSectorsLog disk' p dname n idxs buf).value =
      (searchSectorsLog disk p dname n idxs buf).value := by
  induction idxs generalizing buf with
  | nil => rfl
  | cons idx rest ih =>
      rw [searchSectorsLog] at h
      rw [searchSectorsLog, searchSectorsLog]
      split at h
      next hzero => rw [if_pos hzero, if_pos hzero, ih h]
      next hne =>
        obtain ⟨hopen, hrest⟩ := Logged.all_bind.mp h
        -- The index block is read first, and it is the same on both disks.
        have hstart : (openSectorLog disk' p idx buf).value
            = (openSectorLog disk p idx buf).value := by
          rw [openSectorLog_value, openSectorLog_value]
          split
          next hindex =>
            rw [openSectorLog, if_pos hindex, Logged.all_bind] at hopen
            rw [ideRead_sameAt (List.forall_mem_singleton.mp hopen.1)]
          next => rfl
        rw [if_neg hne, if_neg hne]
        simp only [Logged.bind_value, hstart]
        generalize (openSectorLog disk p idx buf).value = start at hrest
        obtain ⟨loop, startLba, buf'⟩ := start
        obtain ⟨hloop, hrest⟩ := Logged.all_bind.mp hrest
        dsimp only at hloop hrest ⊢
        rw [searchLoopLog_stable _ _ _ hloop]
        generalize (searchLoopLog disk dname n loop 0 startLba buf').value = found at hrest
        rcases found with ⟨_ | iNo, buf''⟩
        · exact ih hrest
        · rfl

end

/-! ### The tests of `ide_read` -/

/-- `ide_read` does not stop the kernel at the sector. -/
def ReadPasses : Access → Prop
  | .sector lba => readCheck lba 1 = .ok ()
  | .byte _ => True

section
variable {disk : Disk} {p : Inode} {dname buf : Bytes} {n : Nat}

/-- The loop over a sector in `buf` reads no other sector. -/
theorem findSlotLog_passes (js : List Nat) : (findSlotLog buf dname n js).All ReadPasses := by
  have hload : ∀ (l off : Nat), (loadLog l buf off).All ReadPasses := fun l off =>
    loadLog_all.mpr fun _ _ _ => trivial
  induction js with
  | nil => exact Logged.all_pure _
  | cons j rest ih =>
      rw [findSlotLog, slotMatchesLog, Logged.all_bind, Logged.all_bind]
      refine ⟨⟨hload _ _, ?_⟩, ?_⟩
      · split
        next => exact Logged.all_pure _
        next =>
          refine Logged.all_bind.mpr ⟨hload _ _, ?_⟩
          split
          next =>
            exact Logged.all_bind.mpr
              ⟨readBytes_all.mpr fun _ _ _ => trivial, Logged.all_pure _⟩
          next => exact Logged.all_pure _
      · split
        next => exact Logged.all_bind.mpr ⟨hload _ _, Logged.all_pure _⟩
        next => exact ih

/-- The inner loop, with `k` sectors left. The entry behind the last one is loaded, but not read. -/
theorem searchLoopLog_passes {k times startLba : Nat} (hstart : 0 < k → startLba ≤ MAX_LBA)
    (hwords : ∀ t, times < t → t < times + k → load32 buf (SECTOR_SIZE + 4 * t) ≤ MAX_LBA) :
    (searchLoopLog disk dname n k times startLba buf).All ReadPasses := by
  induction k generalizing times startLba buf with
  | zero => exact Logged.all_pure _
  | succ k ih =>
      rw [searchLoopLog, Logged.all_bind, Logged.all_bind]
      refine ⟨List.forall_mem_singleton.mpr (readCheck_le (hstart (Nat.succ_pos k))),
        findSlotLog_passes _, ?_⟩
      split
      next => exact Logged.all_pure _
      next =>
        refine Logged.all_bind.mpr ⟨loadLog_all.mpr fun _ _ _ => trivial, ih (fun hk => ?_) ?_⟩
        · show load32 (ideRead disk startLba buf 0 1) (SECTOR_SIZE + 4 * (times + 1)) ≤ MAX_LBA
          rw [load32_behind]
          exact hwords (times + 1) (by omega) (by omega)
        · intro t hlo hhi
          rw [load32_behind]
          exact hwords t (by omega) (by omega)

/-- With sectors that are on the disk, each read of the loops passes the tests of `ide_read`. -/
theorem searchSectorsLog_passes (h : SectorsOnDisk disk p) {idxs : List Nat}
    (hidxs : ∀ idx ∈ idxs, idx < 13) :
    (searchSectorsLog disk p dname n idxs buf).All ReadPasses := by
  induction idxs generalizing buf with
  | nil => exact Logged.all_pure _
  | cons idx rest ih =>
      have hrest : ∀ buf, (searchSectorsLog disk p dname n rest buf).All ReadPasses := fun buf =>
        ih fun k hk => hidxs k (List.mem_cons_of_mem idx hk)
      have hmem : ∀ l ∈ sectorsAt disk p idx, l ≤ MAX_LBA := by
        intro l hl
        by_cases hzero : l = 0
        · exact hzero ▸ Nat.zero_le _
        · refine h.sectors l (mem_ownSectors.mpr ⟨List.mem_flatMap.mpr ⟨idx, ?_, hl⟩, hzero⟩)
          exact List.mem_range.mpr (hidxs idx List.mem_cons_self)
      rw [searchSectorsLog]
      split
      next => exact hrest buf
      next hne =>
        refine Logged.all_bind.mpr ⟨?_, ?_⟩
        · rw [openSectorLog]
          split
          next =>
            refine Logged.all_bind.mpr ⟨List.forall_mem_singleton.mpr (readCheck_le h.index), ?_⟩
            exact Logged.all_bind.mpr
              ⟨loadLog_all.mpr fun _ _ _ => trivial, Logged.all_pure _⟩
          next => exact Logged.all_pure _
        · rw [openSectorLog_value]
          rw [sectorsAt, if_neg hne] at hmem
          rw [Logged.all_bind]
          refine ⟨?_, ?_⟩
          · by_cases hindex : idx = 12
            · subst hindex
              rw [if_pos rfl] at hmem ⊢
              have hword : ∀ t < SECTOR_SIZE / 4,
                  load32 (ideRead disk (p.iSectors 12) buf SECTOR_SIZE 1) (SECTOR_SIZE + 4 * t)
                    ≤ MAX_LBA := fun t ht => by
                rw [load32_index ht]
                exact hmem _ (List.mem_map_of_mem (List.mem_range.mpr ht))
              exact searchLoopLog_passes (fun _ => hword 0 (by decide)) fun t _ hhi => hword t hhi
            · rw [if_neg hindex] at hmem ⊢
              exact searchLoopLog_passes (fun _ => hmem _ (List.mem_singleton_self _))
                fun t hlo hhi => by omega
          · split
            next => exact Logged.all_pure _
            next => exact hrest _

end

/-! ### The condition -/

/-- The name is neither `.` nor `..`, and no dentry in memory has it. -/
def GoesToDisk (s : DirSys) (parent : Nat) (dname : Bytes) (n : Nat) : Prop :=
  ¬(n = 1 ∧ dname 0 = DOT) ∧ ¬(n = 2 ∧ dname 0 = DOT ∧ dname 1 = DOT) ∧
    findCached s.dentry s.dChild dname n LIST_WALK (s.dentry parent).dSubdirs.head = .ok none

section
variable {s : DirSys} {parent n : Nat} {dname buf : Bytes}

/-- Otherwise the answer is in memory, whatever is on the disk and in `buf`. -/
theorem lookupLog_memory (h : ¬GoesToDisk s parent dname n) :
    ∃ answer, ∀ disk buf, lookupLog { s with fs := { s.fs with disk } } parent dname n buf
      = pure answer := by
  unfold lookupLog
  split
  next => exact ⟨_, fun _ _ => rfl⟩
  next hdot =>
    split
    next => exact ⟨.ok (.dots (s.dentry parent).dParent), fun _ _ => rfl⟩
    next hdots =>
      dsimp only
      cases hcached : findCached s.dentry s.dChild dname n LIST_WALK
        (s.dentry parent).dSubdirs.head with
      | error e => exact ⟨_, fun _ _ => rfl⟩
      | ok found =>
          cases found with
          | some subdir => exact ⟨_, fun _ _ => rfl⟩
          | none => exact absurd ⟨hdot, hdots, hcached⟩ h

/-- The answer of a search of the disk. -/
def onDisk (iNo : Option Nat) : Except Halt Lookup := .ok (iNo.elim .missing .entry)

/-- A name that is not in memory: the answer is that of the search of the disk. -/
theorem lookupLog_disk (h : GoesToDisk s parent dname n) :
    lookupLog s parent dname n buf =
      searchDiskLog s.fs.disk (inodeOf s parent) dname n buf >>= fun found =>
        pure (onDisk found.1) := by
  obtain ⟨hdot, hdots, hcached⟩ := h
  rw [lookupLog, if_neg hdot, if_neg hdots, hcached]
  dsimp only
  congr 1
  funext found
  rcases found with ⟨_ | iNo, buf'⟩
  · rfl
  · rfl

/-- A lookup in a directory on the disk is not stopped by `ide_read`. -/
theorem lookupLog_passes (h : SectorsOnDisk s.fs.disk (inodeOf s parent)) :
    (lookupLog s parent dname n buf).All ReadPasses := by
  by_cases hdisk : GoesToDisk s parent dname n
  · rw [lookupLog_disk hdisk, searchDiskLog, Logged.all_bind]
    exact ⟨searchSectorsLog_passes h fun idx hidx => List.mem_range.mp hidx, Logged.all_pure _⟩
  · obtain ⟨answer, hanswer⟩ := lookupLog_memory hdisk
    rw [show lookupLog s parent dname n buf = pure answer from hanswer s.fs.disk buf]
    exact Logged.all_pure _

/-- A search that reads its own sectors finds the same on every disk with these sectors. -/
theorem searchDiskLog_stable {disk disk' : Disk} {p : Inode} {buf' : Bytes}
    (hreads : (searchDiskLog disk p dname n buf).All (OwnAccess disk p))
    (hsame : SameDirectory disk disk' p) (hbuf : n ≤ MAX_FILE_NAME_LEN ∨ buf' = buf) :
    (searchDiskLog disk' p dname n buf').value.1 = (searchDiskLog disk p dname n buf).value.1 := by
  have hat : (searchDiskLog disk p dname n buf).All (SameAt disk disk') := by
    intro a ha
    cases a with
    | sector lba => exact hsame lba (hreads _ ha)
    | byte off => exact trivial
  have hdisk := congrArg Prod.fst (searchSectorsLog_stable (List.range 13) hat)
  rcases hbuf with hn | rfl
  · -- the search for a short name is one of the sectors, without `buf`
    calc (searchDiskLog disk' p dname n buf').value.1
        = (searchSectors disk' p dname n (List.range 13) buf').1 := by
          rw [searchDiskLog, searchSectorsLog_value]
      _ = (searchSectors disk' p dname n (List.range 13) buf).1 := by
          rw [searchSectors_eq hn, searchSectors_eq hn]
      _ = (searchSectorsLog disk' p dname n (List.range 13) buf).value.1 := by
          rw [searchSectorsLog_value]
      _ = (searchDiskLog disk p dname n buf).value.1 := hdisk
  · exact hdisk

/-- The search reads sectors of the directory only, when it ends in time. -/
theorem searchDiskLog_own_iff {disk : Disk} {p : Inode} (name : Path) :
    (searchDiskLog disk p (charsAt name.chars) n buf).All (OwnAccess disk p) ↔
      EndsInTime disk p (charsAt name.chars) n buf := by
  have hend : charsAt name.chars name.chars.length = 0 := List.getD_eq_default _ _ (Nat.le_refl _)
  rw [searchDiskLog, show List.range 13 = List.range 12 ++ [12] from List.range_succ,
    searchSectors_own_iff hend name.le (fun idx hidx => List.mem_range.mp hidx) fun _ _ => rfl]
  simp only [EndsInTime, List.mem_range]

/-- For every directory, name and buffer: `search_dentry` reads only sectors of the directory, and
only inside of `buf`, if and only if it does not go to the disk or comes to an end in time. -/
theorem readsDirectory_iff (s : DirSys) (parent : Nat) (name : Path) (n : Nat) (buf : Bytes) :
    ReadsDirectory s parent (charsAt name.chars) n buf ↔
      ¬GoesToDisk s parent (charsAt name.chars) n ∨
      EndsInTime s.fs.disk (inodeOf s parent) (charsAt name.chars) n buf := by
  by_cases hgoes : GoesToDisk s parent (charsAt name.chars) n
  · rw [or_iff_right (not_not_intro hgoes), ← searchDiskLog_own_iff name]
    constructor
    · intro h
      have hreads := h.reads
      rw [lookupLog_disk hgoes] at hreads
      exact (Logged.all_bind.mp hreads).1
    · intro hreads
      refine ⟨?_, fun disk' buf' hsame hbuf => ?_⟩
      · rw [lookupLog_disk hgoes]
        exact Logged.all_bind.mpr ⟨hreads, Logged.all_pure _⟩
      · have hgoes' : GoesToDisk { s with fs := { s.fs with disk := disk' } } parent
            (charsAt name.chars) n := hgoes
        rw [lookupLog_disk hgoes', lookupLog_disk hgoes]
        exact congrArg onDisk (searchDiskLog_stable hreads hsame hbuf)
  · obtain ⟨answer, hanswer⟩ := lookupLog_memory hgoes
    have hself : ∀ buf, lookupLog s parent (charsAt name.chars) n buf = pure answer :=
      hanswer s.fs.disk
    refine iff_of_true ⟨?_, fun disk' buf' _ _ => ?_⟩ (.inl hgoes)
    · rw [hself]
      exact Logged.all_pure _
    · rw [hself, hanswer]

end

/-! ### A directory with one entry in its index block -/

/-- A root directory with an index block in the sector 517, which has one entry, 518. -/
def indexedRoot : DirSys :=
  { rootSys with
    fs :=
      { rootSys.fs with
        disk := fun lba =>
          if lba = 517 then storeLE 4 (fun _ => 0) 0 518 else rootSys.fs.disk lba
        inode := fun p =>
          { rootSys.fs.inode p with
            iSectors := fun k => if k = 12 then 517 else (rootSys.fs.inode p).iSectors k } } }

/-- A search for the name `b`, which is not there, reads the sector 0. The words of the index block
that are not in use are zeros, and the loop over them skips none. -/
theorem lookup_reads_mbr :
    Access.sector 0 ∈ (lookupLog indexedRoot 64 (charsAt [0x62]) 1 fun _ => 0).log ∧
    ¬ReadsDirectory indexedRoot 64 (charsAt [0x62]) 1 fun _ => 0 := by
  have hmbr : Access.sector 0 ∈ (lookupLog indexedRoot 64 (charsAt [0x62]) 1 fun _ => 0).log := by
    decide +kernel
  exact ⟨hmbr, fun h => (h.reads _ hmbr).1 rfl⟩

end Fizzos.Proofs
