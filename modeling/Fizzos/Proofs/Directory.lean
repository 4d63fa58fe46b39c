import Fizzos.Fs.Dir
import Mathlib.Data.List.Find
import Mathlib.Data.List.GetD

/-!
# `Fizzos.Proofs.Directory`: what a directory holds on disk

`DirEntry` is an entry as the caller of `dir_write` gives it, and `DirEntry.bytes` is what
`dir_write` makes of it. `Directory disk p entries` says that the sectors of the inode `p` hold
exactly `entries`.

A name of 24 characters fills the field `fname`. Behind it comes `fname_len`, which `strncmp`
takes for one more character. So no search of a disk finds such a name (`slotMatches_full`). The
search of a directory with an index block goes on behind the last sector, and reads the sector 0 in
place of one that is not there.
-/

set_option autoImplicit false

namespace Fizzos.Proofs

open Fizzos.Device
open Fizzos.Fs
open Fizzos.Lib
open Fizzos.Support

/-! ### Names -/

/-- `'/'`. -/
def SLASH : BitVec 8 := 0x2f

/-- A file name. -/
structure NameOk (name : List (BitVec 8)) : Prop where
  pos : 1 ≤ name.length
  le : name.length ≤ MAX_FILE_NAME_LEN
  nul : 0 ∉ name
  slash : SLASH ∉ name

/-- The characters of `name` and `'\0'` are behind a `char*`. -/
def IsString (s : Bytes) (name : List (BitVec 8)) : Prop := ∀ i ≤ name.length, s i = name.getD i 0

/-- A string in memory. -/
def cstring (name : List (BitVec 8)) : Bytes := fun i => name.getD i 0

/-- The characters with a `'\0'` behind them. -/
theorem isString_cstring (name : List (BitVec 8)) : IsString (cstring name) name := fun _ _ => rfl

section
variable {a b : List (BitVec 8)} {s1 s2 : Bytes} {i : Nat}

/-- A character of a string is not the `'\0'`. -/
theorem getD_ne_zero (ha : 0 ∉ a) (hi : i < a.length) : a.getD i 0 ≠ 0 := by
  rw [List.getD_eq_getElem a 0 hi]
  intro hzero
  exact ha (hzero ▸ List.getElem_mem hi)

namespace IsString

/-- No byte of a string in front of its end is 0. -/
theorem ne_zero (h : IsString s1 a) (ha : 0 ∉ a) (hi : i < a.length) : s1 i ≠ 0 := by
  rw [h i (Nat.le_of_lt hi)]
  exact getD_ne_zero ha hi

/-- The byte at its end is 0. -/
theorem eq_zero (h : IsString s1 a) : s1 a.length = 0 := by
  rw [h _ (Nat.le_refl _)]
  exact List.getD_eq_default _ _ (Nat.le_refl _)

/-- Two strings with the same characters, up to the end of the second. -/
theorem eq_of_eq (ha : IsString s1 a) (hb : IsString s2 b) (hna : 0 ∉ a) (hnb : 0 ∉ b)
    (h : ∀ i ≤ b.length, s1 i = s2 i) : a = b := by
  have hlen : a.length = b.length := by
    rcases Nat.lt_trichotomy a.length b.length with hlt | heq | hgt
    · exact absurd ((h _ (Nat.le_of_lt hlt)).symm.trans ha.eq_zero) (hb.ne_zero hnb hlt)
    · exact heq
    · exact absurd ((h _ (Nat.le_refl _)).trans hb.eq_zero) (ha.ne_zero hna hgt)
  refine List.ext_getElem hlen fun i hi hi' => ?_
  have hsame := h i (Nat.le_of_lt hi')
  rwa [ha i (Nat.le_of_lt hi), hb i (Nat.le_of_lt hi'), List.getD_eq_getElem a 0 hi,
    List.getD_eq_getElem b 0 hi'] at hsame

/-- `strncmp` of two strings with the length of the second. -/
theorem strncmp_iff (ha : IsString s1 a) (hb : IsString s2 b) (hna : 0 ∉ a) (hnb : 0 ∉ b) :
    strncmp s1 s2 b.length = 0 ↔ a = b := by
  rw [strncmp_eq_zero_iff (fun i hi => hb.ne_zero hnb hi) hb.eq_zero]
  constructor
  · exact ha.eq_of_eq hb hna hnb
  · rintro rfl i hi
    rw [ha i hi, hb i hi]

end IsString

end

/-! ### An entry -/

/-- An entry of a directory. -/
structure DirEntry where
  name : List (BitVec 8)
  iMode : Nat
  iNo : Nat
  deriving DecidableEq, Repr

namespace DirEntry

/-- What the callers of `dir_write` give it. -/
structure Ok (e : DirEntry) : Prop where
  name : NameOk e.name
  iMode : e.iMode < 2 ^ 16
  used : e.iMode &&& 0xf000 ≠ FT_UNKNOWN
  iNo : e.iNo < 2 ^ 32

/-- The `struct dentry_disk` that `dir_write` makes of an entry. -/
def bytes (e : DirEntry) : Bytes :=
  writeSlot (fun _ => 0) 0 e.iMode e.iNo (cstring e.name) e.name.length

variable {e : DirEntry} {k : Nat}

/-- The 32 bytes of an entry, in the order in which `dir_write` stores them. -/
theorem bytes_eq : e.bytes =
    storeLE 2 (strncpy (storeLE 4 (storeLE 2 (fun _ => 0) 26 e.iMode) 28 e.iNo) 0 (cstring e.name)
      e.name.length) 24 e.name.length := rfl

/-- The field `fname`. -/
theorem bytes_name (he : e.Ok) (hk : k < MAX_FILE_NAME_LEN) : e.bytes k = e.name.getD k 0 := by
  have hle : e.name.length ≤ 24 := he.name.le
  have hk : k < 24 := hk
  have hnul : ∀ i < e.name.length, cstring e.name i ≠ 0 := fun i hi => getD_ne_zero he.name.nul hi
  rw [bytes_eq, storeLE_of_ne (by omega)]
  by_cases hlt : k < e.name.length
  · rw [strncpy_at hnul (by omega) (by omega)]
    rfl
  · rw [strncpy_of_ne (by omega), storeLE_of_ne (by omega), storeLE_of_ne (by omega),
      List.getD_eq_default _ _ (by omega)]

/-- The field `fname_len`. -/
theorem bytes_fnameLen (he : e.Ok) : load16 e.bytes 24 = e.name.length := by
  have hle : e.name.length ≤ 24 := he.name.le
  rw [bytes_eq, load16]
  exact loadLE_storeLE (by omega)

/-- The field `i_mode`. -/
theorem bytes_iMode (he : e.Ok) : load16 e.bytes 26 = e.iMode := by
  have hle : e.name.length ≤ 24 := he.name.le
  have hmode := he.iMode
  rw [bytes_eq, load16, loadLE_storeLE_of_ne (by omega),
    loadLE_congr fun k hlo _ => strncpy_of_ne (by omega), loadLE_storeLE_of_ne (by omega)]
  exact loadLE_storeLE (by omega)

/-- The field `i_no`. -/
theorem bytes_iNo (he : e.Ok) : load32 e.bytes 28 = e.iNo := by
  have hle : e.name.length ≤ 24 := he.name.le
  have hno := he.iNo
  rw [bytes_eq, load32, loadLE_storeLE_of_ne (by omega),
    loadLE_congr fun k hlo _ => strncpy_of_ne (by omega)]
  exact loadLE_storeLE (by omega)

end DirEntry

/-- The entry `j` of a sector. -/
def HoldsAt (buf : Bytes) (j : Nat) (e : DirEntry) : Prop :=
  ∀ k < SIZEOF_DENTRY_DISK, buf (SIZEOF_DENTRY_DISK * j + k) = e.bytes k

section
variable {buf dname : Bytes} {nm : List (BitVec 8)} {j : Nat} {e : DirEntry}

namespace HoldsAt

/-- A field of the slot is the field of the entry. -/
theorem load (h : HoldsAt buf j e) {n o : Nat} (hle : o + n ≤ 32) :
    loadLE n buf (SIZEOF_DENTRY_DISK * j + o) = loadLE n e.bytes o := by
  refine loadLE_shift o fun i hi => ?_
  rw [Nat.add_assoc]
  exact h (o + i) (Nat.lt_of_lt_of_le (by omega) hle)

/-- A slot with an entry is in use. -/
theorem slotType_ne (h : HoldsAt buf j e) (he : e.Ok) : slotType buf j ≠ FT_UNKNOWN := by
  rw [slotType, load16, h.load (by omega), ← load16, e.bytes_iMode he]
  exact he.used

/-- Its number is the number of the entry. -/
theorem iNo (h : HoldsAt buf j e) (he : e.Ok) :
    load32 buf (SIZEOF_DENTRY_DISK * j + 28) = e.iNo := by
  rw [load32, h.load (by omega)]
  exact e.bytes_iNo he

/-- Its length is the length of the name. -/
theorem fnameLen (h : HoldsAt buf j e) (he : e.Ok) :
    load16 buf (SIZEOF_DENTRY_DISK * j + 24) = e.name.length := by
  rw [load16, h.load (by omega)]
  exact e.bytes_fnameLen he

/-- A shorter name is a string. -/
theorem isString (h : HoldsAt buf j e) (he : e.Ok) (hlt : e.name.length < MAX_FILE_NAME_LEN) :
    IsString (fun k => buf (SIZEOF_DENTRY_DISK * j + k)) e.name := by
  have hlt' : e.name.length < 24 := hlt
  intro i hi
  show buf (SIZEOF_DENTRY_DISK * j + i) = _
  rw [h i (Nat.lt_of_le_of_lt hi (Nat.lt_trans hlt (by decide)))]
  exact e.bytes_name he (Nat.lt_of_le_of_lt hi hlt)

end HoldsAt

/-- The bytes of an entry settle what it is. -/
theorem HoldsAt.congr {buf' : Bytes} (h : HoldsAt buf j e)
    (hbuf : ∀ k < SIZEOF_DENTRY_DISK, buf' (SIZEOF_DENTRY_DISK * j + k)
      = buf (SIZEOF_DENTRY_DISK * j + k)) : HoldsAt buf' j e :=
  fun k hk => (hbuf k hk).trans (h k hk)

/-- The type of a slot depends on the bytes of this slot. -/
theorem slotType_slot {buf' : Bytes}
    (hbuf : ∀ k < SIZEOF_DENTRY_DISK, buf' (SIZEOF_DENTRY_DISK * j + k)
      = buf (SIZEOF_DENTRY_DISK * j + k)) : slotType buf' j = slotType buf j := by
  have hload : load16 buf' (SIZEOF_DENTRY_DISK * j + 26)
      = load16 buf (SIZEOF_DENTRY_DISK * j + 26) := by
    refine loadLE_shift _ fun k hk => ?_
    rw [Nat.add_assoc]
    exact hbuf (26 + k) (by show 26 + k < 32; omega)
  rw [slotType, slotType, hload]

/-- The entry that `dir_write` makes of a free one. -/
theorem writeSlot_holds {filename : Bytes} (he : e.Ok) (hs : IsString filename e.name)
    (hzero : ∀ k < SIZEOF_DENTRY_DISK, buf (SIZEOF_DENTRY_DISK * j + k) = 0) :
    HoldsAt (writeSlot buf j e.iMode e.iNo filename e.name.length) j e := by
  have hle : e.name.length ≤ 24 := he.name.le
  have hnul : ∀ i < e.name.length, filename i ≠ 0 := fun i hi => hs.ne_zero he.name.nul hi
  have hnul' : ∀ i < e.name.length, cstring e.name i ≠ 0 := fun i hi => getD_ne_zero he.name.nul hi
  intro k hk
  have hk' : k < 32 := hk
  have hbuf : buf (32 * j + k) = 0 := hzero k hk
  rw [DirEntry.bytes_eq, writeSlot, show SIZEOF_DENTRY_DISK = 32 from rfl]
  rcases Nat.lt_or_ge k 24 with hname | hlen
  · rw [storeLE_of_ne (by omega), storeLE_of_ne (by omega)]
    rcases Nat.lt_or_ge k e.name.length with hlt | hge
    · rw [strncpy_at hnul (by omega) (by omega), strncpy_at hnul' (by omega) (by omega),
        Nat.add_sub_cancel_left, Nat.sub_zero]
      exact hs k (Nat.le_of_lt hlt)
    · rw [strncpy_of_ne (by omega), strncpy_of_ne (by omega), storeLE_of_ne (by omega),
        storeLE_of_ne (by omega), storeLE_of_ne (by omega), storeLE_of_ne (by omega), hbuf]
  · rcases Nat.lt_or_ge k 26 with hlt | hmode
    · rw [storeLE, if_pos (by omega), storeLE, if_pos (by omega), Nat.add_sub_add_left]
    · rw [storeLE_of_ne (by omega), storeLE_of_ne (by omega), strncpy_of_ne (by omega),
        strncpy_of_ne (by omega)]
      rcases Nat.lt_or_ge k 28 with hlt | hno
      · rw [storeLE_of_ne (n := 4) (by omega), storeLE_of_ne (n := 4) (by omega), storeLE,
          if_pos (by omega), storeLE, if_pos (by omega), Nat.add_sub_add_left]
      · rw [storeLE, if_pos (by omega), storeLE, if_pos (by omega), Nat.add_sub_add_left]

/-- The other entries of the sector. -/
theorem writeSlot_of_ne {filename : Bytes} {iMode iNo n k : Nat} (hn : n ≤ MAX_FILE_NAME_LEN)
    (hk : k < SIZEOF_DENTRY_DISK * j ∨ SIZEOF_DENTRY_DISK * j + SIZEOF_DENTRY_DISK ≤ k) :
    writeSlot buf j iMode iNo filename n k = buf k := by
  have hn' : n ≤ 24 := hn
  rw [show SIZEOF_DENTRY_DISK = 32 from rfl] at hk
  rw [writeSlot, show SIZEOF_DENTRY_DISK = 32 from rfl, storeLE_of_ne (by omega),
    strncpy_of_ne (by omega), storeLE_of_ne (by omega),
    storeLE_of_ne (by omega)]

/-- A name of 24 characters is not found in a sector. -/
theorem slotMatches_full (hnm : NameOk nm) (hs : IsString dname nm)
    (hlen : nm.length = MAX_FILE_NAME_LEN) : slotMatches buf j dname nm.length = false := by
  cases hmatch : slotMatches buf j dname nm.length with
  | false => rfl
  | true =>
      simp only [slotMatches, Bool.and_eq_true, decide_eq_true_eq] at hmatch
      obtain ⟨-, hsame, hcmp⟩ := hmatch
      rw [strncmp_eq_zero_iff (fun i hi => hs.ne_zero hnm.nul hi) hs.eq_zero] at hcmp
      -- The character behind the name is the low byte of `fname_len`.
      have hend : buf (SIZEOF_DENTRY_DISK * j + 24) = 0 := by
        have hlast := hcmp nm.length (Nat.le_refl _)
        rw [hs.eq_zero, hlen] at hlast
        exact hlast
      rw [load16, loadLE, hend, hlen, show MAX_FILE_NAME_LEN = 24 from rfl] at hsame
      simp only [loadLE] at hsame
      have hzero : (0 : BitVec 8).toNat = 0 := rfl
      omega

/-- The test of `search_dentry` on an entry. -/
theorem HoldsAt.slotMatches_iff (h : HoldsAt buf j e) (he : e.Ok) (hnm : NameOk nm)
    (hs : IsString dname nm) : slotMatches buf j dname nm.length = true ↔
      e.name = nm ∧ nm.length < MAX_FILE_NAME_LEN := by
  rcases Nat.lt_or_eq_of_le hnm.le with hlt | hfull
  · simp only [slotMatches, Bool.and_eq_true, decide_eq_true_eq, h.fnameLen he]
    constructor
    · rintro ⟨-, hsame, hcmp⟩
      have hstring := h.isString he (hsame ▸ hlt)
      exact ⟨(hstring.strncmp_iff hs he.name.nul hnm.nul).mp hcmp, hlt⟩
    · rintro ⟨rfl, -⟩
      have hstring := h.isString he hlt
      exact ⟨h.slotType_ne he, rfl, (hstring.strncmp_iff hs he.name.nul hnm.nul).mpr rfl⟩
  · rw [slotMatches_full hnm hs hfull, hfull]
    simp

end

/-! ### A sector -/

section
variable {buf buf' dname : Bytes} {n iNo : Nat}

/-- A search finds an entry that matches. -/
theorem findSlot_eq_some (h : findSlot buf dname n = some iNo) :
    ∃ j < SLOTS, slotMatches buf j dname n = true ∧
    load32 buf (SIZEOF_DENTRY_DISK * j + 28) = iNo := by
  rw [findSlot, Option.map_eq_some_iff] at h
  obtain ⟨j, hfind, hno⟩ := h
  have hmatch : slotMatches buf j dname n = true :=
    List.find?_some (p := fun j => slotMatches buf j dname n) hfind
  exact ⟨j, List.mem_range.mp (List.mem_of_find?_eq_some hfind), hmatch, hno⟩

/-- Nothing is found when no slot matches. -/
theorem findSlot_eq_none_iff :
    findSlot buf dname n = none ↔ ∀ j < SLOTS, slotMatches buf j dname n = false := by
  rw [findSlot, Option.map_eq_none_iff, List.find?_eq_none]
  simp only [List.mem_range, Bool.not_eq_true]

/-- `strncmp` looks at `n + 1` characters. -/
theorem strncmp_congr {s1 s1' s2 s2' : Bytes} (h1 : ∀ i ≤ n, s1' i = s1 i) (h2 : ∀ i ≤ n,
    s2' i = s2 i) :
    strncmp s1' s2' n = strncmp s1 s2 n := by
  induction n generalizing s1 s1' s2 s2' with
  | zero => rw [strncmp, strncmp, h1 0 (Nat.le_refl 0), h2 0 (Nat.le_refl 0)]
  | succ n ih =>
      rw [strncmp, strncmp, h1 0 (Nat.zero_le _), h2 0 (Nat.zero_le _),
        ih (fun i hi => h1 (i + 1) (Nat.succ_le_succ hi)) fun i hi =>
          h2 (i + 1) (Nat.succ_le_succ hi)]

/-- A search depends on the characters of the name. -/
theorem findSlot_name {dname' : Bytes} (h : ∀ i ≤ n, dname' i = dname i) :
    findSlot buf dname' n = findSlot buf dname n := by
  have hmatch : ∀ j, slotMatches buf j dname' n = slotMatches buf j dname n := by
    intro j
    rw [slotMatches, slotMatches, strncmp_congr (fun _ _ => rfl) h]
  simp only [findSlot, hmatch]

/-- A search depends on the sector only. -/
theorem findSlot_congr (h : ∀ k < SECTOR_SIZE, buf' k = buf k) (hn : n ≤ MAX_FILE_NAME_LEN) :
    findSlot buf' dname n = findSlot buf dname n := by
  have hn' : n ≤ 24 := hn
  have hload : ∀ j < SLOTS, ∀ l o, o + l ≤ 32 →
      loadLE l buf' (SIZEOF_DENTRY_DISK * j + o) = loadLE l buf (SIZEOF_DENTRY_DISK * j + o) := by
    intro j hj l o hle
    have hj' : j < 16 := hj
    refine loadLE_congr fun k _ hhi => h k ?_
    show k < 512
    have hhi' : k < 32 * j + o + l := hhi
    omega
  -- A name has at most 24 characters, so the comparison stays in its entry.
  have hmatch : ∀ j < SLOTS, slotMatches buf' j dname n = slotMatches buf j dname n := by
    intro j hj
    have hj' : j < 16 := hj
    rw [slotMatches, slotMatches, slotType, slotType, load16, load16, load16, load16,
      hload j hj 2 26 (by omega), hload j hj 2 24 (by omega),
      strncmp_congr (fun i hi => h _ ?_) fun _ _ => rfl]
    show 32 * j + i < 512
    omega
  have hfind : (List.range SLOTS).find? (fun j => slotMatches buf' j dname n)
      = (List.range SLOTS).find? fun j => slotMatches buf j dname n :=
    List.find?_congr fun j hj => hmatch j (List.mem_range.mp hj)
  rw [findSlot, findSlot, hfind]
  cases hres : (List.range SLOTS).find? fun j => slotMatches buf j dname n with
  | none => rfl
  | some j =>
      have hj := List.mem_range.mp (List.mem_of_find?_eq_some hres)
      rw [Option.map_some, Option.map_some, load32, load32, hload j hj 4 28 (by omega)]

end

/-! ### The sectors of a directory -/

/-- The sectors that `search_dentry` reads because of `i_sectors[idx]`. It reads all sectors of the
index block, those with the number zero included. -/
def sectorsAt (disk : Disk) (p : Inode) (idx : Nat) : List Nat :=
  if p.iSectors idx = 0 then []
  else if idx = 12 then
    (List.range (SECTOR_SIZE / 4)).map fun times => load32 (disk (p.iSectors 12)) (4 * times)
  else [p.iSectors idx]

/-- The sectors that `search_dentry` reads. -/
def readSectors (disk : Disk) (p : Inode) : List Nat :=
  (List.range 13).flatMap (sectorsAt disk p)

/-- The sectors of a directory. -/
def ownSectors (disk : Disk) (p : Inode) : List Nat :=
  (readSectors disk p).filter fun lba => decide (lba ≠ 0)

section
variable {disk : Disk} {p : Inode} {dname buf : Bytes} {n : Nat}

/-- The inner loop reads the sectors that the index block in `buf` names. -/
theorem searchLoop_eq (hn : n ≤ MAX_FILE_NAME_LEN) {loop times startLba : Nat}
    (hstart : startLba = load32 buf (SECTOR_SIZE + 4 * times)) :
    (searchLoop disk dname n loop times startLba buf).1
      = ((List.range' times loop).map fun t => load32 buf (SECTOR_SIZE + 4 * t)).findSome?
          fun lba => findSlot (disk lba) dname n := by
  induction loop generalizing times startLba buf with
  | zero => rfl
  | succ loop ih =>
      have hsector : findSlot (ideRead disk startLba buf 0 1) dname n
          = findSlot (disk startLba) dname n :=
        findSlot_congr (fun k hk => ideRead_one (Nat.zero_le k) (by omega)) hn
      -- A sector in the first half of the buffer leaves the index block in the second half.
      have hindex : ∀ t, load32 (ideRead disk startLba buf 0 1) (SECTOR_SIZE + 4 * t)
          = load32 buf (SECTOR_SIZE + 4 * t) :=
        fun t => loadLE_congr fun k hlo _ => ideRead_of_ne (.inr (by omega))
      rw [searchLoop, List.range'_succ, List.map_cons, List.findSome?_cons, ← hstart]
      rw [hsector]
      cases findSlot (disk startLba) dname n with
      | some iNo => rfl
      | none =>
          show (searchLoop disk dname n loop (times + 1) _ _).1 = _
          rw [ih rfl]
          simp only [hindex]

/-- Without an index block the inner loop reads one sector. -/
theorem searchLoop_one (hn : n ≤ MAX_FILE_NAME_LEN) (startLba : Nat) :
    (searchLoop disk dname n 1 0 startLba buf).1 = findSlot (disk startLba) dname n := by
  have hsector : findSlot (ideRead disk startLba buf 0 1) dname n
      = findSlot (disk startLba) dname n :=
    findSlot_congr (fun k hk => ideRead_one (Nat.zero_le k) (by omega)) hn
  rw [searchLoop]
  rw [hsector]
  cases findSlot (disk startLba) dname n with
  | some iNo => rfl
  | none => rfl

/-- The words of an index block that is read to the second half of the buffer. -/
theorem load32_index {lba t : Nat} (ht : t < SECTOR_SIZE / 4) :
    load32 (ideRead disk lba buf SECTOR_SIZE 1) (SECTOR_SIZE + 4 * t)
      = load32 (disk lba) (4 * t) := by
  have ht' : t < 128 := ht
  have hsize : SECTOR_SIZE = 512 := rfl
  refine loadLE_shift (4 * t) fun j hj => ?_
  rw [ideRead_one (by omega) (by omega), Nat.add_assoc, Nat.add_sub_cancel_left]

/-- The inner loop finds the name in the sectors that `i_sectors[idx]` leads to, or the outer loop
goes on. -/
theorem searchSectors_cons {idx : Nat} {rest : List Nat} (hn : n ≤ MAX_FILE_NAME_LEN)
    (hne : p.iSectors idx ≠ 0) :
    ∃ buf', (searchSectors disk p dname n (idx :: rest) buf).1
      = ((sectorsAt disk p idx).findSome? fun lba => findSlot (disk lba) dname n).or
          (searchSectors disk p dname n rest buf').1 := by
  rw [searchSectors, if_neg hne, sectorsAt, if_neg hne]
  -- The index block is read into the second half of the buffer, which the loop does not write to.
  by_cases hindex : idx = 12
  · subst hindex
    have hwords : ∀ t ∈ List.range (SECTOR_SIZE / 4),
        load32 (ideRead disk (p.iSectors 12) buf SECTOR_SIZE 1) (SECTOR_SIZE + 4 * t)
          = load32 (disk (p.iSectors 12)) (4 * t) :=
      fun t ht => load32_index (List.mem_range.mp ht)
    rw [if_pos rfl, if_pos rfl, ← List.map_congr_left hwords]
    dsimp only
    generalize ideRead disk (p.iSectors 12) buf SECTOR_SIZE 1 = index
    have hloop : (searchLoop disk dname n (SECTOR_SIZE / 4) 0 (load32 index SECTOR_SIZE) index).1
        = _ := searchLoop_eq hn rfl
    rw [← List.range_eq_range'] at hloop
    rw [← hloop]
    rcases searchLoop disk dname n (SECTOR_SIZE / 4) 0 (load32 index SECTOR_SIZE) index
      with ⟨_ | iNo, buf'⟩
    · exact ⟨buf', rfl⟩
    · exact ⟨buf', rfl⟩
  · have hloop : (searchLoop disk dname n 1 0 (p.iSectors idx) buf).1 = _ :=
      searchLoop_one hn (p.iSectors idx)
    rw [if_neg hindex, if_neg hindex, List.findSome?_singleton, ← hloop]
    dsimp only
    rcases searchLoop disk dname n 1 0 (p.iSectors idx) buf with ⟨_ | iNo, buf'⟩
    · exact ⟨buf', rfl⟩
    · exact ⟨buf', rfl⟩

/-- The outer loop. -/
theorem searchSectors_eq (hn : n ≤ MAX_FILE_NAME_LEN) (idxs : List Nat) (buf : Bytes) :
    (searchSectors disk p dname n idxs buf).1
      = (idxs.flatMap (sectorsAt disk p)).findSome? fun lba => findSlot (disk lba) dname n := by
  induction idxs generalizing buf with
  | nil => rfl
  | cons idx rest ih =>
      rw [List.flatMap_cons, List.findSome?_append]
      by_cases hzero : p.iSectors idx = 0
      · rw [searchSectors, if_pos hzero, sectorsAt, if_pos hzero, ih, List.findSome?_nil,
          Option.none_or]
      · obtain ⟨buf', hcons⟩ := searchSectors_cons hn hzero
        rw [hcons, ih]

end

/-! ### The entries of a directory -/

/-- The sectors of the inode `p` hold `entries`, and nothing else that is in use. `dir_write` fills
the index block from the front, so its numbers come before its zeros. -/
structure Directory (disk : Disk) (p : Inode) (entries : List DirEntry) : Prop where
  ok : ∀ e ∈ entries, e.Ok
  nodup : (entries.map DirEntry.name).Nodup
  used : ∀ lba ∈ ownSectors disk p, ∀ j < SLOTS, slotType (disk lba) j ≠ FT_UNKNOWN →
    ∃ e ∈ entries, HoldsAt (disk lba) j e
  held : ∀ e ∈ entries, ∃ lba ∈ ownSectors disk p, ∃ j < SLOTS, HoldsAt (disk lba) j e
  filled : ∃ zeros, readSectors disk p = ownSectors disk p ++ List.replicate zeros 0

namespace Directory

variable {disk : Disk} {p : Inode} {entries : List DirEntry} {e e' : DirEntry}
  {nm : List (BitVec 8)} {dname : Bytes} {lba iNo : Nat}

/-- Two entries with one name are the same. -/
theorem eq_of_name (h : Directory disk p entries) (he : e ∈ entries) (he' : e' ∈ entries)
    (heq : e.name = e'.name) : e = e' :=
  List.inj_on_of_nodup_map h.nodup he he' heq

/-- What a search finds in a sector of the directory is an entry with the name. -/
theorem findSlot_sound (h : Directory disk p entries) (hnm : NameOk nm) (hs : IsString dname nm)
    (hlba : lba ∈ ownSectors disk p) (hfind : findSlot (disk lba) dname nm.length = some iNo) :
    ∃ e ∈ entries, e.name = nm ∧ e.iNo = iNo ∧ nm.length < MAX_FILE_NAME_LEN := by
  obtain ⟨j, hj, hmatch, hno⟩ := findSlot_eq_some hfind
  have hused : slotType (disk lba) j ≠ FT_UNKNOWN := by
    simp only [slotMatches, Bool.and_eq_true, decide_eq_true_eq] at hmatch
    exact hmatch.1
  obtain ⟨e, he, hheld⟩ := h.used lba hlba j hj hused
  obtain ⟨hname, hlt⟩ := (hheld.slotMatches_iff (h.ok e he) hnm hs).mp hmatch
  exact ⟨e, he, hname, (hheld.iNo (h.ok e he)).symm.trans hno, hlt⟩

/-- The sectors of the directory have the name. -/
theorem own_found (h : Directory disk p entries) (hnm : NameOk nm) (hs : IsString dname nm)
    (he : e ∈ entries) (hname : e.name = nm) (hlt : nm.length < MAX_FILE_NAME_LEN) :
    ((ownSectors disk p).findSome? fun lba => findSlot (disk lba) dname nm.length)
      = some e.iNo := by
  cases hres : (ownSectors disk p).findSome? fun lba => findSlot (disk lba) dname nm.length with
  | none =>
      obtain ⟨lba, hlba, j, hj, hheld⟩ := h.held e he
      have hnone := findSlot_eq_none_iff.mp (List.findSome?_eq_none_iff.mp hres lba hlba) j hj
      rw [(hheld.slotMatches_iff (h.ok e he) hnm hs).mpr ⟨hname, hlt⟩] at hnone
      exact absurd hnone (by decide)
  | some iNo =>
      obtain ⟨lba, hlba, hfind⟩ := List.exists_of_findSome?_eq_some hres
      obtain ⟨e', he', hname', hno, -⟩ := h.findSlot_sound hnm hs hlba hfind
      rw [h.eq_of_name he he' (hname.trans hname'.symm), hno]

/-- The sectors of the directory do not have the name. -/
theorem own_missing (h : Directory disk p entries) (hnm : NameOk nm) (hs : IsString dname nm)
    (hmissing : ∀ e ∈ entries, e.name = nm → nm.length = MAX_FILE_NAME_LEN) :
    ((ownSectors disk p).findSome? fun lba => findSlot (disk lba) dname nm.length) = none := by
  refine List.findSome?_eq_none_iff.mpr fun lba hlba => ?_
  cases hfind : findSlot (disk lba) dname nm.length with
  | none => rfl
  | some iNo =>
      obtain ⟨e, he, hname, -, hlt⟩ := h.findSlot_sound hnm hs hlba hfind
      exact absurd (hmissing e he hname) (Nat.ne_of_lt hlt)

/-- The search finds an entry whose name is not too long. -/
theorem searchDisk_found (h : Directory disk p entries) (hnm : NameOk nm) (hs : IsString dname nm)
    (he : e ∈ entries) (hname : e.name = nm) (hlt : nm.length < MAX_FILE_NAME_LEN) (buf : Bytes) :
    (searchDisk disk p dname nm.length buf).1 = some e.iNo := by
  obtain ⟨zeros, hread⟩ := h.filled
  rw [searchDisk, searchSectors_eq hnm.le, ← readSectors, hread, List.findSome?_append,
    h.own_found hnm hs he hname hlt, Option.some_or]

/-- The search of the sectors that hold no such entry finds none, unless it reads the sector 0. -/
theorem searchDisk_missing (h : Directory disk p entries) (hnm : NameOk nm) (hs : IsString dname nm)
    (hmissing : ∀ e ∈ entries, e.name = nm → nm.length = MAX_FILE_NAME_LEN) (buf : Bytes) :
    (searchDisk disk p dname nm.length buf).1
      = if 0 ∈ readSectors disk p then findSlot (disk 0) dname nm.length else none := by
  obtain ⟨zeros, hread⟩ := h.filled
  have hzero : 0 ∈ readSectors disk p ↔ zeros ≠ 0 := by
    rw [hread, List.mem_append, List.mem_replicate]
    simp [ownSectors]
  rw [searchDisk, searchSectors_eq hnm.le, ← readSectors, hread, List.findSome?_append,
    h.own_missing hnm hs hmissing, Option.none_or, List.findSome?_replicate, ← hread]
  by_cases hzeros : zeros = 0
  · rw [if_pos hzeros, if_neg (by simp [hzero, hzeros])]
  · rw [if_neg hzeros, if_pos (hzero.mpr hzeros)]

/-- A search of another disk whose sectors have the same entries of the name. -/
theorem searchDisk_congr {disk' : Disk} {p' : Inode} {entries' : List DirEntry}
    (h : Directory disk p entries) (h' : Directory disk' p' entries')
    (hread : readSectors disk' p' = readSectors disk p) (hzero : disk' 0 = disk 0) (hnm : NameOk nm)
    (hs : IsString dname nm) (hsame : ∀ e, e.name = nm → (e ∈ entries' ↔ e ∈ entries))
    (buf : Bytes) :
    (searchDisk disk' p' dname nm.length buf).1 = (searchDisk disk p dname nm.length buf).1 := by
  by_cases hlisted : ∃ e ∈ entries, e.name = nm ∧ nm.length < MAX_FILE_NAME_LEN
  · obtain ⟨e, he, hname, hlt⟩ := hlisted
    rw [h.searchDisk_found hnm hs he hname hlt,
      h'.searchDisk_found hnm hs ((hsame e hname).mpr he) hname hlt]
  · have hfull : ∀ e ∈ entries, e.name = nm → nm.length = MAX_FILE_NAME_LEN := fun e he hname =>
      Nat.le_antisymm hnm.le (Nat.le_of_not_lt fun hlt => hlisted ⟨e, he, hname, hlt⟩)
    rw [h.searchDisk_missing hnm hs hfull,
      h'.searchDisk_missing hnm hs fun e he hname => hfull e ((hsame e hname).mp he) hname,
        hread, hzero]

end Directory

/-! ### Another disk, and another inode -/

section
variable {disk disk' : Disk} {p p' : Inode} {entries : List DirEntry} {lba : Nat}

/-- The sectors that a search reads, without the 0 of unused words. -/
theorem mem_ownSectors : lba ∈ ownSectors disk p ↔ lba ∈ readSectors disk p ∧ lba ≠ 0 := by
  rw [ownSectors, List.mem_filter, decide_eq_true_iff]

/-- The sectors depend on the inode, and on the index block. -/
theorem readSectors_congr (hp : ∀ k < 13, p'.iSectors k = p.iSectors k)
    (hindex : p.iSectors 12 ≠ 0 → disk' (p.iSectors 12) = disk (p.iSectors 12)) :
    readSectors disk' p' = readSectors disk p := by
  refine List.flatMap_congr fun idx hidx => ?_
  have hlt : idx < 13 := List.mem_range.mp hidx
  rw [sectorsAt, sectorsAt, hp idx hlt, hp 12 (by decide)]
  by_cases hzero : p.iSectors idx = 0
  · rw [if_pos hzero, if_pos hzero]
  · rw [if_neg hzero, if_neg hzero]
    by_cases h12 : idx = 12
    · subst h12
      rw [hindex hzero]
    · rw [if_neg h12, if_neg h12]

/-- The sectors of the inode and those of the index block. -/
theorem readSectors_eq (disk : Disk) (p : Inode) :
    readSectors disk p = (List.range 12).flatMap (sectorsAt disk p) ++ sectorsAt disk p 12 := by
  rw [readSectors, List.range_succ, List.flatMap_append, List.flatMap_singleton]

/-- The inode names no sector 0. -/
theorem direct_ne_zero (h : lba ∈ (List.range 12).flatMap (sectorsAt disk p)) : lba ≠ 0 := by
  obtain ⟨idx, hidx, hmem⟩ := List.mem_flatMap.mp h
  have hlt : idx < 12 := List.mem_range.mp hidx
  rw [sectorsAt] at hmem
  split at hmem
  · exact absurd hmem List.not_mem_nil
  · rename_i hne
    rw [if_neg (by omega)] at hmem
    exact List.mem_singleton.mp hmem ▸ hne

/-- A search that reads the sector 0 has an index block. -/
theorem index_ne_zero (h : 0 ∈ readSectors disk p) : p.iSectors 12 ≠ 0 := by
  intro hzero
  rw [readSectors_eq, sectorsAt, if_pos hzero, List.append_nil] at h
  exact direct_ne_zero h rfl

/-- The zeros of a directory are those of its index block. -/
theorem filled_iff : (∃ zeros, readSectors disk p = ownSectors disk p ++ List.replicate zeros 0) ↔
    ∃ zeros, sectorsAt disk p 12 =
      (sectorsAt disk p 12).filter (fun lba => decide (lba ≠ 0)) ++ List.replicate zeros 0 := by
  have hdirect : ((List.range 12).flatMap (sectorsAt disk p)).filter (fun lba => decide (lba ≠ 0))
      = (List.range 12).flatMap (sectorsAt disk p) :=
    List.filter_eq_self.mpr fun lba hlba => decide_eq_true (direct_ne_zero hlba)
  simp only [ownSectors, readSectors_eq, List.filter_append, hdirect, List.append_assoc,
    List.append_cancel_left_eq]

namespace Directory

/-- The sectors are as before. -/
theorem congr (h : Directory disk p entries) (hread : readSectors disk' p' = readSectors disk p)
    (hdisk : ∀ l ∈ ownSectors disk p, disk' l = disk l) : Directory disk' p' entries := by
  have hown : ownSectors disk' p' = ownSectors disk p := by rw [ownSectors, hread, ← ownSectors]
  refine ⟨h.ok, h.nodup, ?_, ?_, ?_⟩
  · intro l hl j hj hused
    rw [hown] at hl
    rw [hdisk l hl] at hused ⊢
    exact h.used l hl j hj hused
  · intro e he
    obtain ⟨l, hl, j, hj, hheld⟩ := h.held e he
    exact ⟨l, hown ▸ hl, j, hj, by rw [hdisk l hl]; exact hheld⟩
  · rw [hread, hown]
    exact h.filled

/-- A free entry becomes the entry `e`. -/
theorem insert (h : Directory disk p entries) (hread : readSectors disk' p' = readSectors disk p)
    (hlba : lba ∈ ownSectors disk p) (hdisk : ∀ l ∈ ownSectors disk p, l ≠ lba → disk' l = disk l)
    {e : DirEntry} (he : e.Ok) (hnew : e.name ∉ entries.map DirEntry.name) {slot : Nat}
    (hslot : slot < SLOTS) (hfree : slotType (disk lba) slot = FT_UNKNOWN)
    (hheld : HoldsAt (disk' lba) slot e)
    (hother : ∀ k < SECTOR_SIZE, k < SIZEOF_DENTRY_DISK * slot ∨
      SIZEOF_DENTRY_DISK * slot + SIZEOF_DENTRY_DISK ≤ k → disk' lba k = disk lba k) :
    Directory disk' p' (e :: entries) := by
  have hown : ownSectors disk' p' = ownSectors disk p := by rw [ownSectors, hread, ← ownSectors]
  -- The bytes of another entry.
  have hsame : ∀ l ∈ ownSectors disk p, ∀ j < SLOTS, (l = lba → j ≠ slot) →
      ∀ k < SIZEOF_DENTRY_DISK,
        disk' l (SIZEOF_DENTRY_DISK * j + k) = disk l (SIZEOF_DENTRY_DISK * j + k) := by
    intro l hl j hj hne k hk
    by_cases hl' : l = lba
    · subst hl'
      have hj' : j < 16 := hj
      have hk' : k < 32 := hk
      have hjs := hne rfl
      refine hother _ ?_ ?_
      · show 32 * j + k < 512
        omega
      · show 32 * j + k < 32 * slot ∨ 32 * slot + 32 ≤ 32 * j + k
        omega
    · rw [hdisk l hl hl']
  refine ⟨List.forall_mem_cons.mpr ⟨he, h.ok⟩, ?_, ?_, ?_, ?_⟩
  · rw [List.map_cons, List.nodup_cons]
    exact ⟨hnew, h.nodup⟩
  · intro l hl j hj hused
    rw [hown] at hl
    by_cases hthis : l = lba ∧ j = slot
    · obtain ⟨rfl, rfl⟩ := hthis
      exact ⟨e, List.mem_cons_self, hheld⟩
    · have hbytes := hsame l hl j hj fun hl' hj' => hthis ⟨hl', hj'⟩
      rw [slotType_slot hbytes] at hused
      obtain ⟨e', he', hheld'⟩ := h.used l hl j hj hused
      exact ⟨e', List.mem_cons_of_mem _ he', hheld'.congr hbytes⟩
  · refine List.forall_mem_cons.mpr ⟨⟨lba, hown ▸ hlba, slot, hslot, hheld⟩, fun e' he' => ?_⟩
    obtain ⟨l, hl, j, hj, hheld'⟩ := h.held e' he'
    refine ⟨l, hown ▸ hl, j, hj, hheld'.congr (hsame l hl j hj ?_)⟩
    -- The entry was in use, and the other one was free.
    rintro rfl rfl
    exact hheld'.slotType_ne (h.ok e' he') hfree
  · rw [hread, hown]
    exact h.filled

/-- An inode that names only some of the sectors has only some of the entries. -/
theorem restrict (h : Directory disk p entries)
    (hp : ∀ k < 13, p'.iSectors k = p.iSectors k ∨ p'.iSectors k = 0) :
    (∀ l ∈ ownSectors disk p', l ∈ ownSectors disk p) ∧
      ∃ es, (∀ e ∈ es, e ∈ entries) ∧ Directory disk p' es := by
  classical
  -- A number that is gone takes its sectors with it, and the index block all of them.
  have hat : ∀ idx < 13, sectorsAt disk p' idx = sectorsAt disk p idx ∨
      sectorsAt disk p' idx = [] := by
    intro idx hidx
    rcases hp idx hidx with hsame | hzero
    · refine .inl ?_
      rw [sectorsAt, sectorsAt, hsame]
      by_cases h12 : idx = 12
      · rw [← h12, hsame]
      · rw [if_neg h12, if_neg h12]
    · exact .inr (if_pos hzero)
  have hown : ∀ l ∈ ownSectors disk p', l ∈ ownSectors disk p := by
    intro l hl
    rw [mem_ownSectors] at hl ⊢
    obtain ⟨idx, hidx, hmem⟩ := List.mem_flatMap.mp hl.1
    rcases hat idx (List.mem_range.mp hidx) with hsame | hnil
    · exact ⟨List.mem_flatMap.mpr ⟨idx, hidx, hsame ▸ hmem⟩, hl.2⟩
    · rw [hnil] at hmem
      exact absurd hmem List.not_mem_nil
  -- The entries that lie in a sector that is still named.
  refine ⟨hown, entries.filter fun e =>
    decide (∃ lba ∈ ownSectors disk p', ∃ j < SLOTS, HoldsAt (disk lba) j e), ?_, ?_⟩
  · exact fun e he => List.mem_of_mem_filter he
  · refine ⟨fun e he => h.ok e (List.mem_of_mem_filter he), ?_, ?_, ?_, ?_⟩
    · exact h.nodup.sublist (List.filter_sublist.map _)
    · intro l hl j hj hused
      obtain ⟨e, he, hheld⟩ := h.used l (hown l hl) j hj hused
      exact ⟨e, List.mem_filter.mpr ⟨he, decide_eq_true ⟨l, hl, j, hj, hheld⟩⟩, hheld⟩
    · intro e he
      exact of_decide_eq_true (List.mem_filter.mp he).2
    · rw [filled_iff]
      rcases hat 12 (by decide) with hsame | hnil
      · rw [hsame]
        exact filled_iff.mp h.filled
      · exact ⟨0, by rw [hnil]; rfl⟩

end Directory

end

/-! ### A directory of one sector -/

/-- A sector with some entries, and free slots behind them. -/
def sectorOf (es : List DirEntry) : Bytes := fun k =>
  match es[k / SIZEOF_DENTRY_DISK]? with
  | some e => e.bytes (k % SIZEOF_DENTRY_DISK)
  | none => 0

section
variable {es : List DirEntry} {j : Nat}

/-- A sector with a list of entries holds each of them. -/
theorem sectorOf_holds {e : DirEntry} (hj : es[j]? = some e) : HoldsAt (sectorOf es) j e := by
  intro k hk
  have hslot : (SIZEOF_DENTRY_DISK * j + k) / SIZEOF_DENTRY_DISK = j := by
    rw [Nat.mul_add_div (by decide), Nat.div_eq_of_lt hk, Nat.add_zero]
  rw [sectorOf, hslot, hj, Nat.mul_add_mod, Nat.mod_eq_of_lt hk]

/-- The slots behind them are free. -/
theorem sectorOf_free (hj : es[j]? = none) : slotType (sectorOf es) j = FT_UNKNOWN := by
  have hzero : load16 (sectorOf es) (SIZEOF_DENTRY_DISK * j + 26) = 0 := by
    refine loadLE_eq_zero fun k hlo hhi => ?_
    have hslot : k / SIZEOF_DENTRY_DISK = j := by
      rw [show SIZEOF_DENTRY_DISK = 32 from rfl] at *
      omega
    rw [sectorOf, hslot, hj]
    rfl
  rw [slotType, hzero]
  rfl

/-- A slot that is not in use is all zero. -/
theorem sectorOf_clear (hok : ∀ e ∈ es, e.Ok) (hfree : slotType (sectorOf es) j = FT_UNKNOWN)
    {k : Nat} (hk : k < SIZEOF_DENTRY_DISK) : sectorOf es (SIZEOF_DENTRY_DISK * j + k) = 0 := by
  cases hj : es[j]? with
  | some e =>
      exact absurd hfree ((sectorOf_holds hj).slotType_ne (hok e (List.mem_of_getElem? hj)))
  | none =>
      have hslot : (SIZEOF_DENTRY_DISK * j + k) / SIZEOF_DENTRY_DISK = j := by
        rw [Nat.mul_add_div (by decide), Nat.div_eq_of_lt hk, Nat.add_zero]
      rw [sectorOf, hslot, hj]

/-- An inode with one such sector is a directory with these entries. -/
theorem directory_sectorOf {disk : Disk} {p : Inode} {lba : Nat} (hok : ∀ e ∈ es, e.Ok)
    (hnodup : (es.map DirEntry.name).Nodup) (hlen : es.length ≤ SLOTS) (hlba : lba ≠ 0)
    (hread : readSectors disk p = [lba]) (hdisk : disk lba = sectorOf es) :
    Directory disk p es := by
  have hown : ownSectors disk p = [lba] := by
    rw [ownSectors, hread, List.filter_singleton, decide_eq_true hlba, cond_true]
  refine ⟨hok, hnodup, ?_, ?_, 0, ?_⟩
  · intro l hl j _ hused
    rw [hown, List.mem_singleton] at hl
    rw [hl, hdisk] at hused ⊢
    cases hj : es[j]? with
    | none => exact absurd (sectorOf_free hj) hused
    | some e => exact ⟨e, List.mem_of_getElem? hj, sectorOf_holds hj⟩
  · intro e he
    obtain ⟨j, hj⟩ := List.mem_iff_getElem?.mp he
    obtain ⟨hlt, -⟩ := List.getElem?_eq_some_iff.mp hj
    have hmem : lba ∈ ownSectors disk p := by
      rw [hown]
      exact List.mem_singleton_self lba
    refine ⟨lba, hmem, j, Nat.lt_of_lt_of_le hlt hlen, ?_⟩
    rw [hdisk]
    exact sectorOf_holds hj
  · rw [hread, hown]
    rfl

end

end Fizzos.Proofs
