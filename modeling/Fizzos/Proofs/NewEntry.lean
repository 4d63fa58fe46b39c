import Fizzos.Fs.Path
import Fizzos.Proofs.DirGrow

/-!
# `Fizzos.Proofs.NewEntry`: a new entry damages no other

`parse_path` hands down the name that it did not find, and `file_create` and `dir_create` pass it to
`dir_write`. A name has at most 127 characters there, and nothing compares its length with the 24
characters of `fname`. `strlen` gives up at 100 characters, so the length of a last name that is
longer becomes 65535.

`Undamaged` is what the call owes to the directory: a slot and a `struct dentry` with the new entry,
and everything else as it was. `create_undamaged_iff` says that this is so exactly for the names
that fit.
-/

set_option autoImplicit false

namespace Fizzos.Proofs

open Fizzos.Device
open Fizzos.Fs
open Fizzos.Kernel
open Fizzos.Lib
open Fizzos.LibKernel
open Fizzos.Support

/-! ### The name that `parse_path` hands down -/

/-- A name that was not found: where `parse_path` has its length from. -/
structure NameHanded (res : SearchRes) : Prop where
  nul : 0 ∉ res.curdir
  le : res.curdir.length ≤ MAX_PATH_LEN
  len : res.curdirLen = res.curdir.length ∨ 100 ≤ res.curdir.length ∧ res.curdirLen = 2 ^ 16 - 1

/-- What the loop of `parse_path` keeps. -/
structure PathInv (res : SearchRes) : Prop where
  next : ∀ next, res.nextdir = some next → 0 ∉ next ∧ next.length ≤ MAX_PATH_LEN
  name : res.child = none → NameHanded res

section
variable {cur next name : List (BitVec 8)} {bufs : Nat → Bytes} {addrs : Nat → Nat × Nat}
  {s s' : DirSys} {res res' : SearchRes}

/-- `strlen` gives up at 100 characters, with -1. -/
theorem strlen_charsAt (hnul : 0 ∉ name) :
    strlen (charsAt name) = if name.length < 100 then name.length else 2 ^ 32 - 1 := by
  have hchar : ∀ j < name.length, charsAt name j ≠ 0 := fun j hj => getD_ne_zero hnul hj
  rw [strlen]
  split
  next hlt =>
    have hend : charsAt name name.length = 0 := List.getD_eq_default _ _ (Nat.le_refl _)
    have hfind : (List.range 100).find? (fun i => decide (charsAt name i = 0))
        = some name.length := by
      refine List.find?_range_eq_some.mpr ⟨decide_eq_true hend, List.mem_range.mpr hlt,
        fun j hj => ?_⟩
      simpa using hchar j hj
    rw [hfind]
    rfl
  next hge =>
    have hfind : (List.range 100).find? (fun i => decide (charsAt name i = 0)) = none := by
      refine List.find?_range_eq_none.mpr fun j hj => ?_
      simpa using hchar j (by omega)
    rw [hfind]
    rfl

/-- What is behind a `'/'` is part of the path. -/
theorem splitSlash_sub (h : splitSlash cur = some next) :
    (∀ c ∈ next, c ∈ cur) ∧ next.length < cur.length := by
  have hsuffix := List.dropWhile_suffix notSlash (l := cur)
  rw [splitSlash] at h
  split at h
  next => cases h
  next c next' hdrop =>
    cases h
    rw [hdrop] at hsuffix
    have hlen := hsuffix.length_le
    rw [List.length_cons] at hlen
    exact ⟨fun c hc => hsuffix.subset (List.mem_cons_of_mem _ hc), by omega⟩

/-- A round of the loop. -/
theorem pathInv_round {parent : Nat} {child : Option Nat} (hnul : 0 ∉ cur)
    (hle : cur.length ≤ MAX_PATH_LEN) :
    PathInv
      { parent, child, curdir := cur.takeWhile notSlash
        curdirLen := (if (splitSlash cur).isSome then (cur.takeWhile notSlash).length
          else strlen (charsAt (cur.takeWhile notSlash))) % 2 ^ 16
        nextdir := splitSlash cur } := by
  have hsub : ∀ c ∈ cur.takeWhile notSlash, c ∈ cur := fun c hc =>
    (List.takeWhile_subset notSlash) hc
  have hshort : (cur.takeWhile notSlash).length ≤ cur.length := (List.takeWhile_prefix _).length_le
  have hnul' : 0 ∉ cur.takeWhile notSlash := fun hc => hnul (hsub 0 hc)
  have hmax : MAX_PATH_LEN = 127 := rfl
  constructor
  · intro next hnext
    obtain ⟨hmem, hlt⟩ := splitSlash_sub hnext
    exact ⟨fun hc => hnul (hmem 0 hc), by omega⟩
  · intro _
    have hle' : (cur.takeWhile notSlash).length ≤ MAX_PATH_LEN := by omega
    refine ⟨hnul', hle', ?_⟩
    show (if (splitSlash cur).isSome then _ else _) % 2 ^ 16 = (cur.takeWhile notSlash).length ∨
      100 ≤ (cur.takeWhile notSlash).length ∧
        (if (splitSlash cur).isSome then _ else _) % 2 ^ 16 = 2 ^ 16 - 1
    -- `strlen` gives up at 100 characters, and its `-1` becomes 65535 in the length.
    rw [strlen_charsAt hnul']
    split
    next => exact .inl (by omega)
    next =>
      split
      next => exact .inl (by omega)
      next hge => exact .inr ⟨by omega, rfl⟩

/-- The rounds of the loop keep what is known of the last name. -/
theorem pathInv_loop (n : Nat) (h : PathInv res)
    (hok : parseLoop bufs addrs n s res = .ok (res', s')) : PathInv res' := by
  induction n generalizing s res with
  | zero =>
      cases hok
      exact h
  | succ n ih =>
      rw [parseLoop] at hok
      split at hok
      next c cs parent hnext hchild =>
        obtain ⟨hnul, hle⟩ := h.next _ hnext
        obtain ⟨⟨child, s₁⟩, -, hok⟩ := bind_eq_ok.mp hok
        exact ih (pathInv_round hnul hle) hok
      next =>
        cases hok
        exact h

/-- The loop starts with the path, or behind the first `'/'`. -/
theorem pathStart_sub {root cwd parent : Nat} {dirfd : DirFd} {path : List (BitVec 8)}
    (h : pathStart s root cwd dirfd path = some (parent, cur)) :
    (∀ c ∈ cur, c ∈ path) ∧ cur.length ≤ path.length := by
  have hroot : some (root, path.tail) = some (parent, cur) →
      (∀ c ∈ cur, c ∈ path) ∧ cur.length ≤ path.length := by
    intro heq
    cases heq
    exact ⟨fun c hc => List.mem_of_mem_tail hc, by simp⟩
  have hwhole : ∀ d, some (d, path) = some (parent, cur) →
      (∀ c ∈ cur, c ∈ path) ∧ cur.length ≤ path.length := by
    intro d heq
    cases heq
    exact ⟨fun _ hc => hc, Nat.le_refl _⟩
  unfold pathStart at h
  split at h
  next => exact hroot h
  next =>
    cases dirfd with
    | fdcwd => exact hwhole cwd h
    | file d =>
        dsimp only at h
        split at h
        next => cases h
        next => exact hwhole d h

/-- The name that `parse_path` did not find. -/
theorem nameHanded_of_parsePath {root cwd : Nat} {dirfd : DirFd} {path : Path}
    (hok : parsePath s root cwd dirfd path bufs addrs = .ok (some res, s'))
      (hchild : res.child = none) :
    NameHanded res := by
  rw [parsePath] at hok
  split at hok
  next => cases hok
  next parent cur hstart =>
    obtain ⟨hsub, hlen⟩ := pathStart_sub hstart
    have hle := path.le
    have hinv : PathInv ⟨parent, some parent, cur, 0, some cur⟩ := by
      refine ⟨fun next hnext => ?_, fun hnone => absurd hnone (by simp)⟩
      obtain rfl : cur = next := Option.some.inj hnext
      exact ⟨fun hc => path.nul (hsub 0 hc), by omega⟩
    obtain ⟨⟨res₁, s₁⟩, hloop, hres⟩ := bind_eq_ok.mp hok
    cases hres
    exact (pathInv_loop _ hinv hloop).name hchild

end

/-! ### The new entry -/

/-- The name of the entry `j` of a sector: `fname_len` characters of the 24 that `fname` has. -/
def slotName (buf : Bytes) (j : Nat) : List (BitVec 8) :=
  (List.range (min (load16 buf (SIZEOF_DENTRY_DISK * j + 24)) MAX_FILE_NAME_LEN)).map fun k =>
    buf (SIZEOF_DENTRY_DISK * j + k)

/-- The `image` is the `sector` with the new entry in the slot `j`. -/
structure SlotWritten (sector image : Bytes) (j : Nat) (name : List (BitVec 8)) (iMode iNo : Nat) :
    Prop where
  fname : slotName image j = name
  fnameLen : load16 image (SIZEOF_DENTRY_DISK * j + 24) = name.length
  iMode : load16 image (SIZEOF_DENTRY_DISK * j + 26) = iMode % 2 ^ 16
  iNo : load32 image (SIZEOF_DENTRY_DISK * j + 28) = iNo % 2 ^ 32
  others : ∀ k, k < SIZEOF_DENTRY_DISK * j ∨ SIZEOF_DENTRY_DISK * j + SIZEOF_DENTRY_DISK ≤ k →
    image k = sector k

/-- The name of a `struct dentry`, in the 25 characters of its `fname`. -/
def dentryName (mem : Bytes) : List (BitVec 8) :=
  (List.range (min (load16 mem 34) (MAX_FILE_NAME_LEN + 1))).map fun k => mem (8 + k)

/-- The memory `mem` with a new `struct dentry` at the front. -/
structure DentryWritten (mem mem' : Bytes) (parent i : Nat) (name : List (BitVec 8)) : Prop where
  count : load32 mem' 0 = 1
  inode : load32 mem' 4 = i % 2 ^ 32
  fname : dentryName mem' = name
  fnameLen : load16 mem' 34 = name.length
  nul : mem' (8 + name.length) = 0
  dParent : load32 mem' 36 = parent % 2 ^ 32
  others : ∀ k, SIZEOF_DENTRY ≤ k → mem' k = mem k

section
variable {sector image mem : Bytes} {j iMode iNo parent i n : Nat} {name : List (BitVec 8)}

/-- A field of two bytes is read as it was written. -/
theorem load16_store (buf : Bytes) (off v : Nat) : load16 (storeLE 2 buf off v) off = v % 2 ^ 16 :=
  loadLE_eq_mod fun k hk => by rw [storeLE, if_pos (by omega), Nat.add_sub_cancel_left]

/-- A field of four bytes is read as it was written. -/
theorem load32_store (buf : Bytes) (off v : Nat) : load32 (storeLE 4 buf off v) off = v % 2 ^ 32 :=
  loadLE_eq_mod fun k hk => by rw [storeLE, if_pos (by omega), Nat.add_sub_cancel_left]

/-- Characters of the name, one by one. -/
theorem map_range_chars (h : ∀ k < name.length, sector k = name.getD k 0) :
    (List.range name.length).map sector = name := by
  refine List.ext_getElem (by simp) fun k hk hk' => ?_
  rw [List.getElem_map, List.getElem_range, h k hk', List.getD_eq_getElem _ _ hk']

/-- A name that fits changes its slot only. -/
theorem slotWritten_of_fits (sector : Bytes) (j iMode iNo : Nat) (hnul : 0 ∉ name)
    (hle : name.length ≤ MAX_FILE_NAME_LEN) :
    SlotWritten sector (writeSlot sector j iMode iNo (charsAt name) name.length) j name
      iMode iNo := by
  have hle' : name.length ≤ 24 := hle
  have hchar : ∀ t < name.length, charsAt name t ≠ 0 := fun t ht => getD_ne_zero hnul ht
  have hlen : load16 (writeSlot sector j iMode iNo (charsAt name) name.length)
      (SIZEOF_DENTRY_DISK * j + 24) = name.length := by
    rw [writeSlot, load16_store]
    exact Nat.mod_eq_of_lt (by omega)
  refine ⟨?_, hlen, ?_, ?_, fun k hk => writeSlot_of_ne hle hk⟩
  · rw [slotName, hlen, Nat.min_eq_left hle]
    refine map_range_chars fun k hk => ?_
    rw [writeSlot, storeLE_of_ne (by omega), strncpy_at hchar (by omega) (by omega),
      Nat.add_sub_cancel_left, charsAt]
  · -- `i_mode` and `i_no` are written first, and are behind the characters
    rw [writeSlot, load16, loadLE_storeLE_of_ne (by omega),
      loadLE_congr fun k hlo _ => strncpy_of_ne (by omega), loadLE_storeLE_of_ne (by omega)]
    exact load16_store _ _ _
  · rw [writeSlot, load32, loadLE_storeLE_of_ne (by omega),
      loadLE_congr fun k hlo _ => strncpy_of_ne (by omega)]
    exact load32_store _ _ _

/-- There is no room for a longer name. -/
theorem SlotWritten.fits (h : SlotWritten sector image j name iMode iNo) :
    name.length ≤ MAX_FILE_NAME_LEN := by
  rw [← h.fname, slotName, List.length_map, List.length_range]
  exact Nat.min_le_right _ _

/-- What a longer name does: its characters go to the fields behind `fname`. -/
theorem writeSlot_long (hnul : 0 ∉ name) {k : Nat} (hlo : 26 ≤ k) (hhi : k < name.length) :
    writeSlot sector j iMode iNo (charsAt name) name.length (SIZEOF_DENTRY_DISK * j + k)
      = name.getD k 0 := by
  have hchar : ∀ t < name.length, charsAt name t ≠ 0 := fun t ht => getD_ne_zero hnul ht
  rw [writeSlot, storeLE_of_ne (by omega), strncpy_at hchar (by omega) (by omega),
    Nat.add_sub_cancel_left, charsAt]

/-- A name that fits stays in its `struct dentry`. -/
theorem dentryWritten_of_fits (mem : Bytes) (parent i : Nat) (hnul : 0 ∉ name)
    (hle : name.length ≤ MAX_FILE_NAME_LEN) :
    DentryWritten mem (dentryImage mem parent i (charsAt name) name.length) parent i name := by
  have hle' : name.length ≤ 24 := hle
  have hchar : ∀ t < name.length, charsAt name t ≠ 0 := fun t ht => getD_ne_zero hnul ht
  -- `fname_len` lies behind the name, so the name does not overwrite it.
  have hlen : load16 (dentryImage mem parent i (charsAt name) name.length) 34 = name.length := by
    rw [dentryImage, load16, loadLE_storeLE_of_ne (by omega), loadLE_storeLE_of_ne (by omega)]
    exact (load16_store _ _ _).trans (Nat.mod_eq_of_lt (by omega))
  refine
    { count := load32_store _ _ _
      inode := ?_
      fname := ?_
      fnameLen := hlen
      nul := ?_
      dParent := ?_
      others := fun k hk => ?_ }
  · rw [dentryImage, load32, loadLE_storeLE_of_ne (by omega)]
    exact load32_store _ _ _
  · rw [dentryName, hlen, Nat.min_eq_left (Nat.le_succ_of_le hle)]
    refine map_range_chars fun k hk => ?_
    rw [dentryImage, storeLE_of_ne (by omega), storeLE_of_ne (by omega), storeLE_of_ne (by omega),
      strncpy_at hchar (by omega) (by omega), Nat.add_sub_cancel_left, charsAt]
  · -- the `memset` leaves the end of the name
    rw [dentryImage, storeLE_of_ne (by omega), storeLE_of_ne (by omega), storeLE_of_ne (by omega),
      strncpy_of_ne (by omega), storeLE_of_ne (by omega)]
    have hin : 0 ≤ 8 + name.length ∧ 8 + name.length < 0 + 64 := by omega
    exact if_pos hin
  · rw [dentryImage, load32, loadLE_storeLE_of_ne (by omega), loadLE_storeLE_of_ne (by omega),
      loadLE_storeLE_of_ne (by omega), loadLE_congr fun k hlo _ => strncpy_of_ne (by omega)]
    exact load32_store _ _ _
  · have hk' : 64 ≤ k := hk
    rw [dentryImage, storeLE_of_ne (by omega), storeLE_of_ne (by omega), storeLE_of_ne (by omega),
      strncpy_of_ne (by omega), storeLE_of_ne (by omega)]
    have hout : ¬(0 ≤ k ∧ k < 0 + 64) := by omega
    exact if_neg hout

end

/-! ### The sector of the entry -/

/-- What `dir_write` has when its loops are done: the sector in the buffer is one that was read, or
a new one. -/
structure PlaceFound (sb : SuperBlock) (c : DirCursor) (place : DirPlace) : Prop where
  slot : freeSlot place.cursor.buf = some place.slot
  sector : (∀ k < SECTOR_SIZE, place.cursor.buf k = place.cursor.disk place.lba k) ∨
    FreeBlock sb c.blockBitmap place.lba
  grown : Grown c.blockBitmap place.cursor.blockBitmap
  frame : ∀ l, ¬InBitmap sb l → place.cursor.disk l = c.disk l
  index : place.isSecond = true → FreeBlock sb c.blockBitmap (place.cursor.dir.iSectors 12)

section
variable {sb : SuperBlock} {current : Tid} {c c' : DirCursor} {place : DirPlace}
  {lbas idxs : List Nat} {r : Option DirPlace}

/-- The slot of a place is the first free one of its sector. -/
theorem findDirect_slot (hok : findDirect sb current idxs c = .ok (some place, c')) :
    freeSlot place.cursor.buf = some place.slot := by
  induction idxs generalizing c with
  | nil => cases hok
  | cons idx rest ih =>
      by_cases hzero : c.dir.iSectors idx = 0
      · rw [findDirect, if_pos hzero] at hok
        simp only [bind_eq_ok, pure_eq_ok, Except.ok.injEq] at hok
        obtain ⟨_, -, _, rfl, hok⟩ := hok
        rw [freeSlot_clear] at hok
        cases hok
        exact freeSlot_clear _
      · rw [findDirect_read sb current rest hzero (findDirect_lba hzero hok)] at hok
        cases hslot : freeSlot (c.disk (c.dir.iSectors idx)) with
        | some slot =>
            rw [hslot] at hok
            cases hok
            exact (freeSlot_load c).trans hslot
        | none =>
            rw [hslot] at hok
            exact ih hok

/-- It is so for the sectors of the index block, too. -/
theorem findIndexed_slot {isSecond : Bool}
    (hok : findIndexed sb isSecond current idxs c = .ok (some place)) :
    freeSlot place.cursor.buf = some place.slot := by
  induction idxs generalizing c with
  | nil => cases hok
  | cons times rest ih =>
      by_cases hzero : indexWord c.buf times = 0
      · rw [findIndexed, if_pos hzero] at hok
        simp only [bind_eq_ok, pure_eq_ok, Except.ok.injEq] at hok
        obtain ⟨_, -, _, rfl, hok⟩ := hok
        rw [freeSlot_clear] at hok
        cases hok
        exact freeSlot_clear _
      · rw [findIndexed_read sb isSecond current rest hzero (findIndexed_lba hzero hok)] at hok
        cases hslot : freeSlot (c.disk (indexWord c.buf times)) with
        | some slot =>
            rw [hslot] at hok
            cases hok
            exact (freeSlot_load c).trans hslot
        | none =>
            rw [hslot] at hok
            exact ih hok

/-- A place that the loops find from `c'` on, when they started with `c`. -/
theorem Placed.found (h : Placed sb c' lbas place) (hgrown : Grown c.blockBitmap c'.blockBitmap)
    (hframe : ∀ l, ¬InBitmap sb l → c'.disk l = c.disk l)
    (hslot : freeSlot place.cursor.buf = some place.slot)
    (hindex : place.isSecond = true → FreeBlock sb c.blockBitmap (place.cursor.dir.iSectors 12)) :
    PlaceFound sb c place := by
  obtain ⟨lba, -, ⟨-, hold⟩ | ⟨-, hnew⟩⟩ := h
  · refine ⟨hslot, .inl fun k hk => ?_, ?_, fun l hl => ?_, hindex⟩
    · rw [hold.disk, hold.sector]
      exact hold.buf k hk
    · rw [hold.blockBitmap]
      exact hgrown
    · rw [hold.disk]
      exact hframe l hl
  · exact ⟨hslot, .inr (hgrown.free hnew.free), hgrown.trans hnew.grown,
      fun l hl => (hnew.frame l hl).trans (hframe l hl), hindex⟩

/-- The loops, in every case. -/
theorem findPlace_found (hfit : BitsFit sb c.blockBitmap)
    (hok : findPlace sb c current = .ok place) : PlaceFound sb c place := by
  cases findPlace_foundBy hok with
  | direct c₁ hdirect =>
      obtain ⟨hsecond, hplaced⟩ := findDirect_some hfit hdirect
      refine hplaced.found (Grown.refl _) (fun _ _ => rfl) (findDirect_slot hdirect) fun htrue => ?_
      rw [hsecond] at htrue
      cases htrue
  -- The loop begins behind one block that is taken already, which is the new index block.
  | newIndex c₁ c₂ block hdirect hzero halloc hindexed =>
      obtain ⟨-, hscanned⟩ := findDirect_none hfit hdirect
      have hfit₁ : BitsFit sb c₁.blockBitmap := hscanned.blockBitmap.symm ▸ hfit
      obtain ⟨hfree, hgrown, hframe, -, -⟩ := allocBlock_free hfit₁ halloc
      obtain ⟨c₃, hc₃⟩ : ∃ c₃, c₃ = (c₂.setSector 12 block).clear := ⟨_, rfl⟩
      have hgrown₃ : Grown c.blockBitmap c₃.blockBitmap := by
        rw [hc₃, ← hscanned.blockBitmap]
        exact hgrown
      rw [← hc₃] at hindexed
      obtain ⟨hsecond, hdir, hplaced⟩ := findIndexed_ok (hgrown₃.bitsFit hfit) hindexed
      have hblock : place.cursor.dir.iSectors 12 = block := by
        rw [hdir, hc₃]
        show Function.update c₂.dir.iSectors 12 block 12 = block
        rw [Function.update_self]
      refine hplaced.found hgrown₃ (fun l hl => ?_) (findIndexed_slot hindexed) fun _ => ?_
      · rw [hc₃, ← hscanned.disk]
        exact hframe l hl
      · rw [hblock, ← hscanned.blockBitmap]
        exact hfree
  | oldIndex c₁ hdirect hne _ hindexed =>
      obtain ⟨-, hscanned⟩ := findDirect_none hfit hdirect
      obtain ⟨hsecond, -, hplaced⟩ := findIndexed_ok (hscanned.blockBitmap ▸ hfit) hindexed
      refine hplaced.found (hscanned.blockBitmap.symm ▸ Grown.refl _)
        (fun l _ => congrFun hscanned.disk l) (findIndexed_slot hindexed) fun htrue => ?_
      rw [hsecond] at htrue
      cases htrue

end

/-! ### The call -/

/-- The sector that `dir_write` writes. -/
def newSector (s : DirSys) (i : Nat) (place : DirPlace) (name : List (BitVec 8))
    (n : Nat) : Bytes :=
  writeSlot place.cursor.buf place.slot (s.fs.inode i).iMode (s.fs.inode i).iNo (charsAt name) n

/-- What the creation of an entry owes to the directory: the slot was free, the new entry is in it
and in the new `struct dentry`, and all the rest is as it was. The sector is on the disk behind the
call unless a new index block that is not clean has led to it (`dirWrite_grows_iff`). -/
structure Undamaged (s s' : DirSys) (parent i : Nat) (place : DirPlace) (name : List (BitVec 8))
    (n : Nat) : Prop where
  free : freeSlot place.cursor.buf = some place.slot
  sector : (∀ k < SECTOR_SIZE, place.cursor.buf k = place.cursor.disk place.lba k) ∨
    FreeBlock s.fs.part.sb s.fs.part.blockBitmap place.lba
  slot : SlotWritten place.cursor.buf (newSector s i place name n) place.slot name
    (s.fs.inode i).iMode (s.fs.inode i).iNo
  dentry : ∀ mem, DentryWritten mem (dentryImage mem parent i (charsAt name) n) parent i name
  stored : Used s.fs.part.sb place.cursor.blockBitmap place.lba →
    place.lba ≠ place.cursor.dir.iSectors 12 →
      ∀ k < SECTOR_SIZE, s'.fs.disk place.lba k = newSector s i place name n k
  others : ∀ l ∈ ownSectors s.fs.disk (inodeOf s parent), ∀ k < SECTOR_SIZE,
    (l = place.lba → k < SIZEOF_DENTRY_DISK * place.slot ∨
      SIZEOF_DENTRY_DISK * place.slot + SIZEOF_DENTRY_DISK ≤ k) →
      s'.fs.disk l k = s.fs.disk l k

/-- `file_create` or `dir_create` passes the name that `parse_path` did not find to `dir_write`, in
the state `s₁`. `i` is the address of the new inode, and `d` is the result of `dir_write`. -/
inductive CreateCall (s : DirSys) (res : SearchRes) (buf : Bytes) (i dm : Nat) (current : Tid) :
    DirSys → Option Nat → DirSys → Prop
  | file {fs : FileSys} {s₁ s' : DirSys} {d : Option Nat} {buf' : Bytes}
      (hnext : res.nextdir = none) (halloc : inodeAlloc s.fs i current = .ok fs)
      (hs₁ : s₁ = ⟨fs.setInode i { fs.inode i with iMode := FT_NORMAL }, s.dentry, s.dChild⟩)
      (hwrite : dirWrite s₁ res.parent i buf (charsAt res.curdir) res.curdirLen dm current
        = .ok (d, buf', s')) : CreateCall s res buf i dm current s₁ d s'
  | dir {fs : FileSys} {s₁ s' : DirSys} {d : Option Nat} {buf' : Bytes} (mode : Nat)
      (halloc : inodeAlloc s.fs i current = .ok fs)
      (hs₁ : s₁ = ⟨fs.setInode i { fs.inode i with iMode := (mode &&& 0x0fff) ||| FT_DIR },
        s.dentry, s.dChild⟩)
      (hwrite : dirWrite s₁ res.parent i buf (charsAt res.curdir) res.curdirLen dm current
        = .ok (d, buf', s')) : CreateCall s res buf i dm current s₁ d s'

section
variable {s s₁ s' : DirSys} {res : SearchRes} {parent i dm n : Nat} {buf buf' : Bytes}
  {current : Tid} {d : Option Nat} {name : List (BitVec 8)} {place : DirPlace}

/-- `file_create` makes such a call. It returns `NULL` when `dir_write` does. -/
theorem createCall_of_fileCreate {t t' : FileTable} {f : Option Nat} {pad : Bytes}
    (hnext : res.nextdir = none)
    (hok : fileCreate t (charsAt res.curdir) res.curdirLen res.parent buf
      i dm pad current = .ok (f, t')) :
    ∃ s₁ d s', CreateCall t.dirs res buf i dm current s₁ d s' ∧ (f = none ↔ d = none) := by
  simp only [fileCreate, bind_eq_ok] at hok
  obtain ⟨fs, halloc, ⟨d, buf', s₂⟩, hwrite, hok⟩ := hok
  refine ⟨_, d, s₂, .file hnext halloc rfl hwrite, ?_⟩
  cases d with
  | none =>
      obtain ⟨fs', -, hok⟩ := bind_eq_ok.mp hok
      cases hok
      exact iff_of_true rfl rfl
  | some d =>
      obtain ⟨f, -, hok⟩ := bind_eq_ok.mp hok
      obtain ⟨⟨disk, inodeBitmap⟩, -, hok⟩ := bind_eq_ok.mp hok
      cases hok
      exact iff_of_false (by simp) (by simp)

/-- A call of `dir_create` that returns is a call that makes an entry. -/
theorem createCall_of_dirCreate {mode : Nat} {ret : Int} {pad : Bytes}
    (hok : dirCreate s res.parent mode buf (charsAt res.curdir) res.curdirLen i dm pad current
      = .ok (ret, s')) :
    ∃ s₁ d s', CreateCall s res buf i dm current s₁ d s' ∧ (ret = -1 ↔ d = none) := by
  simp only [dirCreate, bind_eq_ok] at hok
  obtain ⟨fs, halloc, ⟨d, buf', s₂⟩, hwrite, hok⟩ := hok
  refine ⟨_, d, s₂, .dir mode halloc rfl hwrite, ?_⟩
  cases d with
  | none =>
      obtain ⟨fs', -, hok⟩ := bind_eq_ok.mp hok
      cases hok
      exact iff_of_true rfl rfl
  | some d =>
      obtain ⟨⟨disk, inodeBitmap⟩, -, hok⟩ := bind_eq_ok.mp hok
      cases hok
      exact iff_of_false (by decide) (by simp)

/-- `inode_alloc` leaves the blocks and the other inodes alone. -/
theorem inodeAlloc_frame {fs fs' : FileSys} (hok : inodeAlloc fs i current = .ok fs') :
    fs'.disk = fs.disk ∧ fs'.part.sb = fs.part.sb ∧ fs'.part.blockBitmap = fs.part.blockBitmap ∧
      ∀ q, q ≠ i → fs'.inode q = fs.inode q := by
  simp only [inodeAlloc, bind_eq_ok, pure_eq_ok] at hok
  obtain ⟨⟨iNo, inodeBitmap⟩, -, ⟨openInodes, inodeTag⟩, -, hres⟩ := hok
  cases hres
  exact ⟨rfl, rfl, rfl, fun q hq => FileSys.setInode_of_ne _ _ hq⟩

/-- What the state in which `dir_write` is called has of the directory. -/
structure SameDir (s s₁ : DirSys) (parent : Nat) : Prop where
  disk : s₁.fs.disk = s.fs.disk
  sb : s₁.fs.part.sb = s.fs.part.sb
  blockBitmap : s₁.fs.part.blockBitmap = s.fs.part.blockBitmap
  inode : inodeOf s₁ parent = inodeOf s parent
  dentry : s₁.dentry = s.dentry

/-- A new inode does not change the directory. -/
theorem sameDir_of_alloc {fs : FileSys} {x : Inode} (hi : i ≠ (s.dentry parent).inode)
    (halloc : inodeAlloc s.fs i current = .ok fs)
    (hs₁ : s₁ = ⟨fs.setInode i x, s.dentry, s.dChild⟩) : SameDir s s₁ parent := by
  subst hs₁
  obtain ⟨hdisk, hsb, hbitmap, hothers⟩ := inodeAlloc_frame halloc
  refine ⟨hdisk, hsb, hbitmap, ?_, rfl⟩
  show (fs.setInode i x).inode (s.dentry parent).inode = _
  rw [FileSys.setInode_of_ne _ _ hi.symm]
  exact hothers _ hi.symm

/-- So `dir_write` finds the directory as it was before the call. -/
theorem CreateCall.sameDir (hcall : CreateCall s res buf i dm current s₁ d s')
    (hi : i ≠ (s.dentry res.parent).inode) :
    SameDir s s₁ res.parent ∧
      ∃ buf', dirWrite s₁ res.parent i buf (charsAt res.curdir) res.curdirLen
      dm current = .ok (d, buf', s') := by
  cases hcall with
  | file _ halloc hs₁ hwrite => exact ⟨sameDir_of_alloc hi halloc hs₁, _, hwrite⟩
  | dir _ halloc hs₁ hwrite => exact ⟨sameDir_of_alloc hi halloc hs₁, _, hwrite⟩

/-- The blocks of a directory depend on its inode, the bitmap and the disk. -/
theorem DirBlocks.congr (h : DirBlocks s parent) (hsame : SameDir s s₁ parent) :
    DirBlocks s₁ parent where
  boot := hsame.sb ▸ h.boot
  layout := hsame.sb ▸ h.layout
  bits := by
    rw [hsame.sb, hsame.blockBitmap]
    exact h.bits
  used := by
    rw [hsame.sb, hsame.blockBitmap, hsame.disk, hsame.inode]
    exact h.used
  index := by
    rw [hsame.sb, hsame.blockBitmap, hsame.disk, hsame.inode]
    exact h.index
  list := hsame.dentry ▸ h.list

/-- `dir_write` returns `NULL` for a directory of the largest size only. -/
theorem dirWrite_none
    (hok : dirWrite s parent i buf (charsAt name) n dm current = .ok (d, buf', s')) :
    d = none ↔ (inodeOf s parent).iSize = MAX_FILE_SIZE := by
  rw [dirWrite] at hok
  dsimp only at hok
  split at hok
  next hfull =>
    cases hok
    exact iff_of_true rfl hfull
  next hsize =>
    simp only [bind_eq_ok, pure_eq_ok] at hok
    obtain ⟨_, -, _, -, _, -, hok⟩ := hok
    cases hok
    exact iff_of_false (by simp) hsize

/-- A name that fits damages nothing. -/
theorem undamaged_of_fits (h : DirBlocks s parent) (hnul : 0 ∉ name)
    (hle : name.length ≤ MAX_FILE_NAME_LEN) {dm' : Nat}
    (hok : dirWrite s parent i buf (charsAt name) name.length dm current
    = .ok (some dm', buf', s')) :
    ∃ place, findPlace s.fs.part.sb (dirCursor s parent buf) current = .ok place ∧
      Undamaged s s' parent i place name name.length := by
  obtain ⟨place, c, inode, hplace, hput, hdisk, hdir⟩ := dirWrite_parent hok
  have hfound := findPlace_found (h.cursor buf).bits hplace
  have hbehind := putEntry_behind (hfound.grown.bitsFit h.bits) hput hdir
  rw [← hdisk] at hbehind
  have hslot := slotWritten_of_fits place.cursor.buf place.slot (s.fs.inode i).iMode
    (s.fs.inode i).iNo hnul hle
  refine ⟨place, hplace, hfound.slot, hfound.sector, hslot,
    fun mem => dentryWritten_of_fits mem parent i hnul hle, fun hused hne k hk => ?_,
    fun l hl k hk hother => ?_⟩
  · exact hbehind.entry_at hused h.layout (fun _ => hne) hk
  · have hused := h.used l hl
    have hno := hused.not_inBitmap h.layout
    have hindex : place.isSecond = true → l ≠ place.cursor.dir.iSectors 12 := fun htrue heq =>
      (hfound.index htrue).2 (heq ▸ hused)
    by_cases hne : l = place.lba
    · -- the sector of the entry: the other slots are as they were read
      subst hne
      rw [hbehind.entry_at (hfound.grown.used hused) h.layout hindex hk,
        hslot.others k (hother rfl)]
      rcases hfound.sector with hread | hfree
      · rw [hread k hk]
        exact congrFun (hfound.frame _ hno) k
      · exact absurd hused hfree.2
    · exact congrFun (hbehind.of_ne hfound.grown hfound.frame hno (fun hfree => hfree.2 hused) hne
        hindex) k

end

/-- A call of `file_create` or `dir_create` damages no entry, and makes a right one, exactly when
the name fits into an entry, or the call is refused since the directory is full. -/
theorem create_undamaged_iff {s₀ s s₁ s' : DirSys} {root cwd : Nat} {dirfd : DirFd} {path : Path}
    {bufs : Nat → Bytes} {addrs : Nat → Nat × Nat} {res : SearchRes}
    (hparse : parsePath s₀ root cwd dirfd path bufs addrs = .ok (some res, s))
    (hchild : res.child = none) (hblocks : DirBlocks s res.parent) {buf : Bytes} {i dm : Nat}
    {current : Tid} (hi : i ≠ (s.dentry res.parent).inode) {d : Option Nat}
    (hcall : CreateCall s res buf i dm current s₁ d s') :
    (d = none ∨ ∃ place, findPlace s₁.fs.part.sb (dirCursor s₁ res.parent buf) current = .ok place ∧
      Undamaged s₁ s' res.parent i place res.curdir res.curdirLen) ↔
    (inodeOf s res.parent).iSize = MAX_FILE_SIZE ∨ res.curdir.length ≤ MAX_FILE_NAME_LEN := by
  have hname := nameHanded_of_parsePath hparse hchild
  obtain ⟨hsame, buf', hwrite⟩ := hcall.sameDir hi
  rw [dirWrite_none hwrite, hsame.inode]
  refine or_congr_right' fun hsize => ⟨?_, fun hle => ?_⟩
  · rintro ⟨place, -, hundamaged⟩
    exact hundamaged.slot.fits
  · have hle' : res.curdir.length ≤ 24 := hle
    have hlen : res.curdirLen = res.curdir.length := by
      rcases hname.len with hlen | ⟨hlong, -⟩
      · exact hlen
      · omega
    cases d with
    | none => exact absurd (hsame.inode ▸ (dirWrite_none hwrite).mp rfl) hsize
    | some dm' =>
        rw [hlen] at hwrite ⊢
        exact undamaged_of_fits (hblocks.congr hsame) hname.nul hle hwrite

/-- The root directory as the current directory, and a file `q`. -/
theorem create_undamaged_iff_root : ∃ res s s₁ s' d,
    parsePath (rootMounted (rootFiles 0) 1) 64 64 .fdcwd ⟨[0x71], by decide, by decide⟩
      (fun _ _ => 0) (fun _ => (32, 128)) = .ok (some res, s) ∧
    CreateCall s res (fun _ => 0) 32 128 0 s₁ d s' ∧
    (d = none ∨ ∃ place, findPlace s₁.fs.part.sb (dirCursor s₁ res.parent fun _ =>
    0) 0 = .ok place ∧
      Undamaged s₁ s' res.parent 32 place res.curdir res.curdirLen) := by
  have hparse : parsePath (rootMounted (rootFiles 0) 1) 64 64 .fdcwd ⟨[0x71], by decide, by decide⟩
      (fun _ _ => 0) (fun _ => (32, 128))
      = .ok (some ⟨64, none, [0x71], 1, none⟩, rootMounted (rootFiles 0) 1) := rfl
  have hblocks := (rootFiles_stored (k := 0) (by decide) (by decide)).blocks fun _ => rfl
  obtain ⟨fs, halloc⟩ : ∃ fs, inodeAlloc (rootMounted (rootFiles 0) 1).fs 32 0 = .ok fs := ⟨_, rfl⟩
  obtain ⟨s₁, hs₁⟩ : ∃ s₁ : DirSys, s₁ = ⟨fs.setInode 32 { fs.inode 32 with iMode := FT_NORMAL },
    (rootMounted (rootFiles 0) 1).dentry, (rootMounted (rootFiles 0) 1).dChild⟩ := ⟨_, rfl⟩
  obtain ⟨s', buf', hwrite⟩ : ∃ s' buf', dirWrite s₁ 64 32 (fun _ => 0) (charsAt [0x71]) 1 128 0
      = .ok (some 128, buf', s') := by
    cases halloc
    subst hs₁
    exact ⟨_, _, rfl⟩
  have hcall : CreateCall (rootMounted (rootFiles 0) 1) ⟨64, none, [0x71], 1, none⟩
      (fun _ => 0) 32 128 0
      s₁ (some 128) s' := .file rfl halloc hs₁ hwrite
  exact ⟨_, _, s₁, s', some 128, hparse, hcall,
    (create_undamaged_iff hparse rfl hblocks (by decide) hcall).mpr (.inr (by decide))⟩

/-- A file with a name of 40 characters `a`. Two of them are the `i_mode` of its entry, and the last
eight are in the next one. -/
theorem create_overruns_slot :
    ¬∀ s₀ root cwd dirfd path bufs addrs res s,
      parsePath s₀ root cwd dirfd path bufs addrs = .ok (some res, s) → res.child = none →
      DirBlocks s res.parent → ∀ buf i dm current, i ≠ (s.dentry res.parent).inode →
      ∀ s₁ d s', CreateCall s res buf i dm current s₁ d s' →
        d = none ∨ ∃ place, findPlace s₁.fs.part.sb
          (dirCursor s₁ res.parent buf) current = .ok place ∧
          Undamaged s₁ s' res.parent i place res.curdir res.curdirLen := by
  intro hall
  obtain ⟨name, hname⟩ : ∃ name : List (BitVec 8), name = List.replicate 40 0x61 := ⟨_, rfl⟩
  have hnul : 0 ∉ name := by
    rw [hname]
    decide
  have hle : name.length ≤ MAX_PATH_LEN := by
    rw [hname]
    decide
  have hparse : parsePath (rootMounted (rootFiles 0) 1) 64 64 .fdcwd ⟨name, hnul, hle⟩
      (fun _ _ => 0) (fun _ => (32, 128))
      = .ok (some ⟨64, none, name, 40, none⟩, rootMounted (rootFiles 0) 1) := by
    subst hname
    rfl
  have hblocks := (rootFiles_stored (k := 0) (by decide) (by decide)).blocks fun _ => rfl
  obtain ⟨fs, halloc, hmode⟩ : ∃ fs, inodeAlloc (rootMounted (rootFiles 0) 1).fs 32 0 = .ok fs ∧
      ((fs.setInode 32 { fs.inode 32 with iMode := FT_NORMAL }).inode 32).iMode = FT_NORMAL :=
    ⟨_, rfl, rfl⟩
  obtain ⟨s₁, hs₁⟩ : ∃ s₁ : DirSys, s₁ = ⟨fs.setInode 32 { fs.inode 32 with iMode := FT_NORMAL },
    (rootMounted (rootFiles 0) 1).dentry, (rootMounted (rootFiles 0) 1).dChild⟩ := ⟨_, rfl⟩
  obtain ⟨s', buf', hwrite⟩ : ∃ s' buf', dirWrite s₁ 64 32 (fun _ => 0) (charsAt name) 40 128 0
      = .ok (some 128, buf', s') := by
    cases halloc
    subst hs₁ hname
    exact ⟨_, _, rfl⟩
  have hcall : CreateCall (rootMounted (rootFiles 0) 1) ⟨64, none, name, 40, none⟩
      (fun _ => 0) 32 128 0
      s₁ (some 128) s' := .file rfl halloc hs₁ hwrite
  have hi : 32 ≠ ((rootMounted (rootFiles 0) 1).dentry 64).inode := by decide
  have hclaim := hall _ _ _ _ _ _ _ _ _ hparse rfl hblocks _ _ _ _ hi _ _ _ hcall
  rcases hclaim with hnone | ⟨place, -, hundamaged⟩
  · cases hnone
  · have hlen : name.length = 40 := by rw [hname, List.length_replicate]
    have hchar : ∀ k < 40, name.getD k 0 = 0x61 := fun k hk => by
      rw [hname, List.getD_eq_getElem _ _ (by rw [List.length_replicate]; exact hk),
        List.getElem_replicate]
    -- The entry has 26 bytes for the name, and the copy goes on into the two of `i_mode`.
    have hbyte : ∀ k, 26 ≤ k → k < 40 →
        newSector s₁ 32 place name 40 (SIZEOF_DENTRY_DISK * place.slot + k) = 0x61 := by
      intro k hlo hhi
      rw [← hchar k hhi, newSector, ← hlen]
      exact writeSlot_long hnul hlo (by omega)
    have hfield : load16 (newSector s₁ 32 place name 40) (SIZEOF_DENTRY_DISK * place.slot + 26)
        = FT_NORMAL % 2 ^ 16 := by
      have hslot := hundamaged.slot.iMode
      rw [hs₁] at hslot
      rw [hs₁, ← hmode]
      exact hslot
    rw [load16, loadLE, loadLE, loadLE, hbyte 26 (by decide) (by decide),
      show SIZEOF_DENTRY_DISK * place.slot + 26 + 1 = SIZEOF_DENTRY_DISK * place.slot + 27 from rfl,
      hbyte 27 (by decide) (by decide)] at hfield
    revert hfield
    decide

end Fizzos.Proofs
