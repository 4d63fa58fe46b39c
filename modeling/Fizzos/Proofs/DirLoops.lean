import Fizzos.Proofs.Create

/-!
# `Fizzos.Proofs.DirLoops`: the loops of `dir_write`

The loops go over the numbers of the directory's sectors, pass over the sectors that are full, and
stop at a free entry or at a zero. So a call of `findPlace` comes to a sector with room
(`findPlace_direct`, `findPlace_indexed`), to a new direct sector (`findPlace_new`), or to the first
sector of a new index block (`findPlace_newIndex`). For a new index block they go over the words
that the caller's buffer had there (`indexWords`).

`Allocs` says which blocks `block_bimap_alloc` returns. A call needs them, and needs no others.
-/

set_option autoImplicit false

namespace Fizzos.Proofs

open Fizzos.Device
open Fizzos.Fs
open Fizzos.Kernel
open Fizzos.Lib
open Fizzos.LibKernel
open Fizzos.Support

/-- The second half of a buffer, as the numbers of an index block. -/
def indexWords (buf : Bytes) : List Nat :=
  (List.range (SECTOR_SIZE / 4)).map fun t => load32 buf (SECTOR_SIZE + 4 * t)

/-- The numbers in the inode of a directory, without the index block. -/
def directNumbers (p : Inode) : List Nat := (List.range 12).map p.iSectors

/-- The numbers that the loops of `dir_write` go over. -/
def loopNumbers (disk : Disk) (p : Inode) (buf : Bytes) : List Nat :=
  directNumbers p ++ if p.iSectors 12 = 0 then indexWords buf else sectorsAt disk p 12

/-- The sectors that the loops read as entries. They stop at a zero and at a sector with a free
entry. -/
def entryReads (disk : Disk) : List Nat → List Nat
  | [] => []
  | lba :: rest =>
      if lba = 0 then []
      else if (freeSlot (disk lba)).isSome then [lba]
      else lba :: entryReads disk rest

/-- The sectors of a directory are on the disk, and so is its index block. -/
structure SectorsOnDisk (disk : Disk) (p : Inode) : Prop where
  sectors : ∀ l ∈ ownSectors disk p, l ≤ MAX_LBA
  index : p.iSectors 12 ≤ MAX_LBA

/-- `block_bimap_alloc` returns these blocks when it is called again and again, and they are on the
disk. -/
def Allocs (sb : SuperBlock) (current : Tid) : List Nat → Bitmap → Prop
  | [], _ => True
  | lba :: rest, B => lba ≤ MAX_LBA ∧ ∃ B',
      (∀ D, ∃ D', blockBimapAlloc D sb B current = .ok (lba, D', B')) ∧ Allocs sb current rest B'

/-! ### Lists of numbers -/

section
variable {disk disk' : Disk} {p : Inode} {lba : Nat}

/-- Whether a sector has room depends on the sector only. -/
theorem hasRoom_congr (h : disk' lba = disk lba) : hasRoom disk' lba = hasRoom disk lba := by
  rw [hasRoom, h, hasRoom]

/-- A sector without room is in use, and so are all of its slots. -/
theorem hasRoom_eq_false : hasRoom disk lba = false ↔ lba ≠ 0 ∧ freeSlot (disk lba) = none := by
  simp [hasRoom]

/-- The sectors of a directory are the numbers that are not zero. -/
theorem mem_own_iff : lba ∈ ownSectors disk p ↔
    (lba ∈ directNumbers p ∨ lba ∈ sectorsAt disk p 12) ∧ lba ≠ 0 := by
  rw [mem_ownSectors, readSectors_eq, List.mem_append]
  refine and_congr_left fun hne => or_congr_left ?_
  rw [List.mem_flatMap, directNumbers, List.mem_map]
  refine exists_congr fun idx => and_congr_right fun hidx => ?_
  have hlt : idx < 12 := List.mem_range.mp hidx
  rw [sectorsAt]
  split
  next hzero => exact iff_of_false (List.not_mem_nil) fun heq => hne (heq.symm.trans hzero)
  next =>
    rw [if_neg (by omega), List.mem_singleton]
    exact eq_comm

/-- Without an index block there are the direct sectors only. -/
theorem mem_own_direct (hindex : p.iSectors 12 = 0) :
    lba ∈ ownSectors disk p ↔ lba ∈ directNumbers p ∧ lba ≠ 0 := by
  rw [mem_own_iff, sectorsAt, if_pos hindex]
  simp

end

/-! ### The sectors that are read -/

section
variable {disk : Disk} {lbas ws : List Nat} {lba : Nat}

/-- A loop reads all sectors that are full, and then goes on. -/
theorem entryReads_of_full (hfull : ws.find? (hasRoom disk) = none) :
    entryReads disk (ws ++ lbas) = ws ++ entryReads disk lbas := by
  induction ws with
  | nil => rfl
  | cons w ws ih =>
      rw [List.find?_eq_none] at hfull
      have hw : hasRoom disk w = false := by simpa using hfull w List.mem_cons_self
      obtain ⟨hne, hnone⟩ := hasRoom_eq_false.mp hw
      rw [List.cons_append, entryReads, if_neg hne, hnone, if_neg (by simp), ih]
      · rfl
      · exact List.find?_eq_none.mpr fun l hl => hfull l (List.mem_cons_of_mem w hl)

/-- With no room anywhere, it reads them all. -/
theorem entryReads_full (hfull : ws.find? (hasRoom disk) = none) : entryReads disk ws = ws := by
  calc entryReads disk ws = entryReads disk (ws ++ []) := by rw [List.append_nil]
    _ = ws ++ entryReads disk [] := entryReads_of_full hfull
    _ = ws := by rw [entryReads, List.append_nil]

/-- Behind a number that the loops stop at nothing is read. -/
theorem entryReads_of_some (h : ws.find? (hasRoom disk) = some lba) :
    entryReads disk (ws ++ lbas) = entryReads disk ws := by
  induction ws with
  | nil => cases h
  | cons w ws ih =>
      rw [List.cons_append, entryReads, entryReads]
      by_cases hzero : w = 0
      · rw [if_pos hzero, if_pos hzero]
      · rw [if_neg hzero, if_neg hzero]
        cases hslot : freeSlot (disk w) with
        | some slot => rfl
        | none =>
            rw [List.find?_cons, hasRoom_eq_false.mpr ⟨hzero, hslot⟩] at h
            rw [if_neg (by simp), if_neg (by simp), ih h]

/-- It reads sectors of its list, and 0 is not read. -/
theorem mem_entryReads (h : lba ∈ entryReads disk lbas) : lba ∈ lbas ∧ lba ≠ 0 := by
  induction lbas with
  | nil => cases h
  | cons w ws ih =>
      rw [entryReads] at h
      split at h
      next => cases h
      next hne =>
        split at h
        next =>
          obtain rfl := List.mem_singleton.mp h
          exact ⟨List.mem_cons_self, hne⟩
        next =>
          rcases List.mem_cons.mp h with rfl | hrest
          · exact ⟨List.mem_cons_self, hne⟩
          · exact ⟨List.mem_cons_of_mem w (ih hrest).1, (ih hrest).2⟩

/-- What a loop reads, it reads when there are more sectors behind. -/
theorem mem_entryReads_append (h : lba ∈ entryReads disk ws) : lba ∈ entryReads disk
    (ws ++ lbas) := by
  cases hfind : ws.find? (hasRoom disk) with
  | some l =>
      rw [entryReads_of_some hfind]
      exact h
  | none =>
      rw [entryReads_of_full hfind]
      exact List.mem_append_left _ (mem_entryReads h).1

/-- One more number for the loops. -/
theorem entryReads_cons_le (hlba : lba ≠ 0 → lba ≤ MAX_LBA)
    (hrest : lba ≠ 0 → freeSlot (disk lba) = none → ∀ l ∈ entryReads disk lbas, l ≤ MAX_LBA) :
    ∀ l ∈ entryReads disk (lba :: lbas), l ≤ MAX_LBA := by
  intro l hl
  rw [entryReads] at hl
  split at hl
  next => cases hl
  next hne =>
    cases hslot : freeSlot (disk lba) with
    | some slot =>
        rw [hslot, Option.isSome_some, if_pos rfl] at hl
        exact List.mem_singleton.mp hl ▸ hlba hne
    | none =>
        rw [hslot, Option.isSome_none, if_neg Bool.false_ne_true] at hl
        exact (List.forall_mem_cons (p := (· ≤ MAX_LBA))).mpr ⟨hlba hne, hrest hne hslot⟩ l hl

/-- The loops read the sectors in front of the one that they stop at, and this one. -/
theorem le_of_reads {f : Nat → Nat} {pre post : List Nat} {i : Nat}
    (hfull : ∀ j ∈ pre, hasRoom disk (f j) = false)
    (hreads : ∀ l ∈ entryReads disk ((pre ++ i :: post).map f), l ≤ MAX_LBA) :
    (∀ j ∈ pre, f j ≤ MAX_LBA) ∧ (f i ≠ 0 → f i ≤ MAX_LBA) := by
  have hnone : (pre.map f).find? (hasRoom disk) = none := by
    rw [List.find?_eq_none]
    intro l hl
    obtain ⟨j, hj, rfl⟩ := List.mem_map.mp hl
    simp [hfull j hj]
  rw [List.map_append, entryReads_of_full hnone] at hreads
  refine ⟨fun j hj => hreads _ (List.mem_append_left _ (List.mem_map_of_mem hj)), fun hne => ?_⟩
  refine hreads _ (List.mem_append_right _ ?_)
  rw [List.map_cons, entryReads, if_neg hne]
  split
  next => exact List.mem_singleton_self _
  next => exact List.mem_cons_self

end

/-! ### The loops -/

section
variable {sb : SuperBlock} {current : Tid} {c c₁ : DirCursor} {idx times lba slot : Nat}
  {pre blocks : List Nat}

/-- The next block that the allocator gives out. -/
theorem allocBlock_of_allocs (h : Allocs sb current (lba :: blocks) c.blockBitmap) :
    ∃ c₁, c.allocBlock sb current = .ok (lba, c₁) ∧ Allocs sb current blocks c₁.blockBitmap := by
  obtain ⟨-, B', hall, hrest⟩ := h
  obtain ⟨D', halloc⟩ := hall c.disk
  refine ⟨{ c with disk := D', blockBitmap := B' }, ?_, hrest⟩
  rw [DirCursor.allocBlock, halloc]
  rfl

/-- What is on the disk makes no difference to the block. -/
theorem allocs_of_allocBlock (hok : c.allocBlock sb current = .ok (lba, c₁)) (hlba : lba ≤ MAX_LBA)
    (hrest : Allocs sb current blocks c₁.blockBitmap) :
    Allocs sb current (lba :: blocks) c.blockBitmap := by
  simp only [DirCursor.allocBlock, blockBimapAlloc, blockBitmapSync, bitmapWriteBack, bind_eq_ok,
    pure_eq_ok] at hok
  obtain ⟨_, ⟨⟨idx, b₁⟩, hscan, _, ⟨u, hassert, b₂, hacquire, b₃, hrelease, hwrite⟩,
    halloc⟩, hres⟩ :=
    hok
  cases hwrite
  cases halloc
  cases hres
  refine ⟨hlba, b₃, fun D => ⟨ideWrite D (sb.blockBitmapLba + idx / BITS_PER_SECTOR) b₂.bytes
    ((idx - idx % BITS_PER_SECTOR) / 8) 1, ?_⟩, hrest⟩
  rw [blockBimapAlloc, hscan]
  simp only [ok_bind, blockBitmapSync, bitmapWriteBack]
  rw [hassert]
  simp only [ok_bind]
  rw [hacquire]
  simp only [ok_bind]
  rw [hrelease]
  rfl

/-- A block that has been given out is in use. -/
theorem allocBlock_used (hfit : BitsFit sb c.blockBitmap)
    (hok : c.allocBlock sb current = .ok (lba, c₁)) : Used sb c₁.blockBitmap lba := by
  simp only [DirCursor.allocBlock, bind_eq_ok, pure_eq_ok] at hok
  obtain ⟨⟨lba', disk, blockBitmap⟩, halloc, hres⟩ := hok
  cases hres
  exact (blockBimapAlloc_free hfit halloc).2.1

/-- A loop that returns has read sectors of the disk only. -/
theorem findDirect_reads {idxs : List Nat} {r : Option DirPlace × DirCursor}
    (hok : findDirect sb current idxs c = .ok r) :
    ∀ l ∈ entryReads c.disk (idxs.map c.dir.iSectors), l ≤ MAX_LBA := by
  induction idxs generalizing c with
  | nil =>
      intro l hl
      cases hl
  | cons idx rest ih =>
      refine entryReads_cons_le (fun hne => findDirect_lba hne hok) fun hne hslot => ?_
      rw [findDirect_read sb current rest hne (findDirect_lba hne hok), hslot] at hok
      exact ih (c := c.load (c.dir.iSectors idx)) hok

/-- The loop goes on behind full sectors. -/
theorem findDirect_skip (sb : SuperBlock) (current : Tid) (rest : List Nat)
    (hfull : ∀ idx ∈ pre, hasRoom c.disk (c.dir.iSectors idx) = false)
    (hdisk : ∀ idx ∈ pre, c.dir.iSectors idx ≤ MAX_LBA) :
    ∃ c', Scanned c c' ∧
      findDirect sb current (pre ++ rest) c = findDirect sb current rest c' := by
  induction pre generalizing c with
  | nil => exact ⟨c, Scanned.refl c, rfl⟩
  | cons idx pre ih =>
      obtain ⟨hne, hnone⟩ := hasRoom_eq_false.mp (hfull idx List.mem_cons_self)
      obtain ⟨c', hscanned, heq⟩ := ih (c := c.load (c.dir.iSectors idx))
        (fun i hi => hfull i (List.mem_cons_of_mem idx hi))
        (fun i hi => hdisk i (List.mem_cons_of_mem idx hi))
      refine ⟨c', (Scanned.load c _).trans hscanned, ?_⟩
      rw [List.cons_append, findDirect_read sb current _ hne (hdisk idx List.mem_cons_self), hnone]
      exact heq

/-- A number 0 is not in use: it gets a new block, which is empty. -/
theorem findDirect_zero (rest : List Nat) (hzero : c.dir.iSectors idx = 0)
    (halloc : c.allocBlock sb current = .ok (lba, c₁)) :
    ∃ c', findDirect sb current (idx :: rest) c
      = .ok (some { cursor := (c₁.setSector idx lba).clear, lba, slot := 0, isSecond := false },
        c') := by
  rw [findDirect, if_pos hzero, halloc]
  simp only [ok_bind, pure_eq_ok, freeSlot_clear]
  exact ⟨_, rfl⟩

/-- At a zero the loop needs a block. -/
theorem findDirect_alloc {rest : List Nat} {r : Option DirPlace × DirCursor}
    (hzero : c.dir.iSectors idx = 0) (hok : findDirect sb current (idx :: rest) c = .ok r) :
    ∃ lba c₁, c.allocBlock sb current = .ok (lba, c₁) := by
  rw [findDirect, if_pos hzero] at hok
  simp only [bind_eq_ok, pure_eq_ok] at hok
  obtain ⟨⟨lba, c₁⟩, halloc, -⟩ := hok
  exact ⟨lba, c₁, halloc⟩

/-- A sector with a free slot is the place. -/
theorem findDirect_room (sb : SuperBlock) (current : Tid) (rest : List Nat)
    (hne : c.dir.iSectors idx ≠ 0) (hlba : c.dir.iSectors idx ≤ MAX_LBA)
    (hslot : freeSlot (c.disk (c.dir.iSectors idx)) = some slot) :
    ∃ c', findDirect sb current (idx :: rest) c
      = .ok (some { cursor := c.load (c.dir.iSectors idx), lba := c.dir.iSectors idx, slot,
                    isSecond := false }, c') := by
  rw [findDirect_read sb current rest hne hlba, hslot]
  exact ⟨_, rfl⟩

/-- A scan overwrites the first half of the buffer, and the index words are in the second. -/
theorem Scanned.indexWord {c' : DirCursor} (h : Scanned c c') (t : Nat) :
    indexWord c'.buf t = indexWord c.buf t :=
  loadLE_congr fun k hlo _ => h.index k (by omega)

/-- So all of them stay. -/
theorem Scanned.indexWords {c' : DirCursor} (h : Scanned c c') :
    indexWords c'.buf = indexWords c.buf :=
  List.map_congr_left fun t _ => h.indexWord t

/-- A loop that returns has read sectors of the disk only. -/
theorem findIndexed_reads {isSecond : Bool} {idxs : List Nat} {r : Option DirPlace}
    (hok : findIndexed sb isSecond current idxs c = .ok r) :
    ∀ l ∈ entryReads c.disk (idxs.map (indexWord c.buf)), l ≤ MAX_LBA := by
  induction idxs generalizing c with
  | nil =>
      intro l hl
      cases hl
  | cons t rest ih =>
      refine entryReads_cons_le (fun hne => findIndexed_lba hne hok) fun hne hslot => ?_
      rw [findIndexed_read sb isSecond current rest hne (findIndexed_lba hne hok), hslot] at hok
      have hwords : rest.map (indexWord (c.load (indexWord c.buf t)).buf)
          = rest.map (indexWord c.buf) :=
        List.map_congr_left fun j _ => (Scanned.load c _).indexWord j
      rw [← hwords]
      exact ih (c := c.load (indexWord c.buf t)) hok

/-- The loop goes on behind sectors without room. -/
theorem findIndexed_skip (sb : SuperBlock) (isSecond : Bool) (current : Tid) (rest : List Nat)
    (hfull : ∀ t ∈ pre, hasRoom c.disk (indexWord c.buf t) = false)
    (hdisk : ∀ t ∈ pre, indexWord c.buf t ≤ MAX_LBA) :
    ∃ c', Scanned c c' ∧
      findIndexed sb isSecond current (pre ++ rest) c
        = findIndexed sb isSecond current rest c' := by
  induction pre generalizing c with
  | nil => exact ⟨c, Scanned.refl c, rfl⟩
  | cons t pre ih =>
      obtain ⟨hne, hnone⟩ := hasRoom_eq_false.mp (hfull t List.mem_cons_self)
      have hload := Scanned.load c (indexWord c.buf t)
      obtain ⟨c', hscanned, heq⟩ := ih (c := c.load (indexWord c.buf t))
        (fun i hi => by
          rw [hload.indexWord]
          exact hfull i (List.mem_cons_of_mem t hi))
        (fun i hi => by
          rw [hload.indexWord]
          exact hdisk i (List.mem_cons_of_mem t hi))
      refine ⟨c', hload.trans hscanned, ?_⟩
      rw [List.cons_append,
        findIndexed_read sb isSecond current _ hne (hdisk t List.mem_cons_self), hnone]
      exact heq

/-- A word 0 gets a new block, and the block is empty. -/
theorem findIndexed_zero (isSecond : Bool) (rest : List Nat) (hzero : indexWord c.buf times = 0)
    (halloc : c.allocBlock sb current = .ok (lba, c₁)) :
    findIndexed sb isSecond current (times :: rest) c
      = .ok (some
          { cursor := DirCursor.clear
              { c₁ with buf := storeLE 4 c₁.buf (SECTOR_SIZE + 4 * times) lba }
            lba, slot := 0, isSecond }) := by
  rw [findIndexed, if_pos hzero, halloc]
  simp only [ok_bind, pure_eq_ok, freeSlot_clear]

/-- To return there, the loop has to get a block. -/
theorem findIndexed_alloc {isSecond : Bool} {rest : List Nat} {r : Option DirPlace}
    (hzero : indexWord c.buf times = 0)
    (hok : findIndexed sb isSecond current (times :: rest) c = .ok r) :
    ∃ lba c₁, c.allocBlock sb current = .ok (lba, c₁) := by
  rw [findIndexed, if_pos hzero] at hok
  simp only [bind_eq_ok, pure_eq_ok] at hok
  obtain ⟨⟨lba, c₁⟩, halloc, -⟩ := hok
  exact ⟨lba, c₁, halloc⟩

/-- A sector with a free slot is the place. -/
theorem findIndexed_room (sb : SuperBlock) (isSecond : Bool) (current : Tid) (rest : List Nat)
    (hne : indexWord c.buf times ≠ 0) (hlba : indexWord c.buf times ≤ MAX_LBA)
    (hslot : freeSlot (c.disk (indexWord c.buf times)) = some slot) :
    findIndexed sb isSecond current (times :: rest) c
      = .ok (some
          { cursor := c.load (indexWord c.buf times), lba := indexWord c.buf times, slot,
            isSecond }) := by
  rw [findIndexed_read sb isSecond current rest hne hlba, hslot]

end

/-! ### Places that last -/

/-- A place in a sector that the directory has, or in a new direct sector. -/
inductive Lasting (sb : SuperBlock) (c : DirCursor) (place : DirPlace) : Prop
  | old (hsecond : place.isSecond = false) (hdir : place.cursor.dir = c.dir)
      (hown : place.lba ∈ ownSectors c.disk c.dir)
      (hbuf : ∀ k < SECTOR_SIZE, place.cursor.buf k = c.disk place.lba k)
  | direct (hsecond : place.isSecond = false) (idx : Nat) (hidx : idx < 12)
      (hzero : c.dir.iSectors idx = 0) (hfree : FreeBlock sb c.blockBitmap place.lba)
      (hdir : place.cursor.dir.iSectors = Function.update c.dir.iSectors idx place.lba)

/-- A place in the first sector that a new index block names. The block is `block`, and has the
words of the buffer. -/
structure NewIndex (sb : SuperBlock) (c : DirCursor) (place : DirPlace) (block : Nat)
    (ws zs : List Nat) : Prop where
  second : place.isSecond = true
  slot : place.slot = 0
  index : FreeBlock sb c.blockBitmap block
  used : Used sb place.cursor.blockBitmap block
  free : FreeBlock sb c.blockBitmap place.lba
  ne : place.lba ≠ block
  dir : place.cursor.dir.iSectors = Function.update c.dir.iSectors 12 block
  words : indexWords place.cursor.buf = ws ++ place.lba :: zs

/-- What the loops do on their way. The sectors that `dir_write` will write are on the disk. -/
structure OnTheWay (sb : SuperBlock) (c : DirCursor) (place : DirPlace) : Prop where
  onDisk : place.lba ≤ MAX_LBA
  second : place.isSecond = true → place.cursor.dir.iSectors 12 ≤ MAX_LBA
  slot : freeSlot place.cursor.buf = some place.slot
  grown : Grown c.blockBitmap place.cursor.blockBitmap
  frame : ∀ l, ¬InBitmap sb l → place.cursor.disk l = c.disk l
  used : Used sb place.cursor.blockBitmap place.lba

section
variable {sb : SuperBlock} {current : Tid} {c c₁ c₂ : DirCursor} {place : DirPlace}
  {lba block : Nat} {rest ws zs : List Nat}

/-- The first number of a list that a test picks. -/
theorem exists_split {f : Nat → Nat} {q : Nat → Bool} {xs : List Nat}
    (h : (xs.map f).find? q = some lba) :
    ∃ pre i post, xs = pre ++ i :: post ∧ f i = lba ∧ q lba = true ∧
      ∀ j ∈ pre, q (f j) = false := by
  obtain ⟨hq, as, bs, hsplit, hnone⟩ := List.find?_eq_some_iff_append.mp h
  obtain ⟨pre, tail, rfl, rfl, htail⟩ := List.map_eq_append_iff.mp hsplit
  obtain ⟨i, post, rfl, hi, -⟩ := List.map_eq_cons_iff.mp htail
  refine ⟨pre, i, post, rfl, hi, hq, fun j hj => ?_⟩
  simpa using hnone (f j) (List.mem_map_of_mem hj)

/-- A sector in use that has room has a first free slot. -/
theorem exists_freeSlot (hroom : hasRoom c.disk lba = true) (hne : lba ≠ 0) :
    ∃ slot, freeSlot (c.disk lba) = some slot := by
  rw [hasRoom, decide_eq_false hne, Bool.false_or] at hroom
  exact Option.isSome_iff_exists.mp hroom

/-- The loops stop at a sector that they have read. -/
theorem lasting_room {c' : DirCursor} {slot : Nat} (hdisk : c'.disk = c.disk)
    (hbitmap : c'.blockBitmap = c.blockBitmap) (hdir : c'.dir = c.dir)
    (hslot : freeSlot (c.disk lba) = some slot) (hmem : lba ∈ ownSectors c.disk c.dir)
    (hused : Used sb c.blockBitmap lba) (hlba : lba ≤ MAX_LBA) :
    Lasting sb c ⟨c'.load lba, lba, slot, false⟩ ∧
      OnTheWay sb c ⟨c'.load lba, lba, slot, false⟩ := by
  constructor
  · refine .old rfl hdir hmem fun k hk => ?_
    rw [← hdisk]
    exact ideRead_one (Nat.zero_le k) (by omega)
  · exact
      { onDisk := hlba
        second := fun htrue => by cases htrue
        slot := (freeSlot_load c').trans (hdisk ▸ hslot)
        grown := by
          show Grown c.blockBitmap c'.blockBitmap
          rw [hbitmap]
          exact Grown.refl _
        frame := fun l _ => congrFun hdisk l
        used := by
          show Used sb c'.blockBitmap lba
          rwa [hbitmap] }

/-- Behind twelve full sectors. -/
theorem findDirect_full (sb : SuperBlock) (current : Tid)
    (hreads : ∀ l ∈ entryReads c.disk (directNumbers c.dir), l ≤ MAX_LBA)
    (hfull : (directNumbers c.dir).find? (hasRoom c.disk) = none) :
    ∃ c', Scanned c c' ∧ findDirect sb current (List.range 12) c = .ok (none, c') := by
  have hall : ∀ idx ∈ List.range 12, hasRoom c.disk (c.dir.iSectors idx) = false :=
    fun idx hidx => by
    simpa using List.find?_eq_none.mp hfull _ (List.mem_map_of_mem hidx)
  have hsame := entryReads_full hfull
  have hdisk : ∀ idx ∈ List.range 12, c.dir.iSectors idx ≤ MAX_LBA := fun idx hidx => by
    refine hreads _ ?_
    rw [hsame]
    exact List.mem_map_of_mem hidx
  obtain ⟨c', hscanned, hskip⟩ := findDirect_skip sb current [] hall hdisk
  rw [List.append_nil] at hskip
  exact ⟨c', hscanned, hskip⟩

/-- The loop over the direct sectors comes first. -/
theorem findPlace_directReads (hok : findPlace sb c current = .ok place) :
    ∀ l ∈ entryReads c.disk (directNumbers c.dir), l ≤ MAX_LBA := by
  obtain ⟨r, hdirect, -⟩ := bind_eq_ok.mp hok
  exact findDirect_reads hdirect

/-- A direct sector with room. -/
theorem findPlace_direct (hown : ∀ l ∈ ownSectors c.disk c.dir, Used sb c.blockBitmap l)
    (hreads : ∀ l ∈ entryReads c.disk (directNumbers c.dir), l ≤ MAX_LBA)
    (hfind : (directNumbers c.dir).find? (hasRoom c.disk) = some lba) (hne : lba ≠ 0) :
    ∃ place, findPlace sb c current = .ok place ∧ Lasting sb c place ∧ OnTheWay sb c place := by
  obtain ⟨pre, idx, post, hsplit, hidx, hroom, hfull⟩ := exists_split hfind
  rw [directNumbers, hsplit] at hreads
  obtain ⟨hpre, hlba⟩ := le_of_reads hfull hreads
  rw [hidx] at hlba
  obtain ⟨c', hscanned, hskip⟩ := findDirect_skip sb current (idx :: post) hfull hpre
  have hidx' : c'.dir.iSectors idx = lba := by rw [hscanned.dir, hidx]
  obtain ⟨slot, hslot⟩ := exists_freeSlot hroom hne
  have hmem : lba ∈ ownSectors c.disk c.dir :=
    mem_own_iff.mpr ⟨.inl (List.mem_of_find?_eq_some hfind), hne⟩
  have hslot' : freeSlot (c'.disk (c'.dir.iSectors idx)) = some slot := by
    rw [hidx', hscanned.disk, hslot]
  obtain ⟨c₂, hfound⟩ :=
    findDirect_room sb current post (hidx'.symm ▸ hne) (hidx'.symm ▸ hlba hne) hslot'
  rw [hidx'] at hfound
  refine ⟨⟨c'.load lba, lba, slot, false⟩, ?_,
    lasting_room hscanned.disk hscanned.blockBitmap hscanned.dir hslot hmem (hown lba hmem)
      (hlba hne)⟩
  rw [findPlace, hsplit, hskip, hfound]
  rfl

/-- A sector of an index block that the disk has. -/
theorem findPlace_indexed (hown : ∀ l ∈ ownSectors c.disk c.dir, Used sb c.blockBitmap l)
    (hreads : ∀ l ∈ entryReads c.disk (directNumbers c.dir ++ sectorsAt c.disk c.dir 12),
    l ≤ MAX_LBA) (hblock : c.dir.iSectors 12 ≤ MAX_LBA)
    (hdirect : (directNumbers c.dir).find? (hasRoom c.disk) = none)
    (hfind : (sectorsAt c.disk c.dir 12).find? (hasRoom c.disk) = some lba) (hne : lba ≠ 0) :
    ∃ place, findPlace sb c current = .ok place ∧ Lasting sb c place ∧ OnTheWay sb c place := by
  rw [entryReads_of_full hdirect] at hreads
  have hdirectReads : ∀ l ∈ entryReads c.disk (directNumbers c.dir), l ≤ MAX_LBA := fun l hl =>
    hreads l (List.mem_append_left _ (mem_entryReads hl).1)
  obtain ⟨c₁, hscanned, hskip⟩ := findDirect_full sb current hdirectReads hdirect
  have hmem : lba ∈ ownSectors c.disk c.dir :=
    mem_own_iff.mpr ⟨.inr (List.mem_of_find?_eq_some hfind), hne⟩
  have hindex : c.dir.iSectors 12 ≠ 0 := by
    intro hzero
    rw [sectorsAt, if_pos hzero] at hfind
    cases hfind
  rw [sectorsAt, if_neg hindex, if_pos rfl] at hfind hreads
  obtain ⟨pre, t, post, hsplit, ht, hroom, hfull⟩ := exists_split hfind
  obtain ⟨hpre, hlba⟩ := le_of_reads hfull fun l hl =>
    hreads l (List.mem_append_right _ (hsplit ▸ hl))
  rw [ht] at hlba
  obtain ⟨slot, hslot⟩ := exists_freeSlot hroom hne
  have hlt : ∀ j ∈ pre ++ t :: post, j < SECTOR_SIZE / 4 := fun j hj => by
    rw [← hsplit] at hj
    exact List.mem_range.mp hj
  -- the index block in the second half of the buffer
  obtain ⟨c₂, hc₂⟩ : ∃ c₂, c₂ = { c₁ with
      buf := ideRead c₁.disk (c₁.dir.iSectors 12) c₁.buf SECTOR_SIZE 1 } := ⟨_, rfl⟩
  have hdisk₂ : c₂.disk = c.disk := hc₂ ▸ hscanned.disk
  have hword : ∀ j < SECTOR_SIZE / 4,
      indexWord c₂.buf j = load32 (c.disk (c.dir.iSectors 12)) (4 * j) := by
    intro j hj
    rw [hc₂, ← hscanned.disk, ← hscanned.dir]
    exact load32_index hj
  obtain ⟨c₃, hscanned₃, hskip₃⟩ := findIndexed_skip sb false current (t :: post) (c := c₂)
    (fun j hj => by
      rw [hword j (hlt j (List.mem_append_left _ hj)), hdisk₂]
      exact hfull j hj)
    (fun j hj => by
      rw [hword j (hlt j (List.mem_append_left _ hj))]
      exact hpre j hj)
  have hword₃ : indexWord c₃.buf t = lba := by
    rw [hscanned₃.indexWord, hword t (hlt t (List.mem_append_right _ List.mem_cons_self)), ht]
  have hdisk₃ : c₃.disk = c.disk := hscanned₃.disk.trans hdisk₂
  have hfound := findIndexed_room sb false current post (c := c₃) (hword₃.symm ▸ hne)
    (hword₃.symm ▸ hlba hne) (by rw [hword₃, hdisk₃, hslot])
  rw [hword₃] at hfound
  have hdir : c₃.dir = c.dir := by
    rw [hscanned₃.dir, hc₂]
    exact hscanned.dir
  have hbitmap : c₃.blockBitmap = c.blockBitmap := by
    rw [hscanned₃.blockBitmap, hc₂]
    exact hscanned.blockBitmap
  refine ⟨⟨c₃.load lba, lba, slot, false⟩, ?_,
    lasting_room hdisk₃ hbitmap hdir hslot hmem (hown lba hmem) (hlba hne)⟩
  rw [findPlace, hskip]
  simp only [ok_bind]
  rw [if_neg (by rwa [hscanned.dir]), readCheck_le (by rwa [hscanned.dir]), ok_bind, pure_eq_ok,
    ok_bind]
  dsimp only
  rw [← hc₂, hsplit, hskip₃, hfound]
  rfl

/-- A new direct sector. -/
theorem findPlace_new (hfit : BitsFit sb c.blockBitmap)
    (halloc : Allocs sb current (lba :: rest) c.blockBitmap)
    (hreads : ∀ l ∈ entryReads c.disk (directNumbers c.dir), l ≤ MAX_LBA)
    (hfind : (directNumbers c.dir).find? (hasRoom c.disk) = some 0) :
    ∃ place, findPlace sb c current = .ok place ∧ Lasting sb c place ∧ OnTheWay sb c place ∧
      Allocs sb current rest place.cursor.blockBitmap := by
  obtain ⟨pre, idx, post, hsplit, hidx, -, hfull⟩ := exists_split hfind
  have hlt : idx < 12 := by
    rw [← List.mem_range, hsplit]
    exact List.mem_append_right _ List.mem_cons_self
  rw [directNumbers, hsplit] at hreads
  obtain ⟨c', hscanned, hskip⟩ :=
    findDirect_skip sb current (idx :: post) hfull (le_of_reads hfull hreads).1
  have hzero' : c'.dir.iSectors idx = 0 := by rw [hscanned.dir, hidx]
  obtain ⟨c₁, hnew, hrest⟩ := allocBlock_of_allocs (hscanned.blockBitmap.symm ▸ halloc)
  have hfit' : BitsFit sb c'.blockBitmap := hscanned.blockBitmap.symm ▸ hfit
  obtain ⟨hfree, hgrown, hframe, hdir, -⟩ := allocBlock_free hfit' hnew
  have hused := allocBlock_used hfit' hnew
  obtain ⟨c₂, hfound⟩ := findDirect_zero post hzero' hnew
  rw [hscanned.blockBitmap] at hfree hgrown
  refine ⟨⟨(c₁.setSector idx lba).clear, lba, 0, false⟩, ?_, .direct rfl idx hlt hidx hfree ?_,
    ⟨halloc.1, (fun htrue => by cases htrue), freeSlot_clear _, hgrown,
      fun l hl => (hframe l hl).trans (by rw [hscanned.disk]), hused⟩, hrest⟩
  · rw [findPlace, hsplit, hskip, hfound]
    rfl
  · show Function.update c₁.dir.iSectors idx lba = _
    rw [hdir, hscanned.dir]

/-- A new direct sector takes a block. -/
theorem allocs_of_new (hfind : (directNumbers c.dir).find? (hasRoom c.disk) = some 0)
    (hok : findPlace sb c current = .ok place) (hlba : place.lba ≤ MAX_LBA)
    (hrest : Allocs sb current rest place.cursor.blockBitmap) :
    Allocs sb current (place.lba :: rest) c.blockBitmap := by
  have hreads := findPlace_directReads hok
  obtain ⟨pre, idx, post, hsplit, hidx, -, hfull⟩ := exists_split hfind
  rw [directNumbers, hsplit] at hreads
  obtain ⟨c', hscanned, hskip⟩ :=
    findDirect_skip sb current (idx :: post) hfull (le_of_reads hfull hreads).1
  have hzero' : c'.dir.iSectors idx = 0 := by rw [hscanned.dir, hidx]
  rw [findPlace, hsplit, hskip, bind_eq_ok] at hok
  obtain ⟨⟨r, c₂⟩, hdirect, hok⟩ := hok
  obtain ⟨lba, c₁, hnew⟩ := findDirect_alloc hzero' hdirect
  obtain ⟨c₃, hfound⟩ := findDirect_zero post hzero' hnew
  rw [hfound] at hdirect
  cases hdirect
  cases hok
  rw [← hscanned.blockBitmap]
  exact allocs_of_allocBlock hnew hlba hrest

/-- Behind a new index block: the words of the buffer up to the first zero are passed over. -/
theorem newIndex_skip (sb : SuperBlock) (current : Tid) {D : Disk} {own : List Nat}
    (hdisk : ∀ w ∈ own, c.disk w = D w) (hfull : ∀ w ∈ own, hasRoom D w = false)
    (hsplit : indexWords c.buf = ws ++ 0 :: zs) (hws : ∀ w ∈ ws, w ∈ own ∧ w ≤ MAX_LBA) :
    ∃ pre t post c', List.range (SECTOR_SIZE / 4) = pre ++ t :: post ∧ Scanned c c' ∧
      pre.map (indexWord c.buf) = ws ∧ indexWord c.buf t = 0 ∧ post.map (indexWord c.buf) = zs ∧
      findIndexed sb true current (List.range (SECTOR_SIZE / 4)) c
        = findIndexed sb true current (t :: post) c' := by
  obtain ⟨pre, tail, hrange, hpre, htail⟩ := List.map_eq_append_iff.mp hsplit
  obtain ⟨t, post, rfl, ht, hpost⟩ := List.map_eq_cons_iff.mp htail
  have hmem : ∀ j ∈ pre, indexWord c.buf j ∈ own ∧ indexWord c.buf j ≤ MAX_LBA := by
    intro j hj
    refine hws _ ?_
    rw [← hpre]
    exact List.mem_map_of_mem hj
  have hskip : ∀ j ∈ pre, hasRoom c.disk (indexWord c.buf j) = false := by
    intro j hj
    rw [hasRoom_congr (hdisk _ (hmem j hj).1)]
    exact hfull _ (hmem j hj).1
  obtain ⟨c', hscanned, heq⟩ :=
    findIndexed_skip sb true current (t :: post) hskip fun j hj => (hmem j hj).2
  rw [← hrange] at heq
  exact ⟨pre, t, post, c', hrange, hscanned, hpre, ht, hpost, heq⟩

/-- The block of the new sector goes to the index block in the buffer. -/
theorem indexWords_store {buf : Bytes} {pre post : List Nat} {t : Nat}
    (hrange : List.range (SECTOR_SIZE / 4) = pre ++ t :: post) (hlba : lba < 2 ^ 32) :
    indexWords (memsetZero (storeLE 4 buf (SECTOR_SIZE + 4 * t) lba) 0 SECTOR_SIZE)
      = pre.map (indexWord buf) ++ lba :: post.map (indexWord buf) := by
  have hnodup : (pre ++ t :: post).Nodup := by
    rw [← hrange]
    exact List.nodup_range
  obtain ⟨-, hcons, hapart⟩ := List.nodup_append.mp hnodup
  have hnot : t ∉ post := (List.nodup_cons.mp hcons).1
  -- the half that is cleared is the other one
  have hclear : ∀ j, indexWord
      (memsetZero (storeLE 4 buf (SECTOR_SIZE + 4 * t) lba) 0 SECTOR_SIZE) j
      = indexWord (storeLE 4 buf (SECTOR_SIZE + 4 * t) lba) j := fun j =>
    loadLE_congr fun k hlo _ => if_neg (by omega)
  have hother : ∀ j, j ≠ t →
      indexWord (storeLE 4 buf (SECTOR_SIZE + 4 * t) lba) j = indexWord buf j :=
    fun j hj => loadLE_storeLE_of_ne (by omega)
  rw [indexWords, hrange, List.map_append, List.map_cons]
  refine congrArg₂ _ (List.map_congr_left fun j hj => ?_)
    (congrArg₂ _ ?_ (List.map_congr_left fun j hj => ?_))
  · exact (hclear j).trans (hother j fun heq => hapart j hj t List.mem_cons_self heq)
  · exact (hclear t).trans (loadLE_storeLE hlba)
  · exact (hclear j).trans (hother j fun heq => hnot (heq ▸ hj))

/-- Where the loop over a new index block starts. -/
theorem newIndex_start (hscanned : Scanned c c₁) (hfit : BitsFit sb c.blockBitmap)
    (hlayout : sb.blockBitmapLba + sb.blockBitmapSects ≤ sb.dataStartLba)
    (hown : ∀ l ∈ ownSectors c.disk c.dir, Used sb c.blockBitmap l)
    (halloc : c₁.allocBlock sb current = .ok (block, c₂)) :
    indexWords (c₂.setSector 12 block).clear.buf = indexWords c.buf ∧
      ∀ l ∈ ownSectors c.disk c.dir, (c₂.setSector 12 block).clear.disk l = c.disk l := by
  have hfit₁ : BitsFit sb c₁.blockBitmap := hscanned.blockBitmap.symm ▸ hfit
  obtain ⟨-, -, hframe, -, hbuf⟩ := allocBlock_free hfit₁ halloc
  constructor
  · refine List.map_congr_left fun j _ => loadLE_congr fun k hlo _ => ?_
    have hclear : (c₂.setSector 12 block).clear.buf k = c₂.buf k := if_neg (by omega)
    rw [hclear, hbuf, hscanned.index k (by omega)]
  · intro l hl
    rw [← hscanned.disk]
    exact hframe l ((hown l hl).not_inBitmap hlayout)

/-- Without an index block, a directory whose direct sectors are full has no other sectors. -/
theorem own_full (hdirect : (directNumbers c.dir).find? (hasRoom c.disk) = none)
    (hindex : c.dir.iSectors 12 = 0) : ∀ w ∈ ownSectors c.disk c.dir, hasRoom c.disk w = false := by
  intro w hw
  simpa using List.find?_eq_none.mp hdirect w ((mem_own_direct hindex).mp hw).1

/-- A new index block, with the words that the caller's buffer has. -/
theorem findPlace_newIndex (hfit : BitsFit sb c.blockBitmap)
    (hlayout : sb.blockBitmapLba + sb.blockBitmapSects ≤ sb.dataStartLba)
    (hown : ∀ l ∈ ownSectors c.disk c.dir, Used sb c.blockBitmap l)
    (halloc : Allocs sb current (block :: lba :: rest) c.blockBitmap)
    (hreads : ∀ l ∈ entryReads c.disk (directNumbers c.dir), l ≤ MAX_LBA)
    (hdirect : (directNumbers c.dir).find? (hasRoom c.disk) = none)
    (hindex : c.dir.iSectors 12 = 0) (hsplit : indexWords c.buf = ws ++ 0 :: zs)
    (hws : ∀ w ∈ ws, w ∈ ownSectors c.disk c.dir ∧ w ≤ MAX_LBA) :
    ∃ place, findPlace sb c current = .ok place ∧ place.lba = lba ∧
      NewIndex sb c place block ws zs ∧ OnTheWay sb c place ∧
      Allocs sb current rest place.cursor.blockBitmap := by
  obtain ⟨c₁, hscanned, hskip⟩ := findDirect_full sb current hreads hdirect
  have hfit₁ : BitsFit sb c₁.blockBitmap := hscanned.blockBitmap.symm ▸ hfit
  -- the index block
  obtain ⟨c₂, halloc₂, hrest₂⟩ := allocBlock_of_allocs (hscanned.blockBitmap.symm ▸ halloc)
  obtain ⟨hfree₂, hgrown₂, hframe₂, hdir₂, -⟩ := allocBlock_free hfit₁ halloc₂
  have hused₂ := allocBlock_used hfit₁ halloc₂
  rw [hscanned.blockBitmap] at hfree₂ hgrown₂
  obtain ⟨hwords, hdisk⟩ := newIndex_start hscanned hfit hlayout hown halloc₂
  obtain ⟨pre, t, post, c₄, hrange, hscanned₄, hpre, ht, hpost, hskip₄⟩ :=
    newIndex_skip sb current hdisk (own_full hdirect hindex) (hwords.trans hsplit) hws
  have hbitmap₄ : c₄.blockBitmap = c₂.blockBitmap := hscanned₄.blockBitmap
  have hzero₄ : indexWord c₄.buf t = 0 := (hscanned₄.indexWord t).trans ht
  -- the new sector
  obtain ⟨c₅, halloc₅, hrest₅⟩ := allocBlock_of_allocs (hbitmap₄.symm ▸ hrest₂)
  have hfit₄ : BitsFit sb c₄.blockBitmap := hbitmap₄.symm ▸ hgrown₂.bitsFit hfit
  obtain ⟨hfree₅, hgrown₅, hframe₅, hdir₅, hbuf₅⟩ := allocBlock_free hfit₄ halloc₅
  have hused₅ := allocBlock_used hfit₄ halloc₅
  rw [hbitmap₄] at hfree₅ hgrown₅
  have hne : lba ≠ block := fun heq => hfree₅.2 (heq ▸ hused₂)
  obtain ⟨hblock, -, -, hlba, -⟩ := halloc
  have hdir : c₅.dir.iSectors = Function.update c.dir.iSectors 12 block := by
    rw [hdir₅, hscanned₄.dir]
    show Function.update c₂.dir.iSectors 12 block = _
    rw [hdir₂, hscanned.dir]
  refine ⟨⟨DirCursor.clear { c₅ with buf := storeLE 4 c₅.buf (SECTOR_SIZE + 4 * t) lba }, lba, 0,
    true⟩, ?_, rfl, ?_, ⟨hlba, fun _ => ?_, freeSlot_clear _, hgrown₂.trans hgrown₅,
      fun l hl => ?_, hused₅⟩, hrest₅⟩
  · rw [findPlace, hskip]
    simp only [ok_bind]
    rw [if_pos (by rwa [hscanned.dir]), halloc₂]
    simp only [ok_bind, pure_eq_ok]
    rw [hskip₄, findIndexed_zero true post hzero₄ halloc₅]
    rfl
  · refine
      { second := rfl
        slot := rfl
        index := hfree₂
        used := hgrown₅.used hused₂
        free := hgrown₂.free hfree₅
        ne := hne
        dir := hdir
        words := ?_ }
    obtain ⟨-, -, -, hrange₅, -⟩ := hused₅
    refine (indexWords_store hrange hrange₅).trans ?_
    rw [hbuf₅, ← hpre, ← hpost]
    exact congrArg₂ _ (List.map_congr_left fun j _ => hscanned₄.indexWord j)
      (congrArg _ (List.map_congr_left fun j _ => hscanned₄.indexWord j))
  · show c₅.dir.iSectors 12 ≤ MAX_LBA
    rw [hdir, Function.update_self]
    exact hblock
  · refine (hframe₅ l hl).trans ?_
    rw [hscanned₄.disk, ← hscanned.disk]
    exact hframe₂ l hl

/-- Without an index block and with all direct sectors full, the place is one that the loop over a
new index block finds. -/
theorem findPlace_inNewIndex (hdirect : (directNumbers c.dir).find? (hasRoom c.disk) = none)
    (hindex : c.dir.iSectors 12 = 0) (hok : findPlace sb c current = .ok place) :
    ∃ c₁ c₂ block, Scanned c c₁ ∧ c₁.allocBlock sb current = .ok (block, c₂) ∧
      findIndexed sb true current (List.range (SECTOR_SIZE / 4)) (c₂.setSector 12 block).clear
        = .ok (some place) := by
  obtain ⟨c', hscanned, hskip⟩ := findDirect_full sb current (findPlace_directReads hok) hdirect
  cases findPlace_foundBy hok with
  | direct c₁ hfound => cases hskip.symm.trans hfound
  | newIndex c₁ c₂ block hnone hzero halloc hindexed =>
      cases hskip.symm.trans hnone
      exact ⟨_, c₂, block, hscanned, halloc, hindexed⟩
  | oldIndex c₁ hnone hne _ hindexed =>
      cases hskip.symm.trans hnone
      exact absurd (by rwa [hscanned.dir]) hne

/-- The words in front of the zero are of sectors on the disk. -/
theorem newIndex_reads (hfit : BitsFit sb c.blockBitmap)
    (hlayout : sb.blockBitmapLba + sb.blockBitmapSects ≤ sb.dataStartLba)
    (hown : ∀ l ∈ ownSectors c.disk c.dir, Used sb c.blockBitmap l)
    (hdirect : (directNumbers c.dir).find? (hasRoom c.disk) = none)
    (hindex : c.dir.iSectors 12 = 0) (hsplit : indexWords c.buf = ws ++ 0 :: zs)
    (hws : ∀ w ∈ ws, w ∈ ownSectors c.disk c.dir) (hok : findPlace sb c current = .ok place) :
    ∀ w ∈ ws, w ≤ MAX_LBA := by
  obtain ⟨c₁, c₂, block, hscanned, halloc₂, hindexed⟩ := findPlace_inNewIndex hdirect hindex hok
  obtain ⟨hwords, hdisk⟩ := newIndex_start hscanned hfit hlayout hown halloc₂
  have hreads := findIndexed_reads hindexed
  have hfull : ws.find? (hasRoom (c₂.setSector 12 block).clear.disk) = none := by
    rw [List.find?_eq_none]
    intro w hw
    have hmem := hws w hw
    rw [hasRoom_congr (hdisk w hmem), own_full hdirect hindex w hmem]
    exact Bool.false_ne_true
  have hsame : indexWords (c₂.setSector 12 block).clear.buf = ws ++ 0 :: zs := hwords.trans hsplit
  rw [← indexWords, hsame, entryReads_of_full hfull] at hreads
  exact fun w hw => hreads w (List.mem_append_left _ hw)

/-- A new index block takes two blocks. -/
theorem allocs_of_newIndex (hfit : BitsFit sb c.blockBitmap)
    (hlayout : sb.blockBitmapLba + sb.blockBitmapSects ≤ sb.dataStartLba)
    (hown : ∀ l ∈ ownSectors c.disk c.dir, Used sb c.blockBitmap l)
    (hdirect : (directNumbers c.dir).find? (hasRoom c.disk) = none)
    (hindex : c.dir.iSectors 12 = 0) (hsplit : indexWords c.buf = ws ++ 0 :: zs)
    (hws : ∀ w ∈ ws, w ∈ ownSectors c.disk c.dir) (hok : findPlace sb c current = .ok place)
    (hlba : place.lba ≤ MAX_LBA)
    (hsecond : place.isSecond = true → place.cursor.dir.iSectors 12 ≤ MAX_LBA)
    (hrest : Allocs sb current rest place.cursor.blockBitmap) :
    ∃ block, Allocs sb current (block :: place.lba :: rest) c.blockBitmap := by
  have hpast := newIndex_reads hfit hlayout hown hdirect hindex hsplit hws hok
  -- The first block is for the index, and the new index block has no sector in front of `t`.
  obtain ⟨c₁, c₂, block, hscanned, halloc₂, hindexed⟩ := findPlace_inNewIndex hdirect hindex hok
  have hfit₁ : BitsFit sb c₁.blockBitmap := hscanned.blockBitmap.symm ▸ hfit
  have hgrown₂ := (allocBlock_free hfit₁ halloc₂).2.1
  have hblock : block ≤ MAX_LBA := by
    obtain ⟨htrue, hdir, -⟩ :=
      findIndexed_ok (c := (c₂.setSector 12 block).clear) (hgrown₂.bitsFit hfit₁) hindexed
    have hlba₁₂ := hsecond htrue
    rw [hdir] at hlba₁₂
    have hself : (c₂.setSector 12 block).clear.dir.iSectors 12 = block := by
      show Function.update c₂.dir.iSectors 12 block 12 = block
      rw [Function.update_self]
    rwa [hself] at hlba₁₂
  obtain ⟨hwords, hdisk⟩ := newIndex_start hscanned hfit hlayout hown halloc₂
  obtain ⟨pre, t, post, c₄, -, hscanned₄, -, ht, -, hskip₄⟩ :=
    newIndex_skip sb current hdisk (own_full hdirect hindex) (hwords.trans hsplit)
      fun w hw => ⟨hws w hw, hpast w hw⟩
  -- The second one is for the sector that the word `t` gets.
  have hzero₄ : indexWord c₄.buf t = 0 := (hscanned₄.indexWord t).trans ht
  rw [hskip₄] at hindexed
  obtain ⟨lba, c₅, halloc₅⟩ := findIndexed_alloc hzero₄ hindexed
  rw [findIndexed_zero true post hzero₄ halloc₅] at hindexed
  cases hindexed
  have hlast := allocs_of_allocBlock halloc₅ hlba hrest
  rw [hscanned₄.blockBitmap] at hlast
  refine ⟨block, ?_⟩
  rw [← hscanned.blockBitmap]
  exact allocs_of_allocBlock halloc₂ hblock hlast

end

end Fizzos.Proofs
