import Fizzos.Proofs.Directory
import Fizzos.Proofs.Inodes

/-!
# `Fizzos.Proofs.Search`: `search_dentry` in the cache and on the disk

`DirState` is a directory between two calls: its entries on the disk, and the dentries that cache
some of them. `Answers` says that `search_dentry` gives the right answer for a name.

The cache always does (`answers_iff`). Both names that it compares end with `'\0'`, so the character
behind the name that `strncmp` looks at settles whether one is a prefix of the other. The disk does
for the names of less than 24 characters. A directory whose index block is not full has to be
lucky with the sector 0, too, which the search reads for a name that is not there.
-/

set_option autoImplicit false

namespace Fizzos.Proofs

open Fizzos.Device
open Fizzos.Fs
open Fizzos.Kernel
open Fizzos.Lib
open Fizzos.LibKernel
open Fizzos.Support

/-! ### The cache -/

/-- The walk of `search_dentry` finds the first dentry that compares equal. -/
theorem findCached_spec {dentry : Nat → Dentry} {children : Links Nat} {ds : List Nat}
    {dname : Bytes} {len n : Nat} (hl : Linked children ds) (hn : ds.length ≤ n) :
    findCached dentry children dname len n ds.head?
      = .ok (ds.find? fun d => decide (strncmp (dentry d).fname dname len = 0)) := by
  induction ds generalizing n with
  | nil => cases n <;> rfl
  | cons d ds ih =>
      cases n with
      | zero => exact absurd hn (Nat.not_succ_le_zero _)
      | succ n =>
          rw [List.head?_cons, findCached, List.find?_cons]
          by_cases hd : strncmp (dentry d).fname dname len = 0
          · rw [if_pos hd, decide_eq_true hd]
          · rw [if_neg hd, decide_eq_false hd, hl.next_head]
            exact ih hl.tail (Nat.le_of_succ_le_succ hn)

/-- The inode of a dentry. -/
def inodeOf (s : DirSys) (d : Nat) : Inode := s.fs.inode (s.dentry d).inode

/-- The directory `parent` between two calls. The dentries `ds` cache entries of it, and the
inodes `ps` are open. -/
structure DirState (s : DirSys) (parent : Nat) (entries : List DirEntry) (ds ps : List Nat) :
    Prop where
  directory : Directory s.fs.disk (inodeOf s parent) entries
  inodes : InodesOk s.fs ps
  number : ∀ e ∈ entries, e.iNo < 4096
  bit : ∀ e ∈ entries, bitmapIsSet s.fs.part.inodeBitmap e.iNo = true
  self : ∃ e ∈ entries, e.name = [DOT] ∧ e.iNo = (inodeOf s parent).iNo
  up : ∃ e ∈ entries, e.name = [DOT, DOT] ∧ e.iNo = (inodeOf s (s.dentry parent).dParent).iNo
  children : IsList s.dChild (s.dentry parent).dSubdirs ds
  pointer : ∀ d ∈ ds, d < 2 ^ 32
  cached : ∀ d ∈ ds, ∃ e ∈ entries, IsString (s.dentry d).fname e.name ∧
    (inodeOf s d).iNo = e.iNo

/-- `search_dentry` answers with the number of the entry `nm`, and with `NULL` when there is
none. `i` and `d` are the addresses that `kmalloc` returns. -/
def Answers (s : DirSys) (parent : Nat) (entries : List DirEntry) (nm : List (BitVec 8))
    (dname buf : Bytes) (i d : Nat) : Prop :=
  (∀ e ∈ entries, e.name = nm → ∃ r s',
    searchDentry s parent dname nm.length buf i d = .ok (some r, s') ∧ (inodeOf s' r).iNo = e.iNo) ∧
  (nm ∉ entries.map DirEntry.name → ∃ s',
    searchDentry s parent dname nm.length buf i d = .ok (none, s'))

/-- What a search of the disk needs. The name is not too long for it, and a name that is not there
is not in the sector 0 either when that is read. -/
def Searchable (disk : Disk) (p : Inode) (entries : List DirEntry) (nm : List (BitVec 8))
    (dname : Bytes) : Prop :=
  (nm ∈ entries.map DirEntry.name → nm.length < MAX_FILE_NAME_LEN) ∧
  (nm ∉ entries.map DirEntry.name → 0 ∈ readSectors disk p →
    ∀ j < SLOTS, slotMatches (disk 0) j dname nm.length = false)

namespace DirState

variable {s : DirSys} {parent : Nat} {entries : List DirEntry} {ds ps : List Nat}
  {nm : List (BitVec 8)} {dname buf : Bytes} {i d : Nat} {e : DirEntry}

theorem find_entry (h : DirState s parent entries ds ps) (he : e ∈ entries) (hname : e.name = nm)
    {r : Nat} {s' : DirSys}
    (hres : searchDentry s parent dname nm.length buf i d = .ok (some r, s'))
    (hno : (inodeOf s' r).iNo = e.iNo) : Answers s parent entries nm dname buf i d := by
  constructor
  · intro e' he' hname'
    rw [h.directory.eq_of_name he' he (hname'.trans hname.symm)]
    exact ⟨r, s', hres, hno⟩
  · intro hmissing
    exact absurd (hname ▸ List.mem_map_of_mem he) hmissing

/-- The walk of the cache finds a dentry of the entry, if there is one. -/
theorem findCached_eq (h : DirState s parent entries ds ps) (len : Nat) :
    findCached s.dentry s.dChild dname len LIST_WALK (s.dentry parent).dSubdirs.head
      = .ok (ds.find? fun d => decide (strncmp (s.dentry d).fname dname len = 0)) := by
  rw [h.children.head]
  exact findCached_spec h.children.linked (length_le_listWalk h.children.linked h.pointer)

/-- A dentry compares equal to its own name only. -/
theorem cached_iff (h : DirState s parent entries ds ps) (hnm : NameOk nm) (hs : IsString dname nm)
    (hd : d ∈ ds) : strncmp (s.dentry d).fname dname nm.length = 0 ↔
      ∃ e ∈ entries, e.name = nm ∧ IsString (s.dentry d).fname nm ∧ (inodeOf s d).iNo = e.iNo := by
  obtain ⟨e, he, hstring, hno⟩ := h.cached d hd
  have hok := (h.directory.ok e he).name
  constructor
  · intro hcmp
    obtain rfl := (hstring.strncmp_iff hs hok.nul hnm.nul).mp hcmp
    exact ⟨e, he, rfl, hstring, hno⟩
  · rintro ⟨-, -, -, hstring', -⟩
    exact (hstring'.strncmp_iff hs hnm.nul hnm.nul).mpr rfl

/-- The names `.` and `..`. -/
theorem answers_dots (h : DirState s parent entries ds ps) (hs : IsString dname nm)
    (hdots : nm = [DOT] ∨ nm = [DOT, DOT]) : Answers s parent entries nm dname buf i d := by
  rcases hdots with rfl | rfl
  · obtain ⟨e, he, hname, hno⟩ := h.self
    have hres : searchDentry s parent dname [DOT].length buf i d = .ok (some parent, s) := by
      rw [searchDentry, if_pos ⟨rfl, hs 0 (Nat.zero_le _)⟩]
      rfl
    exact h.find_entry he hname hres hno.symm
  · obtain ⟨e, he, hname, hno⟩ := h.up
    have hlen : [DOT, DOT].length = 2 := rfl
    have hres : searchDentry s parent dname [DOT, DOT].length buf i d
        = .ok (some (s.dentry parent).dParent, s) := by
      rw [searchDentry, if_neg (by omega), if_pos ⟨rfl, hs 0 (Nat.zero_le _), hs 1 (by decide)⟩]
      rfl
    exact h.find_entry he hname hres hno.symm

theorem searchable_dots (h : DirState s parent entries ds ps)
    (hdots : nm = [DOT] ∨ nm = [DOT, DOT]) :
    Searchable s.fs.disk (inodeOf s parent) entries nm dname := by
  have hmem : nm ∈ entries.map DirEntry.name := by
    rcases hdots with rfl | rfl
    · obtain ⟨e, he, hname, -⟩ := h.self
      exact hname ▸ List.mem_map_of_mem he
    · obtain ⟨e, he, hname, -⟩ := h.up
      exact hname ▸ List.mem_map_of_mem he
  refine ⟨fun _ => ?_, fun hmissing => absurd hmem hmissing⟩
  rcases hdots with rfl | rfl
  · show 1 < 24
    omega
  · show 2 < 24
    omega

end DirState

/-- The tests for `.` and `..` do not hold of another name. -/
theorem not_dots {nm : List (BitVec 8)} {dname : Bytes} (hs : IsString dname nm)
    (hdots : ¬(nm = [DOT] ∨ nm = [DOT, DOT])) :
    ¬(nm.length = 1 ∧ dname 0 = DOT) ∧ ¬(nm.length = 2 ∧ dname 0 = DOT ∧ dname 1 = DOT) := by
  constructor
  · rintro ⟨hlen, h0⟩
    obtain ⟨a, rfl⟩ := List.length_eq_one_iff.mp hlen
    have ha : dname 0 = a := hs 0 (Nat.zero_le _)
    exact hdots (.inl (by rw [← ha, h0]))
  · rintro ⟨hlen, h0, h1⟩
    obtain ⟨a, b, rfl⟩ := List.length_eq_two.mp hlen
    have ha : dname 0 = a := hs 0 (Nat.zero_le _)
    have hb : dname 1 = b := hs 1 (Nat.le_succ 1)
    exact hdots (.inr (by rw [← ha, ← hb, h0, h1]))

section
variable {s : DirSys} {parent : Nat} {nm : List (BitVec 8)} {dname buf : Bytes} {i d iNo : Nat}
  (hs : IsString dname nm) (hdots : ¬(nm = [DOT] ∨ nm = [DOT, DOT]))
  (hcache : findCached s.dentry s.dChild dname nm.length LIST_WALK (s.dentry parent).dSubdirs.head
    = .ok none)

include hs hdots hcache

/-- The name is not in the cache: what the disk says of it decides. -/
theorem searchDentry_uncached {r : Option Nat}
    (hdisk : (searchDisk s.fs.disk (inodeOf s parent) dname nm.length buf).1 = r) :
    searchDentry s parent dname nm.length buf i d =
      r.elim (.ok (none, s)) fun iNo => inodeOpen s.fs iNo i >>= fun opened =>
        DirSys.pushChild (DirSys.setDentry (DirSys.mk opened.2 s.dentry s.dChild) d
          { fname := strncpy (fun _ => 0) 0 dname nm.length
            fnameLen := nm.length, count := 1, inode := opened.1, dParent := parent
            dSubdirs := listInit }) parent d >>= fun s' => .ok (some d, s') := by
  obtain ⟨hno1, hno2⟩ := not_dots hs hdots
  rw [inodeOf] at hdisk
  rw [searchDentry, if_neg hno1, if_neg hno2, hcache, ok_bind]
  dsimp only
  generalize searchDisk s.fs.disk (s.fs.inode (s.dentry parent).inode) dname nm.length buf = res
    at hdisk ⊢
  obtain ⟨r', b⟩ := res
  obtain rfl : r' = r := hdisk
  cases r' <;> rfl

/-- The disk does not have it. -/
theorem searchDentry_missing
    (hdisk : (searchDisk s.fs.disk (inodeOf s parent) dname nm.length buf).1 = none) :
    searchDentry s parent dname nm.length buf i d = .ok (none, s) :=
  searchDentry_uncached hs hdots hcache hdisk

/-- The disk has it. -/
theorem searchDentry_disk
    (hdisk : (searchDisk s.fs.disk (inodeOf s parent) dname nm.length buf).1 = some iNo) :
    searchDentry s parent dname nm.length buf i d =
      inodeOpen s.fs iNo i >>= fun opened =>
        DirSys.pushChild (DirSys.setDentry (DirSys.mk opened.2 s.dentry s.dChild) d
          { fname := strncpy (fun _ => 0) 0 dname nm.length
            fnameLen := nm.length, count := 1, inode := opened.1, dParent := parent
            dSubdirs := listInit }) parent d >>= fun s' => .ok (some d, s') :=
  searchDentry_uncached hs hdots hcache hdisk

/-- A name that the disk has gets a dentry, with the inode that `inode_open` returns. -/
theorem searchDentry_opened {r : Nat} {fs : FileSys} {ds : List Nat}
    (hdisk : (searchDisk s.fs.disk (inodeOf s parent) dname nm.length buf).1 = some iNo)
    (hopen : inodeOpen s.fs iNo i = .ok (r, fs)) (hr : (fs.inode r).iNo = iNo)
    (hlist : IsList s.dChild (s.dentry parent).dSubdirs ds) (hd : d ∉ ds) (hparent : d ≠ parent) :
    ∃ s', searchDentry s parent dname nm.length buf i d = .ok (some d, s') ∧
      (inodeOf s' d).iNo = iNo := by
  obtain ⟨dSubdirs, dChild, hpush, -⟩ := listPushFront_spec hlist hd
  rw [searchDentry_disk hs hdots hcache hdisk, hopen, ok_bind, DirSys.pushChild, DirSys.setDentry]
  dsimp only
  rw [Function.update_of_ne (Ne.symm hparent), hpush, ok_bind, pure_eq_ok, ok_bind]
  refine ⟨_, rfl, ?_⟩
  rw [inodeOf, DirSys.setDentry]
  dsimp only
  rw [Function.update_of_ne hparent, Function.update_self]
  exact hr

end

namespace DirState

variable {s : DirSys} {parent : Nat} {entries : List DirEntry} {ds ps : List Nat}
  {nm : List (BitVec 8)} {dname buf : Bytes} {i d c iNo : Nat} {e : DirEntry}

/-- The name is in the cache. -/
theorem searchDentry_cached (h : DirState s parent entries ds ps) (hs : IsString dname nm)
    (hdots : ¬(nm = [DOT] ∨ nm = [DOT, DOT]))
    (hfind : (ds.find? fun d => decide (strncmp (s.dentry d).fname dname nm.length = 0)) = some c) :
    ∃ s', searchDentry s parent dname nm.length buf i d = .ok (some c, s') ∧
      inodeOf s' c = inodeOf s c := by
  obtain ⟨hno1, hno2⟩ := not_dots hs hdots
  rw [searchDentry, if_neg hno1, if_neg hno2, h.findCached_eq, ok_bind, hfind]
  refine ⟨_, rfl, ?_⟩
  rw [inodeOf, inodeOf, DirSys.setDentry]
  dsimp only
  rw [Function.update_self]

/-- The walk of the cache finds nothing. -/
theorem findCached_none (h : DirState s parent entries ds ps)
    (hfind : (ds.find? fun d => decide (strncmp (s.dentry d).fname dname nm.length = 0)) = none) :
    findCached s.dentry s.dChild dname nm.length LIST_WALK (s.dentry parent).dSubdirs.head
      = .ok none := by
  rw [h.findCached_eq, hfind]

/-- A name that the disk has gets a dentry. -/
theorem searchDentry_found (h : DirState s parent entries ds ps) (hs : IsString dname nm)
    (hdots : ¬(nm = [DOT] ∨ nm = [DOT, DOT]))
    (hfind : (ds.find? fun d => decide (strncmp (s.dentry d).fname dname nm.length = 0)) = none)
    (hdisk : (searchDisk s.fs.disk (inodeOf s parent) dname nm.length buf).1 = some iNo)
    (hno : iNo < 4096) (hset : bitmapIsSet s.fs.part.inodeBitmap iNo = true) (hi : i ∉ ps)
    (hd : d ∉ ds) (hparent : d ≠ parent) :
    ∃ s', searchDentry s parent dname nm.length buf i d = .ok (some d, s') ∧
      (inodeOf s' d).iNo = iNo := by
  obtain ⟨r, fs, hopen, hr⟩ := h.inodes.open_number hi hno hset
  exact searchDentry_opened hs hdots (h.findCached_none hfind) hdisk hopen hr h.children hd hparent

section
variable (h : DirState s parent entries ds ps) (hnm : NameOk nm) (hs : IsString dname nm)
  (hdots : ¬(nm = [DOT] ∨ nm = [DOT, DOT]))
  (hfind : (ds.find? fun d => decide (strncmp (s.dentry d).fname dname nm.length = 0)) = none)

include h hnm hs hdots hfind

/-- A name of the directory that is not in the cache. -/
theorem answers_listed (he : e ∈ entries) (hname : e.name = nm) (hi : i ∉ ps) (hd : d ∉ ds)
    (hparent : d ≠ parent) :
    Answers s parent entries nm dname buf i d ↔ nm.length < MAX_FILE_NAME_LEN := by
  constructor
  · intro hanswers
    refine Nat.lt_of_le_of_ne hnm.le fun hfull => ?_
    -- No sector has a name of 24 characters, and neither has the sector 0.
    have hdisk := h.directory.searchDisk_missing hnm hs (fun _ _ _ => hfull) buf
    have hzero : findSlot (s.fs.disk 0) dname nm.length = none :=
      findSlot_eq_none_iff.mpr fun j _ => slotMatches_full hnm hs hfull
    rw [hzero, ite_self] at hdisk
    obtain ⟨r, s', hres, -⟩ := hanswers.1 e he hname
    rw [searchDentry_missing hs hdots (h.findCached_none hfind) hdisk] at hres
    cases hres
  · intro hlt
    have hdisk := h.directory.searchDisk_found hnm hs he hname hlt buf
    obtain ⟨s', hres, hno⟩ := h.searchDentry_found hs hdots hfind hdisk (h.number e he) (h.bit e he)
      hi hd hparent
    exact h.find_entry he hname hres hno

/-- A name that the directory does not have. -/
theorem answers_unlisted (hmissing : nm ∉ entries.map DirEntry.name) :
    Answers s parent entries nm dname buf i d ↔
      (0 ∈ readSectors s.fs.disk (inodeOf s parent) →
        ∀ j < SLOTS, slotMatches (s.fs.disk 0) j dname nm.length = false) := by
  have hnone : ∀ e ∈ entries, e.name ≠ nm := by
    rintro e he rfl
    exact hmissing (List.mem_map_of_mem he)
  have hdisk := h.directory.searchDisk_missing hnm hs (fun e he hname => absurd hname (hnone e he))
    buf
  rw [← findSlot_eq_none_iff]
  constructor
  · intro hanswers hread
    rw [if_pos hread] at hdisk
    cases hzero : findSlot (s.fs.disk 0) dname nm.length with
    | none => rfl
    | some iNo =>
        obtain ⟨s', hres⟩ := hanswers.2 hmissing
        rw [hzero] at hdisk
        rw [searchDentry_disk hs hdots (h.findCached_none hfind) hdisk] at hres
        obtain ⟨opened, -, hres⟩ := bind_eq_ok.mp hres
        obtain ⟨s'', -, hres⟩ := bind_eq_ok.mp hres
        cases hres
  · intro hzero
    have hclear : (searchDisk s.fs.disk (inodeOf s parent) dname nm.length buf).1 = none := by
      rw [hdisk]
      split
      · exact hzero ‹_›
      · rfl
    -- An index block with a zero in front leads to sector 0, and nothing there has the name.
    refine ⟨fun e he hname => absurd hname (hnone e he), fun _ => ⟨s, ?_⟩⟩
    exact searchDentry_missing hs hdots (h.findCached_none hfind) hclear

end

/-- The answer, whatever the cache has. -/
theorem answers_iff (h : DirState s parent entries ds ps) (hnm : NameOk nm) (hs : IsString dname nm)
    (hi : i ∉ ps) (hd : d ∉ ds) (hparent : d ≠ parent) :
    Answers s parent entries nm dname buf i d ↔
      (∃ c ∈ ds, IsString (s.dentry c).fname nm) ∨
        Searchable s.fs.disk (inodeOf s parent) entries nm dname := by
  by_cases hdots : nm = [DOT] ∨ nm = [DOT, DOT]
  · have hshort : Searchable s.fs.disk (inodeOf s parent) entries nm dname :=
      h.searchable_dots hdots
    exact ⟨fun _ => .inr hshort, fun _ => h.answers_dots hs hdots⟩
  · -- the children in memory are compared first, up to the length of the name
    cases hfind : ds.find? fun d => decide (strncmp (s.dentry d).fname dname nm.length = 0) with
    | some c =>
        have hc : c ∈ ds := List.mem_of_find?_eq_some hfind
        have hcmp : strncmp (s.dentry c).fname dname nm.length = 0 :=
          of_decide_eq_true (List.find?_some
            (p := fun d => decide (strncmp (s.dentry d).fname dname nm.length = 0)) hfind)
        obtain ⟨e, he, hname, hstring, hno⟩ := (h.cached_iff hnm hs hc).mp hcmp
        obtain ⟨s', hres, hinode⟩ := h.searchDentry_cached hs hdots hfind
        have hanswers := h.find_entry he hname hres (hinode ▸ hno)
        exact ⟨fun _ => .inl ⟨c, hc, hstring⟩, fun _ => hanswers⟩
    | none =>
        have hcold : ¬∃ c ∈ ds, IsString (s.dentry c).fname nm := by
          rintro ⟨c, hc, hstring⟩
          have hcmp := (hstring.strncmp_iff hs hnm.nul hnm.nul).mpr rfl
          exact List.find?_eq_none.mp hfind c hc (decide_eq_true hcmp)
        rw [or_iff_right hcold, Searchable]
        by_cases hmem : nm ∈ entries.map DirEntry.name
        · obtain ⟨e, he, hname⟩ := List.mem_map.mp hmem
          rw [h.answers_listed hnm hs hdots hfind he hname hi hd hparent]
          exact ⟨fun hlt => ⟨fun _ => hlt, fun hno => absurd hmem hno⟩, fun hall => hall.1 hmem⟩
        · rw [h.answers_unlisted hnm hs hdots hfind hmem]
          exact ⟨fun hzero => ⟨fun hyes => absurd hyes hmem, fun _ => hzero⟩,
            fun hall => hall.2 hmem⟩

end DirState

/-- The directory without its cache. -/
def dropCache (s : DirSys) (parent : Nat) : DirSys :=
  s.setDentry parent { s.dentry parent with dSubdirs := listInit }

section
variable {s : DirSys} {parent : Nat} {entries : List DirEntry} {ds ps : List Nat}

theorem inodeOf_dropCache (d : Nat) : inodeOf (dropCache s parent) d = inodeOf s d := by
  show s.fs.inode _ = s.fs.inode _
  rw [dropCache, DirSys.setDentry]
  dsimp only
  by_cases hd : d = parent
  · subst hd
    rw [Function.update_self]
  · rw [Function.update_of_ne hd]

theorem DirState.dropCache (h : DirState s parent entries ds ps) :
    DirState (dropCache s parent) parent entries [] ps where
  directory := by
    rw [inodeOf_dropCache]
    exact h.directory
  inodes := h.inodes
  number := h.number
  bit := h.bit
  self := by
    rw [inodeOf_dropCache]
    exact h.self
  up := by
    have hup : ((Proofs.dropCache s parent).dentry parent).dParent = (s.dentry parent).dParent := by
      rw [Proofs.dropCache, DirSys.setDentry]
      dsimp only
      rw [Function.update_self]
    rw [inodeOf_dropCache, hup]
    exact h.up
  children := by
    rw [Proofs.dropCache, DirSys.setDentry]
    dsimp only
    rw [Function.update_self]
    exact IsList.init _
  pointer := fun _ hd => absurd hd List.not_mem_nil
  cached := fun _ hd => absurd hd List.not_mem_nil

end

/-- Twenty-four times `a`. -/
def longName : List (BitVec 8) := List.replicate 24 0x61

/-- The root directory, and a file in it. -/
def rootEntries : List DirEntry :=
  [⟨[DOT], FT_DIR, 0⟩, ⟨[DOT, DOT], FT_DIR, 0⟩, ⟨longName, FT_NORMAL, 1⟩]

/-- The root directory right after the file was made. The inodes are at 16 and 48, the dentries at
64 and 96. -/
def rootSys : DirSys :=
  { fs :=
      { disk := fun lba => if lba = 516 then sectorOf rootEntries else fun _ => 0
        part :=
          { sb := ⟨2, 1, 3, 1, 4, 516⟩
            blockBitmap := ⟨0, fun k => if k = 0 then 1 else 0, 512, mutexLockInit⟩
            inodeBitmap := ⟨0, fun k => if k = 0 then 3 else 0, 512, mutexLockInit⟩
            openInodes := ⟨some 48, some 16⟩ }
        inode := fun p =>
          if p = 16 then ⟨0, 0, 96, 1, rwlockInit, FT_DIR, fun k => if k = 0 then 516 else 0⟩
          else ⟨1, 0, 0, 1, rwlockInit, FT_NORMAL, fun _ => 0⟩
        inodeTag := fun p => if p = 48 then ⟨none, some 16⟩ else ⟨some 48, none⟩ }
    dentry := fun d =>
      if d = 64 then ⟨1, 16, cstring [SLASH], 1, 64, ⟨some 96, some 96⟩⟩
      else ⟨1, 48, cstring longName, 24, 64, listInit⟩
    dChild := fun _ => ⟨none, none⟩ }

theorem nameOk_longName : NameOk longName := ⟨by decide, by decide, by decide, by decide⟩

theorem rootEntries_ok : ∀ e ∈ rootEntries, e.Ok := by
  have hdot : NameOk [DOT] := ⟨by decide, by decide, by decide, by decide⟩
  have hdots : NameOk [DOT, DOT] := ⟨by decide, by decide, by decide, by decide⟩
  intro e he
  simp only [rootEntries, List.mem_cons, List.not_mem_nil, or_false] at he
  rcases he with rfl | rfl | rfl
  · exact ⟨hdot, by decide, by decide, by decide⟩
  · exact ⟨hdots, by decide, by decide, by decide⟩
  · exact ⟨nameOk_longName, by decide, by decide, by decide⟩

theorem rootSys_state : DirState rootSys 64 rootEntries [96] [48, 16] where
  directory := directory_sectorOf rootEntries_ok (by decide) (by decide)
    (by decide : (516 : Nat) ≠ 0) rfl rfl
  inodes :=
    { isList := ⟨rfl, rfl, by decide, by simp [rootSys], by simp [rootSys]⟩
      pointer := by decide
      lock := rfl
      nodup := by decide
      bits := by decide
      count := by decide }
  number := by decide
  bit := by decide
  self := ⟨⟨[DOT], FT_DIR, 0⟩, by decide, rfl, rfl⟩
  up := ⟨⟨[DOT, DOT], FT_DIR, 0⟩, by decide, rfl, rfl⟩
  children := ⟨rfl, rfl, Linked.singleton rfl⟩
  pointer := by decide
  cached := by
    intro d hd
    obtain rfl := List.mem_singleton.mp hd
    exact ⟨⟨longName, FT_NORMAL, 1⟩, by decide, isString_cstring _, rfl⟩

end Fizzos.Proofs
