import Fizzos.Proofs.DirGrow
import Fizzos.Proofs.DirRoom
import Fizzos.Proofs.Mkdir
import Mathlib.Data.Nat.Bitwise

/-!
# `Fizzos.Proofs.OpenPath`: when `sys_openat` is all or nothing

A call returns a descriptor with its file (`Opened`), or an error with the tables as they were
(`Untaken`). `sys_openat` gives the descriptor back on an error, but three of the ways to fail are
none for it. No free slot in `file_table` is a `NULL` that is used, a full directory is a `NULL`
that is installed, and a path with a `'/'` behind an existing last name, or without a name, stops
the kernel.

`OpensOk` is the condition on the state and the path. `TakesFile` has the part about a new file.
-/

set_option autoImplicit false

namespace Fizzos.Proofs

open Fizzos.Device
open Fizzos.Fs
open Fizzos.Kernel
open Fizzos.Lib
open Fizzos.LibKernel
open Fizzos.Support

/-! ### What the call owes -/

/-- `fd` was the lowest free descriptor. It has a slot of `file_table` that was free, with a
dentry. -/
structure Opened (st st' : OpenState) (fd : Nat) : Prop where
  lt : fd < P_MAX_FILE_COUNT
  free : st.files.openFds.testBit fd = false
  lowest : ∀ j < fd, st.files.openFds.testBit j = true
  marked : st'.files.openFds = st.files.openFds ||| 1 <<< fd
  slot : ∃ f, st'.files.fdArray fd = some f ∧ f < MAX_FILE_COUNT ∧ (st.table.file f).count = 0 ∧
    1 ≤ (st'.table.file f).count ∧ (st'.table.file f).fDentry ≠ 0

/-- No descriptor, no slot and no inode was taken. -/
structure Untaken (st st' : OpenState) : Prop where
  openFds : st'.files.openFds = st.files.openFds
  count : ∀ f, (st'.table.file f).count = (st.table.file f).count
  inodeBitmap : ∀ k, st'.table.dirs.fs.part.inodeBitmap.bit k
    = st.table.dirs.fs.part.inodeBitmap.bit k

/-- `sys_openat` returns, with everything or with nothing, and without its buffers. -/
def AllOrNothing (st : OpenState) (root cwd : Nat) (path : Path) (flags tmp buf : Nat) (m : OpenMem)
    (current : Tid) : Prop :=
  ∃ ret st', sysOpenat st root cwd .fdcwd path flags tmp buf m current = .ok (ret, st') ∧
    st'.heap = st.heap ∧
    ((∃ fd : Nat, ret = fd ∧ Opened st st' fd) ∨ (ret < 0 ∧ Untaken st st'))

/-! ### When it does -/

/-- The directory takes a new file: there is a number for it that `bitmap_sync` lets through, the
directory is not full, and there is a place for the entry. -/
structure TakesFile (s : DirSys) (parent : Nat) (buf : Bytes) (current : Tid) : Prop where
  number : ∃ no, bitmapScanIndex s.fs.part.inodeBitmap = some no ∧
    no / SECTOR_SIZE < s.fs.part.sb.inodeBitmapSects
  size : (inodeOf s parent).iSize ≠ MAX_FILE_SIZE
  place : TakesEntry s.fs.part.sb ⟨s.fs.disk, s.fs.part.blockBitmap, inodeOf s parent, buf⟩ current

/-- What `parse_path` found can be opened, or is refused. -/
def FoundOk (t : FileTable) (s : DirSys) (res : SearchRes) (flags : Nat) (buf : Bytes)
    (current : Tid) : Prop :=
  (res.child = none ∧ (res.nextdir ≠ none ∨ flags &&& O_CREAT = 0)) ∨
  (res.child ≠ none ∧ res.nextdir = none ∧ getFreeFileOfTable t ≠ none) ∨
  (res.child = none ∧ res.nextdir = none ∧ flags &&& O_CREAT ≠ 0 ∧ getFreeFileOfTable t ≠ none ∧
    TakesFile s res.parent buf current)

/-- No descriptor is free, or `parse_path` returns and what it found is one of these. -/
def OpensOk (st : OpenState) (root cwd : Nat) (path : Path) (flags : Nat) (m : OpenMem)
    (current : Tid) : Prop :=
  (∀ fd < P_MAX_FILE_COUNT, st.files.openFds.testBit fd = true) ∨
    ∃ res s, parsePath st.table.dirs root cwd .fdcwd path m.bufs m.addrs = .ok (some res, s) ∧
      FoundOk st.table s res flags m.buf current

/-- A dentry that the call finds or makes has a name that fits into its `fname`. -/
def FieldFits (st : OpenState) (root cwd : Nat) (path : Path) (flags : Nat) (m : OpenMem) : Prop :=
  allocFd st.files ≠ none →
    ∀ res s, parsePath st.table.dirs root cwd .fdcwd path m.bufs m.addrs = .ok (some res, s) →
      res.child ≠ none ∨ (res.nextdir = none ∧ flags &&& O_CREAT ≠ 0) →
      res.curdirLen ≤ MAX_FILE_NAME_LEN + 1

/-! ### Descriptors -/

section
variable {files files' : FdTable} {fd : Nat}

/-- The test of one bit in the mask. -/
theorem bit_and_eq_zero {n i : Nat} : (1 <<< i) &&& n = 0 ↔ n.testBit i = false := by
  rw [Nat.one_shiftLeft, Nat.and_comm, Nat.and_two_pow]
  cases n.testBit i with
  | false => simp
  | true => simp

/-- `alloc_fd` takes the lowest free descriptor. -/
theorem allocFd_some (h : allocFd files = some (fd, files')) :
    fd < P_MAX_FILE_COUNT ∧ files.openFds.testBit fd = false ∧
      (∀ j < fd, files.openFds.testBit j = true) ∧
      files' = { files with openFds := files.openFds ||| 1 <<< fd } := by
  rw [allocFd, Option.map_eq_some_iff] at h
  obtain ⟨i, hfind, heq⟩ := h
  cases heq
  obtain ⟨hfree, hlt, hbelow⟩ := List.find?_range_eq_some.mp hfind
  refine ⟨List.mem_range.mp hlt, bit_and_eq_zero.mp (of_decide_eq_true hfree), fun j hj => ?_, rfl⟩
  have hset := hbelow j hj
  rw [Bool.not_eq_true', decide_eq_false_iff_not, bit_and_eq_zero, Bool.not_eq_false] at hset
  exact hset

/-- There is no descriptor when all bits are set. -/
theorem allocFd_none :
    allocFd files = none ↔ ∀ fd < P_MAX_FILE_COUNT, files.openFds.testBit fd = true := by
  rw [allocFd, Option.map_eq_none_iff, List.find?_eq_none]
  refine forall_congr' fun fd => ?_
  rw [List.mem_range, decide_eq_true_iff, bit_and_eq_zero, Bool.not_eq_false]

/-- `free_fd` gives back what `alloc_fd` took. -/
theorem freeFd_allocFd (hwidth : files.openFds < 2 ^ 32) (h : allocFd files = some (fd, files')) :
    freeFd files' fd = .ok files := by
  obtain ⟨hlt, hfree, -, rfl⟩ := allocFd_some h
  have hlt' : fd < 32 := hlt
  have hset : (files.openFds ||| 1 <<< fd) &&& (1 <<< fd) ≠ 0 := by
    rw [Nat.and_comm, Ne, bit_and_eq_zero, Nat.testBit_or, Nat.one_shiftLeft,
      Nat.testBit_two_pow_self, Bool.or_true]
    exact Bool.true_eq_false_eq_False
  have hback : (files.openFds ||| 1 <<< fd) &&& (0xffffffff ^^^ 1 <<< fd) = files.openFds := by
    refine Nat.eq_of_testBit_eq fun i => ?_
    rw [show (0xffffffff : Nat) = 2 ^ 32 - 1 from rfl, Nat.one_shiftLeft, Nat.testBit_and,
      Nat.testBit_or, Nat.testBit_xor, Nat.testBit_two_pow_sub_one, Nat.testBit_two_pow]
    by_cases hi : fd = i
    · subst hi
      rw [hfree, decide_eq_true rfl, decide_eq_true hlt']
      rfl
    · rw [decide_eq_false hi, Bool.or_false, Bool.xor_false]
      by_cases hwide : i < 32
      · rw [decide_eq_true hwide, Bool.and_true]
      · have hzero : files.openFds.testBit i = false :=
          Nat.testBit_lt_two_pow (Nat.lt_of_lt_of_le hwidth (Nat.pow_le_pow_right (by decide)
            (Nat.le_of_not_lt hwide)))
        rw [hzero, Bool.false_and]
  rw [freeFd, ASSERT_true hset, ok_bind]
  dsimp only
  rw [hback]
  rfl

end

/-! ### A new file -/

section
variable {t : FileTable} {root parent i dm n f : Nat} {T : CacheTree} {ps : List Nat}
  {buf pad : Bytes} {res : SearchRes} {current : Tid}

/-- A file that is made had a slot, and the directory took it. -/
theorem fileCreate_needs {t' : FileTable} (hlock : t.dirs.fs.part.inodeBitmap.lock = mutexLockInit)
    (hready : BitmapReady t.dirs.fs.part.sb t.dirs.fs.part.blockBitmap)
    (hfit : BitsFit t.dirs.fs.part.sb t.dirs.fs.part.blockBitmap)
    (hne : i ≠ (t.dirs.dentry res.parent).inode)
    (hok : fileCreate t (charsAt res.curdir) res.curdirLen res.parent buf i dm pad current
      = .ok (some f, t')) :
    getFreeFileOfTable t ≠ none ∧ TakesFile t.dirs res.parent buf current := by
  simp only [fileCreate, bind_eq_ok] at hok
  obtain ⟨fs, halloc, ⟨d, buf', s₂⟩, hwrite, hok⟩ := hok
  cases d with
  | none =>
      obtain ⟨fs', -, hok⟩ := bind_eq_ok.mp hok
      cases hok
  | some d =>
      obtain ⟨slot, hslot, hok⟩ := bind_eq_ok.mp hok
      obtain ⟨⟨disk, inodeBitmap⟩, hsync, -⟩ := bind_eq_ok.mp hok
      -- `inode_alloc` leaves the directory alone, so `dir_write` sees the one before it.
      have hsame : SameDir t.dirs (DirSys.mk (fs.setInode i { fs.inode i with iMode := FT_NORMAL })
        t.dirs.dentry t.dirs.dChild) res.parent := sameDir_of_alloc hne halloc rfl
      obtain ⟨place, c, inode, hplace, hput, -, hsb, -, hinode⟩ :=
        dirWrite_ok (s := DirSys.mk (fs.setInode i _) t.dirs.dentry t.dirs.dChild) hne hwrite
      refine ⟨fun hnone => ?_, ⟨?_, ?_, ?_⟩⟩
      · rw [hnone] at hslot
        cases hslot
      · -- the number that `bitmap_sync` gets
        have hno : ((FileSys.setInode s₂.fs i ((s₂.fs.inode i).setCount
            (atomicInc (s₂.fs.inode i).iCount))).inode i).iNo = (fs.inode i).iNo := by
          rw [FileSys.setInode_self]
          show (s₂.fs.inode i).iNo = _
          rw [hinode, putEntry_iNo hput, FileSys.setInode_self]
        rw [hno, inodeBitmapSync, bitmapWriteBack] at hsync
        obtain ⟨u, hassert, -⟩ := bind_eq_ok.mp hsync
        refine ⟨_, inodeAlloc_number hlock halloc, ?_⟩
        rw [← hsame.sb, ← hsb]
        exact ASSERT_eq_ok.mp hassert
      · intro hsize
        rw [← hsame.inode] at hsize
        have hnone := (dirWrite_none hwrite).mpr hsize
        cases hnone
      · have htakes := (findPlace_iff (c := ⟨t.dirs.fs.disk, t.dirs.fs.part.blockBitmap,
          inodeOf t.dirs res.parent, buf⟩) current hready hfit).mp
        rw [← hsame.disk, ← hsame.sb, ← hsame.blockBitmap, ← hsame.inode] at htakes ⊢
        obtain ⟨hlba, hsecond, -⟩ := putEntry_by hput
        exact htakes ⟨place, hplace, hlba, hsecond⟩

/-- A directory that takes a file gets it, in the slot. -/
theorem fileCreate_returns (h : TreeOk t.dirs root T ps) (hp : T.node parent) (hi : i < 2 ^ 32)
    (hnew : i ∉ ps) (hready : BitmapReady t.dirs.fs.part.sb t.dirs.fs.part.blockBitmap)
    (hfit : BitsFit t.dirs.fs.part.sb t.dirs.fs.part.blockBitmap)
    (hslot : getFreeFileOfTable t = some f) (htakes : TakesFile t.dirs parent buf current)
    (filename pad : Bytes) (n dm : Nat) :
    ∃ t', fileCreate t filename n parent buf i dm pad current = .ok (some f, t') ∧
      t'.file = Function.update t.file f ⟨atomicInc (t.file f).count, 0, dm⟩ := by
  obtain ⟨no, hscan, hsects⟩ := htakes.number
  have hne : i ≠ (t.dirs.dentry parent).inode := fun heq => hnew (heq ▸ h.opened parent hp)
  obtain ⟨fs, halloc⟩ := h.inodes.alloc_returns hnew
      (by rw [hscan]; exact Option.some_ne_none _) current
  obtain ⟨idx, -, hset, hidx, -, -, -, hpart, -⟩ := h.inodes.alloc hi hnew halloc
  have hsame : SameDir t.dirs (DirSys.mk (fs.setInode i { fs.inode i with iMode := FT_NORMAL })
    t.dirs.dentry t.dirs.dChild) parent := sameDir_of_alloc hne halloc rfl
  have hno : (fs.inode i).iNo = no :=
    Option.some.inj ((inodeAlloc_number h.inodes.lock halloc).symm.trans hscan)
  -- the entry
  obtain ⟨place, hplace, hlba, hsecond⟩ :=
    (findPlace_iff (c := ⟨t.dirs.fs.disk, t.dirs.fs.part.blockBitmap,
    inodeOf t.dirs parent, buf⟩) current hready hfit).mpr htakes.place
  rw [← hsame.disk, ← hsame.sb, ← hsame.blockBitmap, ← hsame.inode] at hplace
  have hsize := htakes.size
  rw [← hsame.inode] at hsize
  have hfile : ∀ (sb : SuperBlock) (x : Inode), x.iMode = FT_NORMAL →
      ∃ c, putEntry sb place x filename n current = .ok (c, x) := by
    intro sb x hx
    rw [putEntry, storeEntry_ok.mpr ⟨hlba, hsecond, rfl⟩, hx]
    exact ⟨_, rfl⟩
  obtain ⟨c, hput⟩ := hfile fs.part.sb
    ((fs.setInode i { fs.inode i with iMode := FT_NORMAL }).inode i) (by rw [FileSys.setInode_self])
  have hlist : (t.dirs.dentry parent).dSubdirs.head = none →
      (t.dirs.dentry parent).dSubdirs.tail = none := by
    intro hnil
    have hkids := h.tree.children parent hp
    exact hkids.tail_eq_none_iff.mpr (hkids.head_eq_none_iff.mp hnil)
  obtain ⟨s₂, hwrite⟩ : ∃ s₂, dirWrite (DirSys.mk (fs.setInode i { fs.inode i with
        iMode := FT_NORMAL }) t.dirs.dentry t.dirs.dChild) parent i buf filename n dm current
      = .ok (some dm, c.buf, s₂) := dirWrite_returns hsize hlist hplace hput
  obtain ⟨place', c', inode, -, hput', -, hsb, hbitmap, hinode⟩ :=
    dirWrite_ok (s := DirSys.mk (fs.setInode i _) t.dirs.dentry t.dirs.dChild) hne hwrite
  -- the bitmap goes to the disk
  have hno₂ : ((FileSys.setInode s₂.fs i ((s₂.fs.inode i).setCount
      (atomicInc (s₂.fs.inode i).iCount))).inode i).iNo = no := by
    rw [FileSys.setInode_self]
    show (s₂.fs.inode i).iNo = no
    rw [hinode, putEntry_iNo hput', FileSys.setInode_self]
    exact hno
  have hlock : s₂.fs.part.inodeBitmap.lock = mutexLockInit := by
    rw [hbitmap]
    show fs.part.inodeBitmap.lock = mutexLockInit
    rw [hset]
    exact h.inodes.lock
  have hsects₂ : no / SECTOR_SIZE < s₂.fs.part.sb.inodeBitmapSects := by
    rw [hsb, hsame.sb]
    exact hsects
  rw [fileCreate, halloc, ok_bind]
  dsimp only
  rw [hwrite, ok_bind]
  dsimp only
  rw [hslot, deref_some, ok_bind, hno₂, inodeBitmapSync]
  show ∃ t', (bitmapWriteBack _ s₂.fs.part.inodeBitmap _ s₂.fs.part.sb.inodeBitmapSects no current
    >>= _) = _ ∧ _
  rw [bitmapWriteBack_eq hlock hsects₂, ok_bind]
  exact ⟨_, rfl, rfl⟩

end

/-! ### The call -/

section
variable {st : OpenState} {root cwd fd tmp buf : Nat} {path : Path} {flags : Nat} {m : OpenMem}
  {current : Tid} {files : FdTable} {res : SearchRes} {s : DirSys}

/-- The result of `sys_openat` for the file that `filp_openat` returned, or for an error. -/
def installed (st : OpenState) (fd : Nat) (files : FdTable) (table : FileTable) (f : Option Nat) :
    Int × OpenState :=
  (fd, { st with files := installFd files fd f, table })

/-- Then the call returns -1 in front of everything else. -/
theorem sysOpenat_none (hfull : allocFd st.files = none) :
    sysOpenat st root cwd .fdcwd path flags tmp buf m current = .ok (-1, st) := by
  rw [sysOpenat, hfull]
  dsimp only
  rw [pure_eq_ok, ok_bind]
  dsimp only
  rw [List.erase_cons_head]
  rfl

/-- The call with a descriptor: the buffers are gone behind it. -/
theorem sysOpenat_some (flags tmp buf : Nat) (current : Tid)
    (hfd : allocFd st.files = some (fd, files)) (hwidth : st.files.openFds < 2 ^ 32)
    (hpath : parsePath st.table.dirs root cwd .fdcwd path m.bufs m.addrs = .ok (some res, s)) :
    sysOpenat st root cwd .fdcwd path flags tmp buf m current =
      openFound { st.table with dirs := s } res flags m current >>= fun r =>
        match r.1 with
        | .enoent => .ok (-2, { st with table := r.2 })
        | .null => .ok (installed st fd files r.2 none)
        | .file f => .ok (installed st fd files r.2 (some f)) := by
  rw [sysOpenat, hfd]
  dsimp only
  rw [filpOpenat_eq, hpath, ok_bind]
  dsimp only
  rw [Option.getD_some]
  cases openFound { st.table with dirs := s } res flags m current with
  | error e => rfl
  | ok r =>
      obtain ⟨f, table⟩ := r
      rw [ok_bind, ok_bind]
      dsimp only
      cases f with
      | enoent =>
          dsimp only
          rw [freeFd_allocFd hwidth hfd, ok_bind]
          simp [List.erase_cons_head]
      | null => simp [List.erase_cons_head, installed]
      | file f => simp [List.erase_cons_head, installed]

/-- A call with a descriptor that returns has gone along the path. -/
theorem sysOpenat_parses {r : Int × OpenState} (hfd : allocFd st.files = some (fd, files))
    (hok : sysOpenat st root cwd .fdcwd path flags tmp buf m current = .ok r) :
    ∃ res s, parsePath st.table.dirs root cwd .fdcwd path m.bufs m.addrs = .ok (some res, s) := by
  rw [sysOpenat, hfd] at hok
  dsimp only at hok
  obtain ⟨opened, hopen, -⟩ := bind_eq_ok.mp hok
  rw [filpOpenat_eq] at hopen
  obtain ⟨⟨found, s⟩, hpath, -⟩ := bind_eq_ok.mp hopen
  obtain ⟨res, rfl⟩ := parsePath_fdcwd hpath
  exact ⟨res, s, hpath⟩

/-! ### What `parse_path` found -/

/-- A file that is not there and not to be made. -/
theorem openFound_missing (t : FileTable) (hchild : res.child = none)
    (hstop : res.nextdir ≠ none ∨ flags &&& O_CREAT = 0) :
    openFound t res flags m current = .ok (.enoent, t) := by
  have hcond : ¬(res.child.isNone && res.nextdir.isNone && decide (flags &&& O_CREAT ≠ 0))
      = true := by
    rcases hstop with hnext | hflags
    · simp [hnext]
    · simp [hflags]
  rw [openFound, if_neg hcond, hchild]
  rfl

/-- A file that is not there, and is made. -/
theorem openFound_create (t : FileTable) (hchild : res.child = none) (hnext : res.nextdir = none)
    (hflags : flags &&& O_CREAT ≠ 0) :
    openFound t res flags m current =
      fileCreate t (charsAt res.curdir) res.curdirLen res.parent m.buf m.inode
        m.dentry m.pad current >>= fun r => .ok (r.1.elim .null .file, r.2) := by
  rw [openFound, if_pos (by simp [hchild, hnext, hflags])]
  congr 1
  funext r
  obtain ⟨f, t'⟩ := r
  cases f <;> rfl

/-- A file that is there gets a slot of the table. -/
theorem openFound_child (t : FileTable) {c : Nat} (hchild : res.child = some c)
    (hnext : res.nextdir = none) :
    openFound t res flags m current = deref (getFreeFileOfTable t) >>= fun f =>
      .ok (.file f, { t with file := Function.update t.file f ⟨atomicInc (t.file f).count,
      0, c⟩ }) := by
  rw [openFound, if_neg (by simp [hchild]), hchild, hnext]
  rfl

/-- A file that is there with a slash behind it is a `PANIC`. -/
theorem openFound_slash (t : FileTable) (hchild : res.child ≠ none) (hnext : res.nextdir ≠ none) :
    openFound t res flags m current = .error .panic := by
  obtain ⟨c, hc⟩ := Option.ne_none_iff_exists'.mp hchild
  obtain ⟨next, hn⟩ := Option.ne_none_iff_exists'.mp hnext
  rw [openFound, if_neg (by simp [hc]), hc, hn]
  rfl

/-! ### A call that keeps the promise -/

section
variable (hwidth : st.files.openFds < 2 ^ 32)
  (hready : BitmapReady st.table.dirs.fs.part.sb st.table.dirs.fs.part.blockBitmap)
  (hfit : BitsFit st.table.dirs.fs.part.sb st.table.dirs.fs.part.blockBitmap)

include hwidth hready hfit

/-- A call that keeps the promise is in one of these cases, with what it needs. -/
theorem AllOrNothing.opensOk (hlock : st.table.dirs.fs.part.inodeBitmap.lock = mutexLockInit)
    (hnew : ∀ res s, parsePath st.table.dirs root cwd .fdcwd path m.bufs m.addrs
    = .ok (some res, s) →
      m.inode ≠ (s.dentry res.parent).inode)
    (hall : AllOrNothing st root cwd path flags tmp buf m current) :
    OpensOk st root cwd path flags m current := by
  obtain ⟨ret, st', hok, -, hor⟩ := hall
  cases hfd : allocFd st.files with
  | none => exact .inl (allocFd_none.mp hfd)
  | some r =>
      obtain ⟨fd, files⟩ := r
      obtain ⟨res, s, hpath⟩ := sysOpenat_parses hfd hok
      refine .inr ⟨res, s, hpath, ?_⟩
      rw [sysOpenat_some flags tmp buf current hfd hwidth hpath] at hok
      obtain ⟨⟨f, table⟩, hfound, hres⟩ := bind_eq_ok.mp hok
      by_cases hchild : res.child = none
      · by_cases hstop : res.nextdir ≠ none ∨ flags &&& O_CREAT = 0
        · exact .inl ⟨hchild, hstop⟩
        · obtain ⟨hnext, hflags⟩ := not_or.mp hstop
          rw [not_ne_iff] at hnext
          rw [openFound_create _ hchild hnext hflags] at hfound
          obtain ⟨⟨slot, table'⟩, hcreate, hslot⟩ := bind_eq_ok.mp hfound
          cases hslot
          cases slot with
          | none =>
              -- `NULL` is stored for the descriptor
              cases hres
              rcases hor with ⟨fd', hret, hopened⟩ | ⟨hneg, -⟩
              · obtain ⟨f, hf, -⟩ := hopened.slot
                have heq : fd = fd' := Int.ofNat.inj hret
                subst heq
                have hnone : Function.update files.fdArray fd none fd = some f := hf
                rw [Function.update_self] at hnone
                cases hnone
              · have hneg' : (fd : Int) < 0 := hneg
                omega
          | some slot =>
              have hpart := parsePath_part hpath
              obtain ⟨hfree, htakes⟩ := fileCreate_needs (t := { st.table with dirs := s })
                (by rw [hpart]; exact hlock) (by rw [hpart]; exact hready)
                (by rw [hpart]; exact hfit) (hnew res s hpath) hcreate
              exact .inr (.inr ⟨hchild, hnext, hflags, hfree, htakes⟩)
      · by_cases hnext : res.nextdir = none
        · refine .inr (.inl ⟨hchild, hnext, fun hnone => ?_⟩)
          obtain ⟨c, hc⟩ := Option.ne_none_iff_exists'.mp hchild
          have hnone' : getFreeFileOfTable { st.table with dirs := s } = none := hnone
          rw [openFound_child _ hc hnext, hnone'] at hfound
          cases hfound
        · rw [openFound_slash _ hchild hnext] at hfound
          cases hfound

omit hwidth hready hfit in
/-- The slot of a file that is opened. -/
theorem opened_installed {table : FileTable} {f d : Nat} (hfd : allocFd st.files = some (fd, files))
    (hslot : getFreeFileOfTable st.table = some f) (hd : d ≠ 0)
    (hfile : table.file = Function.update st.table.file f
    ⟨atomicInc (st.table.file f).count, 0, d⟩) :
    Opened st (installed st fd files table (some f)).2 fd := by
  obtain ⟨hlt, hfree, hlowest, rfl⟩ := allocFd_some hfd
  obtain ⟨hf, hzero⟩ := getFreeFileOfTable_some hslot
  refine ⟨hlt, hfree, hlowest, rfl, f, Function.update_self _ _ _, hf, hzero, ?_, ?_⟩
  · show 1 ≤ (table.file f).count
    rw [hfile, Function.update_self, hzero]
    exact (by decide : (1 : Int) ≤ atomicInc 0)
  · show (table.file f).fDentry ≠ 0
    rw [hfile, Function.update_self]
    exact hd

/-- And what it needs is enough. -/
theorem TreeOk.allOrNothing {T : CacheTree} {ps : List Nat} (h : TreeOk st.table.dirs root T ps)
    (hcwd : T.node cwd)
    (hfresh : FreshAddrs T ps (newAddrs m.addrs [(m.inode, m.dentry), (0, 0)] path.chars.length))
    (hfits : FieldFits st root cwd path flags m) (hopens : OpensOk st root cwd path flags m current)
    (tmp buf : Nat) :
    AllOrNothing st root cwd path flags tmp buf m current := by
  cases hfd : allocFd st.files with
  | none => exact ⟨-1, st, sysOpenat_none hfd, rfl,
      .inr ⟨by decide, rfl, fun _ => rfl, fun _ => rfl⟩⟩
  | some r =>
      obtain ⟨fd, files⟩ := r
      rcases hopens with hfull | ⟨res, s, hpath, hfound⟩
      · rw [allocFd_none.mpr hfull] at hfd
        cases hfd
      have hshort := hfits (by simp [hfd]) res s hpath
      obtain ⟨T₁, ps₁, h₁, hfresh₁, hparent, hnode⟩ :=
        h.parsed hcwd hfresh (fun hchild => hshort (.inl hchild)) hpath
      have hnull : ¬T₁.node 0 := (hfresh₁.dentry (0, 0) (by simp)).2
      have hpart := parsePath_part hpath
      have hcall := sysOpenat_some flags tmp buf current hfd hwidth hpath
      -- A name is missing on the way, the file is there, or it is made.
      rcases hfound with ⟨hchild, hstop⟩ | ⟨hchild, hnext, hslot⟩ |
        ⟨hchild, hnext, hflags, hslot, htakes⟩
      · rw [openFound_missing _ hchild hstop, ok_bind] at hcall
        refine ⟨_, _, hcall, rfl, .inr ⟨by decide, rfl, fun _ => rfl, fun k => ?_⟩⟩
        show s.fs.part.inodeBitmap.bit k = _
        rw [hpart]
      · obtain ⟨c, hc⟩ := Option.ne_none_iff_exists'.mp hchild
        obtain ⟨f, hf⟩ := Option.ne_none_iff_exists'.mp hslot
        have hf' : getFreeFileOfTable { st.table with dirs := s } = some f := hf
        have hc0 : c ≠ 0 := fun heq => hnull (heq ▸ hnode c hc)
        rw [openFound_child _ hc hnext, hf', deref_some, ok_bind, ok_bind] at hcall
        exact ⟨_, _, hcall, rfl, .inl ⟨fd, rfl, opened_installed hfd hf hc0 rfl⟩⟩
      · obtain ⟨f, hf⟩ := Option.ne_none_iff_exists'.mp hslot
        have hnew := hfresh₁.inode (m.inode, m.dentry) List.mem_cons_self
        have hd0 : m.dentry ≠ 0 := by
          have hapart := List.pairwise_cons.mp hfresh₁.apart
          exact (hapart.1 (0, 0) (by simp)).2.symm
        obtain ⟨t', hcreate, hfile⟩ :=
          fileCreate_returns (t := { st.table with dirs := s }) h₁ hparent
          hnew.1 hnew.2 (by rw [hpart]; exact hready) (by rw [hpart]; exact hfit) hf htakes
          (charsAt res.curdir) m.pad res.curdirLen m.dentry
        rw [openFound_create _ hchild hnext hflags, hcreate, ok_bind, ok_bind] at hcall
        exact ⟨_, _, hcall, rfl, .inl ⟨fd, rfl, opened_installed hfd hf hd0 hfile⟩⟩

end

end

/-- The first three slots of `file_table` and the first three descriptors are in use. -/
def rootOpen : OpenState where
  files := ⟨7, fun fd => if fd < 3 then some fd else none⟩
  table := ⟨rootSys, fun f => ⟨if f < 3 then 1 else 0, 0, 64⟩⟩
  heap := []

/-- The block bitmap of the example can be asked for a block. -/
theorem rootOpen_ready : BitmapReady rootOpen.table.dirs.fs.part.sb
    rootOpen.table.dirs.fs.part.blockBitmap :=
  ⟨rfl, rfl⟩

/-- Its clear bits are sectors of the partition. -/
theorem rootOpen_fit : BitsFit rootOpen.table.dirs.fs.part.sb
    rootOpen.table.dirs.fs.part.blockBitmap := by
  intro idx hidx _
  have hlt : idx < 8 * 512 := hidx
  show 516 + idx < 2 ^ 32
  omega

end Fizzos.Proofs
