import Fizzos.Kernel.ExecFiles
import Fizzos.Proofs.Create
import Fizzos.Proofs.ExecAreas
import Fizzos.Proofs.ExecReads
import Mathlib.Algebra.BigOperators.Group.Finset.Basic
import Mathlib.Algebra.Order.BigOperators.Group.Finset

/-!
# `Fizzos.Proofs.ExecFiles`: the slots that programs leave

Each call of `do_exec` takes a slot of `file_table` for the program. It gives the slot of the
program before back only when `map_file` is not `NULL`, and it sets `map_file` only then, too. So a
process that starts with `NULL` never gives a slot back (`execs_iff`), and it can execute only as
many programs as there are free slots (`Execs.le_free`).
-/

set_option autoImplicit false

namespace Fizzos.Proofs

open Fizzos.Fs
open Fizzos.Kernel
open Fizzos.Lib
open Fizzos.LibKernel
open Fizzos.Support

/-! ### The slots in use -/

/-- The number of slots of `file_table` in use. -/
def busySlots (file : Nat → File) : Nat :=
  ((Finset.range MAX_FILE_COUNT).filter fun i => 0 < (file i).count).card

section
variable {g : Nat → File} {f : Nat} {x : File}

/-- A slot that changes counts before and behind the change. -/
theorem busySlots_update (hf : f < MAX_FILE_COUNT) :
    busySlots (Function.update g f x) + (if 0 < (g f).count then 1 else 0)
      = busySlots g + if 0 < x.count then 1 else 0 := by
  have hmem : f ∈ Finset.range MAX_FILE_COUNT := Finset.mem_range.mpr hf
  have hothers : ∑ i ∈ (Finset.range MAX_FILE_COUNT).erase f,
        (if 0 < (Function.update g f x i).count then 1 else 0)
      = ∑ i ∈ (Finset.range MAX_FILE_COUNT).erase f, if 0 < (g i).count then 1 else 0 := by
    refine Finset.sum_congr rfl fun i hi => ?_
    rw [Function.update_of_ne (Finset.ne_of_mem_erase hi)]
  rw [busySlots, busySlots, Finset.card_filter, Finset.card_filter, ← Finset.add_sum_erase _ _ hmem,
    ← Finset.add_sum_erase _ _ hmem, hothers, Function.update_self]
  omega

/-- A slot behind the table does not count. -/
theorem busySlots_update_of_le (hf : MAX_FILE_COUNT ≤ f) :
    busySlots (Function.update g f x) = busySlots g := by
  rw [busySlots, busySlots]
  congr 1
  refine Finset.filter_congr fun i hi => ?_
  rw [Finset.mem_range] at hi
  rw [Function.update_of_ne (by omega)]

end

/-! ### Opening and closing -/

section
variable {t t' : FileTable} {root cwd f : Nat} {dirfd : DirFd} {path : Path} {flags : Nat}
    {m : OpenMem}
  {current : Tid}

/-- A file that is opened and not made takes a free slot. -/
theorem filpOpenat_file (hflags : flags &&& O_CREAT = 0)
    (h : filpOpenat t root cwd dirfd path flags m current = .ok (.file f, t')) :
    f < MAX_FILE_COUNT ∧ (t.file f).count = 0 ∧
      ∃ x : File, x.count = 1 ∧ t'.file = Function.update t.file f x := by
  obtain ⟨⟨found, dirs⟩, -, h⟩ := bind_eq_ok.mp h
  dsimp only at h
  rw [if_neg (by simp [hflags])] at h
  split at h
  · cases h
  · split at h
    · cases hfree : getFreeFileOfTable { t with dirs } with
      | none =>
          rw [hfree] at h
          cases h
      | some slot =>
          rw [hfree, deref_some, ok_bind] at h
          obtain ⟨hfile, rfl⟩ := Prod.mk.inj (Except.ok.inj h)
          obtain rfl := OpenedFile.file.inj hfile
          obtain ⟨hlt, hzero⟩ := getFreeFileOfTable_some hfree
          replace hzero : (t.file slot).count = 0 := hzero
          refine ⟨hlt, hzero, _, ?_, rfl⟩
          show atomicInc (t.file slot).count = 1
          rw [hzero]
          decide
    · cases h

/-- A path that is found opens a slot. -/
theorem filpOpenat_found {dirs : DirSys} {res : SearchRes} {child : Nat}
    (hparse : parsePath t.dirs root cwd dirfd path m.bufs m.addrs = .ok (some res, dirs))
    (hchild : res.child = some child) (hnext : res.nextdir = none)
    (hfree : getFreeFileOfTable ⟨dirs, t.file⟩ = some f) :
    filpOpenat t root cwd dirfd path flags m current = .ok (.file f,
      ⟨dirs, Function.update t.file f ⟨atomicInc (t.file f).count, 0, child⟩⟩) := by
  simp only [filpOpenat, hparse, ok_bind, Option.getD_some, hchild, hnext, Option.isNone_some,
    Option.isNone_none, Bool.false_and, Bool.false_eq_true, if_false, if_true, hfree, deref_some,
    pure_eq_ok]

theorem fileClose_file (h : fileClose t root f = .ok t') :
    0 < (t.file f).count ∧ ∃ x : File, x.count = wrap32 ((t.file f).count - 1) ∧
      t'.file = Function.update t.file f x := by
  obtain ⟨u, hpos, h⟩ := bind_eq_ok.mp h
  refine ⟨ASSERT_eq_ok.mp hpos, { t.file f with count := wrap32 ((t.file f).count - 1) }, rfl, ?_⟩
  dsimp only at h
  split at h
  · obtain ⟨dirs, -, h⟩ := bind_eq_ok.mp h
    obtain rfl := Except.ok.inj h
    rfl
  · obtain rfl := Except.ok.inj h
    rfl

end

/-! ### One program -/

/-- What a program does to `file_table` and to `map_file`: it takes the free slot `f`, and gives the
slot `old` of the program before back, if `map_file` is not `NULL`. -/
inductive Swapped (g g' : Nat → File) (f : Nat) (x : File) : Option Nat → Option Nat → Prop
  | kept (hfile : g' = Function.update g f x) : Swapped g g' f x none none
  | closed (old : Nat) (y : File) (hpos : 0 < (Function.update g f x old).count)
      (hcount : y.count = wrap32 ((Function.update g f x old).count - 1))
      (hfile : g' = Function.update (Function.update g f x) old y) :
      Swapped g g' f x (some old) (some f)

section
variable {st st' : ExecState} {t : FileTable} {c : ExecCall} {root : Nat} {f : FilesStruct}

theorem flushLoop_none (is : List Nat) : flushLoop root is 0 f t = .ok (0, f, t) := by
  induction is with
  | nil => rfl
  | cons i rest ih =>
      rw [flushLoop, if_neg (by rw [Nat.zero_and]; decide)]
      exact ih

/-- No file is closed by `flush_old_files`, as `close_on_exec` is never set. -/
theorem flushOldFiles_none (hcoe : f.closeOnExec = 0) : flushOldFiles t root f = .ok (f, t) := by
  rw [flushOldFiles, hcoe, flushLoop_none]
  show Except.ok ({ f with closeOnExec := 0 }, t) = Except.ok (f, t)
  rw [← hcoe]

theorem closeImage_swapped {t' : FileTable} {f' : FilesStruct} {g : Nat → File}
    {slot : Nat} {x : File}
    (hopen : t.file = Function.update g slot x) (h : closeImage t root f slot = .ok (f', t')) :
    f'.closeOnExec = f.closeOnExec ∧ Swapped g t'.file slot x f.mapFile f'.mapFile := by
  rw [closeImage] at h
  cases hmap : f.mapFile with
  | none =>
      rw [hmap] at h
      obtain ⟨rfl, rfl⟩ := Prod.mk.inj (Except.ok.inj h)
      rw [hmap]
      exact ⟨rfl, .kept hopen⟩
  | some old =>
      rw [hmap] at h
      obtain ⟨t₁, hold, h⟩ := bind_eq_ok.mp h
      obtain ⟨rfl, rfl⟩ := Prod.mk.inj (Except.ok.inj h)
      obtain ⟨hpos, y, hcount, hfile⟩ := fileClose_file hold
      rw [hopen] at hpos hcount hfile
      exact ⟨rfl, .closed old y hpos hcount hfile⟩

/-- The parts of a `do_exec` that starts the program: it opens `file`, the table is `t` then, loads
the program, and gives files back. -/
structure Started (st st' : ExecState) (c : ExecCall) (file : Nat) (t : FileTable) : Prop where
  opened : filpOpenat st.table c.root c.cwd .fdcwd c.path O_RDWR c.openMem c.current
    = .ok (.file file, t)
  loaded : ∃ x, doExec t.dirs.fs (t.dirs.dentry (t.file file).fDentry).inode file st.mm st.mem
    c.ioBuf = .ok x ∧ st'.mm = x.mm ∧ st'.mem = x.mem
  closed : ∃ files₁ t₁, flushOldFiles t c.root st.files = .ok (files₁, t₁) ∧
    closeImage t₁ c.root files₁ file = .ok (st'.files, st'.table)

theorem doExecve_ok (h : doExecve st c = .ok (0, st')) : ∃ file t, Started st st' c file t := by
  obtain ⟨⟨opened, t⟩, hopen, h⟩ := bind_eq_ok.mp h
  cases opened with
  | enoent =>
      have hret : (-2 : Int) = 0 := congrArg Prod.fst (Except.ok.inj h)
      exact absurd hret (by decide)
  | null => cases h
  | file file =>
      obtain ⟨⟨count, pos, mem⟩, hread, h⟩ := bind_eq_ok.mp h
      dsimp only at h
      split at h
      · cases h
      · rename_i hmagic
        obtain ⟨⟨f₁, t₁⟩, hflush, h⟩ := bind_eq_ok.mp h
        obtain ⟨⟨f₂, t₂⟩, hclose, h⟩ := bind_eq_ok.mp h
        obtain ⟨mm₁, hloop, h⟩ := bind_eq_ok.mp h
        obtain ⟨⟨ret, mm₂⟩, hstack, h⟩ := bind_eq_ok.mp h
        obtain rfl := (Prod.mk.inj (Except.ok.inj h)).2
        refine ⟨file, t, hopen, ⟨⟨eEntry mem, mm₂, mem⟩, ?_, rfl, rfl⟩, f₁, t₁, hflush, hclose⟩
        rw [doExec_eq hread, execMem, if_neg hmagic, hloop, ok_bind, hstack]
        rfl

/-- A program that starts takes a slot for itself. -/
theorem doExecve_files (hcoe : st.files.closeOnExec = 0) (h : doExecve st c = .ok (0, st')) :
    st'.files.closeOnExec = 0 ∧ ∃ f < MAX_FILE_COUNT, ∃ x : File, (st.table.file f).count = 0 ∧
      x.count = 1 ∧ Swapped st.table.file st'.table.file f x st.files.mapFile
        st'.files.mapFile := by
  obtain ⟨file, t, hstarted⟩ := doExecve_ok h
  obtain ⟨hlt, hzero, x, hone, hfile⟩ := filpOpenat_file (by decide) hstarted.opened
  obtain ⟨files₁, t₁, hflush, hclose⟩ := hstarted.closed
  rw [flushOldFiles_none hcoe] at hflush
  obtain ⟨rfl, rfl⟩ := Prod.mk.inj (Except.ok.inj hflush)
  obtain ⟨hkeep, hswap⟩ := closeImage_swapped hfile hclose
  exact ⟨hkeep.trans hcoe, file, hlt, x, hzero, hone, hswap⟩

end

/-! ### One program after the other -/

/-- A run of `n` programs, one after the other, from the first state to the second. Between two
calls of `do_exec` other code may run that does no file operation. -/
inductive Execs : Nat → ExecState → ExecState → Prop
  | start (st : ExecState) : Execs 0 st st
  | exec {n : Nat} {st st₁ st₂ st' : ExecState} {c : ExecCall} (h : Execs n st st₁)
      (htable : st₂.table.file = st₁.table.file) (hfiles : st₂.files = st₁.files)
      (hret : doExecve st₂ c = .ok (0, st')) : Execs (n + 1) st st'

/-- One slot is free behind the next program: the one of the program that runs. -/
def lastImage (g : Nat → File) : Option Nat → Nat
  | some f => if f < MAX_FILE_COUNT ∧ (g f).count = 1 then 1 else 0
  | none => 0

section
variable {n f : Nat} {g g' : Nat → File} {x : File} {mapFile mapFile' : Option Nat}

theorem lastImage_le (g : Nat → File) (mapFile : Option Nat) : lastImage g mapFile ≤ 1 := by
  cases mapFile with
  | none => exact Nat.zero_le 1
  | some f =>
      rw [lastImage]
      split <;> omega

/-- Without `map_file` a program takes a slot. -/
theorem Swapped.busy_succ (h : Swapped g g' f x none mapFile') (hf : f < MAX_FILE_COUNT)
    (hzero : (g f).count = 0) (hone : x.count = 1) :
    mapFile' = none ∧ busySlots g' = busySlots g + 1 := by
  cases h with
  | kept hfile =>
      have hopen := busySlots_update (g := g) (x := x) hf
      rw [hzero, hone, if_neg (by decide), if_pos (by decide)] at hopen
      rw [hfile]
      exact ⟨rfl, hopen⟩

/-- With `map_file` the number of slots in use stays below a bound that has room for the program
that runs. -/
theorem Swapped.busy_le {old K : Nat} (h : Swapped g g' f x (some old) mapFile')
    (hf : f < MAX_FILE_COUNT)
    (hzero : (g f).count = 0) (hone : x.count = 1)
    (hle : busySlots g ≤ K + lastImage g (some old)) :
    mapFile' = some f ∧ busySlots g' ≤ K + lastImage g' (some f) := by
  cases h with
  | closed old y hpos hcount hfile =>
      refine ⟨rfl, ?_⟩
      have hopen := busySlots_update (g := g) (x := x) hf
      rw [hzero, hone, if_neg (by decide), if_pos (by decide)] at hopen
      by_cases hsame : old = f
      · -- the free slot is the one of `map_file`: it is taken and given back
        subst hsame
        rw [Function.update_self, hone] at hcount
        replace hcount : y.count = 0 := hcount.trans (by decide)
        have hclose := busySlots_update (g := Function.update g old x) (x := y) hf
        rw [Function.update_self, hone, hcount, if_pos (by decide), if_neg (by decide)] at hclose
        rw [lastImage, if_neg (by rw [hzero]; omega)] at hle
        rw [hfile]
        omega
      · rw [Function.update_of_ne hsame] at hpos hcount
        -- `map_file` holds the only reference to the slot of the new program.
        have hlast : lastImage g' (some f) = 1 := by
          rw [lastImage, hfile, Function.update_of_ne (Ne.symm hsame), Function.update_self]
          exact if_pos ⟨hf, hone⟩
        rw [hlast, hfile]
        by_cases hold : old < MAX_FILE_COUNT
        · have hclose := busySlots_update (g := Function.update g f x) (x := y) hold
          rw [Function.update_of_ne hsame, if_pos hpos] at hclose
          rw [lastImage] at hle
          by_cases hlastRef : (g old).count = 1
          · -- the last reference: the slot is free again
            rw [hlastRef] at hcount
            replace hcount : y.count = 0 := hcount.trans (by decide)
            rw [hcount, if_neg (by decide)] at hclose
            rw [if_pos ⟨hold, hlastRef⟩] at hle
            omega
          · rw [if_neg fun h => hlastRef h.2] at hle
            split at hclose <;> omega
        · rw [busySlots_update_of_le (Nat.le_of_not_lt hold)]
          rw [lastImage, if_neg fun h => hold h.1] at hle
          omega

end

section
variable {n : Nat} {st st' : ExecState}

/-- Without `map_file` each program takes a slot. -/
theorem Execs.busy_none (h : Execs n st st') (hcoe : st.files.closeOnExec = 0)
    (hnone : st.files.mapFile = none) :
    st'.files.closeOnExec = 0 ∧ st'.files.mapFile = none ∧
      busySlots st'.table.file = busySlots st.table.file + n := by
  induction h with
  | start => exact ⟨hcoe, hnone, rfl⟩
  | exec h htable hfiles hret ih =>
      obtain ⟨hcoe₁, hnone₁, hbusy⟩ := ih hcoe hnone
      rw [← hfiles] at hcoe₁ hnone₁
      obtain ⟨hcoe', f, hf, x, hzero, hone, hswap⟩ := doExecve_files hcoe₁ hret
      rw [hnone₁] at hswap
      obtain ⟨hnone', hsucc⟩ := hswap.busy_succ hf hzero hone
      exact ⟨hcoe', hnone', by rw [hsucc, htable, hbusy, Nat.add_assoc]⟩

/-- With `map_file` all programs together have one slot. -/
theorem Execs.busy_some (h : Execs n st st') (hcoe : st.files.closeOnExec = 0)
    (hsome : st.files.mapFile ≠ none) :
    st'.files.closeOnExec = 0 ∧ st'.files.mapFile ≠ none ∧
      busySlots st'.table.file ≤ busySlots st.table.file + lastImage st'.table.file
      st'.files.mapFile := by
  induction h with
  | start => exact ⟨hcoe, hsome, Nat.le_add_right _ _⟩
  | exec h htable hfiles hret ih =>
      obtain ⟨hcoe₁, hsome₁, hbusy⟩ := ih hcoe hsome
      rw [← hfiles] at hcoe₁ hsome₁ hbusy
      rw [← htable] at hbusy
      obtain ⟨hcoe', f, hf, x, hzero, hone, hswap⟩ := doExecve_files hcoe₁ hret
      obtain ⟨old, hold⟩ := Option.ne_none_iff_exists'.mp hsome₁
      rw [hold] at hswap hbusy
      obtain ⟨hmap', hbusy'⟩ := hswap.busy_le hf hzero hone hbusy
      rw [hmap']
      exact ⟨hcoe', by simp, hbusy'⟩

/-- The programs of a process take at most one slot more than before when there is one of them, or
when the process has a `map_file` to start with. In all other cases each program keeps a slot. -/
theorem execs_iff (h : Execs n st st') (hcoe : st.files.closeOnExec = 0) :
    busySlots st'.table.file ≤ busySlots st.table.file + 1 ↔ n ≤ 1 ∨ st.files.mapFile ≠ none := by
  by_cases hnone : st.files.mapFile = none
  · have hbusy := (h.busy_none hcoe hnone).2.2
    rw [hbusy]
    constructor
    · intro hle
      exact .inl (by omega)
    · rintro (hle | hsome)
      · omega
      · exact absurd hnone hsome
  · have hbusy := (h.busy_some hcoe hnone).2.2
    have hlast := lastImage_le st'.table.file st'.files.mapFile
    exact iff_of_true (by omega) (.inr hnone)

end

/-! ### The program `/init`

The file has four empty program headers, so only the stack is mapped. -/

/-- The path `/init`. -/
def initPath : Path := ⟨[0x2f, 0x69, 0x6e, 0x69, 0x74], by decide, by decide⟩
/-- The name `init`. -/
def initName : List (BitVec 8) := [0x69, 0x6e, 0x69, 0x74]
/-- The root directory with a program `init` in the cache. -/
structure HasInit (s : DirSys) : Prop where
  fs : s.fs = smallFile 4096 (emptyHeaders 4)
  head : (s.dentry 0).dSubdirs.head = some 1
  fname : (s.dentry 1).fname = charsAt initName
  inode : (s.dentry 1).inode = 0

theorem findCached_first {dentry : Nat → Dentry} {children : Links Nat} {dname : Bytes}
    {len n d : Nat} (h : strncmp (dentry d).fname dname len = 0) (hn : 0 < n) :
    findCached dentry children dname len n (some d) = .ok (some d) := by
  cases n with
  | zero => omega
  | succ n => rw [findCached, if_pos h]

theorem parsePath_init {s : DirSys} (h : HasInit s) (bufs : Nat → Bytes) (addrs : Nat → Nat × Nat) :
    parsePath s 0 0 .fdcwd initPath bufs addrs
      = .ok (some ⟨0, some 1, initName, 4, none⟩,
          s.setDentry 1 { s.dentry 1 with count := atomicInc (s.dentry 1).count }) := by
  have hfind : findCached s.dentry s.dChild (charsAt initName) 4 LIST_WALK
      (s.dentry 0).dSubdirs.head = .ok (some 1) := by
    rw [h.head]
    refine findCached_first ?_ (by decide)
    rw [h.fname]
    decide +kernel
  have hsearch : searchDentry s 0 (charsAt initName) 4 (bufs 4) (addrs 4).1 (addrs 4).2
      = .ok (some 1, s.setDentry 1 { s.dentry 1 with count := atomicInc (s.dentry 1).count }) := by
    rw [searchDentry, if_neg (by decide), if_neg (by decide), hfind]
    rfl
  have hloop : parseLoop bufs addrs 5 s ⟨0, some 0, initName, 0, some initName⟩
      = .ok (⟨0, some 1, initName, 4, none⟩,
          s.setDentry 1 { s.dentry 1 with count := atomicInc (s.dentry 1).count }) := by
    have hstep : parseLoop bufs addrs 5 s ⟨0, some 0, initName, 0, some initName⟩
        = searchDentry s 0 (charsAt initName) 4 (bufs 4) (addrs 4).1 (addrs 4).2 >>= fun r =>
            parseLoop bufs addrs 4 r.2 ⟨0, r.1, initName, 4, none⟩ := rfl
    rw [hstep, hsearch]
    rfl
  have hpath : parsePath s 0 0 .fdcwd initPath bufs addrs
      = parseLoop bufs addrs 5 s ⟨0, some 0, initName, 0, some initName⟩ >>= fun r =>
          pure (some r.1, r.2) := rfl
  rw [hpath, hloop]
  rfl

/-- The program of `/init` has no segments. -/
theorem emptyHeaders_segments (mem : Bytes) :
    segments (elfHead 4096 (emptyHeaders 4) mem) = [] := by
  have hphoff : ePhoff (elfHead 4096 (emptyHeaders 4) mem) = 52 := rfl
  have hphnum : ePhnum (elfHead 4096 (emptyHeaders 4) mem) = 4 := rfl
  rw [segments, List.filterMap_eq_nil_iff]
  intro i hi
  rw [hphnum, List.mem_range] at hi
  have hoff : pheadOff (elfHead 4096 (emptyHeaders 4) mem) i = 52 + 32 * i := by
    rw [pheadOff, hphoff, SIZEOF_PHDR, Nat.mul_comm]
  have htype : (phead (elfHead 4096 (emptyHeaders 4) mem) i).pType = 0 := by
    show load32 (atHead _) (pheadOff _ i) = 0
    rw [hoff]
    refine loadLE_eq_zero fun k hlo hhi => ?_
    rw [atHead, elfHead, Nat.mod_eq_of_lt (by omega), if_pos (by omega)]
    exact List.getD_eq_default _ _ (by simp only [List.length_cons, List.length_nil]; omega)
  rw [Phdr.segment, if_neg (mt And.left (by rw [htype]; decide))]

/-- The state of a process that executes `/init`. -/
structure RunsInit (st : ExecState) : Prop where
  dirs : HasInit st.table.dirs
  free : ∃ f, getFreeFileOfTable st.table = some f
  mapFile : st.files.mapFile = none
  closeOnExec : st.files.closeOnExec = 0
  pgDir : st.mm.pgDir = 0

/-- The call `execve("/init", …)`. -/
def initCall : ExecCall where
  path := initPath
  root := 0
  cwd := 0
  openMem := ⟨fun _ _ => 0, fun _ => (0, 0), ⟨0, none, [], 0, none⟩, fun _ => 0, 0, 0, fun _ => 0⟩
  ioBuf := fun _ => 0
  current := 0

/-- `/init` starts, and leaves all but one slot alone. -/
theorem doExecve_init {st : ExecState} (h : RunsInit st) : ∃ st' f x,
    doExecve st initCall = .ok (0, st') ∧ HasInit st'.table.dirs ∧ st'.files = st.files ∧
      st'.mm.pgDir = 0 ∧ st'.table.file = Function.update st.table.file f x := by
  obtain ⟨f, hfree⟩ := h.free
  have hparse := parsePath_init h.dirs initCall.openMem.bufs initCall.openMem.addrs
  generalize hdirs : st.table.dirs.setDentry 1
    { st.table.dirs.dentry 1 with count := atomicInc (st.table.dirs.dentry 1).count }
    = dirs at hparse
  have hinit : HasInit dirs := by
    rw [← hdirs]
    exact ⟨h.dirs.fs, h.dirs.head, h.dirs.fname, h.dirs.inode⟩
  -- the slot gets the dentry of `/init`
  have hopen : filpOpenat st.table 0 0 .fdcwd initPath O_RDWR initCall.openMem 0
      = .ok (.file f, ⟨dirs, Function.update st.table.file f
      ⟨atomicInc (st.table.file f).count, 0, 1⟩⟩) :=
    filpOpenat_found hparse rfl rfl hfree
  generalize htable : (⟨dirs, Function.update st.table.file f ⟨atomicInc (st.table.file f).count,
    0, 1⟩⟩ : FileTable)
    = table at hopen
  have hinode : (table.dirs.dentry (table.file f).fDentry).inode = 0 := by
    rw [← htable]
    show (dirs.dentry (Function.update st.table.file f _ f).fDentry).inode = 0
    rw [Function.update_self]
    exact hinit.inode
  have hfs : table.dirs.fs = smallFile 4096 (emptyHeaders 4) := by
    rw [← htable]
    exact hinit.fs
  have hread := execRead (emptyHeaders_content 4) st.mem (fun _ => 0)
  have hmagic : memcmp (elfHead 4096 (emptyHeaders 4) st.mem) elfMagic 16 = 0 := rfl
  have hloop : phdrLoop (elfHead 4096 (emptyHeaders 4) st.mem) f
      (List.range (ePhnum (elfHead 4096 (emptyHeaders 4) st.mem))) ⟨[], 0⟩ = .ok ⟨[], 0⟩ := by
    have hsegments := emptyHeaders_segments st.mem
    rw [segments] at hsegments
    rw [phdrLoop_eq, hsegments]
    rfl
  have hmm : ({ st.mm with mmap := [] } : MmStruct) = ⟨[], 0⟩ := by rw [← h.pgDir]
  have hstack : doMmap ⟨[], 0⟩ none (TASK_SIZE - PG_SIZE * 2) (PG_SIZE * 2) 0 0
      = .ok (0, ⟨[stackOf], 0⟩) := by decide
  have hclose : closeImage table 0 st.files f = .ok (st.files, table) := by
    rw [closeImage, h.mapFile]
    rfl
  refine ⟨⟨table, st.files, ⟨[stackOf], 0⟩, elfHead 4096 (emptyHeaders 4) st.mem⟩, f,
    ⟨atomicInc (st.table.file f).count, 0, 1⟩, ?_, ?_, rfl, rfl, ?_⟩
  · rw [doExecve]
    show filpOpenat st.table 0 0 .fdcwd initPath O_RDWR initCall.openMem 0 >>= _ = _
    rw [hopen, ok_bind]
    dsimp only
    rw [hinode, hfs]
    show fileRead _ 0 st.mem 200 0 (fun _ => 0) >>= _ = _
    rw [hread, ok_bind]
    dsimp only
    rw [if_neg (not_not_intro hmagic)]
    show flushOldFiles table 0 st.files >>= _ = _
    rw [flushOldFiles_none h.closeOnExec, ok_bind]
    dsimp only
    show closeImage table 0 st.files f >>= _ = _
    rw [hclose, ok_bind]
    dsimp only
    rw [hmm, hloop, ok_bind, hstack]
    rfl
  · rw [← htable]
    exact hinit
  · rw [← htable]

/-- The first process: three open files and no program. -/
def initProcess : ExecState where
  table :=
    { dirs :=
        { fs := smallFile 4096 (emptyHeaders 4)
          dentry := fun d =>
            if d = 0 then ⟨1, 0, charsAt [0x2f], 1, 0, ⟨some 1, some 1⟩⟩
            else ⟨1, 0, charsAt initName, 4, 0, listInit⟩
          dChild := fun _ => ⟨none, none⟩ }
      file := fun i => ⟨if i < 3 then 1 else 0, 0, 0⟩ }
  files := ⟨none, 0, 0b111, id⟩
  mm := ⟨[], 0⟩
  mem := fun _ => 0

/-- It executes `/init` once, and then once more. -/
theorem initProcess_execs : ∃ st₁ st₂, Execs 1 initProcess st₁ ∧ Execs 2 initProcess st₂ := by
  have hfree : ∃ f, getFreeFileOfTable initProcess.table = some f :=
    getFreeFileOfTable_isSome (f := 3) (by decide) rfl
  have hruns : RunsInit initProcess := ⟨⟨rfl, rfl, rfl, rfl⟩, hfree, rfl, rfl, rfl⟩
  obtain ⟨st₁, f, x, hret₁, hdirs₁, hfiles₁, hpgDir₁, hfile₁⟩ := doExecve_init hruns
  have h₁ : Execs 1 initProcess st₁ := .exec (.start _) rfl rfl hret₁
  -- the slots 3 and 4 were free, and one of them still is
  have hfree₁ : ∃ f, getFreeFileOfTable st₁.table = some f := by
    by_cases hthree : f = 3
    · refine getFreeFileOfTable_isSome (f := 4) (by decide) ?_
      rw [hfile₁, Function.update_of_ne (by omega)]
      rfl
    · refine getFreeFileOfTable_isSome (f := 3) (by decide) ?_
      rw [hfile₁, Function.update_of_ne (Ne.symm hthree)]
      rfl
  obtain ⟨st₂, -, -, hret₂, -⟩ :=
    doExecve_init ⟨hdirs₁, hfree₁, by rw [hfiles₁]; rfl, by rw [hfiles₁]; rfl, hpgDir₁⟩
  exact ⟨st₁, st₂, h₁, .exec h₁ rfl rfl hret₂⟩

/-- One program takes one slot. -/
theorem execs_iff_one : ∃ st', Execs 1 initProcess st' ∧
    busySlots st'.table.file ≤ busySlots initProcess.table.file + 1 := by
  obtain ⟨st', -, h, -⟩ := initProcess_execs
  exact ⟨st', h, (execs_iff h rfl).mpr (.inl (Nat.le_refl 1))⟩

/-- Two programs take two slots. `map_file` is `NULL` at the start, and `do_exec` stores the new
program in it only when it is not, so no program is ever closed. -/
theorem execs_two :
    ¬∀ (n : Nat) (st st' : ExecState), st.files.closeOnExec = 0 → st.files.mapFile = none →
      Execs n st st' → busySlots st'.table.file ≤ busySlots st.table.file + 1 := by
  intro hall
  obtain ⟨-, st', -, h⟩ := initProcess_execs
  have hle := hall 2 initProcess st' rfl rfl h
  rw [(h.busy_none rfl rfl).2.2] at hle
  omega

end Fizzos.Proofs
