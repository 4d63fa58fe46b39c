import Fizzos.Fs.ThreadFiles
import Fizzos.Proofs.KnownDentries
import Fizzos.Proofs.Transfers
import Fizzos.Support.Sharing
import Mathlib.Order.Interval.Finset.Nat

/-!
# `Fizzos.Proofs.ThreadFiles`: which descriptors a thread can read and write

Slots 0, 1 and 2 of `file_table` are never free once there is a thread, so no file gets them. Slots
0 and 1 have a count that `file_init` made. The count of slot 2 is the number of processes that have
their descriptor 2 from the start, and the last of them cannot close it: `dentry_close` would follow
its `f_dentry`.

So an open descriptor is a standard one, or it has a slot with a known dentry (`StdFilesOk`). The
standard ones have no dentry, and a transfer knows one device only: `sys_read` takes the screen and
`sys_write` the keyboard for a file, and both do so with slot 2 (`transfers_safe_iff`).
-/

set_option autoImplicit false

namespace Fizzos.Proofs

open Fizzos.Device
open Fizzos.Fs
open Fizzos.Kernel
open Fizzos.LibKernel
open Fizzos.Support

/-! ### The invariant -/

/-- The slot of a descriptor that is open. -/
def openSlot (files : Option FdTable) (fd : Nat) : Option Nat :=
  files.bind fun files => if files.openFds.testBit fd = true then files.fdArray fd else none

/-- The addresses of kernel memory. -/
def kernelAddrs : Finset Nat := Finset.Ico KERNEL_VADDR_START (2 ^ 32)

/-- The descriptor `fd` of each process. -/
def descriptorAt (files : Nat → Option FdTable) (fd : Nat) : Sharing Nat Nat where
  dom := kernelAddrs
  frame addr := openSlot (files addr) fd
  writable _ := True

/-- The references to a standard slot that no descriptor has. -/
def initCount (k : Nat) : Int := if k = 2 then 0 else 1

/-- A descriptor has its standard slot, or a slot with a known dentry. -/
def SlotOk (t : FileTable) (K : Set Nat) (fd f : Nat) : Prop :=
  (f < 3 ∧ fd = f) ∨ (3 ≤ f ∧ (t.file f).fDentry ∈ K)

/-- The descriptors of a process. -/
structure FdsOk (t : FileTable) (K : Set Nat) (files : FdTable) : Prop where
  width : files.openFds < 2 ^ 32
  slot : ∀ fd f, files.fdArray fd = some f → SlotOk t K fd f

/-- The invariant. `K` has the dentries that are known. -/
structure StdFilesOk (rootDir : Nat) (s : ThreadFiles) (K : Set Nat) : Prop where
  known : Known s.table.dirs K
  root : rootDir ∈ K
  fMode : s.fMode = fileInit.2
  addr : ∀ addr, s.files addr ≠ none → addr ∈ kernelAddrs
  fds : ∀ addr files, s.files addr = some files → FdsOk s.table K files
  std : ∀ k < 3, (s.table.file k).fDentry = 0
  count : ∀ k < 3, (s.table.file k).count = initCount k + (descriptorAt s.files k).refs k
  inUse : ∀ addr, s.files addr ≠ none → 0 < (s.table.file 2).count

/-- What an action does to the tables and to one process, which has the descriptors `old` before. -/
structure ActOk (t t' : FileTable) (old : Option FdTable) (files : FdTable) (K K' : Set Nat) :
    Prop where
  sub : K ⊆ K'
  known : Known t'.dirs K'
  std : ∀ k < 3, (t'.file k).fDentry = 0
  other : ∀ f, 3 ≤ f → (t.file f).fDentry ∈ K → (t'.file f).fDentry ∈ K'
  fds : FdsOk t' K' files
  balance : ∀ k < 3, (t'.file k).count + (if openSlot old k = some k then 1 else 0)
    = (t.file k).count + (if openSlot (some files) k = some k then 1 else 0)
  inUse : 0 < (t'.file 2).count

section
variable {rootDir addr : Nat} {s : ThreadFiles} {t t' : FileTable} {files files' : FdTable}
  {old : Option FdTable} {K K' : Set Nat}

/-- An open descriptor has its bit in the mask, and its slot in the array. -/
theorem openSlot_eq_some {fd f : Nat} : openSlot (some files) fd = some f ↔
    files.openFds.testBit fd = true ∧ files.fdArray fd = some f := by
  rw [openSlot, Option.bind_some]
  split
  next hset => exact ⟨fun h => ⟨hset, h⟩, fun h => h.2⟩
  next hclear => exact iff_of_false (by simp) fun h => hclear h.1

/-- The standard slots. -/
theorem lt_three {k : Nat} (hk : k < 3) : k = 0 ∨ k = 1 ∨ k = 2 := by omega

/-- No more processes than there are addresses in kernel memory. -/
theorem refs_bound (k : Nat) : (descriptorAt s.files k).refs k ≤ 2 ^ 30 := by
  refine (Sharing.refs_le _ k).trans ?_
  rw [show (descriptorAt s.files k).dom = kernelAddrs from rfl, kernelAddrs, Nat.card_Ico,
    KERNEL_VADDR_START]
  decide

/-- The counts of the standard files are far from the ends of an `int`. -/
theorem StdFilesOk.count_range (h : StdFilesOk rootDir s K) {k : Nat} (hk : k < 3) :
    0 ≤ (s.table.file k).count ∧ (s.table.file k).count ≤ 1 + 2 ^ 30 := by
  have hbound := refs_bound (s := s) k
  have hcount := h.count k hk
  rw [initCount] at hcount
  split at hcount
  next => omega
  next => omega

/-- The standard slots are not free. -/
theorem StdFilesOk.count_pos (h : StdFilesOk rootDir s K) (haddr : s.files addr ≠ none) {k : Nat}
    (hk : k < 3) : 0 < (s.table.file k).count := by
  by_cases hthird : k = 2
  · rw [hthird]
    exact h.inUse addr haddr
  · have hcount := h.count k hk
    rw [initCount, if_neg hthird] at hcount
    omega

/-- The invariant behind an action on one process. -/
theorem StdFilesOk.act (h : StdFilesOk rootDir s K) (hdom : addr ∈ kernelAddrs)
    (hact : ActOk s.table t' (s.files addr) files' K K') {s' : ThreadFiles} (htable : s'.table = t')
    (hmode : s'.fMode = s.fMode) (hfiles : s'.files = Function.update s.files addr (some files')) :
    StdFilesOk rootDir s' K' where
  known := htable ▸ hact.known
  root := hact.sub h.root
  fMode := hmode.trans h.fMode
  addr b hb := by
    by_cases hba : b = addr
    · rw [hba]
      exact hdom
    · rw [hfiles, Function.update_of_ne hba] at hb
      exact h.addr b hb
  fds b files hb := by
    rw [hfiles] at hb
    rw [htable]
    by_cases hba : b = addr
    · rw [hba, Function.update_self] at hb
      exact Option.some.inj hb ▸ hact.fds
    · rw [Function.update_of_ne hba] at hb
      have hold := h.fds b files hb
      refine ⟨hold.width, fun fd f hf => ?_⟩
      exact (hold.slot fd f hf).imp id fun hslot => ⟨hslot.1, hact.other f hslot.1 hslot.2⟩
  std := htable ▸ hact.std
  count k hk := by
    have hself : (descriptorAt s'.files k).frame addr = openSlot (some files') k := by
      show openSlot (s'.files addr) k = _
      rw [hfiles, Function.update_self]
    have hother : ∀ b, b ≠ addr →
        (descriptorAt s'.files k).frame b = (descriptorAt s.files k).frame b := by
      intro b hb
      show openSlot (s'.files b) k = openSlot (s.files b) k
      rw [hfiles, Function.update_of_ne hb]
    have hsame : (descriptorAt s'.files k).dom = (descriptorAt s.files k).dom := rfl
    have hdom' : addr ∈ (descriptorAt s.files k).dom := hdom
    have hrefs : (descriptorAt s'.files k).refs k
        + (if openSlot (s.files addr) k = some k then 1 else 0)
          = (descriptorAt s.files k).refs k
            + (if (descriptorAt s'.files k).frame addr = some k then 1 else 0) :=
      Sharing.refs_change hsame hdom' hother k
    rw [hself] at hrefs
    -- the count and the references change by the same
    have hrefs' : ((descriptorAt s'.files k).refs k : Int)
        + (if openSlot (s.files addr) k = some k then 1 else 0)
          = (descriptorAt s.files k).refs k +
          (if openSlot (some files') k = some k then 1 else 0) := by
      exact_mod_cast hrefs
    have hbalance := hact.balance k hk
    have hcount := h.count k hk
    rw [htable]
    omega
  inUse _ _ := htable ▸ hact.inUse

/-! ### The start -/

/-- Behind `open_root_dir` only the root is known. -/
theorem known_root {dirs s' : DirSys} {rootNo i : Nat} (hstatic : StaticRoot dirs rootDir)
    (hok : openRootDir dirs rootDir rootNo i = .ok s') : Known s' {rootDir} := by
  obtain ⟨⟨inode, fs⟩, -, hok⟩ := bind_eq_ok.mp hok
  cases hok
  constructor
  · exact fun hzero => hstatic.addr hzero.symm
  · rintro d rfl
    show (Function.update dirs.dentry d _ d).dParent = d
    rw [Function.update_self]
  · rintro d rfl c hc
    change (Function.update dirs.dentry d _ d).dSubdirs.head = some c at hc
    rw [Function.update_self] at hc
    change (dirs.dentry d).dSubdirs.head = some c at hc
    rw [hstatic.dSubdirs] at hc
    cases hc
  · rintro d rfl c hc
    change (dirs.dChild d).next = some c at hc
    rw [hstatic.dChild] at hc
    cases hc

/-- At the start the three standard files are there, and no process has a descriptor. -/
theorem stdFilesOk_init (hinit : ThreadFiles.Init rootDir s) : ∃ K, StdFilesOk rootDir s K := by
  obtain ⟨⟨dirs, rootNo, i, hstatic, hopen⟩, htables, hfiles, -⟩ := hinit
  have hfile : s.table.file = fileInit.1 := congrArg Prod.fst htables
  refine ⟨{rootDir}, known_root hstatic hopen, rfl, congrArg Prod.snd htables, ?_, ?_, ?_, ?_, ?_⟩
  · exact fun addr haddr => absurd (hfiles addr) haddr
  · intro addr files haddr
    rw [hfiles] at haddr
    cases haddr
  · intro k hk
    rw [hfile]
    rcases lt_three hk with rfl | rfl | rfl <;> rfl
  · intro k hk
    -- no process has a descriptor
    have hrefs : (descriptorAt s.files k).refs k = 0 := by
      refine Finset.card_eq_zero.mpr (Finset.filter_eq_empty_iff.mpr fun addr _ hslot => ?_)
      change openSlot (s.files addr) k = some k at hslot
      rw [hfiles] at hslot
      cases hslot
    rw [hrefs, hfile]
    rcases lt_three hk with rfl | rfl | rfl <;> rfl
  · exact fun addr haddr => absurd (hfiles addr) haddr

/-! ### A new thread -/

/-- One more user of a slot does not change what the slot is. -/
theorem incCount_fDentry (t : FileTable) (f g : Nat) :
    ((t.incCount f).file g).fDentry = (t.file g).fDentry := by
  show (Function.update t.file f _ g).fDentry = _
  by_cases hg : g = f
  · rw [hg, Function.update_self]
  · rw [Function.update_of_ne hg]

/-- It changes the count of this slot. -/
theorem incCount_count (t : FileTable) (f g : Nat) :
    ((t.incCount f).file g).count = if g = f then atomicInc (t.file g).count else
      (t.file g).count := by
  show (Function.update t.file f _ g).count = _
  by_cases hg : g = f
  · rw [if_pos hg, hg, Function.update_self]
  · rw [if_neg hg, Function.update_of_ne hg]

/-- The descriptors of a new thread are the standard ones. -/
theorem filesStructInit_slot {fd f : Nat} (hf : (filesStructInit t).1.fdArray fd = some f) :
    f < 3 ∧ fd = f := by
  change Function.update (Function.update (Function.update (fun _ => none) 0 (some 0)) 1 (some 1)) 2
    (some 2) fd = some f at hf
  -- the last of the three stores first
  by_cases h2 : fd = 2
  · rw [h2, Function.update_self] at hf
    cases hf
    exact ⟨by decide, h2⟩
  rw [Function.update_of_ne h2] at hf
  by_cases h1 : fd = 1
  · rw [h1, Function.update_self] at hf
    cases hf
    exact ⟨by decide, h1⟩
  rw [Function.update_of_ne h1] at hf
  by_cases h0 : fd = 0
  · rw [h0, Function.update_self] at hf
    cases hf
    exact ⟨by decide, h0⟩
  rw [Function.update_of_ne h0] at hf
  cases hf

/-- `files_struct_init` counts the references that it makes. -/
theorem filesStructInit_actOk (h : StdFilesOk rootDir s K) (haddr : s.files addr = none) :
    ActOk s.table (filesStructInit s.table).2 (s.files addr) (filesStructInit s.table).1 K K := by
  have hdentry : ∀ f, ((filesStructInit s.table).2.file f).fDentry = (s.table.file f).fDentry := by
    intro f
    show (((s.table.incCount 0).incCount 1).incCount 2 |>.file f).fDentry = _
    rw [incCount_fDentry, incCount_fDentry, incCount_fDentry]
  have hcount : ∀ k < 3, ((filesStructInit s.table).2.file k).count
      = (s.table.file k).count + 1 := by
    intro k hk
    have hrange := h.count_range hk
    -- `atomic_inc` does not wrap: a process needs an address of its own
    have hinc : atomicInc (s.table.file k).count = (s.table.file k).count + 1 :=
      wrap32_eq (by omega) (by omega)
    show (((s.table.incCount 0).incCount 1).incCount 2 |>.file k).count = _
    rw [incCount_count, incCount_count, incCount_count, ← hinc]
    rcases lt_three hk with rfl | rfl | rfl <;> rfl
  refine ⟨subset_rfl, h.known.congr (fun _ => rfl) (fun _ => rfl) rfl, ?_, ?_, ⟨?_, ?_⟩, ?_, ?_⟩
  · intro k hk
    rw [hdentry]
    exact h.std k hk
  · intro f _ hf
    rw [hdentry]
    exact hf
  · show 0b111 < 2 ^ 32
    decide
  · intro fd f hf
    exact .inl (filesStructInit_slot hf)
  · intro k hk
    have hset : (filesStructInit s.table).1.openFds.testBit k = true := by
      show Nat.testBit 0b111 k = true
      rcases lt_three hk with rfl | rfl | rfl <;> decide
    have hslot : (filesStructInit s.table).1.fdArray k = some k := by
      rcases lt_three hk with rfl | rfl | rfl <;> rfl
    have hold : openSlot (s.files addr) k ≠ some k := by
      rw [haddr]
      exact fun hnone => nomatch hnone
    rw [hcount k hk, if_pos (openSlot_eq_some.mpr ⟨hset, hslot⟩), if_neg hold, Int.add_zero]
  · rw [hcount 2 (by decide)]
    have hrange := h.count_range (show 2 < 3 by decide)
    omega

/-! ### Calls that take no slot -/

/-- Every slot keeps its count and its dentry, and no descriptor gets a slot. -/
theorem StdFilesOk.same (h : StdFilesOk rootDir s K) (haddr : s.files addr = some files)
    (hsub : K ⊆ K') (hknown : Known t'.dirs K')
    (hfile : ∀ f, (t'.file f).count = (s.table.file f).count ∧
      (t'.file f).fDentry = (s.table.file f).fDentry)
    (hwidth : files'.openFds < 2 ^ 32)
    (hslot : ∀ fd f, files'.fdArray fd = some f → files.fdArray fd = some f)
    (hopen : ∀ k f, openSlot (some files') k = some f ↔ openSlot (some files) k = some f) :
    ActOk s.table t' (s.files addr) files' K K' := by
  have hother : ∀ f, (s.table.file f).fDentry ∈ K → (t'.file f).fDentry ∈ K' := by
    intro f hf
    rw [(hfile f).2]
    exact hsub hf
  refine ⟨hsub, hknown, fun k hk => ?_, fun f _ => hother f, ⟨hwidth, fun fd f hf => ?_⟩,
    fun k hk => ?_, ?_⟩
  · rw [(hfile k).2]
    exact h.std k hk
  · exact ((h.fds addr files haddr).slot fd f (hslot fd f hf)).imp id fun hold =>
      ⟨hold.1, hother f hold.2⟩
  · rw [haddr, (hfile k).1]
    simp only [hopen k k]
  · rw [(hfile 2).1]
    exact h.inUse addr (by simp [haddr])

/-- A call that moves a position or changes the files themselves. -/
theorem StdFilesOk.setPos (h : StdFilesOk rootDir s K) (haddr : s.files addr = some files)
    (fs : FileSys) (f pos : Nat) :
    ActOk s.table (FileTable.setPos { s.table with dirs := { s.table.dirs with fs } } f pos)
      (s.files addr) files K K := by
  refine h.same haddr subset_rfl (h.known.congr (fun _ => rfl) (fun _ => rfl) rfl) (fun g => ?_)
    (h.fds addr files haddr).width (fun _ _ hslot => hslot) fun _ _ => Iff.rfl
  show (Function.update s.table.file f _ g).count = _ ∧
      (Function.update s.table.file f _ g).fDentry = _
  by_cases hg : g = f
  · rw [hg, Function.update_self]
    exact ⟨rfl, rfl⟩
  · rw [Function.update_of_ne hg]
    exact ⟨rfl, rfl⟩

/-- A call that does nothing keeps everything in order. -/
theorem StdFilesOk.idle (h : StdFilesOk rootDir s K) (haddr : s.files addr = some files) :
    ActOk s.table s.table (s.files addr) files K K :=
  h.same haddr subset_rfl h.known (fun _ => ⟨rfl, rfl⟩) (h.fds addr files haddr).width
    (fun _ _ hslot => hslot) fun _ _ => Iff.rfl

/-- `sys_read` behind its checks. -/
theorem StdFilesOk.read (h : StdFilesOk rootDir s K) (haddr : s.files addr = some files) {fd : Int}
    {dest dest' ioBuf : Bytes} {count : Nat} {current : Tid} {ret : Int} {io' : Io}
    (hok : sysRead (s.io files) fd dest count ioBuf current = .ok (ret, dest', io')) :
    ActOk s.table io'.table (s.files addr) io'.files K K := by
  obtain ⟨index, -, hok⟩ := bind_eq_ok.mp hok
  cases index with
  | none =>
      cases hok
      exact h.idle haddr
  | some i =>
      obtain ⟨slot, -, hok⟩ := bind_eq_ok.mp hok
      cases slot with
      | none =>
          cases hok
          exact h.idle haddr
      | some f =>
          obtain ⟨target, -, hok⟩ := bind_eq_ok.mp hok
          cases target with
          | device =>
              obtain ⟨⟨ret, line, keyboard⟩, -, hok⟩ := bind_eq_ok.mp hok
              cases hok
              exact h.idle haddr
          | inode p =>
              -- `file_read` moves the position, and no descriptor.
              obtain ⟨⟨ret, pos, dest⟩, -, hok⟩ := bind_eq_ok.mp hok
              have hio := congrArg (fun r => r.2.2) (Except.ok.inj hok)
              dsimp only at hio
              subst hio
              exact h.setPos haddr s.table.dirs.fs f pos

/-- `sys_write` behind its checks. -/
theorem StdFilesOk.write (h : StdFilesOk rootDir s K) (haddr : s.files addr = some files) {fd : Int}
    {src ioBuf pad : Bytes} {count : Nat} {printed ret : Int} {current : Tid} {io' : Io}
    (hok : sysWrite (s.io files) fd src count ioBuf pad printed current = .ok (ret, io')) :
    ActOk s.table io'.table (s.files addr) io'.files K K := by
  obtain ⟨index, -, hok⟩ := bind_eq_ok.mp hok
  cases index with
  | none =>
      cases hok
      exact h.idle haddr
  | some i =>
      obtain ⟨slot, -, hok⟩ := bind_eq_ok.mp hok
      cases slot with
      | none =>
          cases hok
          exact h.idle haddr
      | some f =>
          obtain ⟨target, -, hok⟩ := bind_eq_ok.mp hok
          cases target with
          | device =>
              cases hok
              exact h.idle haddr
          | inode p =>
              obtain ⟨⟨ret, pos, fs⟩, -, hok⟩ := bind_eq_ok.mp hok
              have hio := congrArg Prod.snd (Except.ok.inj hok)
              dsimp only at hio
              subst hio
              exact h.setPos haddr fs f pos

/-! ### `sys_close` -/

/-- `free_fd` clears its bit. -/
theorem freeFd_testBit {fd k : Nat} (hfd : fd < 32) (hok : freeFd files fd = .ok files') :
    files'.fdArray = files.fdArray ∧ files'.openFds ≤ files.openFds ∧
      (files'.openFds.testBit k = true ↔ files.openFds.testBit k = true ∧ k < 32 ∧ k ≠ fd) := by
  obtain ⟨_, -, hok⟩ := bind_eq_ok.mp hok
  cases hok
  refine ⟨rfl, Nat.and_le_left, ?_⟩
  show (files.openFds &&& ((2 ^ 32 - 1) ^^^ 1 <<< fd)).testBit k = true ↔ _
  rw [Nat.one_shiftLeft, Nat.testBit_and, Nat.testBit_xor, Nat.testBit_two_pow_sub_one,
    Nat.testBit_two_pow, Bool.and_eq_true]
  cases files.openFds.testBit k with
  | false => simp
  | true =>
      by_cases hk : fd = k
      · have hlt : k < 32 := hk ▸ hfd
        simp [hk, hlt]
      · by_cases hlt : k < 32 <;> simp [hk, Ne.symm hk, hlt]

/-- `dentry_close` changes a count. -/
theorem Known.dentryClose {dirs dirs' : DirSys} {d : Nat} (h : Known dirs K)
    (hok : dentryClose dirs rootDir d = .ok dirs') : Known dirs' K := by
  rw [Fs.dentryClose] at hok
  split at hok
  next =>
    cases hok
    exact h
  next =>
    obtain ⟨_, -, hok⟩ := bind_eq_ok.mp hok
    cases hok
    exact h.setDentry rfl rfl

/-- The slot that `file_close` gives back loses a reference, and not its last one when it has no
dentry. -/
structure SlotClosed (t t' : FileTable) (f : Nat) : Prop where
  pos : 0 < (t.file f).count
  last : (t.file f).fDentry = 0 → (t.file f).count ≠ 1
  file : t'.file = Function.update t.file f { t.file f with count := wrap32 ((t.file f).count - 1) }
  known : ∀ K, Known t.dirs K → Known t'.dirs K

/-- `file_close` that returns has closed a slot. -/
theorem closeFile_eq_ok {f : Option Nat} (hok : closeFile t rootDir f = .ok t') :
    ∃ g, f = some g ∧ SlotClosed t t' g := by
  obtain ⟨g, hg, hok⟩ := bind_eq_ok.mp hok
  refine ⟨g, deref_eq_ok.mp hg, ?_⟩
  split at hok
  next => cases hok
  next hlast =>
    obtain ⟨_, hpos, hok⟩ := bind_eq_ok.mp hok
    have hpos' : 0 < (t.file g).count := ASSERT_eq_ok.mp hpos
    have hlast' : (t.file g).fDentry = 0 → (t.file g).count ≠ 1 := fun hzero hone =>
      hlast ⟨hone, hzero⟩
    dsimp only at hok
    split at hok
    next =>
      obtain ⟨dirs, hdirs, hok⟩ := bind_eq_ok.mp hok
      cases hok
      exact ⟨hpos', hlast', rfl, fun K h => h.dentryClose hdirs⟩
    next =>
      cases hok
      exact ⟨hpos', hlast', rfl, fun K h => h⟩

/-- The dentries of the slots stay, also that of the slot that is closed. -/
theorem SlotClosed.fDentry {f : Nat} (h : SlotClosed t t' f) (g : Nat) :
    (t'.file g).fDentry = (t.file g).fDentry := by
  rw [h.file]
  by_cases hg : g = f
  · rw [hg, Function.update_self]
  · rw [Function.update_of_ne hg]

/-- The slot has one user less. -/
theorem SlotClosed.count_self {f : Nat} (h : SlotClosed t t' f) (hmax : (t.file f).count < 2 ^ 31) :
    (t'.file f).count = (t.file f).count - 1 := by
  have hpos := h.pos
  rw [h.file, Function.update_self]
  exact wrap32_eq (by omega) (by omega)

/-- The others have as many as before. -/
theorem SlotClosed.count_of_ne {f g : Nat} (h : SlotClosed t t' f) (hg : g ≠ f) :
    (t'.file g).count = (t.file g).count := by
  rw [h.file, Function.update_of_ne hg]

/-- An open descriptor and its reference go. -/
theorem StdFilesOk.closed (h : StdFilesOk rootDir s K)
    (haddr : s.files addr = some files) {fd f : Nat}
    (hfd : fd < 32) (hset : files.openFds.testBit fd = true) (hslot : files.fdArray fd = some f)
    (hclosed : SlotClosed s.table t' f) (hfree : freeFd files fd = .ok files') :
    ActOk s.table t' (s.files addr) files' K K := by
  have hfds := h.fds addr files haddr
  -- The descriptor has its standard file, or a file with a known dentry.
  have hstd : SlotOk s.table K fd f := hfds.slot fd f hslot
  have hbits : ∀ k, files'.fdArray = files.fdArray ∧ files'.openFds ≤ files.openFds ∧
      (files'.openFds.testBit k = true ↔ files.openFds.testBit k = true ∧ k < 32 ∧ k ≠ fd) :=
    fun k => freeFd_testBit hfd hfree
  obtain ⟨harray, hle, -⟩ := hbits 0
  refine ⟨subset_rfl, hclosed.known K h.known, fun k hk => ?_, fun g _ hg => ?_,
    ⟨Nat.lt_of_le_of_lt hle hfds.width, fun fd' g hg => ?_⟩, fun k hk => ?_, ?_⟩
  · rw [hclosed.fDentry]
    exact h.std k hk
  · rw [hclosed.fDentry]
    exact hg
  · rw [harray] at hg
    refine (hfds.slot fd' g hg).imp id fun hdentry => ⟨hdentry.1, ?_⟩
    rw [hclosed.fDentry]
    exact hdentry.2
  · have hrange := h.count_range hk
    rw [haddr]
    simp only [openSlot_eq_some, (hbits k).2.2, harray]
    by_cases hkf : k = f
    · -- a standard descriptor is closed
      subst hkf
      obtain ⟨-, heq⟩ := hstd.resolve_right fun hfile => absurd hfile.1 (by omega)
      rw [heq] at hset hslot
      rw [if_pos ⟨hset, hslot⟩, if_neg fun hopen => hopen.1.2.2 heq.symm,
        hclosed.count_self (by omega)]
      omega
    · rw [hclosed.count_of_ne hkf]
      by_cases hkfd : k = fd
      · -- the descriptor had the slot of a file
        have hno : files.fdArray k ≠ some k := by
          rw [hkfd, hslot]
          exact fun heq => hkf (hkfd.trans (Option.some.inj heq).symm)
        rw [if_neg fun hopen => hno hopen.2, if_neg fun hopen => hno hopen.2]
      · have hk32 : k < 32 := by omega
        simp only [hk32, hkfd, ne_eq, not_false_eq_true, and_true]
  · have hinUse := h.inUse addr (by simp [haddr])
    have hrange := h.count_range (show 2 < 3 by decide)
    by_cases hthird : 2 = f
    · subst hthird
      have hlast := hclosed.last (h.std 2 (by decide))
      rw [hclosed.count_self (by omega)]
      omega
    · rw [hclosed.count_of_ne hthird]
      exact hinUse

/-- `sys_close` closes an open descriptor, or refuses. -/
theorem StdFilesOk.close (h : StdFilesOk rootDir s K) (haddr : s.files addr = some files)
    {fd ret : Int}
    {io' : Io} (hok : sysClose (s.io files) rootDir fd = .ok (ret, io')) :
    ActOk s.table io'.table (s.files addr) io'.files K K := by
  rw [sysClose] at hok
  split at hok
  next =>
    cases hok
    exact h.idle haddr
  next i hindex =>
    obtain ⟨slot, hat, hok⟩ := bind_eq_ok.mp hok
    obtain ⟨table, hclose, hok⟩ := bind_eq_ok.mp hok
    obtain ⟨files', hfree, hok⟩ := bind_eq_ok.mp hok
    have hio := congrArg Prod.snd (Except.ok.inj hok)
    dsimp only at hio
    subst hio
    obtain ⟨rfl, hlo, -, hset⟩ := closeIndex_eq_some.mp hindex
    -- `fd_array` is read at the descriptor, so it is below 32
    have hmax : (P_MAX_FILE_COUNT : Int) = 32 := rfl
    rw [FdTable.at] at hat
    split at hat
    next hbound =>
      have hlt : fd < 32 := by omega
      rw [fd_mod hlo hlt] at hset hfree
      obtain ⟨f, rfl, hclosed⟩ := closeFile_eq_ok hclose
      exact h.closed haddr (by omega) hset (Except.ok.inj hat) hclosed hfree
    next => cases hat

/-! ### `sys_openat` -/

/-- A call that returns has no free descriptor, or it gives the descriptor back, or it installs what
`filp_openat` returned. -/
inductive OpenEnds (st st' : OpenState) (root cwd : Nat) (dirfd : DirFd) (args : OpenArgs)
    (current : Tid) : Prop
  | full (hfull : allocFd st.files = none) (hfiles : st'.files = st.files)
      (htable : st'.table = st.table)
  | taken (fd : Nat) (files : FdTable) (opened : OpenedFile)
      (hfd : allocFd st.files = some (fd, files))
      (hok : filpOpenat st.table root cwd dirfd args.path args.flags args.m current
        = .ok (opened, st'.table))
      (hfiles : st'.files = st.files ∧ opened = .enoent ∨
        ∃ f : Option Nat, st'.files = installFd files fd f ∧ opened = f.elim .null .file)

/-- The ways in which `sys_openat` ends: without a descriptor, without the file, or with both. -/
theorem sysOpenat_ends {st st' : OpenState} {root cwd : Nat} {dirfd : DirFd} {args : OpenArgs}
    {current : Tid} {ret : Int} (hwidth : st.files.openFds < 2 ^ 32)
    (hok : sysOpenat st root cwd dirfd args.path args.flags args.tmp args.buf args.m current
      = .ok (ret, st')) : OpenEnds st st' root cwd dirfd args current := by
  rw [sysOpenat] at hok
  cases hfd : allocFd st.files with
  | none =>
      rw [hfd] at hok
      cases hok
      exact .full hfd rfl rfl
  | some r =>
      obtain ⟨fd, files⟩ := r
      rw [hfd] at hok
      dsimp only at hok
      obtain ⟨⟨opened, table⟩, hopen, hok⟩ := bind_eq_ok.mp hok
      -- The descriptor is given back in one case only.
      cases opened with
      | enoent =>
          dsimp only at hok
          rw [freeFd_allocFd hwidth hfd, ok_bind] at hok
          have hst := congrArg Prod.snd (Except.ok.inj hok)
          dsimp only at hst
          subst hst
          exact .taken fd files .enoent hfd hopen (.inl ⟨rfl, rfl⟩)
      | null =>
          cases hok
          exact .taken fd files .null hfd hopen (.inr ⟨none, rfl, rfl⟩)
      | file f =>
          cases hok
          exact .taken fd files (.file f) hfd hopen (.inr ⟨some f, rfl, rfl⟩)

/-- The descriptors behind `install_fd`. -/
theorem openSlot_installFd {fd k f : Nat} {x : Option Nat} :
    openSlot (some (installFd { files with openFds := files.openFds ||| 1 <<< fd } fd x)) k
      = some f ↔
      if k = fd then x = some f else openSlot (some files) k = some f := by
  rw [openSlot_eq_some]
  show (files.openFds ||| 1 <<< fd).testBit k = true ∧ Function.update files.fdArray fd x k
      = some f ↔ _
  rw [Nat.one_shiftLeft, Nat.testBit_or, Nat.testBit_two_pow]
  by_cases hk : k = fd
  · subst hk
    simp
  · rw [if_neg hk, Function.update_of_ne hk, openSlot_eq_some]
    simp [Ne.symm hk]

/-- What is in `fd_array` behind `install_fd`. -/
theorem installFd_slot {fd fd' f : Nat} {x : Option Nat}
    (hf : (installFd files fd x).fdArray fd' = some f) :
    (fd' = fd ∧ x = some f) ∨ (fd' ≠ fd ∧ files.fdArray fd' = some f) := by
  change Function.update files.fdArray fd x fd' = some f at hf
  by_cases heq : fd' = fd
  · rw [heq, Function.update_self] at hf
    exact .inl ⟨heq, hf⟩
  · rw [Function.update_of_ne heq] at hf
    exact .inr ⟨heq, hf⟩

/-- `filp_openat` never takes a standard slot, and the new descriptor has what it returned. -/
theorem StdFilesOk.installed (h : StdFilesOk rootDir s K) (haddr : s.files addr = some files)
    {fd : Nat} (hfd : allocFd files = some (fd, files')) {f : Option Nat} (hsub : K ⊆ K')
    (htaken : SlotTaken s.table t' (f.elim .null .file) K') :
    ActOk s.table t' (s.files addr) (installFd files' fd f) K K' := by
  have hfds := h.fds addr files haddr
  obtain ⟨hlt, hfree, -, rfl⟩ := allocFd_some hfd
  have hlt' : fd < 32 := hlt
  have hwidth : files.openFds ||| 1 <<< fd < 2 ^ 32 := by
    refine Nat.or_lt_two_pow hfds.width ?_
    rw [Nat.one_shiftLeft]
    exact Nat.pow_lt_pow_right (by decide) hlt'
  -- the descriptor was not open
  have hclear : ∀ g, openSlot (some files) fd ≠ some g := by
    intro g hopen
    rw [openSlot_eq_some, hfree] at hopen
    exact Bool.false_ne_true hopen.1
  cases f with
  | none =>
      have hfile : t'.file = s.table.file := htaken.other fun f hf => nomatch hf
      refine h.same haddr hsub htaken.known (fun g => by rw [hfile]; exact ⟨rfl, rfl⟩) hwidth
        (fun fd' g hg => ?_) fun k g => ?_
      · rcases installFd_slot hg with ⟨-, hnone⟩ | ⟨-, hold⟩
        · cases hnone
        · exact hold
      · rw [openSlot_installFd]
        by_cases hk : k = fd
        · rw [if_pos hk, hk]
          exact iff_of_false (by simp) (hclear g)
        · rw [if_neg hk]
  | some f =>
      obtain ⟨hzero, pos, d, hd, hfile⟩ := htaken.taken f rfl
      have hused : s.files addr ≠ none := by simp [haddr]
      -- no standard slot is free
      have hstd : ∀ k < 3, k ≠ f := by
        rintro k hk rfl
        have hpos := h.count_pos hused hk
        omega
      have hsame : ∀ g, g ≠ f → t'.file g = s.table.file g := fun g hg => by
        rw [hfile, Function.update_of_ne hg]
      have hf3 : 3 ≤ f := Nat.le_of_not_lt fun hk => hstd f hk rfl
      have hdf : (t'.file f).fDentry ∈ K' := by
        rw [hfile, Function.update_self]
        exact hd
      have hother : ∀ g, (s.table.file g).fDentry ∈ K → (t'.file g).fDentry ∈ K' := by
        intro g hg
        by_cases hgf : g = f
        · exact hgf ▸ hdf
        · rw [hsame g hgf]
          exact hsub hg
      refine ⟨hsub, htaken.known, fun k hk => ?_, fun g _ => hother g, ⟨hwidth, fun fd' g hg => ?_⟩,
        fun k hk => ?_, ?_⟩
      · rw [hsame k (hstd k hk)]
        exact h.std k hk
      · rcases installFd_slot hg with ⟨-, hnew⟩ | ⟨-, hold⟩
        · exact Option.some.inj hnew ▸ .inr ⟨hf3, hdf⟩
        · exact (hfds.slot fd' g hold).imp id fun hdentry => ⟨hdentry.1, hother g hdentry.2⟩
      · have hopen : openSlot
          (some (installFd { files with openFds := files.openFds ||| 1 <<< fd } fd
            (some f))) k = some k ↔ openSlot (some files) k = some k := by
          rw [openSlot_installFd]
          by_cases hkfd : k = fd
          · rw [if_pos hkfd, hkfd]
            refine iff_of_false (fun heq => ?_) (hclear fd)
            exact hstd k hk (hkfd.trans (Option.some.inj heq).symm)
          · rw [if_neg hkfd]
        rw [hsame k (hstd k hk), haddr]
        simp only [hopen]
      · rw [hsame 2 (hstd 2 (by decide))]
        exact h.inUse addr hused

/-- The file behind `dirfd` has a known dentry. -/
theorem StdFilesOk.dirFdOf (h : StdFilesOk rootDir s K) (haddr : s.files addr = some files)
    {dirfd : Int}
    {path : List (BitVec 8)} {d : Nat} (hok : dirFdOf s.table files dirfd path = .ok (.file d)) :
    d ∈ K := by
  rw [Fs.dirFdOf] at hok
  split at hok
  next => cases hok
  next =>
    obtain ⟨f, hat, hfile⟩ := bind_eq_ok.mp hok
    obtain ⟨g, hg, hdir⟩ := bind_eq_ok.mp hfile
    rw [deref_eq_ok.mp hg, FdTable.at] at hat
    split at hdir
    next => cases hdir
    next hne =>
      cases hdir
      split at hat
      next =>
        rcases (h.fds addr files haddr).slot dirfd.toNat g (Except.ok.inj hat)
          with ⟨hstd, -⟩ | ⟨-, hd⟩
        · exact absurd (h.std g hstd) hne
        · exact hd
      next => cases hat

/-- `sys_openat` of a path that starts in a directory. -/
theorem StdFilesOk.openat (h : StdFilesOk rootDir s K) (haddr : s.files addr = some files)
    {args : OpenArgs} (hdm : args.m.dentry ≠ 0) (haddrs : ∀ n, (args.m.addrs n).2 ≠ 0)
    (hstart : ∀ dirfd, Fs.dirFdOf s.table files args.dirfd args.path.chars = .ok dirfd →
      pathStart s.table.dirs rootDir rootDir dirfd args.path.chars ≠ none)
    {current : Tid} {ret : Int} {io' : Io}
    (hok : openatFd (s.io files) rootDir rootDir args current = .ok (ret, io')) :
    ∃ K', ActOk s.table io'.table (s.files addr) io'.files K K' := by
  obtain ⟨dirfd, st, hdirfd, hopen, rfl⟩ : ∃ dirfd st,
      (allocFd files ≠ none → Fs.dirFdOf s.table files args.dirfd args.path.chars = .ok dirfd) ∧
      sysOpenat { files, table := s.table, heap := [] } rootDir rootDir dirfd args.path args.flags
        args.tmp args.buf args.m current = .ok (ret, st) ∧
      io' = { s.io files with files := st.files, table := st.table } := by
    rw [openatFd] at hok
    split at hok
    next hnone =>
      obtain ⟨dirfd, -, hok⟩ := bind_eq_ok.mp hok
      obtain ⟨⟨fd, st⟩, hopen, hok⟩ := bind_eq_ok.mp hok
      cases hok
      exact ⟨dirfd, st, fun hsome => absurd (Option.isNone_iff_eq_none.mp hnone) hsome, hopen, rfl⟩
    next =>
      obtain ⟨dirfd, hdirfd, hok⟩ := bind_eq_ok.mp hok
      obtain ⟨⟨fd, st⟩, hopen, hok⟩ := bind_eq_ok.mp hok
      cases hok
      exact ⟨dirfd, st, fun _ => hdirfd, hopen, rfl⟩
  -- No descriptor is free, or one was taken and given a file or given back.
  cases sysOpenat_ends (h.fds addr files haddr).width hopen with
  | full hfull hfiles htable =>
      refine ⟨K, ?_⟩
      show ActOk s.table st.table (s.files addr) st.files K K
      rw [hfiles, htable]
      exact h.idle haddr
  | taken fd files' opened hfd hok hfiles =>
      have hdir := hdirfd (by rw [show allocFd files = _ from hfd]; exact Option.some_ne_none _)
      have hknown : ∀ d, dirfd = .file d → d ∈ K := fun d hd => h.dirFdOf haddr (hd ▸ hdir)
      obtain ⟨K', hsub, htaken⟩ := h.known.opened h.root h.root hknown (hstart dirfd hdir)
          hdm haddrs hok
      refine ⟨K', ?_⟩
      show ActOk s.table st.table (s.files addr) st.files K K'
      rcases hfiles with ⟨hsame, rfl⟩ | ⟨f, hinstall, rfl⟩
      · rw [hsame]
        have hfile : st.table.file = s.table.file := htaken.other fun f hf => nomatch hf
        exact h.same haddr hsub htaken.known (fun g => by rw [hfile]; exact ⟨rfl, rfl⟩)
          (h.fds addr files haddr).width (fun _ _ hslot => hslot) fun _ _ => Iff.rfl
      · rw [hinstall]
        exact h.installed haddr hfd hsub htaken

/-! ### Runs -/

/-- A system call of a thread works on the process of the thread. -/
theorem StdFilesOk.call (h : StdFilesOk rootDir s K) {s' : ThreadFiles} {t : Tid}
    {f : Io → Except Halt Io}
    (hf : ∀ addr files io', s.task t = some addr → s.files addr = some files →
      f (s.io files) = .ok io' → ∃ K', ActOk s.table io'.table (s.files addr) io'.files K K')
    (hok : s.call t f = .ok s') : ∃ K', StdFilesOk rootDir s' K' := by
  obtain ⟨addr, htask, hok⟩ := bind_eq_ok.mp hok
  obtain ⟨files, hfiles, hok⟩ := bind_eq_ok.mp hok
  obtain ⟨io', hio, hok⟩ := bind_eq_ok.mp hok
  rw [deref_eq_ok] at htask hfiles
  obtain ⟨K', hact⟩ := hf addr files io' htask hfiles hio
  cases hok
  exact ⟨K', h.act (h.addr addr (by simp [hfiles])) hact rfl rfl rfl⟩

/-- Every action keeps the invariant. -/
theorem StdFilesOk.next (h : StdFilesOk rootDir s K) {s' : ThreadFiles} {a : ThreadAct}
    (henabled : (startedSystem rootDir).enabled s a) (hok : ThreadFiles.next rootDir s a = .ok s') :
    ∃ K', StdFilesOk rootDir s' K' := by
  cases a with
  | kthreadCreate t addr =>
      obtain ⟨⟨-, hfresh, hlo, hhi⟩, -⟩ := henabled
      cases hok
      exact ⟨K, h.act (Finset.mem_Ico.mpr ⟨hlo, hhi⟩) (filesStructInit_actOk h hfresh) rfl rfl rfl⟩
  | fork t child =>
      -- the child has the `files` of its parent
      cases hok
      exact ⟨K, h.known, h.root, h.fMode, h.addr, h.fds, h.std, h.count, h.inUse⟩
  | openat t args =>
      obtain ⟨⟨-, hdm, haddrs⟩, hstart⟩ := henabled
      unfold ThreadFiles.next at hok
      refine h.call (fun addr files io' htask hfiles hio => ?_) hok
      obtain ⟨⟨fd, io⟩, hopen, hio⟩ := bind_eq_ok.mp hio
      cases hio
      exact h.openat hfiles hdm haddrs (fun dirfd => hstart addr files dirfd htask hfiles) hopen
  | close t fd =>
      unfold ThreadFiles.next at hok
      refine h.call (fun addr files io' _ hfiles hio => ?_) hok
      obtain ⟨⟨ret, io⟩, hclose, hio⟩ := bind_eq_ok.mp hio
      cases hio
      exact ⟨K, h.close hfiles hclose⟩
  | read t fd dest count ioBuf =>
      unfold ThreadFiles.next at hok
      refine h.call (fun addr files io' _ hfiles hio => ?_) hok
      obtain ⟨⟨ret, dest', io⟩, hread, hio⟩ := bind_eq_ok.mp hio
      cases hio
      exact ⟨K, h.read hfiles hread⟩
  | write t fd src count ioBuf pad printed =>
      unfold ThreadFiles.next at hok
      refine h.call (fun addr files io' _ hfiles hio => ?_) hok
      obtain ⟨⟨ret, io⟩, hwrite, hio⟩ := bind_eq_ok.mp hio
      cases hio
      exact ⟨K, h.write hfiles hwrite⟩

/-- The standard files are in order in every run of threads. -/
theorem startedSystem_inductive (rootDir : Nat) :
    (startedSystem rootDir).Inductive fun s => ∃ K, StdFilesOk rootDir s K where
  init hinit := stdFilesOk_init hinit
  step hI henabled hnext := by
    obtain ⟨K, h⟩ := hI
    exact h.next henabled hnext

/-! ### Transfers -/

/-- `sys_read` never dereferences a `NULL` `f_dentry`. -/
def ReadsSafely (io : Io) (fd : Int) : Prop :=
  ∀ dest count ioBuf current, sysRead io fd dest count ioBuf current ≠ .error .nullDeref

/-- `sys_write` never dereferences a `NULL` `f_dentry`. -/
def WritesSafely (io : Io) (fd : Int) : Prop :=
  ∀ src count ioBuf pad printed current,
    sysWrite io fd src count ioBuf pad printed current ≠ .error .nullDeref

/-- The types of the standard slots. -/
theorem fileInit_fMode (f : Nat) : (fileInit.2 f &&& 0xf000 = FT_KEYBOARD ↔ f = 0) ∧
    (fileInit.2 f &&& 0xf000 = FT_SCREEN ↔ f = 1) := by
  show (Function.update (Function.update (fun _ => 0) 0 FT_KEYBOARD) 1 FT_SCREEN f &&& 0xf000
    = FT_KEYBOARD ↔ _) ∧ (Function.update (Function.update (fun _ => 0) 0 FT_KEYBOARD) 1 FT_SCREEN f
      &&& 0xf000 = FT_SCREEN ↔ _)
  by_cases h1 : f = 1
  · rw [h1, Function.update_self]
    decide
  · rw [Function.update_of_ne h1]
    by_cases h0 : f = 0
    · rw [h0, Function.update_self]
      decide
    · rw [Function.update_of_ne h0]
      exact ⟨iff_of_false (by decide) h0, iff_of_false (by decide) h1⟩

/-- A descriptor has no dentry exactly when it has a standard slot. -/
theorem StdFilesOk.dentry_zero (h : StdFilesOk rootDir s K) (haddr : s.files addr = some files)
    {fd f : Nat} (hf : files.fdArray fd = some f) : (s.table.file f).fDentry = 0 ↔ f < 3 := by
  constructor
  · intro hzero
    rcases (h.fds addr files haddr).slot fd f hf with ⟨hstd, -⟩ | ⟨-, hd⟩
    · exact hstd
    · exact absurd (hzero ▸ hd) h.known.null
  · exact h.std f

/-- The standard slots that a call takes for a file. `own` is the slot of the device that the call
knows. -/
theorem StdFilesOk.nullDentry_iff (h : StdFilesOk rootDir s K) (haddr : s.files addr = some files)
    {fd device own : Nat} (hown : ∀ f, fileInit.2 f &&& 0xf000 = device ↔ f = own) :
    NullDentry (s.io files) device fd ↔ ∃ f, files.fdArray fd = some f ∧ f < 3 ∧ f ≠ own := by
  refine exists_congr fun f => and_congr_right fun hf => ?_
  show s.fMode f &&& 0xf000 ≠ device ∧ (s.table.file f).fDentry = 0 ↔ _
  rw [h.fMode, Ne, hown, h.dentry_zero haddr hf, and_comm]

/-- A read is safe when the slot is the keyboard or has a dentry. -/
theorem readsSafely_iff {io : Io} {fd : Int} (hopen : IsOpenFd io.files fd) :
    ReadsSafely io fd ↔ ¬NullDentry io FT_KEYBOARD fd.toNat := by
  constructor
  · exact fun h hnull => h (fun _ => 0) 0 (fun _ => 0) 0 ((sysRead_null_iff hopen _ _ _).mpr hnull)
  · exact fun h dest count ioBuf _ hnull => h ((sysRead_null_iff hopen dest count ioBuf).mp hnull)

/-- A write is safe when the slot is the screen or has a dentry. -/
theorem writesSafely_iff {io : Io} {fd : Int} (hopen : IsOpenFd io.files fd) :
    WritesSafely io fd ↔ ¬NullDentry io FT_SCREEN fd.toNat := by
  constructor
  · exact fun h hnull =>
      h (fun _ => 0) 0 (fun _ => 0) (fun _ => 0) 0 0 ((sysWrite_null_iff hopen _ _ _ _ _).mpr hnull)
  · exact fun h src count ioBuf pad printed _ hnull =>
      h ((sysWrite_null_iff hopen src count ioBuf pad printed).mp hnull)

end

/-- In every reachable state, a read of an open descriptor is safe exactly when it has neither the
screen nor slot 2, and a write when it has neither the keyboard nor slot 2. -/
theorem transfers_safe_iff {rootDir : Nat} {s : ThreadFiles}
    (hs : (startedSystem rootDir).Reachable s) {addr : Nat} {files : FdTable} {fd : Int}
    (haddr : s.files addr = some files) (hopen : IsOpenFd files fd) :
    (ReadsSafely (s.io files) fd ↔
      files.fdArray fd.toNat ≠ some 1 ∧ files.fdArray fd.toNat ≠ some 2) ∧
    (WritesSafely (s.io files) fd ↔
      files.fdArray fd.toNat ≠ some 0 ∧ files.fdArray fd.toNat ≠ some 2) := by
  obtain ⟨K, h⟩ := (startedSystem_inductive rootDir).reachable hs
  have hopen' : IsOpenFd (s.io files).files fd := hopen
  rw [readsSafely_iff hopen', writesSafely_iff hopen',
    h.nullDentry_iff haddr fun f => (fileInit_fMode f).1,
    h.nullDentry_iff haddr fun f => (fileInit_fMode f).2]
  cases files.fdArray fd.toNat with
  | none => simp
  | some f =>
      simp only [Option.some.injEq, exists_eq_left', ne_eq]
      omega

/-! ### The first thread -/

/-- A partition is mounted, and `root_dir` is zero but for its static storage. -/
def bootDirs : DirSys := rootMounted [] 1

/-- The state behind `filesys_init`. -/
def booted : ThreadFiles where
  table := ⟨(openRootDir bootDirs 64 0 80).toOption.getD bootDirs, fileInit.1⟩
  fMode := fileInit.2
  keyboard := onlyStdin.keyboard
  files := fun _ => none
  task := fun _ => none

/-- The first thread, with its descriptors at the start of kernel memory. -/
def firstThread : ThreadFiles := booted.kthreadCreate 1 KERNEL_VADDR_START

/-- The state behind `file_init`. -/
theorem booted_init : ThreadFiles.Init 64 booted :=
  ⟨⟨bootDirs, 0, 80, ⟨by decide, rfl, rfl⟩, eq_ok_getD (d := bootDirs) rfl⟩, rfl, fun _ => rfl,
      fun _ => rfl⟩

/-- The state with one thread. -/
theorem firstThread_reachable : (startedSystem 64).Reachable firstThread :=
  .step (.init booted_init) (a := .kthreadCreate 1 KERNEL_VADDR_START)
    ⟨⟨rfl, rfl, le_rfl, by decide⟩, trivial⟩ rfl

/-- Its descriptors. -/
def firstFiles : FdTable := (filesStructInit booted.table).1

/-- The first thread reads the keyboard and does not write to it. -/
theorem transfers_safe_iff_first :
    ReadsSafely (firstThread.io firstFiles) 0 ∧ ¬WritesSafely (firstThread.io firstFiles) 0 := by
  have hfiles : firstThread.files KERNEL_VADDR_START = some firstFiles := rfl
  have hopen : IsOpenFd firstFiles 0 := ⟨by decide, by decide, by decide⟩
  obtain ⟨hread, hwrite⟩ := transfers_safe_iff firstThread_reachable hfiles hopen
  refine ⟨hread.mpr ⟨by decide, by decide⟩, fun h => ?_⟩
  exact (hwrite.mp h).1 rfl

/-- A `sys_write` to the standard error of a thread that was only created follows a `NULL`
`f_dentry`. `file_init` makes a device of the first two slots only. -/
theorem stderr_follows_null :
    sysWrite (firstThread.io firstFiles) 2 (fun _ => 0x61) 1 (fun _ => 0) (fun _ => 0) 1 1
      = .error .nullDeref ∧
    ¬∀ rootDir s, (threadSystem rootDir).Reachable s → ∀ t addr files fd, s.task t = some addr →
      s.files addr = some files → IsOpenFd files fd →
        ReadsSafely (s.io files) fd ∧ WritesSafely (s.io files) fd := by
  have hnull : sysWrite (firstThread.io firstFiles) 2 (fun _ => 0x61) 1
      (fun _ => 0) (fun _ => 0) 1 1 = .error .nullDeref := rfl
  refine ⟨hnull, fun h => ?_⟩
  have hsafe := h 64 firstThread firstThread_reachable.of_restrict 1 KERNEL_VADDR_START
      firstFiles 2 rfl
    rfl ⟨by decide, by decide, by decide⟩
  exact hsafe.2 _ _ _ _ _ _ hnull

end Fizzos.Proofs
