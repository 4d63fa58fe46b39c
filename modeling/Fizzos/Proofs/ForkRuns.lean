import Fizzos.Proofs.CowSystem
import Fizzos.Proofs.FreePages

/-!
# `Fizzos.Proofs.ForkRuns`: forks that return

`copy_mm` takes one page for the directory and one for each page table, so it returns when the
kernel pool has that many (`CowInv.fork_ok`). The child then maps the frames of its parent
(`CowInv.fork_frames`).

`sharedProcess` is a process with one writable area and one frame on a machine with 64 MiB, behind
`pool_init`. Its forks share the frame (`Sharers`).
-/

set_option autoImplicit false

namespace Fizzos.Proofs

open Fizzos.Kernel
open Fizzos.LibKernel
open Fizzos.Support

section
variable {totalMemSize : Nat} {s s' : CowState} {own own' : Pool → Multiset Nat} {vm : Vm}
  {p d i pt : Nat} {current : Tid} {P : Pool}

theorem freeCount_congr {b b' : Buddy} (h : b'.area = b.area) (P : Pool) :
    freeCount b' P = freeCount b P := by
  rw [freeCount, freeCount, h]

/-- A page for the kernel. -/
theorem Owns.kernelPage {b : Buddy} {others : Pool → Multiset Block}
    (h : Owns totalMemSize b others own) (htotal : totalMemSize ≤ 2 ^ 30)
    (hfree : 0 < freeCount b .kernel) (current : Tid) :
    ∃ addr b', b.getFreePage KERNEL_POOL current = .ok (addr, b') ∧
      freeCount b' .kernel = freeCount b .kernel - 1 ∧ freeCount b' .user = freeCount b .user := by
  have hpool : poolOfFlag KERNEL_POOL = .kernel := by decide
  obtain ⟨⟨addr, b'⟩, hget⟩ := (getFreePage_iff h htotal KERNEL_POOL current).mpr
    (hpool.symm ▸ hasFree_of_freeCount hfree)
  have hcount := h.freeCount_get htotal hget
  rw [hpool] at hcount
  have huser := hcount .user
  rw [if_neg (by decide), Int.sub_zero] at huser
  exact ⟨addr, b', hget, hcount .kernel, huser⟩

/-- Sharing frames leaves the free lists alone. -/
theorem shareTable_area (vm : Vm) (pt n : Nat) :
    (vm.shareTable pt n).buddy.area = vm.buddy.area := by
  induction n with
  | zero => rfl
  | succ n ih =>
      rw [shareTable_succ, shareEntry_buddy]
      split
      · exact ih
      · exact ih

/-- One round of the outer loop of `copy_pt` takes at most one page. -/
theorem CopyInv.copyPde_ok (h : CopyInv totalMemSize s own p d (i * 1024) i vm own')
    (hinv : CowInv totalMemSize s own) (htotal : totalMemSize ≤ 2 ^ 30) (hp : p < s.procs)
    (hi : i < 768) (hfree : 0 < freeCount vm.buddy .kernel) :
    ∃ vm', vm.copyPde (s.dir p) (pageAddr d) i current = .ok vm' ∧
      freeCount vm.buddy .kernel - 1 ≤ freeCount vm'.buddy .kernel ∧
      freeCount vm'.buddy .user = freeCount vm.buddy .user := by
  rw [Vm.copyPde, h.dir p hp]
  by_cases hempty : s.vm.table (s.dir p) i &&& 0b11 ≠ 0
  · rw [if_pos hempty]
    have ht : s.vm.tableIdx (s.dir p) i = some (entryPage (s.vm.table (s.dir p) i)) :=
      PageEntry.present ((hinv.spaces.space p hp).pde i hi) (by decide) hempty
    have hshared := h.shareTable hinv htotal hp hi ht 1024 (Nat.le_refl _)
    dsimp only
    rw [entryAddr_eq]
    have harea := shareTable_area vm (pageAddr (entryPage (s.vm.table (s.dir p) i))) 1024
    generalize vm.shareTable (pageAddr (entryPage (s.vm.table (s.dir p) i))) 1024 = vms
      at hshared harea
    have hsame := freeCount_congr harea
    -- The rights are taken away in the tables, so the free pages are as many as before.
    obtain ⟨newPt, buddy, hget, hkernel, huser⟩ :=
      hshared.owns.kernelPage htotal (hsame .kernel ▸ hfree) current
    have hget' : vms.getFreePage KERNEL_POOL current = .ok (newPt, { vms with buddy }) := by
      rw [Vm.getFreePage, hget]
      rfl
    rw [hsame] at hkernel huser
    rw [hget', ok_bind]
    exact ⟨_, rfl, Int.le_of_eq hkernel.symm, huser⟩
  · rw [if_neg hempty]
    exact ⟨vm, rfl, by omega, rfl⟩

/-- The outer loop takes at most one page for each round. -/
theorem CopyInv.copyPdes_ok (h : CopyInv totalMemSize s own p d 0 0 vm own')
    (hinv : CowInv totalMemSize s own) (htotal : totalMemSize ≤ 2 ^ 30) (hp : p < s.procs)
    (hfree : 768 ≤ freeCount vm.buddy .kernel) (n : Nat) :
    n ≤ 768 → ∃ vm', vm.copyPdes (s.dir p) (pageAddr d) n current = .ok vm' ∧
      freeCount vm.buddy .kernel - n ≤ freeCount vm'.buddy .kernel ∧
      freeCount vm'.buddy .user = freeCount vm.buddy .user := by
  induction n with
  | zero => exact fun _ => ⟨vm, rfl, by omega, rfl⟩
  | succ n ih =>
      intro hn
      obtain ⟨vm₁, hloop, hkernel, huser⟩ := ih (Nat.le_of_succ_le hn)
      obtain ⟨own₁, h₁⟩ := h.copyPdes hinv htotal hp n (Nat.le_of_succ_le hn) hloop
      obtain ⟨vm₂, hbody, hkernel₂, huser₂⟩ :
          ∃ vm', vm₁.copyPde (s.dir p) (pageAddr d) n current = .ok vm' ∧ _ :=
        h₁.copyPde_ok hinv htotal hp hn (by omega)
      refine ⟨vm₂, ?_, by omega, huser₂.trans huser⟩
      rw [copyPdes_succ, hloop, ok_bind]
      exact hbody

/-- A fork returns when the kernel pool has a page for the directory and one for each table. -/
theorem CowInv.fork_ok (h : CowInv totalMemSize s own) (htotal : totalMemSize ≤ 2 ^ 30)
    (hp : p < s.procs) (hfree : 769 ≤ freeCount s.vm.buddy .kernel) (current : Tid) :
    ∃ s', s.next (.fork p current) = .ok s' ∧
      freeCount s.vm.buddy .kernel - 769 ≤ freeCount s'.vm.buddy .kernel ∧
      freeCount s'.vm.buddy .user = freeCount s.vm.buddy .user := by
  obtain ⟨pgDir, buddy, hget, hkernel, huser⟩ := h.owns.kernelPage htotal (by omega) current
  have hget' : s.vm.getFreePage KERNEL_POOL current = .ok (pgDir, { s.vm with buddy }) := by
    rw [Vm.getFreePage, hget]
    rfl
  obtain ⟨d, own₀, rfl, hinit⟩ := h.copyInv_init (p := p) htotal hget'
  have henough : 768 ≤ freeCount buddy .kernel := by omega
  obtain ⟨vm', hloop, hkernel', huser'⟩ :
      ∃ vm', Vm.copyPdes _ (s.dir p) (pageAddr d) 768 current = .ok vm' ∧ _ :=
    hinit.copyPdes_ok h htotal hp henough 768 (Nat.le_refl _)
  have hkernel'' : freeCount buddy .kernel - 768 ≤ freeCount vm'.buddy .kernel := hkernel'
  have hcopy : s.vm.copyMm (s.proc p).mm current
      = .ok ({ (s.proc p).mm with pgDir := pageAddr d }, vm') := by
    rw [Vm.copyMm, hget', ok_bind]
    dsimp only
    rw [Vm.copyPt]
    exact congrArg (· >>= _) hloop
  refine ⟨_, by rw [CowState.next, hcopy]; rfl, ?_, huser'.trans huser⟩
  show freeCount s.vm.buddy .kernel - 769 ≤ freeCount vm'.buddy .kernel
  omega

/-- The child maps the frames of its parent, and the others keep theirs. -/
theorem CowInv.fork_frames (h : CowInv totalMemSize s own) (htotal : totalMemSize ≤ 2 ^ 30)
    (hp : p < s.procs) (hok : s.next (.fork p current) = .ok s') :
    s'.procs = s.procs + 1 ∧ (∀ q < s.procs, s'.proc q = s.proc q) ∧
      (s'.proc s.procs).mm.mmap = (s.proc p).mm.mmap ∧ (s'.proc s.procs).fault = none ∧
      (∀ slot ∈ s.slots, s'.frame slot = s.frame slot) ∧
      ∀ page < USER_PAGES, s'.frame (s.procs, page) = s.frame (p, page) := by
  obtain ⟨d, vm₂, own', hdone, rfl⟩ := h.fork_copied htotal hp hok
  refine ⟨rfl, fun q hq => Function.update_of_ne hq.ne _ _, ?_, ?_, fun slot hs => ?_,
    fun page hpage => ?_⟩
  · show (Function.update s.proc s.procs _ s.procs).mm.mmap = _
    rw [Function.update_self]
  · show (Function.update s.proc s.procs _ s.procs).fault = _
    rw [Function.update_self]
  · show vm₂.frame (Function.update s.proc s.procs _ slot.1).mm.pgDir slot.2 = s.frame slot
    rw [Function.update_of_ne (mem_slots.mp hs).1.ne, Vm.frame]
    refine (congrArg presentPage (hdone.pte slot hs)).trans ?_
    split
    · exact presentPage_share _
    · rfl
  · show vm₂.frame (Function.update s.proc s.procs _ s.procs).mm.pgDir page = s.frame (p, page)
    rw [Function.update_self, Vm.frame]
    exact (congrArg presentPage (hdone.newPte page hpage)).trans (presentPage_share _)

end

/-! ### A process with one frame -/

/-- The page of the first address that a program uses. -/
def FIRST_PAGE : Nat := 0x8048

/-- A writable area of one page. -/
def firstArea : VmAreaStruct where
  vmStart := 0x08048000
  vmEnd := 0x08049000
  vmPageProt := 0
  vmFlags := VM_READ ||| VM_WRITE
  vmPgoff := 0
  vmFile := none

/-- A directory with one page table. -/
def sharedDir (d t i : Nat) : Word :=
  if i = 32 then frameWord t else if i = 1023 then frameWord d else 0

/-- A page table with one frame, which is read-only. -/
def sharedTable (f j : Nat) : Word := if j = 72 then shareWord (frameWord f) else 0

/-- A process with the directory `d`, the page table `t` and the frame `f`. -/
def sharedProcess (b : Buddy) (d t f : Nat) : CowState where
  vm :=
    { buddy := b
      table := fun a =>
        if a = pageAddr t then sharedTable f else if a
          = pageAddr d then sharedDir d t else fun _ => 0
      user := fun _ _ => 0 }
  procs := 1
  proc := fun _ => { mm := { mmap := [firstArea], pgDir := pageAddr d }, fault := none }
  others := bootLive
  eager := fun _ page => if page = FIRST_PAGE then some fun _ => 0 else none

/-- The pages of the process. -/
def sharedOwn (d t f : Nat) : Pool → Multiset Nat
  | .kernel => {d, t}
  | .user => {f}

section
variable {b : Buddy} {d t f i page : Nat}

theorem sharedProcess_dir (hne : pageAddr d ≠ pageAddr t) :
    (sharedProcess b d t f).vm.table (pageAddr d) = sharedDir d t := by
  simp only [sharedProcess, if_neg hne, if_true]

theorem sharedProcess_table : (sharedProcess b d t f).vm.table (pageAddr t) = sharedTable f := by
  simp only [sharedProcess, if_true]

/-- The two entries of the directory. -/
theorem sharedProcess_tableIdx (hd : d < MAX_PAGES) (ht : t < MAX_PAGES)
    (hne : pageAddr d ≠ pageAddr t) (i : Nat) :
    (sharedProcess b d t f).vm.tableIdx (pageAddr d) i
      = if i = 32 then some t else if i = 1023 then some d else none := by
  rw [Vm.tableIdx, sharedProcess_dir hne, sharedDir]
  by_cases hi : i = 32
  · rw [if_pos hi, if_pos hi, frameWord_present ht]
  · rw [if_neg hi, if_neg hi]
    by_cases hlast : i = 1023
    · rw [if_pos hlast, if_pos hlast, frameWord_present hd]
    · rw [if_neg hlast, if_neg hlast]
      exact presentPage_of_empty (by decide)

section
variable (hd : d < MAX_PAGES) (ht : t < MAX_PAGES) (hf : f < MAX_PAGES)
  (hne : pageAddr d ≠ pageAddr t)

include hd ht hne

/-- The one entry of the page table. -/
theorem sharedProcess_pte (hpage : page < USER_PAGES) :
    (sharedProcess b d t f).vm.pte (pageAddr d) page
      = if page = FIRST_PAGE then shareWord (frameWord f) else 0 := by
  have hidx := sharedProcess_tableIdx (b := b) (f := f) hd ht hne (page / 1024)
  have hlt : page / 1024 < 768 := div_lt_of_page hpage
  rw [if_congr Iff.rfl rfl (if_neg (by omega))] at hidx
  have hfirst : FIRST_PAGE = 32 * 1024 + 72 := rfl
  by_cases hdiv : page / 1024 = 32
  · rw [if_pos hdiv] at hidx
    rw [pte_of_some hidx, sharedProcess_table, sharedTable]
    by_cases hmod : page % 1024 = 72
    · rw [if_pos hmod, if_pos (by omega)]
    · rw [if_neg hmod, if_neg (by omega)]
  · rw [if_neg hdiv] at hidx
    rw [pte_of_none hidx, if_neg (by omega)]

include hf

theorem sharedProcess_frame (hpage : page < USER_PAGES) :
    (sharedProcess b d t f).frame (0, page) = if page = FIRST_PAGE then some f else none := by
  show presentPage ((sharedProcess b d t f).vm.pte (pageAddr d) page) = _
  rw [sharedProcess_pte hd ht hne hpage]
  split
  · rw [presentPage_share, frameWord_present hf]
  · exact presentPage_of_empty (by decide)

/-- The process is a first process on its machine. -/
theorem sharedProcess_init {totalMemSize : Nat}
    (hsize : totalMemSize > 512 * PG_SIZE ∧ totalMemSize ≤ 1024 * 1024 * 1024)
    (hcount : (b.page f).count = 1)
    (hreach : (buddySystem totalMemSize).Reachable ⟨b, bootLive + pageBlock (sharedOwn d t f)⟩) :
    CowState.Init totalMemSize (sharedProcess b d t f) := by
  have hidx := sharedProcess_tableIdx (b := b) (f := f) hd ht hne
  have hdir : (sharedProcess b d t f).dir 0 = pageAddr d := rfl
  refine ⟨hsize, rfl, rfl,
    ⟨sharedOwn d t f, ⟨⟨d, ?_, rfl, ?_⟩, fun i hi => ?_, fun page hpage => ?_⟩,
    hreach⟩, fun i j u hi hj hti htj => ?_, fun page hpage g hg => ?_, fun page hpage => ?_⟩
  · exact Multiset.mem_cons_self d {t}
  · rw [hdir, hidx, if_neg (by decide), if_pos rfl]
  · rw [hdir, sharedProcess_dir hne, sharedDir]
    by_cases h32 : i = 32
    · rw [if_pos h32]
      refine .inr ⟨and_eq_of_sub (frameWord_rights t) (by decide), ?_⟩
      rw [(presentPage_eq_some.mp (frameWord_present ht)).2]
      exact Multiset.mem_cons_of_mem (Multiset.mem_singleton_self t)
    · rw [if_neg h32, if_neg (by omega)]
      exact PageEntry.zero
  · rw [hdir, sharedProcess_pte hd ht hne hpage]
    split
    · have hentry : PageEntry (PG_P ||| PG_USER) (sharedOwn d t f .user) (frameWord f) :=
        frameWord_entry hf (Multiset.mem_singleton_self f)
      exact PageEntry.share hentry
    · exact PageEntry.zero
  · -- one entry is for user memory, and the other one is the last
    rw [hdir, hidx] at hti htj
    have hcases : ∀ k, (if k = 32 then some t else if k = 1023 then some d else none) = some u →
        (k = 32 ∧ u = t) ∨ (k = 1023 ∧ u = d) := by
      intro k hk
      by_cases h32 : k = 32
      · rw [if_pos h32] at hk
        exact .inl ⟨h32, (Option.some.inj hk).symm⟩
      · rw [if_neg h32] at hk
        by_cases hlast : k = 1023
        · rw [if_pos hlast] at hk
          exact .inr ⟨hlast, (Option.some.inj hk).symm⟩
        · rw [if_neg hlast] at hk
          cases hk
    have hdt : d ≠ t := fun heq => hne (congrArg pageAddr heq)
    rcases hcases i hti with ⟨hi', hu⟩ | ⟨hi', hu⟩ <;>
      rcases hcases j htj with ⟨hj', hu'⟩ | ⟨hj', hu'⟩
    · omega
    · exact absurd (hu'.symm.trans hu) hdt
    · exact absurd (hu.symm.trans hu') hdt
    · omega
  · rw [sharedProcess_frame hd ht hf hne hpage] at hg
    split at hg
    -- Only the first page maps the frame, as its count says.
    next hfirst =>
      obtain rfl : f = g := Option.some.inj hg
      refine ⟨hcount, Finset.card_eq_one.mpr ⟨(0, page), ?_⟩⟩
      ext slot
      rw [Finset.mem_filter, Finset.mem_singleton]
      constructor
      · rintro ⟨hslot, hmap⟩
        obtain ⟨hp, hk⟩ := mem_slots.mp hslot
        obtain hzero : slot.1 = 0 := Nat.lt_one_iff.mp hp
        have hslot' : slot = (0, slot.2) := Prod.ext hzero rfl
        rw [hslot', sharedProcess_frame hd ht hf hne hk] at hmap
        split at hmap
        next hpage' => rw [hslot', hfirst, hpage']
        next => cases hmap
      · rintro rfl
        refine ⟨mem_slots.mpr ⟨Nat.one_pos, hpage⟩, ?_⟩
        rw [sharedProcess_frame hd ht hf hne hpage, if_pos hfirst]
    next => cases hg
  · rw [sharedProcess_frame hd ht hf hne hpage]
    show (if page = FIRST_PAGE then some fun _ => 0 else none) = _
    split <;> rfl

end

end

/-! ### The process on a machine with 64 MiB -/

/-- One more page for a caller of the page allocator. -/
theorem reachable_page {totalMemSize : Nat} {b : Buddy} {live : Pool → Multiset Block}
    (hs : (buddySystem totalMemSize).Reachable ⟨b, live⟩) (htotal : totalMemSize ≤ 2 ^ 30)
    (flag : Nat) (hfree : 0 < freeCount b (poolOfFlag flag)) :
    ∃ idx b', (buddySystem totalMemSize).Reachable
        ⟨b', Function.update live (poolOfFlag flag) (⟨idx, 0⟩ ::ₘ live (poolOfFlag flag))⟩ ∧
      idx < MAX_PAGES ∧ (b'.page idx).count = 1 ∧ (∀ P, ∀ blk ∈ live P, blk.idx ≠ idx) ∧
      ∀ P, freeCount b' P = freeCount b P - if P = poolOfFlag flag then 1 else 0 := by
  have hzero : live + pageBlock (fun _ => 0) = live := add_zero live
  have howns : Owns totalMemSize b live fun _ => 0 := owns_of_reachable htotal (hzero.symm ▸ hs)
  obtain ⟨⟨addr, b'⟩, hget⟩ :=
    (getFreePage_iff howns htotal flag 0).mpr (hasFree_of_freeCount hfree)
  have hcount := howns.freeCount_get htotal hget
  obtain ⟨fr, hrun⟩ := howns
  rw [hzero] at hrun
  rcases hrun.getFreePage htotal flag 0 with ⟨hpanic, -⟩ | ⟨idx, b₁, fr', hok, hidx, -, hnew, hpage⟩
  · rw [hpanic] at hget
    cases hget
  · obtain ⟨rfl, rfl⟩ : pageAddr idx = addr ∧ b₁ = b' := by simpa using hok.symm.trans hget
    obtain ⟨⟨idx', b₂⟩, halloc, hret⟩ := bind_eq_ok.mp hok
    obtain ⟨hidx', rfl⟩ : pageAddr idx' = pageAddr idx ∧ b₂ = b₁ := by simpa using hret
    obtain rfl := pageAddr_inj hidx'
    refine ⟨idx', b₂, hs.step (a := .alloc flag 0 0) (Nat.zero_le MAX_ORDER) ?_, hidx, ?_,
      hnew, hcount⟩
    · simp only [buddySystem, BuddyState.next, halloc, ok_bind]
      rfl
    · rw [hpage, Function.update_self]

theorem exists_sharedProcess_64M : ∃ b d t f, d < MAX_PAGES ∧ t < MAX_PAGES ∧ f < MAX_PAGES ∧
    pageAddr d ≠ pageAddr t ∧ CowState.Init 0x4000000 (sharedProcess b d t f) ∧
    2000 ≤ freeCount b .kernel ∧ 2000 ≤ freeCount b .user := by
  have hpool : ∀ P, 0 < poolBlocks 0x4000000 P := fun P => by cases P <;> decide
  have htotal : 0x4000000 ≤ 2 ^ 30 := by decide
  obtain ⟨b₀, rest, -, hs₀, hinv⟩ := exists_boot hpool (by decide)
  have hkernel₀ := freeCount_eq hinv .kernel
  have huser₀ := freeCount_eq hinv .user
  rw [show Tiles.weight (bootLive .kernel) = 1024 by decide,
    show poolHi 0x4000000 .kernel - poolLo 0x4000000 .kernel = 4096 by decide] at hkernel₀
  rw [show Tiles.weight (bootLive .user) = 0 by decide,
    show poolHi 0x4000000 .user - poolLo 0x4000000 .user = 12288 by decide] at huser₀
  have hk : poolOfFlag KERNEL_POOL = .kernel := by decide
  have hu : poolOfFlag USER_POOL = .user := by decide
  -- a page table, a directory and a frame
  obtain ⟨t, b₁, hs₁, ht, -, -, hcount₁⟩ :=
    reachable_page hs₀ htotal KERNEL_POOL (by rw [hk]; omega)
  rw [hk] at hs₁ hcount₁
  have hkernel₁ := hcount₁ .kernel
  have huser₁ := hcount₁ .user
  rw [if_pos rfl] at hkernel₁
  rw [if_neg (by decide)] at huser₁
  obtain ⟨d, b₂, hs₂, hd, -, hnew, hcount₂⟩ := reachable_page hs₁ htotal KERNEL_POOL
      (by rw [hk]; omega)
  rw [hk] at hs₂ hcount₂
  have hkernel₂ := hcount₂ .kernel
  have huser₂ := hcount₂ .user
  rw [if_pos rfl] at hkernel₂
  rw [if_neg (by decide)] at huser₂
  obtain ⟨f, b₃, hs₃, hf, hone, -, hcount₃⟩ :=
    reachable_page hs₂ htotal USER_POOL (by rw [hu]; omega)
  rw [hu] at hs₃ hcount₃
  have hkernel₃ := hcount₃ .kernel
  have huser₃ := hcount₃ .user
  rw [if_neg (by decide)] at hkernel₃
  rw [if_pos rfl] at huser₃
  have hne : pageAddr d ≠ pageAddr t := by
    intro heq
    refine hnew .kernel ⟨t, 0⟩ ?_ (pageAddr_inj heq).symm
    simp
  refine ⟨b₃, d, t, f, hd, ht, hf, hne,
    sharedProcess_init hd ht hf hne (by decide) hone ?_, by omega, by omega⟩
  convert hs₃ using 2
  funext P
  cases P <;> simp [pageBlock, sharedOwn, bootLive, BuddyInv.hold, add_comm]

/-! ### The forks of the process -/

/-- `n` processes with one writable area, which share the frame of its page. -/
structure Sharers (n : Nat) (s : CowState) (f : Nat) : Prop where
  reachable : (cowSystem 0x4000000).Reachable s
  procs : s.procs = n
  mmap : ∀ q < n, (s.proc q).mm.mmap = [firstArea]
  runs : ∀ q < n, (s.proc q).fault = none
  frame : ∀ q < n, ∀ page < USER_PAGES,
    s.frame (q, page) = if page = FIRST_PAGE then some f else none
  eager : ∀ q < n, s.eager q FIRST_PAGE = some fun _ => 0
  /-- There is room for two forks in all. -/
  kernel : 2769 - 769 * n ≤ freeCount s.vm.buddy .kernel
  user : 2000 ≤ freeCount s.vm.buddy .user

namespace Sharers

variable {n f : Nat} {s : CowState}

/-- A fork of the first process is one more user. -/
theorem fork (h : Sharers n s f) (hpos : 0 < n) (hle : n ≤ 2) : ∃ s', Sharers (n + 1) s' f := by
  have htotal : 0x4000000 ≤ 2 ^ 30 := by decide
  have hp : 0 < s.procs := by rw [h.procs]; exact hpos
  obtain ⟨own, hinv⟩ := exists_cowInv h.reachable
  have hkernel := h.kernel
  obtain ⟨s', hok, hkernel', huser'⟩ := hinv.fork_ok htotal hp (by omega) 0
  obtain ⟨hprocs, hproc, hmmap, hfault, hkeep, hchild⟩ := hinv.fork_frames htotal hp hok
  have heager : s'.eager = Function.update s.eager s.procs (s.eager 0) := by
    obtain ⟨x, -, hret⟩ := bind_eq_ok.mp hok
    rw [← Except.ok.inj hret]
  rw [h.procs] at hprocs hproc hmmap hfault hchild heager
  refine ⟨s', h.reachable.step (a := .fork 0 0) ⟨hp, h.runs 0 hpos⟩ hok, hprocs,
    fun q hq => ?_, fun q hq => ?_, fun q hq page hpage => ?_, fun q hq => ?_, ?_, ?_⟩
  all_goals try rcases Nat.lt_succ_iff_lt_or_eq.mp hq with hlt | rfl
  · rw [hproc q hlt, h.mmap q hlt]
  · rw [hmmap, h.mmap 0 hpos]
  · rw [hproc q hlt, h.runs q hlt]
  · exact hfault
  · rw [hkeep _ (mem_slots.mpr ⟨by rw [h.procs]; exact hlt, hpage⟩), h.frame q hlt page hpage]
  · rw [hchild page hpage, h.frame 0 hpos page hpage]
  · rw [heager, Function.update_of_ne hlt.ne, h.eager q hlt]
  · rw [heager, Function.update_self, h.eager 0 hpos]
  · omega
  · exact huser'.symm ▸ h.user

/-- The count of the frame is the number of the processes. -/
theorem count (h : Sharers n s f) (hpos : 0 < n) : (s.vm.buddy.page f).count = n := by
  obtain ⟨own, hinv⟩ := exists_cowInv h.reachable
  have hfirst : FIRST_PAGE < USER_PAGES := by decide
  have hslot : ∀ q < n, (q, FIRST_PAGE) ∈ s.slots := fun q hq =>
    mem_slots.mpr ⟨by rw [h.procs]; exact hq, hfirst⟩
  have hcount := hinv.counted.eq_refs _ (hslot 0 hpos) f
    ((h.frame 0 hpos _ hfirst).trans (if_pos rfl))
  -- The page is used once by each process.
  have husers : (sharing s.vm s.procs s.dir).users f
      = (Finset.range n).image fun q => (q, FIRST_PAGE) := by
    ext slot
    rw [Sharing.mem_users, Finset.mem_image]
    constructor
    · rintro ⟨hmem, hframe⟩
      obtain ⟨hq, hpage⟩ := mem_slots.mp hmem
      rw [h.procs] at hq
      have hmaps := (h.frame slot.1 hq slot.2 hpage).symm.trans hframe
      have hpage' : slot.2 = FIRST_PAGE := by
        by_contra hne
        rw [if_neg hne] at hmaps
        cases hmaps
      exact ⟨slot.1, Finset.mem_range.mpr hq, Prod.ext rfl hpage'.symm⟩
    · rintro ⟨q, hq, rfl⟩
      have hq := Finset.mem_range.mp hq
      exact ⟨hslot q hq, (h.frame q hq _ hfirst).trans (if_pos rfl)⟩
  have hrefs : (sharing s.vm s.procs s.dir).refs f = n := by
    rw [Sharing.refs, husers, Finset.card_image_of_injective _ fun q r heq => congrArg Prod.fst heq,
      Finset.card_range]
  rw [hrefs] at hcount
  exact hcount

/-- There is a page for a copy. -/
theorem hasFree (h : Sharers n s f) : HasFree s.vm.buddy .user :=
  hasFree_of_freeCount (by have := h.user; omega)

end Sharers

/-- The process, and one or two forks of it. -/
theorem exists_sharers (n : Nat) (hn : n ≤ 2) : ∃ s f, Sharers (n + 1) s f := by
  induction n with
  | zero =>
      obtain ⟨b, d, t, f, hd, ht, hf, hne, hinit, hkernel, huser⟩ := exists_sharedProcess_64M
      have hzero : ∀ q < 1, q = 0 := fun q hq => Nat.lt_one_iff.mp hq
      refine ⟨sharedProcess b d t f, f, .init hinit, rfl, fun _ _ => rfl, fun _ _ => rfl,
        fun q hq page hpage => ?_, fun _ _ => rfl, hkernel, huser⟩
      rw [hzero q hq]
      exact sharedProcess_frame hd ht hf hne hpage
  | succ n ih =>
      obtain ⟨s, f, h⟩ := ih (Nat.le_of_succ_le hn)
      obtain ⟨s', h'⟩ := h.fork (Nat.succ_pos n) hn
      exact ⟨s', f, h'⟩

end Fizzos.Proofs
