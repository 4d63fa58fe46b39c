import Fizzos.Boot.KernelSpace
import Fizzos.Proofs.ForkRuns
import Fizzos.Proofs.SetupPage

/-!
# `Fizzos.Proofs.KernelSpace`: one kernel in all address spaces

Processes write to their own pages, and to the user entries of their directories. So the pages that
others hold keep their words, and so do the entries for the kernel in every directory
(`KernelSame`). The tables of boot are among the first, and a new directory has its entries from an
old one (`KernelInv`). With both, the paging unit translates the addresses of the kernel in the same
way for every process.
-/

set_option autoImplicit false

namespace Fizzos.Proofs

open Fizzos.Boot
open Fizzos.Kernel
open Fizzos.LibKernel
open Fizzos.Support

/-! ### Where processes write -/

/-- A page that other code holds. -/
def Held (others : Pool → Multiset Block) (t : Nat) : Prop := ∃ P, ∃ blk ∈ others P, blk.Covers t

/-- The entries of a directory for the kernel. -/
def kernelEntry (i : Nat) : Prop := 768 ≤ i ∧ i < 1023

/-- The pages of others, and the entries for the kernel in the directories of `n` processes,
stay. -/
structure KernelSame (others : Pool → Multiset Block) (n : Nat) (dir : Nat → Nat) (vm vm' : Vm) :
    Prop where
  held : ∀ t, Held others t → vm'.table (pageAddr t) = vm.table (pageAddr t)
  half : ∀ p < n, ∀ i, kernelEntry i → vm'.table (dir p) i = vm.table (dir p) i

section
variable {totalMemSize : Nat} {b : Buddy} {others : Pool → Multiset Block}
  {own own' : Pool → Multiset Nat}
  {vm vm' vm₁ : Vm} {n p i t : Nat} {dir lim : Nat → Nat} {P : Pool}

/-- A page of the processes is no page of others. -/
theorem Owns.not_held (h : Owns totalMemSize b others own) (htotal : totalMemSize ≤ 2 ^ 30)
    (ht : t ∈ own P) :
    ¬Held others t := by
  rintro ⟨Q, blk, hblk, hcov⟩
  obtain ⟨fr, hrun⟩ := h
  exact RunInv.live_not_covers (s := ⟨b, others⟩) hrun (by omega) hblk (mem_pageBlock ht) hcov
    (Block.covers_idx ⟨t, 0⟩)

namespace KernelSame

/-- Without a change of page tables, the half of the kernel stays. -/
theorem of_table (h : vm'.table = vm.table) : KernelSame others n dir vm vm' :=
  ⟨fun _ _ => by rw [h], fun _ _ _ _ => by rw [h]⟩

/-- Two steps that keep it, one after the other. -/
theorem trans (h : KernelSame others n dir vm vm₁) (h' : KernelSame others n dir vm₁ vm') :
    KernelSame others n dir vm vm' :=
  ⟨fun t ht => (h'.held t ht).trans (h.held t ht),
    fun p hp i hi => (h'.half p hp i hi).trans (h.half p hp i hi)⟩

/-- Stores to a page of the processes that is no directory. -/
theorem of_page (howns : Owns totalMemSize b others own) (htotal : totalMemSize ≤ 2 ^ 30)
    (ht : t ∈ own P)
    (hdir : ∀ p < n, dir p ≠ pageAddr t) (hother : ∀ a, a ≠ pageAddr t → vm'.table a = vm.table a) :
    KernelSame others n dir vm vm' where
  held u hu := hother _ fun heq => howns.not_held htotal ht (pageAddr_inj heq ▸ hu)
  half p hp i _ := by rw [hother _ (hdir p hp)]

/-- A store to an entry for user memory. -/
theorem of_entry (howns : Owns totalMemSize b others own) (htotal : totalMemSize ≤ 2 ^ 30)
    (ht : t ∈ own P)
    (hi : i < 768) (w : Word) : KernelSame others n dir vm (vm.setEntry (pageAddr t) i w) := by
  refine ⟨fun u hu => Vm.setEntry_of_ne _ _ _ fun heq => ?_, fun q hq j hj => ?_⟩
  · exact howns.not_held htotal ht (pageAddr_inj heq ▸ hu)
  · by_cases heq : dir q = pageAddr t
    · rw [heq, Vm.setEntry_self]
      exact Function.update_of_ne (by have := hj.1; omega) _ _
    · rw [Vm.setEntry_of_ne _ _ _ heq]

/-- A store to a table for user memory. -/
theorem of_pte (howns : Owns totalMemSize b others own) (htotal : totalMemSize ≤ 2 ^ 30)
    (hspaces : Spaces vm n dir lim own) (hp : p < n) (hi : i < lim p)
    (ht : vm.tableIdx (dir p) i = some t)
    (hother : ∀ a, a ≠ pageAddr t → vm'.table a = vm.table a) : KernelSame others n dir vm vm' :=
  of_page howns htotal (hspaces.table_mem hp (.inl hi) ht)
    (fun _ hq => hspaces.dir_ne_table hp hi ht hq) hother

/-- Stores to a page that is new. -/
theorem of_fresh (howns : Owns totalMemSize b others own') (htotal : totalMemSize ≤ 2 ^ 30)
    (hspaces : Spaces vm n dir lim own) (hfresh : ∀ P, t ∉ own P) (ht : t ∈ own' P)
    (hother : ∀ a, a ≠ pageAddr t → vm'.table a = vm.table a) : KernelSame others n dir vm vm' := by
  refine of_page howns htotal ht (fun p hp heq => ?_) hother
  obtain ⟨d, hd, hdir, -⟩ := hspaces.self hp
  rw [hdir] at heq
  exact hfresh .kernel (pageAddr_inj heq ▸ hd)

end KernelSame

end

/-! ### Faults -/

section
variable {totalMemSize : Nat} {s : CowState} {own : Pool → Multiset Nat} {vm vm' vm₁ : Vm}
  {p addr : Nat}
  {current : Tid}

/-- A user process does not write to tables. -/
theorem userWrite_table (vm : Vm) (pgDir addr : Nat) (byte : UInt8) :
    (vm.userWrite pgDir addr byte).table = vm.table := by
  unfold Vm.userWrite
  split <;> rfl

/-- `free_page` writes to no page table. -/
theorem freePage_table (hok : vm.freePage addr current = .ok vm') : vm'.table = vm.table := by
  obtain ⟨buddy, -, hret⟩ := bind_eq_ok.mp hok
  obtain rfl := Except.ok.inj hret
  rfl

/-- `get_zeroed_page` writes to its own page. -/
theorem getZeroedPage_other {flag : Nat} (hok : vm.getZeroedPage flag current = .ok (addr, vm'))
    {a : Nat}
    (ha : a ≠ addr) : vm'.table a = vm.table a := by
  obtain ⟨⟨addr', vm₁⟩, hget, hret⟩ := bind_eq_ok.mp hok
  obtain ⟨rfl, rfl⟩ : addr' = addr ∧ vm₁.zeroPage addr' = vm' := by simpa using hret
  obtain ⟨buddy, -, rfl⟩ := getFreePage_ok hget
  exact Vm.zeroPage_table_of_ne _ ha

namespace CowInv

/-- A page from `get_zeroed_page` is none of the tables, so they stay. -/
theorem zeroedPage_same (h : CowInv totalMemSize s own)
    (htotal : totalMemSize ≤ 2 ^ 30) {flag : Nat}
    (hok : s.vm.getZeroedPage flag current = .ok (addr, vm')) :
    KernelSame s.others s.procs s.dir s.vm vm' := by
  obtain ⟨f, rfl, -, hfresh, -, hinv, -⟩ := h.getZeroedPage htotal hok
  exact .of_fresh hinv.owns htotal h.spaces hfresh mem_addPage_self fun a ha =>
    getZeroedPage_other hok ha

/-- A write fault changes an entry for a user page. -/
theorem protectFault_same (h : CowInv totalMemSize s own) (htotal : totalMemSize ≤ 2 ^ 30)
    (hp : p < s.procs) (haddr : addr < TASK_SIZE) (hwalk : (s.vm.walk (s.dir p) addr).isSome)
    (hok : s.vm.pageProtectFault (s.proc p).mm addr current = .ok vm') :
    KernelSame s.others s.procs s.dir s.vm vm' := by
  have hi : pageOf addr / 1024 < fullLim p := div_lt_fullLim (pageOf_lt haddr) p
  obtain ⟨f, hf⟩ : ∃ f, s.vm.frame (s.dir p) (pageOf addr) = some f := by
    refine Option.ne_none_iff_exists'.mp fun hnone => ?_
    rw [walk_of_none hnone] at hwalk
    exact absurd hwalk (by simp)
  obtain ⟨t, ht⟩ := exists_table_of_frame hf
  obtain ⟨-, rfl⟩ | ⟨-, newPg, vm₁, vm₂, hget, hfree, rfl⟩ :=
    pageProtectFault_ok (h.spaces.space p hp) ht hok
  · exact .of_pte h.owns htotal h.spaces hp hi ht fun a ha => Vm.setEntry_of_ne _ _ _ ha
  · -- A new page gets the bytes, and then the entry leads to it.
    rw [entryAddr_eq] at hfree
    obtain ⟨g, vmc, rfl, hvmc, -, hfresh, hsame, -, hcopy, -⟩ :=
      h.copiedPage htotal hget (entryPage (s.vm.pte (s.dir p) (pageOf addr)))
    obtain ⟨buddy, -, rfl⟩ := getFreePage_ok hget
    have hfree : Vm.freePage
        (Vm.copyPage _ _ (pageAddr (entryPage (s.vm.pte (s.dir p) (pageOf addr))))) _ _
        = .ok vm₂ := hfree
    rw [← hvmc] at hfree
    have hpage : KernelSame s.others s.procs s.dir s.vm vmc :=
      .of_fresh hcopy.owns htotal h.spaces hfresh mem_addPage_self fun a ha => by
        rw [hvmc]
        exact Vm.copyPage_table_of_ne _ _ ha
    have ht' : vmc.tableIdx (s.dir p) (pageOf addr / 1024) = some t :=
      (h.tableIdx_same hsame hp _).trans ht
    refine hpage.trans (.of_pte hcopy.owns htotal hcopy.spaces hp hi ht' fun a ha => ?_)
    rw [Vm.setEntry_of_ne _ _ _ ha, freePage_table hfree]

/-- The first half of a page fault may make a page table for the user half. -/
theorem notPresent_same (h : CowInv totalMemSize s own) (htotal : totalMemSize ≤ 2 ^ 30)
    (hp : p < s.procs) (haddr : addr < TASK_SIZE) {buf : Nat}
    (hok : s.vm.notPresentAlloc (s.proc p).mm addr current = .ok (buf, vm')) :
    KernelSame s.others s.procs s.dir s.vm vm' := by
  have hi : pageOf addr / 1024 < 768 := div_lt_fullLim (pageOf_lt haddr) p
  obtain ⟨vm₁, hget, ⟨-, rfl⟩ | ⟨hempty, newPt, vm₂, hget₁, hvm₁⟩⟩ :=
    notPresentAlloc_ok (h.spaces.space p hp) hok
  · exact h.zeroedPage_same htotal hget
  · obtain ⟨own₁, h₁, -⟩ := h.newTable htotal hp hi (if_pos hempty) hget₁ hvm₁
    obtain ⟨t, -, -, -, -, h₂, -⟩ := h.getZeroedPage htotal hget₁
    have hentry : KernelSame s.others s.procs s.dir vm₂ vm₁ := by
      obtain ⟨d, hd, hdir, -⟩ := h₂.spaces.self hp
      have hdir : (s.proc p).mm.pgDir = pageAddr d := hdir
      rw [hvm₁, hdir]
      exact .of_entry h₂.owns htotal hd hi _
    exact ((h.zeroedPage_same htotal hget₁).trans hentry).trans (h₁.zeroedPage_same htotal hget)

/-- Its second half installs an entry for a user page. -/
theorem mapped_same (h : CowInv totalMemSize s own) (htotal : totalMemSize ≤ 2 ^ 30)
    (hp : p < s.procs)
    {buf : Nat} {fileRead : Nat → Nat → Nat → UInt8} (hfault : (s.proc p).fault = some (addr, buf))
    (hok : s.vm.notPresentMap (s.proc p).mm addr buf fileRead = .ok vm') :
    KernelSame s.others s.procs s.dir s.vm vm' := by
  obtain ⟨haddr, ⟨t, ht⟩, -⟩ := h.waits p hp addr buf hfault
  obtain ⟨-, content, -, rfl⟩ := notPresentMap_ok (h.spaces.space p hp) ht hok
  exact .of_pte h.owns htotal h.spaces hp (div_lt_fullLim (pageOf_lt haddr) p) ht
    fun a ha => Vm.setEntry_of_ne _ _ _ ha

end CowInv

end

/-! ### Fork -/

section
variable {totalMemSize : Nat} {s : CowState} {own own' : Pool → Multiset Nat} {vm vm' : Vm}
  {p d i : Nat} {current : Tid}

/-- The inner loop of `copy_pt` writes to one table. -/
theorem shareTable_other (vm : Vm) (pt n : Nat) {a : Nat} (ha : a ≠ pt) :
    (vm.shareTable pt n).table a = vm.table a := by
  induction n with
  | zero => rfl
  | succ n ih =>
      rw [shareTable_succ, shareEntry_table, Vm.setEntry_of_ne _ _ _ ha]
      exact ih

namespace CopyInv

/-- A directory entry gets a new table. -/
theorem newPde_same {shared newPt : Nat} {vm₂ : Vm} {pt : Nat} {w : Word}
    (h : CopyInv totalMemSize s own p d shared i vm own') (htotal : totalMemSize ≤ 2 ^ 30)
    (hi : i < 768)
    (hget : vm.getFreePage KERNEL_POOL current = .ok (newPt, vm₂))
    (hvm : vm' = (vm₂.copyPage newPt pt).setEntry (pageAddr d) i w) :
    KernelSame s.others (s.procs + 1) (forkDir s d) vm vm' := by
  obtain ⟨b, hbuddy, rfl⟩ := getFreePage_ok hget
  obtain ⟨t', rfl, -, hfresh, howns, -⟩ := h.owns.getFreePage htotal hbuddy
  have hother : ∀ a, a ≠ pageAddr t' → ({ vm with buddy := b }.copyPage (pageAddr t') pt).table a
      = vm.table a :=
    fun a ha => Vm.copyPage_table_of_ne _ _ ha
  generalize { vm with buddy := b }.copyPage (pageAddr t') pt = vmc at hother hvm
  obtain ⟨d', hd', hdir, -⟩ := h.spaces.self (Nat.lt_succ_self _)
  obtain rfl : d = d' := pageAddr_inj ((forkDir_new d).symm.trans hdir)
  rw [hvm]
  exact (KernelSame.of_fresh howns htotal h.spaces hfresh mem_addPage_self hother).trans
    (.of_entry h.owns htotal hd' hi _)

/-- The body of the outer loop of `copy_pt`. -/
theorem copyPde_same (h : CopyInv totalMemSize s own p d (i * 1024) i vm own')
    (hinv : CowInv totalMemSize s own) (htotal : totalMemSize ≤ 2 ^ 30) (hp : p < s.procs)
    (hi : i < 768)
    (hok : vm.copyPde (s.dir p) (pageAddr d) i current = .ok vm') :
    KernelSame s.others (s.procs + 1) (forkDir s d) vm vm' := by
  have hn : s.procs < s.procs + 1 := Nat.lt_succ_self _
  have hp' : p < s.procs + 1 := Nat.lt_succ_of_lt hp
  unfold Vm.copyPde at hok
  rw [h.dir p hp] at hok
  by_cases hempty : s.vm.table (s.dir p) i &&& 0b11 ≠ 0
  · rw [if_pos hempty, entryAddr_eq] at hok
    obtain ⟨⟨newPt, vm₂⟩, hget, hret⟩ := bind_eq_ok.mp hok
    obtain ⟨t, hentry⟩ : ∃ t, t = entryPage (s.vm.table (s.dir p) i) := ⟨_, rfl⟩
    rw [← hentry] at hget hret
    have ht : s.vm.tableIdx (s.dir p) i = some t :=
      hentry ▸ PageEntry.present ((hinv.spaces.space p hp).pde i hi) (by decide) hempty
    have ht' : vm.tableIdx (forkDir s d p) i = some t := by
      rw [forkDir_old d hp, h.tableIdx_old hp, ht]
    have hlim : i < Function.update fullLim s.procs i p := by
      rw [forkLim_old i hp]
      exact hi
    -- The page table of the parent loses its rights first, and then gets its copy.
    have hshared := h.shareTable hinv htotal hp hi ht 1024 (Nat.le_refl _)
    have hparent : ∀ a, a ≠ pageAddr t → (vm.shareTable (pageAddr t) 1024).table a = vm.table a :=
      fun a ha => shareTable_other vm _ _ ha
    obtain ⟨vm₁, hvm₁⟩ : ∃ vm₁, vm₁ = vm.shareTable (pageAddr t) 1024 := ⟨_, rfl⟩
    rw [← hvm₁] at hget hshared hparent
    have hsame : KernelSame s.others (s.procs + 1) (forkDir s d) vm vm₁ :=
      .of_pte h.owns htotal h.spaces hp' hlim ht' hparent
    exact hsame.trans (hshared.newPde_same htotal hi hget (Except.ok.inj hret).symm)
  · rw [if_neg hempty] at hok
    obtain rfl := Except.ok.inj hok
    exact .of_table rfl

/-- The loops of `copy_pt` go over the user half, of both directories. -/
theorem copyPdes_same (h : CopyInv totalMemSize s own p d 0 0 vm own')
    (hinv : CowInv totalMemSize s own)
    (htotal : totalMemSize ≤ 2 ^ 30) (hp : p < s.procs) (n : Nat) :
    ∀ {vm'}, n ≤ 768 → vm.copyPdes (s.dir p) (pageAddr d) n current = .ok vm' →
      KernelSame s.others (s.procs + 1) (forkDir s d) vm vm' := by
  induction n with
  | zero =>
      intro vm' _ hok
      exact .of_table (by rw [← Except.ok.inj hok])
  | succ n ih =>
      intro vm' hn hok
      rw [copyPdes_succ] at hok
      obtain ⟨vm₁, hloop, hbody⟩ := bind_eq_ok.mp hok
      obtain ⟨own₁, h₁⟩ := h.copyPdes hinv htotal hp n (Nat.le_of_succ_le hn) hloop
      exact (ih (Nat.le_of_succ_le hn) hloop).trans (h₁.copyPde_same hinv htotal hp hn hbody)

end CopyInv

/-- The child of a fork has the entries for the kernel of its parent. -/
theorem CowInv.fork_same (h : CowInv totalMemSize s own) (htotal : totalMemSize ≤ 2 ^ 30)
    (hp : p < s.procs) {s' : CowState} (hok : s.next (.fork p current) = .ok s') :
    ∃ d, s'.procs = s.procs + 1 ∧ s'.others = s.others ∧ s'.dir = forkDir s d ∧
      KernelSame s.others s.procs s.dir s.vm s'.vm ∧
      ∀ i, kernelEntry i → s'.vm.table (pageAddr d) i = s.vm.table (s.dir p) i := by
  obtain ⟨⟨mm, vm'⟩, hcopy, hret⟩ := bind_eq_ok.mp hok
  obtain rfl := Except.ok.inj hret
  obtain ⟨⟨pgDir, vm₁⟩, hget, hcopy⟩ := bind_eq_ok.mp hcopy
  obtain ⟨vm₂, hloop, hret⟩ := bind_eq_ok.mp hcopy
  obtain ⟨rfl, rfl⟩ : { (s.proc p).mm with pgDir } = mm ∧ vm₂ = vm' := by simpa using hret
  obtain ⟨d, own₀, rfl, hinit⟩ := h.copyInv_init htotal hget
  obtain ⟨b, hbuddy, rfl⟩ := getFreePage_ok hget
  obtain ⟨d', hd', -, hfresh, howns, -⟩ := h.owns.getFreePage htotal hbuddy
  obtain rfl := pageAddr_inj hd'
  rw [Vm.copyPt] at hloop
  have hparent : (s.proc p).mm.pgDir = s.dir p := rfl
  rw [hparent] at hloop
  obtain ⟨w, hw⟩ : ∃ w, w = paddrWord (pageAddr d) ||| PG_SUPERVISOR ||| PG_P ||| PG_RWE := ⟨_, rfl⟩
  rw [← hw] at hloop hinit
  -- The copy of the directory of the parent, with the entry for itself.
  have hother : ∀ a, a ≠ pageAddr d →
      (({ s.vm with buddy := b }.copyPage (pageAddr d) (s.dir p)).setEntry
        (pageAddr d) 1023 w).table a = s.vm.table a := fun a ha => by
    rw [Vm.setEntry_of_ne _ _ _ ha]
    exact Vm.copyPage_table_of_ne _ _ ha
  have hself : (({ s.vm with buddy := b }.copyPage (pageAddr d) (s.dir p)).setEntry
      (pageAddr d) 1023 w).table (pageAddr d) = Function.update (s.vm.table (s.dir p)) 1023 w := by
    rw [Vm.setEntry_self, Vm.copyPage_table_self]
  generalize ({ s.vm with buddy := b }.copyPage (pageAddr d) (s.dir p)).setEntry (pageAddr d) 1023 w
    = vmc
    at hloop hinit hother hself
  have hfirst : KernelSame s.others s.procs s.dir s.vm vmc :=
    .of_fresh howns htotal h.spaces hfresh mem_addPage_self hother
  have hrest := hinit.copyPdes_same h htotal hp 768 (Nat.le_refl _) hloop
  refine ⟨d, rfl, rfl, ?_, hfirst.trans ⟨hrest.held, fun q hq i hi => ?_⟩, fun i hi => ?_⟩
  · funext q
    show (Function.update s.proc s.procs _ q).mm.pgDir = _
    by_cases hq : q = s.procs
    · subst hq
      rw [forkDir_new, Function.update_self]
    · rw [forkDir, Function.update_of_ne hq, Function.update_of_ne hq]
      rfl
  · have := hrest.half q (Nat.lt_succ_of_lt hq) i hi
    rwa [forkDir_old d hq] at this
  · have hnew := hrest.half s.procs (Nat.lt_succ_self _) i hi
    rw [forkDir_new, hself, Function.update_of_ne (by have := hi.2; omega)] at hnew
    exact hnew

/-! ### Runs -/

/-- The tables of boot are where `pool_init` left them, and all directories lead to them. -/
structure KernelInv (totalMemSize : Nat) (s : CowState) : Prop where
  cow : ∃ own, CowInv totalMemSize s own
  reserved : BootReserved s.others
  tables : ∀ n < 255 * 1024, s.vm.table (pageAddr (0x101 + n / 1024)) (n % 1024)
    = tableEntry totalMemSize n
  half : ∀ q < s.procs, ∀ i, kernelEntry i → s.vm.table (s.dir q) i = dirEntry i

/-- The page of a table of boot. -/
theorem bootPage {n : Nat} (hn : n < 255 * 1024) :
    PAGE_DIR_TABLE_POS / PG_SIZE ≤ 0x101 + n / 1024 ∧ 0x101 + n / 1024 < POOL_START / PG_SIZE := by
  rw [PAGE_DIR_TABLE_POS, POOL_START, PG_SIZE]
  omega

/-- The words of the tables of boot, as entries. -/
theorem physOf_bootPage (vm : Vm) (n : Nat) :
    physOf vm (PAGE_TABLES + 4 * n) = vm.table (pageAddr (0x101 + n / 1024)) (n % 1024) := by
  have hsplit : PAGE_TABLES + 4 * n = (0x101 + n / 1024) * PG_SIZE + 4 * (n % 1024) := by
    rw [PAGE_TABLES, PG_SIZE]
    omega
  rw [hsplit, physOf_entry vm _ (Nat.mod_lt _ (by decide))]

/-- The page tables from boot are never given out. -/
theorem held_bootPage {others : Pool → Multiset Block} (h : BootReserved others) {n : Nat}
    (hn : n < 255 * 1024) :
    Held others (0x101 + n / 1024) :=
  h _ (bootPage hn).1 (bootPage hn).2

namespace KernelInv

/-- Processes that stay the same keep the kernel when memory does. -/
theorem of_same (h : KernelInv totalMemSize s) {s' : CowState}
    (hcow : ∃ own, CowInv totalMemSize s' own)
    (hprocs : s'.procs = s.procs) (hothers : s'.others = s.others) (hdir : s'.dir = s.dir)
    (hsame : KernelSame s.others s.procs s.dir s.vm s'.vm) : KernelInv totalMemSize s' where
  cow := hcow
  reserved := hothers ▸ h.reserved
  tables n hn := by rw [hsame.held _ (held_bootPage h.reserved hn), h.tables n hn]
  half q hq i hi := by
    rw [hprocs] at hq
    rw [hdir, hsame.half q hq i hi, h.half q hq i hi]

/-- `fork` copies the directory, so the half of the kernel is that of the parent. -/
theorem fork (h : KernelInv totalMemSize s) (htotal : totalMemSize ≤ 2 ^ 30) (hp : p < s.procs)
    {s' : CowState} (hok : s.next (.fork p current) = .ok s') : KernelInv totalMemSize s' := by
  obtain ⟨own, hinv⟩ := h.cow
  obtain ⟨d, hprocs, hothers, hdir, hsame, hchild⟩ := hinv.fork_same htotal hp hok
  refine ⟨hinv.fork htotal hp hok, hothers ▸ h.reserved, fun n hn => ?_, fun q hq i hi => ?_⟩
  · rw [hsame.held _ (held_bootPage h.reserved hn), h.tables n hn]
  · rw [hprocs] at hq
    rw [hdir]
    obtain hold | rfl := Nat.lt_succ_iff_lt_or_eq.mp hq
    · rw [forkDir_old d hold, hsame.half q hold i hi, h.half q hold i hi]
    · rw [forkDir_new, hchild i hi, h.half p hp i hi]

/-- Other code writes to its own pages, and not to the tables. -/
theorem store (h : KernelInv totalMemSize s) (htotal : totalMemSize ≤ 2 ^ 30)
    {table : Nat → Nat → Word} {user : Nat → Nat → UInt8} (ha : s.Enabled (.store table user))
    (hkeeps : KeepsKernel s (.store table user))
    {s' : CowState} (hok : s.next (.store table user) = .ok s') : KernelInv totalMemSize s' := by
  obtain ⟨own, hinv⟩ := h.cow
  have hcow : ∃ own, CowInv totalMemSize s' own := ⟨own, hinv.store htotal ha hok⟩
  obtain rfl := Except.ok.inj hok
  refine ⟨hcow, h.reserved, fun n hn => ?_, fun q hq i hi => ?_⟩
  · show table _ _ = _
    rw [hkeeps _ (bootPage hn).1 (bootPage hn).2, h.tables n hn]
  · -- A directory is a page of the processes.
    obtain ⟨d, hd, hdir, -⟩ := hinv.spaces.self hq
    have hnot := hinv.owns.not_held htotal hd
    have hdir' : s.dir q = pageAddr d := hdir
    have hkept := (ha (pageAddr d) fun P blk hblk hcov =>
      hnot ⟨P, blk, hblk, paddr2pg_pageAddr d ▸ hcov⟩).1
    show table (s.dir q) i = _
    rw [hdir', hkept, ← hdir', h.half q hq i hi]

/-- Each step keeps the half of the kernel, in every directory. -/
theorem next (h : KernelInv totalMemSize s) (htotal : totalMemSize ≤ 2 ^ 30) {a : CowAct}
    (ha : s.Enabled a) (hkeeps : KeepsKernel s a) {s' : CowState} (hok : s.next a = .ok s') :
    KernelInv totalMemSize s' := by
  obtain ⟨own, hinv⟩ := h.cow
  -- What is left to show is about the half of the kernel.
  have hcow := hinv.next htotal ha hok
  cases a with
  | fork p current => exact h.fork htotal ha.1 hok
  | write p addr byte =>
      obtain rfl := Except.ok.inj hok
      exact h.of_same hcow rfl rfl rfl (.of_table (userWrite_table _ _ _ _))
  | protectFault p addr current =>
      obtain ⟨vm, hvm, hret⟩ := bind_eq_ok.mp hok
      obtain rfl := Except.ok.inj hret
      exact h.of_same hcow rfl rfl rfl (hinv.protectFault_same htotal ha.1.1 ha.2.1 ha.2.2.1 hvm)
  | notPresent p addr current =>
      obtain ⟨⟨buf, vm⟩, hvm, hret⟩ := bind_eq_ok.mp hok
      obtain rfl := Except.ok.inj hret
      exact h.of_same hcow rfl rfl (dir_setProc rfl) (hinv.notPresent_same htotal ha.1.1 ha.2.1 hvm)
  | mapped p fileRead =>
      obtain ⟨⟨addr, buf⟩, hderef, hmap⟩ := bind_eq_ok.mp hok
      obtain ⟨vm, hvm, hret⟩ := bind_eq_ok.mp hmap
      obtain rfl := Except.ok.inj hret
      exact h.of_same hcow rfl rfl (dir_setProc rfl)
        (hinv.mapped_same htotal ha.1 (deref_eq_ok.mp hderef) hvm)
  | pages a =>
      obtain ⟨t, ht, hret⟩ := bind_eq_ok.mp hok
      obtain rfl := Except.ok.inj hret
      exact ⟨hcow, hkeeps t ht, h.tables, h.half⟩
  | store table user => exact h.store htotal ha hkeeps hok

end KernelInv

/-- The directory and the tables that the loader and `pool_init` leave. -/
theorem entries_of_hasTables {vm : Vm} (h : HasTables totalMemSize vm) :
    totalMemSize > 512 * PG_SIZE ∧ (∀ i < 1024, vm.table pdtAddr i = dirEntry i) ∧
      ∀ n < 255 * 1024, vm.table (pageAddr (0x101 + n / 1024)) (n % 1024)
        = tableEntry totalMemSize n := by
  obtain ⟨mem, words, b, current, x, hloader, hboot, hwords⟩ := h
  obtain ⟨hmin, htables⟩ := poolInit_tables hloader hboot
  have hpos : PAGE_DIR_TABLE_POS = 0x100 * PG_SIZE := rfl
  have hend : POOL_START = 0x200000 := rfl
  have hsize : PG_SIZE = 4096 := rfl
  refine ⟨hmin, fun i hi => ?_, fun n hn => ?_⟩
  · rw [← htables.dir i hi, ← hwords _ (by omega) (by omega) (by omega), hpos, physOf_entry vm _ hi]
    rfl
  · have htab : PAGE_TABLES = 0x101000 := rfl
    rw [← htables.tables n hn, ← hwords _ (by omega) (by omega) (by omega), physOf_bootPage]

/-- The directory of a new kernel thread. -/
theorem newPgDir_ok {vm : Vm} {pgDir : Nat} (hok : newPgDir vm current = .ok (pgDir, vm')) :
    (∀ a, a ≠ pgDir → vm'.table a = vm.table a) ∧
      (pdtAddr ≠ pgDir → ∀ i, kernelEntry i → vm'.table pgDir i = vm.table pdtAddr i) := by
  obtain ⟨⟨pgDir', vm₁⟩, hget, hret⟩ := bind_eq_ok.mp hok
  obtain ⟨rfl, rfl⟩ := Prod.mk.inj (Except.ok.inj hret)
  refine ⟨fun a ha => ?_, fun hne i hi => ?_⟩
  · rw [Vm.setEntry_of_ne _ _ _ ha]
    exact (Function.update_of_ne ha _ _).trans (getZeroedPage_other hget ha)
  · rw [Vm.setEntry_self, Function.update_of_ne (by have := hi.2; omega)]
    simp only [Function.update_self]
    rw [if_pos hi.1, getZeroedPage_other hget hne]

/-- So it is the same in every run. -/
theorem kernelSystem_inductive :
    (kernelSystem totalMemSize).Inductive fun s =>
      totalMemSize > 512 * PG_SIZE ∧ totalMemSize ≤ 2 ^ 30 ∧ KernelInv totalMemSize s where
  init := by
    rintro s ⟨hinit, hreserved, vm, current, htables, hnew⟩
    have htotal : totalMemSize ≤ 2 ^ 30 := hinit.size.2
    obtain ⟨own, hinv⟩ := cowInv_init hinit
    obtain ⟨d, hd, hdir, -⟩ := @Spaces.self _ _ _ _ _ 0 hinv.spaces
      (by rw [hinit.procs]; exact Nat.one_pos)
    obtain ⟨hmin, hhalf, hentries⟩ := entries_of_hasTables htables
    obtain ⟨hother, hdirs⟩ := newPgDir_ok hnew
    -- The new directory is a page of its own.
    have hne : ∀ t, Held s.others t → pageAddr t ≠ s.dir 0 := fun t ht heq =>
      hinv.owns.not_held htotal hd (pageAddr_inj (heq.trans hdir) ▸ ht)
    refine ⟨hmin, htotal, ⟨own, hinv⟩, hreserved, fun n hn => ?_, fun q hq i hi => ?_⟩
    · rw [hother _ (hne _ (held_bootPage hreserved hn)), hentries n hn]
    · rw [hinit.procs] at hq
      obtain rfl : q = 0 := by omega
      rw [hdirs (hne 0x100 (hreserved _ (by decide) (by decide))) i hi,
        hhalf i (by have := hi.2; omega)]
  step := by
    rintro s s' a ⟨hmin, htotal, h⟩ ⟨ha, hkeeps⟩ hok
    exact ⟨hmin, htotal, h.next htotal ha hkeeps hok⟩

end

/-! ### The first process -/

section
variable {totalMemSize pgDir : Nat} {vm vm' : Vm} {others : Pool → Multiset Block}
  {mmap : List VmAreaStruct}
  {current : Tid}

/-- The directory that `do_exec` makes has no user memory, and runs of processes start with it. -/
theorem init_of_newPgDir (hsize : totalMemSize > 512 * PG_SIZE ∧ totalMemSize ≤ 1024 * 1024 * 1024)
    (hs : (buddySystem totalMemSize).Reachable ⟨vm.buddy, others⟩)
    (hok : newPgDir vm current = .ok (pgDir, vm')) :
    CowState.Init totalMemSize (kernelThread vm' pgDir mmap others) := by
  obtain ⟨⟨pgDir', vm₁⟩, hget, hret⟩ := bind_eq_ok.mp hok
  obtain ⟨⟨pgDir'', vm₂⟩, hfree, hret₁⟩ := bind_eq_ok.mp hget
  obtain ⟨rfl, hvm'⟩ := Prod.mk.inj (Except.ok.inj hret)
  obtain ⟨rfl, hvm₁⟩ := Prod.mk.inj (Except.ok.inj hret₁)
  obtain ⟨b, hbuddy, rfl⟩ := getFreePage_ok hfree
  obtain ⟨⟨d, b'⟩, halloc, hret₂⟩ := bind_eq_ok.mp hbuddy
  obtain ⟨rfl, rfl⟩ := Prod.mk.inj (Except.ok.inj hret₂)
  -- The page of the directory, as a call of `alloc_pages`.
  have hnext : (buddySystem totalMemSize).next ⟨vm.buddy, others⟩ (.alloc KERNEL_POOL 0 current)
      = .ok ⟨b', others + pageBlock (firstOwn d)⟩ := by
    have hpool : poolOfFlag KERNEL_POOL = .kernel := rfl
    simp only [buddySystem, BuddyState.next, halloc, ok_bind, pure_eq_ok, hpool, others_firstOwn]
  have henabled : (buddySystem totalMemSize).enabled ⟨vm.buddy, others⟩
      (.alloc KERNEL_POOL 0 current) :=
    Nat.zero_le MAX_ORDER
  have hreach := hs.step henabled hnext
  have hmem : d ∈ firstOwn d .kernel := by simp [firstOwn]
  have hd : d < MAX_PAGES := (owns_of_reachable hsize.2 hreach).lt_maxPages hsize.2 hmem
  have hbuddy' : vm'.buddy = b' := by
    rw [← hvm', ← hvm₁]
    rfl
  have hzero : vm₁.table (pageAddr d) = fun _ => 0 := by
    rw [← hvm₁]
    exact Vm.zeroPage_table_self _ _
  have hself : vm'.tableIdx (pageAddr d) 1023 = some d := by
    have hflags : (PG_SUPERVISOR ||| PG_P ||| PG_RWE) >>> 12 = 0 := by decide
    rw [Vm.tableIdx, ← hvm', Vm.setEntry_self, Function.update_self, BitVec.or_assoc,
      BitVec.or_assoc, ← BitVec.or_assoc PG_SUPERVISOR]
    exact presentPage_paddrWord hd hflags (by decide)
  have huser : ∀ i < 768, vm'.table (pageAddr d) i = 0 := by
    intro i hi
    rw [← hvm', Vm.setEntry_self, Function.update_of_ne (by omega)]
    simp only [Function.update_self]
    rw [if_neg (by omega), hzero]
  have hnone : ∀ i < 768, vm'.tableIdx (pageAddr d) i = none := fun i hi => by
    rw [Vm.tableIdx, huser i hi]
    rfl
  have hframe : ∀ page < USER_PAGES, vm'.frame (pageAddr d) page = none := fun page hpage =>
    frame_of_none (hnone _ (div_lt_fullLim hpage 0))
  refine ⟨hsize, rfl, rfl,
    ⟨firstOwn d, ⟨⟨d, hmem, rfl, hself⟩, fun i hi => .inl ?_, fun page hpage => .inl ?_⟩, ?_⟩,
    fun i j t hi hj hti htj => ?_, fun page hpage f hf => ?_, fun page hpage => ?_⟩
  · exact (congrArg (· &&& 0b11) (huser i hi)).trans (by decide)
  · exact (congrArg (· &&& 0b11) (pte_of_none (hnone _ (div_lt_fullLim hpage 0)))).trans (by decide)
  · show (buddySystem totalMemSize).Reachable ⟨vm'.buddy, others + pageBlock (firstOwn d)⟩
    rw [hbuddy']
    exact hreach
  · -- Only the entry 1023 is present.
    have hlast : ∀ k, OwnEntry 768 k → vm'.tableIdx (pageAddr d) k = some t → k = 1023 := by
      rintro k (hk | rfl) hsome
      · exact absurd ((hnone k hk).symm.trans hsome) (by simp)
      · rfl
    rw [hlast i hi hti, hlast j hj htj]
  · exact absurd ((hframe page hpage).symm.trans hf) (by simp)
  · exact (congrArg (Option.map _) (hframe page hpage)).symm

end

/-- A new directory can be made when there is a page for it. -/
theorem exists_newPgDir {b : Buddy} {vm : Vm} {pgDir : Nat} {current : Tid}
    (hget : vm.buddy.getFreePage KERNEL_POOL current = .ok (pgDir, b)) :
    ∃ vm', newPgDir vm current = .ok (pgDir, vm') ∧ vm'.buddy = b := by
  unfold newPgDir Vm.getZeroedPage Vm.getFreePage
  rw [hget]
  exact ⟨_, rfl, rfl⟩

/-- On a machine with 32 MiB the kernel pool has two blocks: `pool_init` takes the first one, and
`do_exec` a page of the second. -/
theorem exists_kernelThread_32M : ∃ s, (kernelSystem 0x2000000).Reachable s ∧ s.Runs 0 ∧
    s.procs = 1 ∧ 769 ≤ freeCount s.vm.buddy .kernel := by
  obtain ⟨-, x, -, hboot, -⟩ := @boots_of_rightSize 0x2000000 ⟨by decide, by decide⟩
    (setupPage fun _ => 0) zeroedBuddy 0 zeroedBuddy_zeroed
  have hpool : ∀ P, 0 < poolBlocks 0x2000000 P := by
    intro P
    cases P <;> decide
  obtain ⟨b, rest, -, hs, hinv⟩ := exists_boot hpool (by decide)
  have hfree := freeCount_eq hinv .kernel
  rw [show Tiles.weight (bootLive .kernel) = 1024 by decide,
    show poolHi 0x2000000 .kernel - poolLo 0x2000000 .kernel = 2048 by decide] at hfree
  have hnobody : bootLive + pageBlock (fun _ => 0) = bootLive := add_zero bootLive
  have howns : Owns 0x2000000 b bootLive fun _ => 0 :=
    owns_of_reachable (by decide) (hnobody.symm ▸ hs)
  -- The page of the directory.
  obtain ⟨pgDir, b', hget, hfree', -⟩ := howns.kernelPage (by decide) (by omega) 0
  let vm : Vm := ⟨b, fun addr i => x.words (getPaddr addr + 4 * i), fun _ _ => 0⟩
  have htables : HasTables 0x2000000 vm := by
    refine ⟨fun _ => 0, _, zeroedBuddy, 0, x, fun _ _ _ => rfl, hboot, fun a hlo hhi hmod => ?_⟩
    -- The words of the entries are the words of memory.
    show x.words (getPaddr (pageAddr (a / PG_SIZE)) + 4 * (a % PG_SIZE / 4)) = x.words a
    rw [getPaddr, pageAddr, Nat.add_sub_cancel, PG_SIZE]
    exact congrArg x.words (by omega)
  obtain ⟨vm', hnew, hbuddy⟩ := @exists_newPgDir _ vm _ _ hget
  have hreserved : BootReserved bootLive := fun t hlo hhi =>
    ⟨.kernel, ⟨0, MAX_ORDER⟩, by simp [bootLive, BuddyInv.hold], Nat.zero_le _,
      hhi.trans (by decide)⟩
  refine ⟨kernelThread vm' pgDir [] bootLive,
    .init ⟨init_of_newPgDir (by decide) hs hnew, hreserved, vm, 0, htables, hnew⟩,
    ⟨Nat.one_pos, rfl⟩, rfl, ?_⟩
  show 769 ≤ freeCount vm'.buddy .kernel
  rw [hbuddy]
  omega

/-- The first process forks. -/
theorem exists_forked_32M : ∃ s, (kernelSystem 0x2000000).Reachable s ∧ s.procs = 2 := by
  obtain ⟨s, hs, hruns, hprocs, hfree⟩ := exists_kernelThread_32M
  obtain ⟨-, htotal, h⟩ := kernelSystem_inductive.reachable hs
  obtain ⟨own, hinv⟩ := h.cow
  obtain ⟨s', hok, -, -⟩ := hinv.fork_ok htotal hruns.1 hfree 0
  obtain ⟨hprocs', -⟩ := hinv.fork_frames htotal hruns.1 hok
  exact ⟨s', hs.step (a := .fork 0 0) ⟨hruns, trivial⟩ hok, by omega⟩

/-! ### The kernel in all address spaces -/

section
variable {totalMemSize p d : Nat} {s : CowState} {vm : Vm}

/-- The entry 1023 of a directory of `Vm`. -/
theorem selfMapped_of_tableIdx (h : vm.tableIdx (pageAddr d) 1023 = some d) :
    SelfMapped (physOf vm) (d * PG_SIZE) := by
  obtain ⟨hpresent, hpage⟩ := presentPage_eq_some.mp h
  have hlast := physOf_entry vm d (show 1023 < 1024 by decide)
  refine ⟨by rw [hlast]; exact hpresent, ?_⟩
  rw [hlast, pageBase_eq]
  exact congrArg (· * PG_SIZE) hpage

/-- In every run each process has the kernel in its address space: physical memory from
`0xc0000000` on, up to its end, whatever was forked, written and mapped. The directories are
different pages, and each leads to itself. -/
theorem kernel_mapped (hs : (kernelSystem totalMemSize).Reachable s) (hp : p < s.procs) :
    (∀ a < 255 * 2 ^ 22, translate (physOf s.vm) (getPaddr (s.dir p)) (KERNEL_VADDR_START + a)
      = if a / PG_SIZE < totalMemSize / PG_SIZE then some a else none) ∧
    SelfMapped (physOf s.vm) (getPaddr (s.dir p)) ∧
    ∀ q < s.procs, q ≠ p → s.dir q ≠ s.dir p := by
  obtain ⟨hmin, -, h⟩ := kernelSystem_inductive.reachable hs
  obtain ⟨own, hinv⟩ := h.cow
  obtain ⟨d, -, hdir, hself⟩ := hinv.spaces.self hp
  have hdir : s.dir p = pageAddr d := hdir
  have hpd : getPaddr (s.dir p)
      = d * PG_SIZE := by rw [hdir, getPaddr, pageAddr, Nat.add_sub_cancel]
  refine ⟨fun a ha => ?_, ?_, fun q hq hne => hinv.spaces.dir_ne_dir hp hq hne⟩
  · rw [hpd]
    refine translate_kernel hmin (fun n hn => ?_) (fun i hlo hhi => ?_) ha
    · rw [physOf_bootPage, h.tables n hn]
    · rw [physOf_entry _ _ (by omega), ← hdir, h.half p hp i ⟨hlo, hhi⟩]
  · rw [hpd]
    rw [hdir] at hself
    exact selfMapped_of_tableIdx hself

end

/-- The child of the first process. -/
theorem kernel_mapped_32M : ∃ s, (kernelSystem 0x2000000).Reachable s ∧ s.procs = 2 ∧
    translate (physOf s.vm) (getPaddr (s.dir 1)) (KERNEL_VADDR_START + 0x100ffc) = some 0x100ffc ∧
    translate (physOf s.vm) (getPaddr (s.dir 1)) (KERNEL_VADDR_START + 0x2000000) = none ∧
    s.dir 0 ≠ s.dir 1 := by
  obtain ⟨s, hs, hprocs⟩ := exists_forked_32M
  obtain ⟨hmap, -, hdirs⟩ := @kernel_mapped _ 1 _ hs (by rw [hprocs]; decide)
  exact ⟨s, hs, hprocs, (hmap 0x100ffc (by decide)).trans (if_pos (by decide)),
    (hmap 0x2000000 (by decide)).trans (if_neg (by decide)),
    hdirs 0 (by rw [hprocs]; decide) (by decide)⟩

end Fizzos.Proofs
