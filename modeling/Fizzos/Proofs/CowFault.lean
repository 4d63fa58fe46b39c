import Fizzos.Proofs.ForkRuns

/-!
# `Fizzos.Proofs.CowFault`: the write-protect fault handler, and fork as a full copy

`page_protect_fault` copies a shared frame and then asserts that the count it read is one more than
the count of the frame in the entry. The entry holds the new frame by then, whose count is 1. So
the handler returns for two users of a frame, and fails for three and more
(`cowSystem_protectFault_iff`).

Where no assertion has failed, fork with copy-on-write is a full copy (`cowSystem_refines_eager`).
-/

set_option autoImplicit false

namespace Fizzos.Proofs

open Fizzos.Kernel
open Fizzos.LibKernel
open Fizzos.Support

/-- The process at `pgDir` writes to a frame of its own, which holds what the frame `f` held. -/
def Resolved (vm vm' : Vm) (pgDir addr f : Nat) : Prop :=
  ∃ g, vm'.frame pgDir (pageOf addr) = some g ∧
    vm'.Permits pgDir addr (PG_USER ||| PG_RWE) ∧ (vm'.buddy.page g).count = 1 ∧
    vm'.user (pageAddr g) = vm.user (pageAddr f) ∧
    (1 < (vm.buddy.page f).count →
      (vm'.buddy.page f).count = (vm.buddy.page f).count - 1)

section
variable {totalMemSize : Nat} {s : CowState} {own : Pool → Multiset Nat} {vma : VmAreaStruct}
  {p addr f t newPg : Nat} {current : Tid} {vm₁ : Vm}

/-- The entry of the page is `w` from now on. -/
theorem CowInv.resolved_of_entry (vm : Vm) {vm' : Vm} {g : Nat} {w : Word}
    (h : CowInv totalMemSize { s with vm } own) (hp : p < s.procs) (haddr : addr < TASK_SIZE)
    (ht : vm.tableIdx (s.dir p) (pageOf addr / 1024) = some t)
    (hw : presentPage w = some g) (hrights : PageEntry (PG_P ||| PG_USER) (own .user) w)
    (hrwe : w &&& PG_RWE ≠ 0)
    (htable : vm'.table = (vm.setEntry (pageAddr t) (pageOf addr % 1024) w).table) :
    vm'.frame (s.dir p) (pageOf addr) = some g ∧
      vm'.Permits (s.dir p) addr (PG_USER ||| PG_RWE) := by
  have hpage := pageOf_lt haddr
  have hspaces : Spaces vm s.procs s.dir fullLim own := h.spaces
  have hpte : vm'.pte (s.dir p) (pageOf addr) = w := by
    have hset := hspaces.pte_setEntry hp (lt_fullLim hpage p) ht w hp (lt_fullLim hpage p)
    rw [if_pos ⟨rfl, rfl⟩] at hset
    rw [← hset]
    simp only [Vm.pte, Vm.tableIdx, htable]
  have hframe : vm'.frame (s.dir p) (pageOf addr) = some g := by rw [Vm.frame, hpte, hw]
  have hspaces' : Spaces vm' s.procs s.dir fullLim own :=
    (hspaces.setEntry hp (lt_fullLim hpage p) ht hrights).congr (fun u _ => by rw [htable])
      fun _ _ hmem => hmem
  refine ⟨hframe, (permits_iff (hspaces'.space p hp) hpage).mpr ⟨?_, ?_⟩⟩
  · rw [hframe]
    rfl
  · rwa [hpte]

section
variable (h : CowInv totalMemSize s own) (htotal : totalMemSize ≤ 2 ^ 30) (hp : p < s.procs)
  (haddr : addr < TASK_SIZE) (hf : s.frame (p, pageOf addr) = some f)
  (ht : s.vm.tableIdx (s.dir p) (pageOf addr / 1024) = some t)

include h hp haddr hf ht

/-- The handler, with the areas and the page tables looked up. -/
theorem CowInv.pageProtectFault_eq (hvma : findVma (s.proc p).mm addr = some vma)
    (hin : vma.vmStart ≤ addr) :
    s.vm.pageProtectFault (s.proc p).mm addr current =
      if vma.vmFlags &&& VM_WRITE ≠ 0 then
        if 1 < countOf s.vm f then do
          let (newPg, vm) ← s.vm.getFreePage USER_POOL current
          let vm := vm.copyPage newPg (pageAddr f)
          let vm ← vm.freePage (pageAddr f) current
          let vm := vm.setEntry (pageAddr t) (pageOf addr % 1024)
            (paddrWord newPg ||| PG_RWE ||| PG_P ||| PG_USER)
          ASSERT (countOf s.vm f = vm.count (vm.table (pageAddr t) (pageOf addr % 1024)) + 1)
          pure vm
        else .ok (s.vm.setEntry (pageAddr t) (pageOf addr % 1024)
          (s.vm.pte (s.dir p) (pageOf addr) ||| (PG_RWE ||| PG_USER)))
      else PANIC := by
  have hpage := pageOf_lt haddr
  have hspace := h.spaces.space p hp
  have hentry := (presentPage_eq_some.mp hf).2
  have hcount : s.vm.count (s.vm.pte (s.dir p) (pageOf addr)) = countOf s.vm f := by
    rw [Vm.count, hentry]
    rfl
  have hold : entryAddr (s.vm.pte (s.dir p) (pageOf addr)) = pageAddr f := by
    rw [entryAddr_eq, hentry]
  have hpte : s.vm.table (pageAddr t) (pageOf addr % 1024) = s.vm.pte (s.dir p) (pageOf addr) :=
    (pte_of_some ht).symm
  -- `fork` takes the right to write from the pages and not from the page tables.
  have hpde : s.vm.table (s.dir p) (pageOf addr / 1024) &&& PG_RWE ≠ 0 := by
    rw [and_eq_of_sub (rights_of_frame hspace hpage hf).1 (by decide)]
    decide
  have hdir : s.vm.getPde (s.proc p).mm.pgDir addr = (s.dir p, pageOf addr / 1024) :=
    getPde_eq hspace addr
  have htab : s.vm.getPte (s.proc p).mm.pgDir addr = (pageAddr t, pageOf addr % 1024) :=
    getPte_of_table hspace ht
  rw [Vm.pageProtectFault, hvma, deref_some, ok_bind, ASSERT_true hin, ok_bind, hdir, htab]
  simp only [ASSERT_true hpde, ok_bind, hpte, hcount, hold, gt_iff_lt, pure_eq_ok]

/-- The last user of a frame. -/
theorem CowInv.fault_last (hone : countOf s.vm f = 1) :
    Resolved s.vm (s.vm.setEntry (pageAddr t) (pageOf addr % 1024)
      (s.vm.pte (s.dir p) (pageOf addr) ||| (PG_RWE ||| PG_USER))) (s.dir p) addr f := by
  have hpage := pageOf_lt haddr
  obtain ⟨hrights, hmem⟩ := PageEntry.of_present ((h.spaces.space p hp).pte _ hpage) hf
  obtain ⟨hpresent, hentry⟩ := presentPage_eq_some.mp hf
  have hflags : (PG_RWE ||| PG_USER) >>> 12 = 0 := by decide
  -- the new flags leave the others set
  have hkeep : ∀ m : Word, s.vm.pte (s.dir p) (pageOf addr) &&& m = m →
      (s.vm.pte (s.dir p) (pageOf addr) ||| (PG_RWE ||| PG_USER)) &&& m = m := by
    intro m hm
    rw [BitVec.or_comm]
    exact or_and_eq _ hm
  have hpageOf : entryPage (s.vm.pte (s.dir p) (pageOf addr) ||| (PG_RWE ||| PG_USER)) = f := by
    rw [entryPage_or _ hflags, hentry]
  have hnew : presentPage (s.vm.pte (s.dir p) (pageOf addr) ||| (PG_RWE ||| PG_USER)) = some f := by
    refine presentPage_eq_some.mpr ⟨?_, hpageOf⟩
    rw [hkeep _ (and_eq_of_sub hrights (by decide))]
    decide
  have hrwe : (s.vm.pte (s.dir p) (pageOf addr) ||| (PG_RWE ||| PG_USER)) &&& PG_RWE ≠ 0 := by
    rw [or_and_eq _ (show (PG_RWE ||| PG_USER) &&& PG_RWE = PG_RWE by decide)]
    decide
  have hword : PageEntry (PG_P ||| PG_USER) (own .user)
      (s.vm.pte (s.dir p) (pageOf addr) ||| (PG_RWE ||| PG_USER)) :=
    .inr ⟨hkeep _ hrights, hpageOf.symm ▸ hmem⟩
  obtain ⟨hframe, hpermits⟩ :=
    CowInv.resolved_of_entry s.vm h hp haddr ht hnew hword hrwe rfl
  refine ⟨f, hframe, hpermits, hone, rfl, fun hshared => ?_⟩
  have hone' : (s.vm.buddy.page f).count = 1 := hone
  omega

include htotal

/-- A user of a shared frame gets a copy, and the assertion reads the count of the copy. -/
theorem CowInv.fault_shared (hshared : 1 < countOf s.vm f)
    (hget : s.vm.getFreePage USER_POOL current = .ok (newPg, vm₁)) :
    ∃ vm₂ vm', (vm₁.copyPage newPg (pageAddr f)).freePage (pageAddr f) current = .ok vm₂ ∧
      vm' = vm₂.setEntry (pageAddr t) (pageOf addr % 1024)
        (paddrWord newPg ||| PG_RWE ||| PG_P ||| PG_USER) ∧
      vm'.count (vm'.table (pageAddr t) (pageOf addr % 1024)) = 1 ∧
      Resolved s.vm vm' (s.dir p) addr f := by
  have hpage := pageOf_lt haddr
  have hslot : (p, pageOf addr) ∈ s.slots := mem_slots.mpr ⟨hp, hpage⟩
  have hfmem : f ∈ own .user := h.frame_mem hslot hf
  obtain ⟨g, vmc, rfl, hvmc, hg, hfresh, hsame, hone, hcopy, hcontent⟩ := h.copiedPage htotal hget f
  have hfg : f ≠ g := fun heq => hfresh .user (heq ▸ hfmem)
  rw [← hvmc]
  -- `free_page` takes one reference away from the old frame
  have hcountf : countOf vmc f = countOf s.vm f := hsame.count .user f hfmem
  have hrange := h.count_range htotal hslot hf
  have hfree := freePage_shared_eq (h.owns.lt_maxPages htotal hfmem) (by rwa [hcountf])
    (by rw [hcountf]; exact hrange.2) current
  obtain ⟨buddy, hbuddy⟩ : ∃ buddy, buddy = vmc.buddy.setPage f
      { vmc.buddy.page f with count := countOf vmc f - 1 } := ⟨_, rfl⟩
  rw [← hbuddy] at hfree
  have hword : paddrWord (pageAddr g) ||| PG_RWE ||| PG_P ||| PG_USER = frameWord g :=
    or_flags_eq g (by decide)
  have hrwe : frameWord g &&& PG_RWE ≠ 0 := by
    rw [and_eq_of_sub (frameWord_rights g) (by decide)]
    decide
  have hcount : (buddy.page g).count = countOf vmc g := by
    rw [hbuddy, Buddy.setPage_page, Function.update_of_ne hfg.symm]
    rfl
  refine ⟨_, _, hfree, rfl, ?_, ?_⟩
  · -- the entry maps the new frame now
    rw [hword, Vm.setEntry_self, Function.update_self, Vm.count,
      (presentPage_eq_some.mp (frameWord_present hg)).2]
    exact hcount.trans hone
  · rw [hword]
    obtain ⟨hframe, hpermits⟩ := CowInv.resolved_of_entry vmc hcopy hp haddr
      ((h.tableIdx_same hsame hp _).trans ht) (frameWord_present hg)
      (frameWord_entry hg mem_addPage_self) hrwe rfl
    refine ⟨g, hframe, hpermits, ?_, hcontent, fun _ => ?_⟩
    · exact hcount.trans hone
    · show (buddy.page f).count = _
      rw [hbuddy, Buddy.setPage_page, Function.update_self, hcountf]
      rfl

end

/-- The handler gives the process a frame of its own exactly when the area is writable and the frame
has one user, or two users while a page is free. -/
theorem CowInv.protectFault_iff (h : CowInv totalMemSize s own) (htotal : totalMemSize ≤ 2 ^ 30)
    (ha : s.Enabled (.protectFault p addr current)) (hf : s.frame (p, pageOf addr) = some f)
    (hvma : findVma (s.proc p).mm addr = some vma) (hin : vma.vmStart ≤ addr) :
    (∃ vm', s.vm.pageProtectFault (s.proc p).mm addr current = .ok vm' ∧
      Resolved s.vm vm' (s.dir p) addr f) ↔
    vma.vmFlags &&& VM_WRITE ≠ 0 ∧ ((s.vm.buddy.page f).count = 1 ∨
      (s.vm.buddy.page f).count = 2 ∧ HasFree s.vm.buddy .user) := by
  obtain ⟨⟨hp, -⟩, haddr, -, -⟩ := ha
  obtain ⟨t, ht⟩ := exists_table_of_frame hf
  have hslot : (p, pageOf addr) ∈ s.slots := mem_slots.mpr ⟨hp, pageOf_lt haddr⟩
  have hpos : 1 ≤ (s.vm.buddy.page f).count := (h.count_range htotal hslot hf).1
  have heq : s.vm.pageProtectFault (s.proc p).mm addr current = _ :=
    h.pageProtectFault_eq hp haddr hf ht hvma hin
  by_cases hwrite : vma.vmFlags &&& VM_WRITE ≠ 0
  · rw [if_pos hwrite] at heq
    simp only [hwrite, ne_eq, not_false_eq_true, true_and]
    by_cases hshared : 1 < countOf s.vm f
    · have hshared' : 1 < (s.vm.buddy.page f).count := hshared
      rw [if_pos hshared] at heq
      have hget := getFreePage_iff h.owns htotal USER_POOL current
      rw [show poolOfFlag USER_POOL = .user from rfl] at hget
      cases hpage : s.vm.buddy.getFreePage USER_POOL current with
      | error e =>
          -- no page for the copy
          have hnone : ¬HasFree s.vm.buddy .user := fun hfree => by
            obtain ⟨r, hr⟩ := hget.mpr hfree
            rw [hpage] at hr
            cases hr
          have hfail : s.vm.getFreePage USER_POOL current = .error e := by
            rw [Vm.getFreePage, hpage]
            rfl
          rw [heq, hfail]
          constructor
          · rintro ⟨vm', hok, -⟩
            cases hok
          · rintro (hone | ⟨-, hfree⟩)
            · omega
            · exact absurd hfree hnone
      | ok r =>
          obtain ⟨newPg, buddy⟩ := r
          have hfree : HasFree s.vm.buddy .user := hget.mp ⟨_, hpage⟩
          have hok : s.vm.getFreePage USER_POOL current = .ok (newPg, { s.vm with buddy }) := by
            rw [Vm.getFreePage, hpage]
            rfl
          obtain ⟨vm₂, vm', hdrop, rfl, hcount, hres⟩ :=
            h.fault_shared htotal hp haddr hf ht hshared hok
          rw [hok, ok_bind] at heq
          simp only [hdrop, ok_bind, hcount] at heq
          -- the assertion compares the old count with the count of the copy
          constructor
          · rintro ⟨vm'', hret, -⟩
            rw [heq] at hret
            obtain ⟨u, hassert, -⟩ := bind_eq_ok.mp hret
            have htwo : countOf s.vm f = 1 + 1 := ASSERT_eq_ok.mp hassert
            exact .inr ⟨htwo, hfree⟩
          · rintro (hone | ⟨htwo, -⟩)
            · omega
            · have hassert : countOf s.vm f = 1 + 1 := htwo
              rw [ASSERT_true hassert, ok_bind] at heq
              exact ⟨_, heq, hres⟩
    · have hone : countOf s.vm f = 1 := by
        have hpos' : 1 ≤ countOf s.vm f := hpos
        omega
      rw [if_neg hshared] at heq
      exact ⟨fun _ => .inl hone, fun _ => ⟨_, heq, h.fault_last hp haddr hf ht hone⟩⟩
  · rw [if_neg hwrite] at heq
    constructor
    · rintro ⟨vm', hok, -⟩
      rw [heq] at hok
      cases hok
    · exact fun hall => absurd hall.1 hwrite

/-- A write to a frame that the entry maps read-only is a fault. -/
theorem CowInv.protectFault_enabled (h : CowInv totalMemSize s own) (hp : p < s.procs)
    (hruns : (s.proc p).fault = none) (haddr : addr < TASK_SIZE)
    (hf : s.frame (p, pageOf addr) = some f)
    (hread : s.vm.pte (s.dir p) (pageOf addr) &&& PG_RWE = 0) :
    s.Enabled (.protectFault p addr current) := by
  refine ⟨⟨hp, hruns⟩, haddr, ?_, fun hpermits => ?_⟩
  · rw [walk_of_frame hf]
    rfl
  · exact ((permits_iff (h.spaces.space p hp) (pageOf_lt haddr)).mp hpermits).2 hread

end

/-- A process with one writable area writes to the frame that it shares. -/
theorem Sharers.protectFault_enabled {n f : Nat} {s : CowState} (h : Sharers n s f) (hn : 1 < n) :
    s.Enabled (.protectFault 0 0x08048000 0) ∧ s.frame (0, pageOf 0x08048000) = some f ∧
      findVma (s.proc 0).mm 0x08048000 = some firstArea := by
  have hp : 0 < s.procs := by rw [h.procs]; omega
  have haddr : 0x08048000 < TASK_SIZE := by decide
  have hf : s.frame (0, pageOf 0x08048000) = some f :=
    (h.frame 0 (by omega) _ (pageOf_lt haddr)).trans (if_pos (by decide))
  obtain ⟨own, hinv⟩ := exists_cowInv h.reachable
  have hcount : countOf s.vm f = n := h.count (by omega)
  have hread := hinv.shared_readOnly (mem_slots.mpr ⟨hp, pageOf_lt haddr⟩) hf (by omega)
  refine ⟨hinv.protectFault_enabled hp (h.runs 0 (by omega)) haddr hf hread, hf, ?_⟩
  rw [findVma, h.mmap 0 (by omega)]
  rfl

/-- With two users the handler makes a copy. -/
theorem Sharers.protectFault_copies {f : Nat} {s : CowState} (h : Sharers 2 s f) :
    ∃ vm', s.vm.pageProtectFault (s.proc 0).mm 0x08048000 0 = .ok vm' ∧
      Resolved s.vm vm' (s.dir 0) 0x08048000 f := by
  obtain ⟨ha, hf, hvma⟩ := h.protectFault_enabled (by decide)
  obtain ⟨own, hinv⟩ := exists_cowInv h.reachable
  exact (hinv.protectFault_iff (by decide) ha hf hvma (by decide)).mpr
    ⟨by decide, .inr ⟨h.count (by decide), h.hasFree⟩⟩

section
variable {totalMemSize : Nat} {s : CowState} {vma : VmAreaStruct} {p addr f : Nat} {current : Tid}

/-- A write to a present page without the right to write: the fault handler gives the process a
frame of its own exactly when the area is writable and the frame has one user, or two users
while a page is free. -/
theorem cowSystem_protectFault_iff (hs : (cowSystem totalMemSize).Reachable s)
    (ha : s.Enabled (.protectFault p addr current)) (hf : s.frame (p, pageOf addr) = some f)
    (hvma : findVma (s.proc p).mm addr = some vma) (hin : vma.vmStart ≤ addr) :
    (∃ vm', s.vm.pageProtectFault (s.proc p).mm addr current = .ok vm' ∧
      Resolved s.vm vm' (s.dir p) addr f) ↔
    vma.vmFlags &&& VM_WRITE ≠ 0 ∧ ((s.vm.buddy.page f).count = 1 ∨
      (s.vm.buddy.page f).count = 2 ∧ HasFree s.vm.buddy .user) := by
  obtain ⟨own, h⟩ := exists_cowInv hs
  obtain ⟨s₀, hinit⟩ := hs.exists_init
  exact h.protectFault_iff hinit.size.2 ha hf hvma hin

end

/-- One of two users of a frame gets a copy. -/
theorem cowSystem_protectFault_iff_64M : ∃ s f vm', (cowSystem 0x4000000).Reachable s ∧
    s.procs = 2 ∧ (∀ q < 2, s.frame (q, pageOf 0x08048000) = some f) ∧
    (s.vm.buddy.page f).count = 2 ∧
    s.vm.pageProtectFault (s.proc 0).mm 0x08048000 0 = .ok vm' ∧
    Resolved s.vm vm' (s.dir 0) 0x08048000 f := by
  obtain ⟨s, f, h⟩ := exists_sharers 1 (by decide)
  obtain ⟨ha, hf, hvma⟩ := h.protectFault_enabled (by decide)
  have hcount : (s.vm.buddy.page f).count = 2 := h.count (by decide)
  obtain ⟨vm', hok, hres⟩ := (cowSystem_protectFault_iff h.reachable ha hf hvma (by decide)).mpr
    ⟨by decide, .inr ⟨hcount, h.hasFree⟩⟩
  exact ⟨s, f, vm', h.reachable, h.procs,
    fun q hq => (h.frame q hq _ (by decide)).trans (if_pos (by decide)), hcount, hok, hres⟩

/-- With three users of a frame and a page for the copy, the assertion fails. It looks at the count
through the entry, which leads to the copy by then. -/
theorem pageProtectFault_three_sharers : ∃ s f, (cowSystem 0x4000000).Reachable s ∧
    s.Enabled (.protectFault 0 0x08048000 0) ∧ s.frame (0, pageOf 0x08048000) = some f ∧
    findVma (s.proc 0).mm 0x08048000 = some firstArea ∧ firstArea.vmStart ≤ 0x08048000 ∧
    firstArea.vmFlags &&& VM_WRITE ≠ 0 ∧ 2 < (s.vm.buddy.page f).count ∧
    HasFree s.vm.buddy .user ∧
    s.vm.pageProtectFault (s.proc 0).mm 0x08048000 0 = .error .assertFailed := by
  obtain ⟨s, f, h⟩ := exists_sharers 2 (by decide)
  obtain ⟨ha, hf, hvma⟩ := h.protectFault_enabled (by decide)
  have hthree : countOf s.vm f = 3 := h.count (by decide)
  have hp : 0 < s.procs := by rw [h.procs]; decide
  have htotal : 0x4000000 ≤ 2 ^ 30 := by decide
  have haddr : 0x08048000 < TASK_SIZE := by decide
  have hshared : 1 < countOf s.vm f := by omega
  obtain ⟨own, hinv⟩ := exists_cowInv h.reachable
  obtain ⟨t, ht⟩ := exists_table_of_frame hf
  refine ⟨s, f, h.reachable, ha, hf, hvma, by decide, by decide,
    show 2 < countOf s.vm f by omega, h.hasFree, ?_⟩
  -- a page is free, so the handler makes the copy and comes to the assertion
  obtain ⟨⟨newPg, buddy⟩, hpage⟩ := (getFreePage_iff hinv.owns htotal USER_POOL 0).mpr h.hasFree
  have hget : s.vm.getFreePage USER_POOL 0 = .ok (newPg, { s.vm with buddy }) := by
    rw [Vm.getFreePage, hpage]
    rfl
  obtain ⟨vm₂, vm', hdrop, rfl, hone, -⟩ := hinv.fault_shared htotal hp haddr hf ht hshared hget
  have hne : ¬countOf s.vm f = 1 + 1 := by omega
  rw [hinv.pageProtectFault_eq hp haddr hf ht hvma (by decide), if_pos (by decide), if_pos hshared,
    hget, ok_bind]
  simp only [hdrop, ok_bind, hone]
  rw [ASSERT_false hne]
  rfl

/-! ### A full copy -/

/-- Fork with copy-on-write refines a fork that copies all user memory, for every run of
forks, user accesses and page faults. The count of a user frame is the number of user
page-table entries that reference it, a frame with more than one is read-only in all of them,
and every process reads what it would read if each fork had copied the parent's memory. -/
theorem cowSystem_refines_eager {totalMemSize : Nat} {s : CowState}
    (hs : (cowSystem totalMemSize).Reachable s) :
    (∀ slot ∈ s.slots, ∀ f, s.frame slot = some f →
      (s.vm.buddy.page f).count = s.refs f ∧
      (1 < (s.vm.buddy.page f).count → s.vm.pte (s.dir slot.1) slot.2 &&& PG_RWE = 0)) ∧
    ∀ p < s.procs, ∀ addr < TASK_SIZE,
      s.vm.userRead (s.dir p) addr
        = (s.eager p (addr / PG_SIZE)).map fun content => content (addr % PG_SIZE) := by
  obtain ⟨own, h⟩ := exists_cowInv hs
  refine ⟨fun slot hslot f hf => ⟨?_, ?_⟩, fun p hp addr haddr => h.userRead hp haddr⟩
  · exact h.counted.eq_refs slot hslot f hf
  · exact h.shared_readOnly hslot hf

/-- Behind a fork the parent writes to the page that it shares: it gets a frame of its own and reads
what it wrote, and the child reads what was there. -/
theorem cowSystem_refines_eager_64M : ∃ s, (cowSystem 0x4000000).Reachable s ∧ s.procs = 2 ∧
    s.vm.userRead (s.dir 0) 0x08048000 = some 7 ∧ s.vm.userRead (s.dir 1) 0x08048000 = some 0 := by
  obtain ⟨s, f, h⟩ := exists_sharers 1 (by decide)
  obtain ⟨ha, -, -⟩ := h.protectFault_enabled (by decide)
  obtain ⟨vm', hok, g, -, hpermits, -⟩ := h.protectFault_copies
  -- the fault, and the write behind it
  have hfault : s.next (.protectFault 0 0x08048000 0) = .ok { s with vm := vm' } := by
    rw [CowState.next, hok]
    rfl
  have hs₁ : (cowSystem 0x4000000).Reachable { s with vm := vm' } :=
    h.reachable.step (a := .protectFault 0 0x08048000 0) ha hfault
  obtain ⟨s₂, hwrite, hprocs, hparent, hchild⟩ :
      ∃ s₂, ({ s with vm := vm' } : CowState).next (.write 0 0x08048000 7) = .ok s₂ ∧
        s₂.procs = s.procs ∧ s₂.eager 0 FIRST_PAGE = (s.eager 0 FIRST_PAGE).map
          (fun c => Function.update c 0 7) ∧ s₂.eager 1 = s.eager 1 :=
    ⟨_, rfl, rfl, rfl, rfl⟩
  have hs₂ : (cowSystem 0x4000000).Reachable s₂ :=
    hs₁.step (a := .write 0 0x08048000 7) ⟨ha.1, ha.2.1, hpermits⟩ hwrite
  have hreads := (cowSystem_refines_eager hs₂).2
  rw [hprocs, h.procs] at hreads
  refine ⟨s₂, hs₂, hprocs.trans h.procs, ?_, ?_⟩
  · rw [hreads 0 (by decide) _ (by decide), show 0x08048000 / PG_SIZE = FIRST_PAGE
      from rfl, hparent, h.eager 0 (by decide)]
    rfl
  · rw [hreads 1 (by decide) _ (by decide), show 0x08048000 / PG_SIZE = FIRST_PAGE from rfl, hchild,
      h.eager 1 (by decide)]
    rfl

end Fizzos.Proofs
