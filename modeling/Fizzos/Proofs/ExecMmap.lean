import Fizzos.Kernel.ExecMmap
import Fizzos.Proofs.FaultRuns

/-!
# `Fizzos.Proofs.ExecMmap`: which pages `exec_mmap` frees

The test with `tmp` leaves the first page of an area to the area before, which has freed it. But the
loop behind the test starts at this page again. So an area frees all pages that it touches, whatever
`tmp` is (`freeArea_eq`), and a page that two areas touch is freed twice (`execMmap_iff`).
-/

set_option autoImplicit false

namespace Fizzos.Proofs

open Fizzos.Kernel

/-! ### The pages of an area -/

/-- The number of pages below the end of an area. -/
def endPage (vma : VmAreaStruct) : Nat := (vma.vmEnd + (PG_SIZE - 1)) / PG_SIZE

/-- A part of the page lies in the area. -/
def Touches (vma : VmAreaStruct) (page : Nat) : Prop :=
  ∃ addr, vma.vmStart ≤ addr ∧ addr < vma.vmEnd ∧ pageOf addr = page

/-- The pages of an area go from that of its start to that of its last byte. -/
theorem touches_iff {vma : VmAreaStruct} {page : Nat} (h : vma.vmStart < vma.vmEnd) :
    Touches vma page ↔ pageOf vma.vmStart ≤ page ∧ page < endPage vma := by
  simp only [Touches, endPage, pageOf, PG_SIZE]
  constructor
  · rintro ⟨addr, hlo, hhi, rfl⟩
    omega
  · rintro ⟨hlo, hhi⟩
    exact ⟨max vma.vmStart (page * 4096), by omega, by omega, by omega⟩

section
variable {vm : Vm} {pgDir : Nat}

/-- The calls for the pages from `p` on. -/
def freePages (vm : Vm) (pgDir p n : Nat) : List FreeCall :=
  (List.range' p n).flatMap fun page => vm.freeMapped pgDir (page * PG_SIZE)

/-- The loop over the pages, from the front. -/
theorem freePages_succ (p n : Nat) :
    freePages vm pgDir p (n + 1) = vm.freeMapped pgDir (p * PG_SIZE) ++ freePages vm pgDir
    (p + 1) n := by
  rw [freePages, List.range'_succ, List.flatMap_cons]
  rfl

/-- The next page of user memory. -/
theorem add32_page {p : Nat} (h : p * PG_SIZE < TASK_SIZE) :
    add32 (p * PG_SIZE) PG_SIZE = (p + 1) * PG_SIZE := by
  have hroom : TASK_SIZE + PG_SIZE < 2 ^ 32 := by decide
  rw [add32_eq (by omega), Nat.succ_mul]

/-- The loop frees the pages below the end. -/
theorem freeLoop_eq (vm : Vm) (pgDir : Nat) {vma : VmAreaStruct}
    (hend : vma.vmEnd ≤ TASK_SIZE) (n p : Nat)
    (hn : endPage vma ≤ p + n) : ∃ last,
    vm.freeLoop pgDir vma.vmEnd n (p * PG_SIZE)
    = .ok (freePages vm pgDir p (endPage vma - p), last) := by
  have htask : TASK_SIZE = 0xc0000000 := rfl
  induction n generalizing p with
  | zero =>
      have hdone : ¬p * PG_SIZE < vma.vmEnd := by
        simp only [endPage, PG_SIZE] at hn ⊢
        omega
      have hnone : endPage vma - p = 0 := by omega
      refine ⟨p * PG_SIZE, ?_⟩
      rw [Vm.freeLoop, if_neg hdone, hnone]
      rfl
  | succ n ih =>
      by_cases hmore : p * PG_SIZE < vma.vmEnd
      · have hnext : add32 (p * PG_SIZE) PG_SIZE = (p + 1) * PG_SIZE := add32_page (by omega)
        obtain ⟨last, hrest⟩ := ih (p + 1) (by omega)
        -- The end lies behind this page, so it touches one page more than the rest.
        have hpages : endPage vma - p = endPage vma - (p + 1) + 1 := by
          simp only [endPage, PG_SIZE] at hmore ⊢
          omega
        refine ⟨last, ?_⟩
        rw [Vm.freeLoop, if_pos hmore, hnext, hrest, hpages, freePages_succ]
        rfl
      · have hnone : endPage vma - p = 0 := by
          simp only [endPage, PG_SIZE] at hmore ⊢
          omega
        refine ⟨p * PG_SIZE, ?_⟩
        rw [Vm.freeLoop, if_neg hmore, hnone]
        rfl

/-- An area frees the pages that it touches. -/
theorem freeArea_eq (vm : Vm) (pgDir : Nat) {vma : VmAreaStruct} (hlt : vma.vmStart < vma.vmEnd)
    (hend : vma.vmEnd ≤ TASK_SIZE)
    (tmp : Nat) : ∃ last, vm.freeArea pgDir tmp vma
      = .ok (freePages vm pgDir (pageOf vma.vmStart) (endPage vma - pageOf vma.vmStart)
          ++ [.kfree vma], last) := by
  have htask : TASK_SIZE = 0xc0000000 := rfl
  have hspan : endPage vma ≤ 2 ^ 20 ∧ pageOf vma.vmStart < endPage vma := by
    simp only [endPage, pageOf, PG_SIZE]
    omega
  have halign : PAGE_ALIGN vma.vmStart = pageOf vma.vmStart * PG_SIZE := rfl
  rw [Vm.freeArea, halign]
  by_cases hfirst : pageOf vma.vmStart * PG_SIZE ≥ tmp
  · have hfirstPage : pageOf vma.vmStart * PG_SIZE < TASK_SIZE := by
      simp only [pageOf, PG_SIZE]
      omega
    obtain ⟨last, hloop⟩ := freeLoop_eq vm pgDir hend (2 ^ 20) (pageOf vma.vmStart + 1)
      (by omega)
    have hpages : endPage vma - pageOf vma.vmStart
        = endPage vma - (pageOf vma.vmStart + 1) + 1 := by
      omega
    refine ⟨last, ?_⟩
    rw [if_pos hfirst]
    dsimp only
    rw [add32_page hfirstPage, hloop, hpages, freePages_succ]
    rfl
  · -- the page is left to the area before, and the loop frees it again
    obtain ⟨last, hloop⟩ := freeLoop_eq vm pgDir hend (2 ^ 20) (pageOf vma.vmStart) (by omega)
    refine ⟨last, ?_⟩
    rw [if_neg hfirst]
    dsimp only
    rw [hloop]
    rfl

/-- The calls for an area. -/
def areaCalls (vm : Vm) (pgDir : Nat) (vma : VmAreaStruct) : List FreeCall :=
  freePages vm pgDir (pageOf vma.vmStart) (endPage vma - pageOf vma.vmStart) ++ [.kfree vma]

/-- The areas free their pages one after the other. -/
theorem freeAreas_eq (vm : Vm) (pgDir : Nat) {areas : List VmAreaStruct}
    (hrange : ∀ vma ∈ areas, vma.vmStart < vma.vmEnd ∧ vma.vmEnd ≤ TASK_SIZE) (tmp : Nat) :
    vm.freeAreas pgDir tmp areas = .ok (areas.flatMap (areaCalls vm pgDir)) := by
  induction areas generalizing tmp with
  | nil => rfl
  | cons vma rest ih =>
      obtain ⟨hlt, hend⟩ := hrange vma List.mem_cons_self
      obtain ⟨last, harea⟩ := freeArea_eq vm pgDir hlt hend tmp
      have hrest := ih (fun v hv => hrange v (List.mem_cons_of_mem _ hv)) last
      rw [Vm.freeAreas, harea, ok_bind]
      dsimp only
      rw [hrest]
      rfl

/-! ### Which calls there are -/

/-- The lowest bit is the present bit. -/
theorem and_one_iff {w : Word} : w &&& 1 = 1 ↔ w &&& PG_P ≠ 0 := by
  have hbit : PG_P = BitVec.twoPow 32 0 := by decide
  have hone : (1 : Word) = BitVec.twoPow 32 0 := by decide
  rw [hbit, hone, BitVec.and_twoPow]
  split
  · exact iff_of_true rfl (by decide)
  · exact iff_of_false (by decide) (fun h => h rfl)

/-- The test of `exec_mmap` is the one of the paging unit. -/
theorem isMapped_iff (hself : entryAddr (vm.table pgDir 1023) = pgDir) (addr : Nat) :
    vm.isMapped pgDir addr = true ↔ vm.frame pgDir (pageOf addr) ≠ none := by
  rw [ne_eq, ← walk_eq_none, Vm.isMapped, Vm.getPde, Vm.getPte, hself]
  dsimp only
  rw [hself, Bool.and_eq_true, decide_eq_true_iff, decide_eq_true_iff, and_one_iff,
    and_one_iff, Vm.walk]
  split
  · rename_i h
    exact iff_of_false (fun hboth => h.elim hboth.1 hboth.2) (fun hne => hne rfl)
  · rename_i h
    rw [not_or] at h
    exact iff_of_true h (by simp)

/-- The page of the start of a page. -/
theorem pageOf_mul (page : Nat) : pageOf (page * PG_SIZE) = page :=
  Nat.mul_div_cancel page (by decide)

/-- The loop frees the pages that are present. -/
theorem mem_freePages (hself : entryAddr (vm.table pgDir 1023) = pgDir) {p n : Nat}
    {call : FreeCall} : call ∈ freePages vm pgDir p n ↔ ∃ page, p ≤ page ∧ page < p + n ∧
      vm.frame pgDir page ≠ none ∧ call = .freePage (page * PG_SIZE) := by
  rw [freePages, List.mem_flatMap]
  constructor
  · rintro ⟨page, hpage, hcall⟩
    obtain ⟨hlo, hhi⟩ := List.mem_range'_1.mp hpage
    rw [Vm.freeMapped] at hcall
    split at hcall
    · rename_i hmapped
      rw [isMapped_iff hself, pageOf_mul] at hmapped
      exact ⟨page, hlo, hhi, hmapped, List.mem_singleton.mp hcall⟩
    · cases hcall
  · rintro ⟨page, hlo, hhi, hframe, rfl⟩
    refine ⟨page, List.mem_range'_1.mpr ⟨hlo, hhi⟩, ?_⟩
    have hmapped : vm.isMapped pgDir (page * PG_SIZE) = true := by
      rw [isMapped_iff hself, pageOf_mul]
      exact hframe
    rw [Vm.freeMapped, if_pos hmapped]
    exact List.mem_singleton_self _

/-- An area frees the pages that it touches, and itself. -/
theorem mem_areaCalls (hself : entryAddr (vm.table pgDir 1023) = pgDir) {vma : VmAreaStruct}
    (hlt : vma.vmStart < vma.vmEnd) {call : FreeCall} :
    call ∈ areaCalls vm pgDir vma ↔ call = .kfree vma ∨ ∃ page, Touches vma page ∧
      vm.frame pgDir page ≠ none ∧ call = .freePage (page * PG_SIZE) := by
  rw [areaCalls, List.mem_append, mem_freePages hself, List.mem_singleton, or_comm]
  refine or_congr_right (exists_congr fun page => ?_)
  rw [touches_iff hlt]
  constructor
  · rintro ⟨hlo, hhi, hrest⟩
    exact ⟨⟨hlo, by omega⟩, hrest⟩
  · rintro ⟨⟨hlo, hhi⟩, hrest⟩
    exact ⟨hlo, by omega, hrest⟩

/-- No area frees a page twice. -/
theorem areaCalls_nodup (vma : VmAreaStruct) : (areaCalls vm pgDir vma).Nodup := by
  have hrange : (List.range' (pageOf vma.vmStart) (endPage vma - pageOf vma.vmStart)).Nodup :=
    List.nodup_range'
  have hpages : (freePages vm pgDir (pageOf vma.vmStart)
      (endPage vma - pageOf vma.vmStart)).Nodup := by
    refine List.nodup_flatMap.mpr ⟨fun page _ => ?_, ?_⟩
    · rw [Vm.freeMapped]
      split
      · exact List.nodup_singleton _
      · exact List.nodup_nil
    · -- two pages of one area are freed at two addresses
      refine List.Pairwise.imp (fun hne => ?_) hrange
      rw [Function.onFun, List.disjoint_left]
      intro call hleft hright
      rw [Vm.freeMapped] at hleft hright
      split at hleft
      · split at hright
        · rw [List.mem_singleton.mp hleft] at hright
          have haddr := FreeCall.freePage.inj (List.mem_singleton.mp hright)
          exact hne (Nat.eq_of_mul_eq_mul_right (by decide) haddr)
        · cases hright
      · cases hleft
  refine List.Nodup.append hpages (List.nodup_singleton _) ?_
  rw [List.disjoint_singleton]
  intro hmem
  obtain ⟨page, -, hcall⟩ := List.mem_flatMap.mp hmem
  rw [Vm.freeMapped] at hcall
  split at hcall
  · exact absurd (List.mem_singleton.mp hcall) (by simp)
  · cases hcall

end

/-! ### The page tables -/

/-- The calls for the page tables behind the entries `is`. -/
def tableCalls (vm : Vm) (pgDir : Nat) (is : List Nat) : List FreeCall :=
  is.filterMap fun i => (vm.tableIdx pgDir i).map fun t => .freePage (pageAddr t)

section
variable {vm : Vm} {pgDir : Nat}

/-- A store to one entry of the directory leaves the others. -/
theorem tableIdx_setEntry {i j : Nat} (hne : j ≠ i) (w : Word) :
    (vm.setEntry pgDir i w).tableIdx pgDir j = vm.tableIdx pgDir j := by
  rw [Vm.tableIdx, Vm.setEntry_self, Function.update_of_ne hne, Vm.tableIdx]

/-- Each present entry is freed, and is zero behind it. -/
theorem freeTables_eq (vm : Vm) (pgDir : Nat) {is : List Nat} (his : is.Nodup) :
    (Vm.freeTables pgDir is vm).1 = tableCalls vm pgDir is ∧
      ∀ i, (Vm.freeTables pgDir is vm).2.table pgDir i
        = if i ∈ is ∧ vm.tableIdx pgDir i ≠ none then 0 else vm.table pgDir i := by
  induction is generalizing vm with
  | nil => exact ⟨rfl, fun i => (if_neg fun h => absurd h.1 List.not_mem_nil).symm⟩
  | cons i rest ih =>
      obtain ⟨hi, hrest⟩ := List.nodup_cons.mp his
      rw [Vm.freeTables]
      by_cases hpresent : vm.table pgDir i &&& 1 = 1
      · have hp : vm.table pgDir i &&& PG_P ≠ 0 := and_one_iff.mp hpresent
        have hidx : vm.tableIdx pgDir i = some (entryPage (vm.table pgDir i)) := if_neg hp
        obtain ⟨hcalls, htable⟩ := ih (vm.setEntry pgDir i 0) hrest
        rw [if_pos hpresent]
        constructor
        · show FreeCall.freePage _ :: (Vm.freeTables pgDir rest (vm.setEntry pgDir i 0)).1 = _
          rw [hcalls, tableCalls, tableCalls, List.filterMap_cons, hidx, entryAddr_eq]
          -- The cleared entry is not among the rest, so the rest reads as before.
          refine congrArg _ (List.filterMap_congr fun j hj => ?_)
          have hne : j ≠ i := fun h => hi (h ▸ hj)
          rw [tableIdx_setEntry hne]
        · intro j
          refine (htable j).trans ?_
          by_cases hj : j = i
          · subst hj
            rw [if_neg fun h => hi h.1, if_pos ⟨List.mem_cons_self, by simp [hidx]⟩,
              Vm.setEntry_self, Function.update_self]
          · rw [tableIdx_setEntry hj, Vm.setEntry_self, Function.update_of_ne hj]
            simp only [List.mem_cons, hj, false_or]
      · have hp : vm.table pgDir i &&& PG_P = 0 := not_not.mp fun h => hpresent (and_one_iff.mpr h)
        have hidx : vm.tableIdx pgDir i = none := if_pos hp
        obtain ⟨hcalls, htable⟩ := ih vm hrest
        rw [if_neg hpresent]
        constructor
        · rw [hcalls, tableCalls, tableCalls, List.filterMap_cons, hidx]
          rfl
        · intro j
          rw [htable j]
          by_cases hj : j = i
          · subst hj
            rw [if_neg fun h => h.2 hidx, if_neg fun h => h.2 hidx]
          · simp only [List.mem_cons, hj, false_or]

/-- The second loop frees the page tables that are there. -/
theorem mem_tableCalls {is : List Nat} {call : FreeCall} : call ∈ tableCalls vm pgDir is ↔
    ∃ i ∈ is, ∃ t, vm.tableIdx pgDir i = some t ∧ call = .freePage (pageAddr t) := by
  rw [tableCalls, List.mem_filterMap]
  refine exists_congr fun i => and_congr_right fun _ => ?_
  rw [Option.map_eq_some_iff]
  exact exists_congr fun t => and_congr_right fun _ => eq_comm

end

/-! ### Once -/

/-- Every present page of the areas is freed once, and so are the page tables and the areas. Nothing
else is freed, and the entries and the list are empty behind it. -/
structure ReleasedOnce (vm : Vm) (mm : MmStruct) (calls : List FreeCall)
    (mm' : MmStruct) (vm' : Vm) : Prop where
  pages : ∀ page, (∃ vma ∈ mm.mmap, Touches vma page) → vm.frame mm.pgDir page ≠ none →
    calls.count (.freePage (page * PG_SIZE)) = 1
  tables : ∀ i < 768, ∀ t, vm.tableIdx mm.pgDir i = some t →
    calls.count (.freePage (pageAddr t)) = 1
  areas : ∀ vma ∈ mm.mmap, calls.count (.kfree vma) = 1
  others : ∀ call ∈ calls,
    (∃ page, (∃ vma ∈ mm.mmap, Touches vma page) ∧ vm.frame mm.pgDir page ≠ none ∧
      call = .freePage (page * PG_SIZE)) ∨
    (∃ i < 768, ∃ t, vm.tableIdx mm.pgDir i = some t ∧ call = .freePage (pageAddr t)) ∨
    ∃ vma ∈ mm.mmap, call = .kfree vma
  mmap : mm'.mmap = []
  entries : ∀ i < 768, vm.tableIdx mm.pgDir i ≠ none → vm'.table mm.pgDir i = 0

/-- No area ends in a present page in which another one starts. -/
def NoSharedPage (vm : Vm) (mm : MmStruct) : Prop :=
  mm.mmap.Pairwise fun v w =>
    pageOf (v.vmEnd - 1) = pageOf w.vmStart → vm.frame mm.pgDir (pageOf w.vmStart) = none

/-- Each entry of the directory has a page table of its own. -/
def OwnTables (vm : Vm) (pgDir : Nat) : Prop :=
  ∀ i < 768, ∀ j < 768, ∀ t, vm.tableIdx pgDir i = some t → vm.tableIdx pgDir j = some t → i = j

section
variable {vm : Vm} {mm : MmStruct}

/-- The calls of `exec_mmap`. -/
def mmapCalls (vm : Vm) (mm : MmStruct) : List FreeCall :=
  mm.mmap.flatMap (areaCalls vm mm.pgDir) ++ tableCalls vm mm.pgDir (List.range 768)

/-- The calls of `exec_mmap`: the pages and the node of each area, and then the page tables. -/
theorem execMmap_eq (vm : Vm) (hok : AreasOk mm.mmap) : ∃ vm',
    vm.execMmap (some mm) = .ok (mmapCalls vm mm, some ⟨[], mm.pgDir⟩, vm') ∧
      ∀ i < 768, vm.tableIdx mm.pgDir i ≠ none → vm'.table mm.pgDir i = 0 := by
  have hareas := freeAreas_eq vm mm.pgDir (fun v hv => (hok.range v hv).2) 0
  obtain ⟨hcalls, htable⟩ := freeTables_eq vm mm.pgDir (List.nodup_range (n := 768))
  refine ⟨(Vm.freeTables mm.pgDir (List.range 768) vm).2, ?_, fun i hi hne => ?_⟩
  · rw [Vm.execMmap]
    dsimp only
    rw [hareas, ok_bind]
    show Except.ok (_ ++ (Vm.freeTables mm.pgDir (List.range 768) vm).1, _, _) = _
    rw [hcalls]
    rfl
  · rw [htable i, if_pos ⟨List.mem_range.mpr hi, hne⟩]

section
variable (hok : AreasOk mm.mmap) (hself : entryAddr (vm.table mm.pgDir 1023) = mm.pgDir)
include hok hself

/-- Nothing else is freed. -/
theorem mem_mmapCalls {call : FreeCall} : call ∈ mmapCalls vm mm ↔
    (∃ page, (∃ vma ∈ mm.mmap, Touches vma page) ∧ vm.frame mm.pgDir page ≠ none ∧
      call = .freePage (page * PG_SIZE)) ∨
    (∃ i < 768, ∃ t, vm.tableIdx mm.pgDir i = some t ∧ call = .freePage (pageAddr t)) ∨
    ∃ vma ∈ mm.mmap, call = .kfree vma := by
  rw [mmapCalls, List.mem_append, List.mem_flatMap, mem_tableCalls]
  constructor
  · rintro (⟨vma, hvma, hcall⟩ | ⟨i, hi, htable⟩)
    · rcases (mem_areaCalls hself (hok.range vma hvma).2.1).mp hcall with rfl
        | ⟨page, htouch, hpage⟩
      · exact .inr (.inr ⟨vma, hvma, rfl⟩)
      · exact .inl ⟨page, ⟨vma, hvma, htouch⟩, hpage⟩
    · exact .inr (.inl ⟨i, List.mem_range.mp hi, htable⟩)
  · rintro (⟨page, ⟨vma, hvma, htouch⟩, hpage⟩ | ⟨i, hi, htable⟩ | ⟨vma, hvma, rfl⟩)
    · exact .inl ⟨vma, hvma, (mem_areaCalls hself (hok.range vma hvma).2.1).mpr
        (.inr ⟨page, htouch, hpage⟩)⟩
    · exact .inr ⟨i, List.mem_range.mpr hi, htable⟩
    · exact .inl ⟨vma, hvma, (mem_areaCalls hself (hok.range vma hvma).2.1).mpr (.inl rfl)⟩

/-- Two areas free different pages, unless they share a present one. -/
theorem areaCalls_disjoint_iff {v w : VmAreaStruct} (hv : v ∈ mm.mmap) (hw : w ∈ mm.mmap)
    (hle : v.vmEnd ≤ w.vmStart) :
    List.Disjoint (areaCalls vm mm.pgDir v) (areaCalls vm mm.pgDir w) ↔
      (pageOf (v.vmEnd - 1) = pageOf w.vmStart → vm.frame mm.pgDir (pageOf w.vmStart) = none) := by
  obtain ⟨hstartv, hltv, hendv⟩ := hok.range v hv
  obtain ⟨hstartw, hltw, hendw⟩ := hok.range w hw
  rw [List.disjoint_left]
  constructor
  · intro hdisjoint hshared
    by_contra hframe
    -- The shared page is the last one of `v` and the first one of `w`.
    refine hdisjoint (a := .freePage (pageOf w.vmStart * PG_SIZE)) ?_ ?_
    · exact (mem_areaCalls hself hltv).mpr
        (.inr ⟨_, ⟨v.vmEnd - 1, by omega, by omega, hshared⟩, hframe, rfl⟩)
    · exact (mem_areaCalls hself hltw).mpr
        (.inr ⟨_, ⟨w.vmStart, Nat.le_refl _, hltw, rfl⟩, hframe, rfl⟩)
  · intro hnone call hcallv hcallw
    rcases (mem_areaCalls hself hltv).mp hcallv with rfl | ⟨page, ⟨x, hxlo, hxhi, rfl⟩, hframe, rfl⟩
    · rcases (mem_areaCalls hself hltw).mp hcallw with hsame | ⟨page, -, -, hcall⟩
      · have heq := FreeCall.kfree.inj hsame
        rw [heq] at hle
        omega
      · cases hcall
    · rcases (mem_areaCalls hself hltw).mp hcallw with hcall
        | ⟨page, ⟨y, hylo, hyhi, rfl⟩, -, hcall⟩
      · cases hcall
      · -- the page of both lies between the end of one area and the start of the other
        have hpage : pageOf x = pageOf y :=
          Nat.eq_of_mul_eq_mul_right (by decide) (FreeCall.freePage.inj hcall)
        have hlast : pageOf x ≤ pageOf (v.vmEnd - 1) := Nat.div_le_div_right (by omega)
        have hmiddle : pageOf (v.vmEnd - 1) ≤ pageOf w.vmStart := Nat.div_le_div_right (by omega)
        have hfirst : pageOf w.vmStart ≤ pageOf y := Nat.div_le_div_right hylo
        have hshared : pageOf x = pageOf w.vmStart := by omega
        rw [hshared] at hframe
        exact hframe (hnone (by omega))

/-- No page is freed twice when no two areas share one. -/
theorem areaCalls_nodup_iff :
    (mm.mmap.flatMap (areaCalls vm mm.pgDir)).Nodup ↔ NoSharedPage vm mm := by
  rw [List.nodup_flatMap, NoSharedPage, and_iff_right fun vma _ => areaCalls_nodup vma]
  have hpair : mm.mmap.Pairwise fun v w => v ∈ mm.mmap ∧ w ∈ mm.mmap ∧ v.vmEnd ≤ w.vmStart :=
    hok.sorted.imp_of_mem fun hv hw hle => ⟨hv, hw, hle⟩
  constructor
  · intro hdisjoint
    refine (hpair.and hdisjoint).imp fun h => ?_
    exact (areaCalls_disjoint_iff hok hself h.1.1 h.1.2.1 h.1.2.2).mp h.2
  · intro hnone
    refine (hpair.and hnone).imp fun h => ?_
    exact (areaCalls_disjoint_iff hok hself h.1.1 h.1.2.1 h.1.2.2).mpr h.2

omit hok hself in
/-- No table is freed twice when each has one entry in the directory. -/
theorem tableCalls_nodup_iff :
    (tableCalls vm mm.pgDir (List.range 768)).Nodup ↔ OwnTables vm mm.pgDir := by
  rw [tableCalls, List.Nodup, List.pairwise_filterMap]
  constructor
  · intro hpair
    have hne : ∀ t i j, i < j → j < 768 → vm.tableIdx mm.pgDir i = some t →
        vm.tableIdx mm.pgDir j ≠ some t := by
      intro t i j hij hj hti htj
      have hcalls := List.pairwise_iff_getElem.mp hpair i j (by rw [List.length_range]; omega)
        (by rw [List.length_range]; exact hj) hij
      rw [List.getElem_range, List.getElem_range, hti, htj] at hcalls
      exact hcalls _ rfl _ rfl rfl
    intro i hi j hj t hti htj
    rcases Nat.lt_trichotomy i j with hij | hij | hji
    · exact absurd htj (hne t i j hij hj hti)
    · exact hij
    · exact absurd hti (hne t j i hji hi htj)
  · intro hown
    refine (List.nodup_range (n := 768)).imp_of_mem
      fun hi hj hne call hcall call' hcall' hsame => hne ?_
    obtain ⟨t, hti, rfl⟩ := Option.map_eq_some_iff.mp hcall
    obtain ⟨t', htj, rfl⟩ := Option.map_eq_some_iff.mp hcall'
    have hpage : t = t' := pageAddr_inj (FreeCall.freePage.inj hsame)
    exact hown _ (List.mem_range.mp hi) _ (List.mem_range.mp hj) t hti (hpage ▸ htj)

/-- No call is made twice. -/
theorem mmapCalls_nodup_iff :
    (mmapCalls vm mm).Nodup ↔ NoSharedPage vm mm ∧ OwnTables vm mm.pgDir := by
  rw [mmapCalls, List.nodup_append', areaCalls_nodup_iff hok hself, tableCalls_nodup_iff]
  refine and_congr_right fun _ => and_iff_left ?_
  -- the pages lie below the page tables
  rw [List.disjoint_left]
  intro call harea htable
  obtain ⟨vma, hvma, hcall⟩ := List.mem_flatMap.mp harea
  obtain ⟨i, -, t, -, rfl⟩ := mem_tableCalls.mp htable
  obtain ⟨-, hlt, hend⟩ := hok.range vma hvma
  rcases (mem_areaCalls hself hlt).mp hcall with hcall | ⟨page, ⟨addr, -, hhi, rfl⟩, -, hcall⟩
  · cases hcall
  · have haddr : pageAddr t = pageOf addr * PG_SIZE := FreeCall.freePage.inj hcall
    have hle : pageOf addr * PG_SIZE ≤ addr := Nat.div_mul_le_self addr PG_SIZE
    have htask : TASK_SIZE = KERNEL_VADDR_START := rfl
    rw [pageAddr] at haddr
    omega

/-- What has to be freed is freed, so the question is whether it is freed twice. -/
theorem releasedOnce_iff {vm' : Vm}
    (hentries : ∀ i < 768, vm.tableIdx mm.pgDir i ≠ none → vm'.table mm.pgDir i = 0) :
    ReleasedOnce vm mm (mmapCalls vm mm) ⟨[], mm.pgDir⟩ vm' ↔ (mmapCalls vm mm).Nodup := by
  constructor
  · intro h
    refine List.nodup_iff_count_le_one.mpr fun call => ?_
    by_cases hmem : call ∈ mmapCalls vm mm
    · rcases h.others call hmem with ⟨page, htouch, hframe, rfl⟩ | ⟨i, hi, t, ht, rfl⟩
        | ⟨vma, hvma, rfl⟩
      · exact (h.pages page htouch hframe).le
      · exact (h.tables i hi t ht).le
      · exact (h.areas vma hvma).le
    · rw [List.count_eq_zero_of_not_mem hmem]
      exact Nat.zero_le 1
  · intro h
    have hcount : ∀ call ∈ mmapCalls vm mm, (mmapCalls vm mm).count call = 1 :=
      fun call hmem => List.count_eq_one_of_mem h hmem
    refine ⟨fun page htouch hframe => ?_, fun i hi t ht => ?_, fun vma hvma => ?_,
      fun call hcall => ?_,
      rfl, hentries⟩
    · exact hcount _ ((mem_mmapCalls hok hself).mpr (.inl ⟨page, htouch, hframe, rfl⟩))
    · exact hcount _ ((mem_mmapCalls hok hself).mpr (.inr (.inl ⟨i, hi, t, ht, rfl⟩)))
    · exact hcount _ ((mem_mmapCalls hok hself).mpr (.inr (.inr ⟨vma, hvma, rfl⟩)))
    · exact (mem_mmapCalls hok hself).mp hcall

/-- `exec_mmap` releases everything once: the areas, each present page, and the page tables. The one
way to miss this is a page that two areas touch, since the test for it is made and then forgotten.
Page tables of their own are what every directory of the kernel has. -/
theorem execMmap_iff : ∃ calls mm' vm', vm.execMmap (some mm) = .ok (calls, some mm', vm') ∧
    (ReleasedOnce vm mm calls mm' vm' ↔ NoSharedPage vm mm ∧ OwnTables vm mm.pgDir) := by
  obtain ⟨vm', hret, hentries⟩ := execMmap_eq vm hok
  exact ⟨_, _, vm', hret,
    (releasedOnce_iff hok hself hentries).trans (mmapCalls_nodup_iff hok hself)⟩

end

end

/-! ### Processes -/

/-- The directory of a process leads to itself, and its entries have page tables of their own. -/
theorem reachable_directory {totalMemSize p : Nat} {s : CowState}
    (hs : (cowSystem totalMemSize).Reachable s) (hp : p < s.procs) :
    entryAddr (s.vm.table (s.dir p) 1023) = s.dir p ∧ OwnTables s.vm (s.dir p) := by
  obtain ⟨own, h⟩ := exists_cowInv hs
  refine ⟨entryAddr_self (h.spaces.space p hp), fun i hi j hj t hti htj => ?_⟩
  exact (h.spaces.inj p hp p hp i j t (.inl hi) (.inl hj) hti htj).2

/-- A process with any areas, which has touched a page of one of them. -/
theorem exists_touched (areas : List VmAreaStruct) (addr : Nat) {vas : VmAreaStruct}
    (hlo : USER_VADDR_START ≤ addr) (hhi : addr < TASK_SIZE)
    (hvas : findVma ⟨areas, 0⟩ addr = some vas) (hfile : vas.vmFile = none) : ∃ vm : Vm, ∃ pgDir,
    entryAddr (vm.table pgDir 1023) = pgDir ∧ OwnTables vm pgDir ∧
      vm.frame pgDir (pageOf addr) ≠ none := by
  obtain ⟨s, hs, hruns, hmmap, hwalk, hkernel, huser⟩ := exists_process areas
  have hfound : findVma (s.proc 0).mm addr = some vas := by
    rw [findVma, hmmap]
    exact hvas
  have hread : faultContent noFiles vas addr (fun _ => 0) (fun _ => 0) = .ok fun _ => 0 := by
    rw [faultContent, hfile]
    rfl
  obtain ⟨vm', hret⟩ : ∃ vm', noFiles.pageNotPresent s.vm (s.proc 0).mm addr (fun _ => 0) 0
      = .ok vm' :=
    pageNotPresent_returns hs hruns (hwalk addr hhi) hlo hhi hfound hkernel huser hread
  obtain ⟨-, -, s₂, -, -, hs₂, rfl, hp₂, hdir₂, -⟩ :=
    pageNotPresent_reachable hs hruns (hwalk addr hhi) hret
  obtain ⟨hself, hown⟩ := reachable_directory hs₂ hp₂
  obtain ⟨_, _, _, _, hseen⟩ := pageNotPresent_userRead hs hruns (hwalk addr hhi) hret
  refine ⟨s₂.vm, s₂.dir 0, hself, hown, fun hnone => ?_⟩
  have hread := hseen addr rfl
  rw [← hdir₂, Vm.userRead, walk_of_none hnone] at hread
  cases hread

/-- An area without a file. -/
def anonArea (lo hi : Nat) : VmAreaStruct := ⟨lo, hi, 0, 7, 0, none⟩

/-- Two areas, the second one at or behind the end of the first. -/
theorem anonAreas_ok {a b c d : Nat} (hab : USER_VADDR_START ≤ a ∧ a < b) (hbc : b ≤ c)
    (hcd : c < d ∧ d ≤ TASK_SIZE) : AreasOk [anonArea a b, anonArea c d] := by
  constructor
  · intro v hv
    rcases List.mem_cons.mp hv with rfl | hv
    · exact ⟨hab.1, hab.2, by show b ≤ TASK_SIZE; omega⟩
    · rw [List.mem_singleton.mp hv]
      exact ⟨by show USER_VADDR_START ≤ c; omega, hcd.1, hcd.2⟩
  · refine List.pairwise_pair.mpr ?_
    exact hbc

/-- Two areas with a page each. -/
theorem execMmap_iff_pages : ∃ vm : Vm, ∃ pgDir, vm.frame pgDir (pageOf 0x8048000) ≠ none ∧
    ∃ calls mm' vm', vm.execMmap (some ⟨[anonArea 0x8048000 0x8049000,
    anonArea 0x8049000 0x804a000], pgDir⟩)
        = .ok (calls, some mm', vm') ∧
      ReleasedOnce vm ⟨[anonArea 0x8048000 0x8049000, anonArea 0x8049000 0x804a000], pgDir⟩ calls
      mm' vm' := by
  obtain ⟨vm, pgDir, hself, hown, hframe⟩ :=
    exists_touched [anonArea 0x8048000 0x8049000, anonArea 0x8049000 0x804a000] 0x8048000
    (by decide) (by decide) rfl rfl
  have hok : AreasOk (MmStruct.mk [anonArea 0x8048000 0x8049000, anonArea 0x8049000 0x804a000]
      pgDir).mmap :=
    anonAreas_ok ⟨by decide, by decide⟩ (by decide) ⟨by decide, by decide⟩
  obtain ⟨calls, mm', vm', hret, hiff⟩ := execMmap_iff hok hself
  refine ⟨vm, pgDir, hframe, calls, mm', vm', hret, hiff.mpr ⟨?_, hown⟩⟩
  exact List.pairwise_pair.mpr fun h => absurd h (by decide)

/-- Two areas that share a page: it is freed twice. The second area starts inside the page that the
first one ends in, so its entry is still present when the loop comes to it again. -/
theorem execMmap_frees_twice :
    ¬∀ (vm : Vm) (mm : MmStruct), AreasOk mm.mmap → entryAddr (vm.table mm.pgDir 1023) = mm.pgDir →
      ∃ calls mm' vm', vm.execMmap (some mm) = .ok (calls, some mm', vm') ∧
        ReleasedOnce vm mm calls mm' vm' := by
  intro hall
  obtain ⟨vm, pgDir, hself, -, hframe⟩ :=
    exists_touched [anonArea 0x8048000 0x8048800, anonArea 0x8048800 0x8049000] 0x8048000
    (by decide) (by decide) rfl rfl
  have hok : AreasOk (MmStruct.mk [anonArea 0x8048000 0x8048800, anonArea 0x8048800 0x8049000]
      pgDir).mmap :=
    anonAreas_ok ⟨by decide, by decide⟩ (by decide) ⟨by decide, by decide⟩
  obtain ⟨calls, mm', vm', hret, honce⟩ := hall vm _ hok hself
  obtain ⟨vm₁, heq, hentries⟩ := execMmap_eq vm hok
  rw [heq] at hret
  obtain ⟨rfl, hrest⟩ := Prod.mk.inj (Except.ok.inj hret)
  obtain ⟨hmm, rfl⟩ := Prod.mk.inj hrest
  obtain rfl := Option.some.inj hmm
  have hnodup := (releasedOnce_iff hok hself hentries).mp honce
  have hshared := ((mmapCalls_nodup_iff hok hself).mp hnodup).1
  exact hframe (List.pairwise_pair.mp hshared (by decide))

end Fizzos.Proofs
