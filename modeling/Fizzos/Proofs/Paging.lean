import Fizzos.Kernel.Paging
import Fizzos.Proofs.Pages

/-!
# `Fizzos.Proofs.Paging`: address spaces in memory

`Spaces` says that several processes have their page tables in memory, and that no two
directory entries lead to the same table. So a table belongs to one process and one place in
it, and a write to an entry changes one user page of one process (`Spaces.setEntry`). A new
table changes what the pages of its directory entry map (`Spaces.install`).

The first `lim p` directory entries of the process `p` are set up. This is 768 for a process
that runs, and less for a new one while `copy_pt` works on it.
-/

set_option autoImplicit false

namespace Fizzos.Proofs

open Fizzos.Kernel
open Fizzos.LibKernel
open Fizzos.Support
open BuddyInv (hold hold_add)

/-! ### Entries -/

section
variable {w m k f : Word}

/-- Clear bits, some of them. -/
theorem and_eq_zero_of_sub (h : w &&& m = 0) (hsub : m &&& k = k) : w &&& k = 0 := by
  rw [← hsub, ← BitVec.and_assoc, h]
  exact BitVec.zero_and

/-- Set bits, some of them. -/
theorem and_eq_of_sub (h : w &&& m = m) (hsub : m &&& k = k) : w &&& k = k := by
  calc w &&& k = w &&& m &&& k := by rw [BitVec.and_assoc, hsub]
    _ = k := by rw [h, hsub]

/-- The bits that are or-ed to a word are set. -/
theorem or_and_eq (w : Word) (h : f &&& m = m) : (w ||| f) &&& m = m := by
  ext i hi
  have hbit : (f &&& m)[i] = m[i] := by rw [h]
  rw [BitVec.getElem_and] at hbit
  rw [BitVec.getElem_and, BitVec.getElem_or]
  cases hw : w[i]
  · simpa using hbit
  · simp

/-- The page of an entry is its upper 20 bits. -/
theorem entryPage_eq (w : Word) : entryPage w = (w >>> 12).toNat := by
  rw [entryPage, paddr2pg, BitVec.toNat_ushiftRight, Nat.shiftRight_eq_div_pow]
  rfl

/-- Flags do not change the page of an entry. -/
theorem entryPage_or (w : Word) (hf : f >>> 12 = 0) : entryPage (w ||| f) = entryPage w := by
  rw [entryPage_eq, entryPage_eq, BitVec.ushiftRight_or_distrib, hf]
  exact congrArg _ BitVec.or_zero

/-- A change of the rights leaves the page as it is. -/
theorem entryPage_clear (w : Word) : entryPage (w &&& ~~~PG_RWE) = entryPage w := by
  have hsplit : (w &&& ~~~PG_RWE) ||| (w &&& PG_RWE) = w := by
    rw [← BitVec.and_or_distrib_left, BitVec.or_comm, BitVec.or_not_self, BitVec.and_allOnes]
  have hflag : (w &&& PG_RWE) >>> 12 = 0 := by
    have hzero : PG_RWE >>> 12 = 0 := by decide
    rw [BitVec.ushiftRight_and_distrib, hzero]
    exact BitVec.and_zero
  calc entryPage (w &&& ~~~PG_RWE)
      = entryPage ((w &&& ~~~PG_RWE) ||| (w &&& PG_RWE)) := by
        rw [entryPage_eq, entryPage_eq, BitVec.ushiftRight_or_distrib, hflag]
        exact congrArg _ BitVec.or_zero.symm
    _ = entryPage w := by rw [hsplit]

/-- The page of an entry in the direct mapping. -/
theorem entryAddr_eq (w : Word) : entryAddr w = pageAddr (entryPage w) := by
  rw [entryAddr, pageAddr, entryPage, paddr2pg, BitVec.toNat_and]
  exact congrArg (· + KERNEL_VADDR_START) (and_pageMask w.isLt)

/-- An entry for a page, whatever its flags. -/
theorem entryPage_paddrWord {idx : Nat} (hidx : idx < MAX_PAGES) (hf : f >>> 12 = 0) :
    entryPage (paddrWord (pageAddr idx) ||| f) = idx := by
  have hlt : idx * PG_SIZE < 2 ^ 32 := by
    simp only [MAX_PAGES] at hidx
    simp only [PG_SIZE]
    omega
  rw [entryPage_or _ hf, entryPage, paddrWord, getPaddr, pageAddr, Nat.add_sub_cancel,
    BitVec.toNat_ofNat, Nat.mod_eq_of_lt hlt, paddr2pg, Nat.mul_div_cancel _ (by decide)]

/-- An entry without the bits `0b11` is not present. -/
theorem presentPage_of_empty (h : w &&& 0b11 = 0) : presentPage w = none :=
  if_pos (and_eq_zero_of_sub h (by decide))

/-- An entry with the present bit has its page. -/
theorem presentPage_eq_some {idx : Nat} :
    presentPage w = some idx ↔ w &&& PG_P ≠ 0 ∧ entryPage w = idx := by
  unfold presentPage
  split <;> simp_all

/-- An entry without the bit has none, whatever its other bits are. -/
theorem presentPage_eq_none : presentPage w = none ↔ w &&& PG_P = 0 := by
  unfold presentPage
  split <;> simp_all

/-- An entry for a page is present. -/
theorem presentPage_paddrWord {idx : Nat} (hidx : idx < MAX_PAGES) (hf : f >>> 12 = 0)
    (hp : f &&& PG_P = PG_P) : presentPage (paddrWord (pageAddr idx) ||| f) = some idx := by
  refine presentPage_eq_some.mpr ⟨?_, entryPage_paddrWord hidx hf⟩
  rw [or_and_eq _ hp]
  decide

/-! ### Entries of an address space -/

variable {rights : Word} {pages : Multiset Nat}

/-- The entry 0 is an entry for no page, so a new page table is in order. -/
theorem PageEntry.zero : PageEntry rights pages 0 := .inl (by simp)

/-- An entry stays in order when there are more pages to choose from. -/
theorem PageEntry.mono {pages' : Multiset Nat} (h : PageEntry rights pages w)
    (hsub : ∀ idx ∈ pages, idx ∈ pages') : PageEntry rights pages' w :=
  h.imp_right fun ⟨hrights, hmem⟩ => ⟨hrights, hsub _ hmem⟩

/-- A present entry has its rights and its page. -/
theorem PageEntry.of_present {idx : Nat} (h : PageEntry rights pages w)
    (hidx : presentPage w = some idx) : w &&& rights = rights ∧ idx ∈ pages := by
  rcases h with hempty | ⟨hrights, hmem⟩
  · rw [presentPage_of_empty hempty] at hidx
    exact absurd hidx (by simp)
  · rw [(presentPage_eq_some.mp hidx).2] at hmem
    exact ⟨hrights, hmem⟩

/-- An entry that is not empty is present. -/
theorem PageEntry.present (h : PageEntry rights pages w) (hp : rights &&& PG_P = PG_P)
    (hne : w &&& 0b11 ≠ 0) : presentPage w = some (entryPage w) := by
  obtain ⟨hrights, -⟩ := h.resolve_left hne
  refine presentPage_eq_some.mpr ⟨?_, rfl⟩
  rw [and_eq_of_sub hrights hp]
  decide

/-! ### What `copy_pt` does to an entry -/

/-- The entry behind the body of the inner loop of `copy_pt`. -/
def shareWord (w : Word) : Word := if w &&& 0b11 ≠ 0 then w &&& ~~~PG_RWE else w

/-- `fork` takes the right to write away, and the entry keeps its page. -/
theorem presentPage_share (w : Word) : presentPage (shareWord w) = presentPage w := by
  unfold shareWord
  split
  · have hp : ~~~PG_RWE &&& PG_P = PG_P := by decide
    rw [presentPage, presentPage, BitVec.and_assoc, hp, entryPage_clear]
  · rfl

/-- A shared entry is read-only. -/
theorem share_and_rwe (w : Word) : shareWord w &&& PG_RWE = 0 := by
  unfold shareWord
  split
  next =>
    have hclear : ~~~PG_RWE &&& PG_RWE = 0 := by decide
    rw [BitVec.and_assoc, hclear]
    exact BitVec.and_zero
  next hempty =>
    rw [not_not] at hempty
    exact and_eq_zero_of_sub hempty (by decide)

/-- A shared entry is in order, since it has fewer rights than before. -/
theorem PageEntry.share (h : PageEntry (PG_P ||| PG_USER) pages w) :
    PageEntry (PG_P ||| PG_USER) pages (shareWord w) := by
  unfold shareWord
  split
  next hne =>
    obtain ⟨hrights, hmem⟩ := h.resolve_left hne
    refine .inr ⟨?_, by rwa [entryPage_clear]⟩
    have hkeep : ~~~PG_RWE &&& (PG_P ||| PG_USER) = PG_P ||| PG_USER := by decide
    rw [BitVec.and_assoc, hkeep, hrights]
  next => exact h

end

/-! ### The paging unit -/

/-- The page of an address. -/
def pageOf (addr : Nat) : Nat := addr / PG_SIZE

/-- Addresses of a program are in the first 768 page tables. -/
theorem pageOf_lt {addr : Nat} (h : addr < TASK_SIZE) : pageOf addr < USER_PAGES := by
  simp only [TASK_SIZE] at h
  simp only [pageOf, PG_SIZE, USER_PAGES]
  omega

/-- The upper ten bits of an address pick the page table. -/
theorem PDE_IDX_eq (addr : Nat) : PDE_IDX addr = pageOf addr / 1024 := by
  rw [PDE_IDX, Nat.shiftRight_eq_div_pow, pageOf, Nat.div_div_eq_div_mul]
  rfl

/-- The next ten bits pick the entry in it. -/
theorem PTE_IDX_eq (addr : Nat) : PTE_IDX addr = pageOf addr % 1024 := by
  have hmask : 0x3ff = 2 ^ 10 - 1 := by decide
  rw [PTE_IDX, hmask, Nat.and_two_pow_sub_one_eq_mod, Nat.shiftRight_eq_div_pow]
  rfl

/-- The entry of a page is in its page table. -/
theorem pte_of_some {vm : Vm} {pgDir page t : Nat} (h : vm.tableIdx pgDir (page / 1024) = some t) :
    vm.pte pgDir page = vm.table (pageAddr t) (page % 1024) := by
  simp [Vm.pte, h]

/-- A page without a page table has the entry 0. -/
theorem pte_of_none {vm : Vm} {pgDir page : Nat} (h : vm.tableIdx pgDir (page / 1024) = none) :
    vm.pte pgDir page = 0 := by
  simp [Vm.pte, h]

/-- Nothing is mapped where there is no page table. -/
theorem frame_of_none {vm : Vm} {pgDir page : Nat} (h : vm.tableIdx pgDir (page / 1024) = none) :
    vm.frame pgDir page = none := by
  rw [Vm.frame, pte_of_none h]
  exact presentPage_of_empty (by simp)

/-- A frame has a page table. -/
theorem exists_table_of_frame {vm : Vm} {pgDir page f : Nat} (h : vm.frame pgDir page = some f) :
    ∃ t, vm.tableIdx pgDir (page / 1024) = some t := by
  cases ht : vm.tableIdx pgDir (page / 1024) with
  | none =>
      rw [frame_of_none ht] at h
      exact absurd h (by simp)
  | some t => exact ⟨t, rfl⟩

section
variable {vm : Vm} {pgDir n addr f t : Nat} {own : Pool → Multiset Nat}

/-- The paging unit finds the frame of the page, and the two entries behind it. -/
theorem walk_of_frame (hf : vm.frame pgDir (pageOf addr) = some f) :
    vm.walk pgDir addr
      = some (vm.table pgDir (pageOf addr / 1024), vm.pte pgDir (pageOf addr)) := by
  obtain ⟨t, ht⟩ := exists_table_of_frame hf
  obtain ⟨hpde, hpage⟩ := presentPage_eq_some.mp ht
  have hpte := (presentPage_eq_some.mp hf).1
  rw [pte_of_some ht] at hpte ⊢
  rw [Vm.walk, PDE_IDX_eq, PTE_IDX_eq, entryAddr_eq, hpage, if_neg]
  exact fun h => h.elim hpde hpte

/-- The walk of the processor ends without an address when nothing is mapped there. -/
theorem walk_of_none (hf : vm.frame pgDir (pageOf addr) = none) : vm.walk pgDir addr = none := by
  rw [Vm.walk, PDE_IDX_eq, PTE_IDX_eq, if_pos]
  by_cases hpde : vm.table pgDir (pageOf addr / 1024) &&& PG_P = 0
  · exact .inl hpde
  · have ht : vm.tableIdx pgDir (pageOf addr / 1024) = some (entryPage _) := if_neg hpde
    rw [Vm.frame, pte_of_some ht] at hf
    rw [entryAddr_eq]
    exact .inr (presentPage_eq_none.mp hf)

/-- It does so in no other case, so a fault says that the page is not mapped. -/
theorem walk_eq_none : vm.walk pgDir addr = none ↔ vm.frame pgDir (pageOf addr) = none := by
  refine ⟨fun h => ?_, walk_of_none⟩
  by_contra hne
  obtain ⟨f, hf⟩ := Option.ne_none_iff_exists'.mp hne
  rw [walk_of_frame hf] at h
  exact absurd h (by simp)

/-- The writable bit is one bit. -/
theorem and_rwe_eq {w : Word} (h : w &&& PG_RWE ≠ 0) : w &&& PG_RWE = PG_RWE := by
  have hbit : PG_RWE = BitVec.twoPow 32 1 := by decide
  rw [hbit, BitVec.and_twoPow] at h ⊢
  split at h
  next hset => rw [if_pos hset]
  next => exact absurd rfl h

section
variable (h : AddressSpace vm pgDir n own)
include h

/-- Entry 1023 leads to the directory. -/
theorem entryAddr_self : entryAddr (vm.table pgDir 1023) = pgDir := by
  obtain ⟨d, -, hdir, hself⟩ := h.self
  rw [entryAddr_eq, (presentPage_eq_some.mp hself).2]
  exact hdir.symm

/-- `get_pde` goes through the self-map, and comes to the entry in the page directory. -/
theorem getPde_eq (addr : Nat) : vm.getPde pgDir addr = (pgDir, pageOf addr / 1024) := by
  simp only [Vm.getPde, entryAddr_self h, PDE_IDX_eq]

/-- `get_pte` comes to the entry in the page table, when there is one. -/
theorem getPte_of_table (ht : vm.tableIdx pgDir (pageOf addr / 1024) = some t) :
    vm.getPte pgDir addr = (pageAddr t, pageOf addr % 1024) := by
  simp only [Vm.getPte, entryAddr_self h, PDE_IDX_eq, PTE_IDX_eq, entryAddr_eq,
    (presentPage_eq_some.mp ht).2]

/-- The rights of the two entries behind a frame. -/
theorem rights_of_frame (hpage : pageOf addr < n * 1024)
    (hf : vm.frame pgDir (pageOf addr) = some f) :
    vm.table pgDir (pageOf addr / 1024) &&& (PG_P ||| PG_RWE ||| PG_USER)
        = PG_P ||| PG_RWE ||| PG_USER ∧
      vm.pte pgDir (pageOf addr) &&& (PG_P ||| PG_USER) = PG_P ||| PG_USER := by
  obtain ⟨t, ht⟩ := exists_table_of_frame hf
  have hdiv : pageOf addr / 1024 < n := Nat.div_lt_of_lt_mul (by omega)
  exact ⟨(PageEntry.of_present (h.pde _ hdiv) ht).1, (PageEntry.of_present (h.pte _ hpage) hf).1⟩

/-- A user process may write to a present page with the writable bit. -/
theorem permits_iff (hpage : pageOf addr < n * 1024) :
    vm.Permits pgDir addr (PG_USER ||| PG_RWE) ↔
      (vm.frame pgDir (pageOf addr)).isSome ∧ vm.pte pgDir (pageOf addr) &&& PG_RWE ≠ 0 := by
  constructor
  · rintro ⟨e, he, -, hpte⟩
    obtain ⟨f, hf⟩ : ∃ f, vm.frame pgDir (pageOf addr) = some f := by
      by_contra hne
      rw [walk_of_none (Option.eq_none_iff_forall_ne_some.mpr fun f hf => hne ⟨f, hf⟩)] at he
      exact absurd he (by simp)
    rw [walk_of_frame hf] at he
    obtain rfl := Option.some.inj he
    have hset := and_eq_of_sub hpte (show (PG_USER ||| PG_RWE) &&& PG_RWE = PG_RWE by decide)
    refine ⟨by simp [hf], ?_⟩
    rw [hset]
    decide
  · rintro ⟨hsome, hrwe⟩
    obtain ⟨f, hf⟩ := Option.isSome_iff_exists.mp hsome
    obtain ⟨hpde, hpte⟩ := rights_of_frame h hpage hf
    refine ⟨_, walk_of_frame hf, and_eq_of_sub hpde (by decide), ?_⟩
    rw [BitVec.and_or_distrib_left, and_rwe_eq hrwe, and_eq_of_sub hpte (by decide)]

/-- What a user process reads. -/
theorem userRead_eq (hpage : pageOf addr < n * 1024) :
    vm.userRead pgDir addr
      = (vm.frame pgDir (pageOf addr)).map fun f => vm.user (pageAddr f) (addr % PG_SIZE) := by
  cases hf : vm.frame pgDir (pageOf addr) with
  | none => simp [Vm.userRead, walk_of_none hf]
  | some f =>
      obtain ⟨hpde, hpte⟩ := rights_of_frame h hpage hf
      have hpde' := and_eq_of_sub hpde (show _ &&& PG_USER = PG_USER by decide)
      have hpte' := and_eq_of_sub hpte (show _ &&& PG_USER = PG_USER by decide)
      have hne : PG_USER ≠ 0 := by decide
      simp only [Vm.userRead, walk_of_frame hf, Option.bind_eq_bind, Option.bind_some, hpde', hpte',
        entryAddr_eq, (presentPage_eq_some.mp hf).2]
      rw [if_pos ⟨hne, hne⟩]
      rfl

end

end

/-! ### Several address spaces -/

/-- The address spaces of the processes `0 .. n - 1`, with the directories `dir`. No two
directory entries lead to one page. -/
structure Spaces (vm : Vm) (n : Nat) (dir lim : Nat → Nat) (own : Pool → Multiset Nat) :
    Prop where
  space : ∀ p < n, AddressSpace vm (dir p) (lim p) own
  lim_le : ∀ p < n, lim p ≤ 768
  inj : ∀ p < n, ∀ q < n, ∀ i j t, OwnEntry (lim p) i → OwnEntry (lim q) j →
    vm.tableIdx (dir p) i = some t → vm.tableIdx (dir q) j = some t → p = q ∧ i = j

/-- A page lies in the range of the first `n` directory entries. -/
theorem div_lt_of_page {n page : Nat} (h : page < n * 1024) : page / 1024 < n :=
  Nat.div_lt_of_lt_mul (by omega)

/-- A page is known by its page table and its place in it. -/
theorem page_eq_of_div_mod {page page' : Nat} (hdiv : page / 1024 = page' / 1024)
    (hmod : page % 1024 = page' % 1024) : page = page' := by
  omega

/-- The pages of the first `n` page tables. -/
theorem page_lt_of_div {n page : Nat} (h : page / 1024 < n) : page < n * 1024 := by
  omega

/-- A page of the first `n + 1` directory entries that is not behind the last of them. -/
theorem page_lt_of_div_ne {n page : Nat} (h : page < (n + 1) * 1024) (hne : page / 1024 ≠ n) :
    page < n * 1024 :=
  page_lt_of_div (Nat.lt_of_le_of_ne (Nat.le_of_lt_succ (div_lt_of_page h)) hne)

namespace Spaces

variable {vm vm' : Vm} {n : Nat} {dir lim : Nat → Nat} {own own' : Pool → Multiset Nat}
  {p q i j page t : Nat} {w : Word}

/-- The directory of a process is a page. -/
theorem self (h : Spaces vm n dir lim own) (hp : p < n) :
    ∃ d ∈ own .kernel, dir p = pageAddr d ∧ vm.tableIdx (dir p) 1023 = some d :=
  (h.space p hp).self

/-- The page tables of a process are pages of the kernel pool that it has. -/
theorem table_mem (h : Spaces vm n dir lim own) (hp : p < n) (hi : OwnEntry (lim p) i)
    (ht : vm.tableIdx (dir p) i = some t) : t ∈ own .kernel := by
  rcases hi with hi | rfl
  · exact (PageEntry.of_present ((h.space p hp).pde i hi) ht).2
  · obtain ⟨d, hd, -, hself⟩ := h.self hp
    rw [hself] at ht
    exact Option.some.inj ht ▸ hd

/-- Different processes have different directories. -/
theorem dir_ne_dir (h : Spaces vm n dir lim own) (hp : p < n) (hq : q < n) (hne : q ≠ p) :
    dir q ≠ dir p := by
  intro heq
  obtain ⟨d, -, -, hd⟩ := h.self hp
  have hd' : vm.tableIdx (dir q) 1023 = some d := by rw [heq, hd]
  exact hne (h.inj q hq p hp 1023 1023 d (.inr rfl) (.inr rfl) hd' hd).1

/-- A page table is no directory. -/
theorem dir_ne_table (h : Spaces vm n dir lim own) (hp : p < n) (hi : i < lim p)
    (ht : vm.tableIdx (dir p) i = some t) (hq : q < n) : dir q ≠ pageAddr t := by
  intro heq
  obtain ⟨d, -, hd, hself⟩ := h.self hq
  have hdt : d = t := pageAddr_inj (hd.symm.trans heq)
  subst hdt
  have hlim := h.lim_le p hp
  have hi' := (h.inj p hp q hq i 1023 d (.inl hi) (.inr rfl) ht hself).2
  omega

/-! ### Other memory changes -/

/-- The directories are pages of the processes. -/
theorem table_dir (h : Spaces vm n dir lim own)
    (hsame : ∀ t ∈ own .kernel, vm'.table (pageAddr t) = vm.table (pageAddr t)) (hp : p < n) :
    vm'.table (dir p) = vm.table (dir p) := by
  obtain ⟨d, hd, hdir, -⟩ := h.self hp
  rw [hdir]
  exact hsame d hd

/-- The entry of a page depends on the page directory of its process and on one page table. Nothing
else in memory matters. -/
theorem pte_congr (h : Spaces vm n dir lim own)
    (hsame : ∀ t ∈ own .kernel, vm'.table (pageAddr t) = vm.table (pageAddr t)) (hp : p < n)
    (hpage : page < lim p * 1024) : vm'.pte (dir p) page = vm.pte (dir p) page := by
  have hidx : vm'.tableIdx (dir p) (page / 1024) = vm.tableIdx (dir p) (page / 1024) := by
    rw [Vm.tableIdx, Vm.tableIdx, h.table_dir hsame hp]
  cases ht : vm.tableIdx (dir p) (page / 1024) with
  | none => rw [pte_of_none ht, pte_of_none (hidx.trans ht)]
  | some t =>
      rw [pte_of_some ht, pte_of_some (hidx.trans ht),
        hsame t (h.table_mem hp (.inl (div_lt_of_page hpage)) ht)]

/-- The address spaces depend on the pages `own` only. -/
theorem congr (h : Spaces vm n dir lim own)
    (hsame : ∀ t ∈ own .kernel, vm'.table (pageAddr t) = vm.table (pageAddr t))
    (hown : ∀ P, ∀ t ∈ own P, t ∈ own' P) : Spaces vm' n dir lim own' where
  space p hp :=
    { self := by
        obtain ⟨d, hd, hdir, hself⟩ := h.self hp
        refine ⟨d, hown _ d hd, hdir, ?_⟩
        rw [Vm.tableIdx, h.table_dir hsame hp]
        exact hself
      pde := fun i hi => by
        rw [h.table_dir hsame hp]
        exact PageEntry.mono ((h.space p hp).pde i hi) (hown _)
      pte := fun page hpage => by
        rw [h.pte_congr hsame hp hpage]
        exact PageEntry.mono ((h.space p hp).pte page hpage) (hown _) }
  lim_le := h.lim_le
  inj p hp q hq i j t hi hj hti htj := by
    rw [Vm.tableIdx, h.table_dir hsame hp] at hti
    rw [Vm.tableIdx, h.table_dir hsame hq] at htj
    exact h.inj p hp q hq i j t hi hj hti htj

/-! ### A write to a page table -/

/-- A store to a page table leaves the page directories alone, since no page is both. -/
theorem table_setEntry (h : Spaces vm n dir lim own) (hp : p < n) (hi : i < lim p)
    (ht : vm.tableIdx (dir p) i = some t) (j : Nat) (w : Word) (hq : q < n) :
    (vm.setEntry (pageAddr t) j w).table (dir q) = vm.table (dir q) :=
  Vm.setEntry_of_ne _ _ _ (h.dir_ne_table hp hi ht hq)

/-- A write to a page table changes the entry of one page. -/
theorem pte_setEntry (h : Spaces vm n dir lim own) (hp : p < n) (hpage : page < lim p * 1024)
    (ht : vm.tableIdx (dir p) (page / 1024) = some t) (w : Word) (hq : q < n) {k : Nat}
    (hk : k < lim q * 1024) :
    (vm.setEntry (pageAddr t) (page % 1024) w).pte (dir q) k
      = if q = p ∧ k = page then w else vm.pte (dir q) k := by
  have hidx : (vm.setEntry (pageAddr t) (page % 1024) w).tableIdx (dir q) (k / 1024)
      = vm.tableIdx (dir q) (k / 1024) := by
    rw [Vm.tableIdx, Vm.tableIdx, h.table_setEntry hp (div_lt_of_page hpage) ht _ w hq]
  cases hu : vm.tableIdx (dir q) (k / 1024) with
  | none =>
      have hne : ¬(q = p ∧ k = page) := fun ⟨hqp, hkp⟩ => by
        rw [hqp, hkp, ht] at hu
        exact absurd hu (by simp)
      rw [if_neg hne, pte_of_none hu, pte_of_none (hidx.trans hu)]
  | some u =>
      rw [pte_of_some hu, pte_of_some (hidx.trans hu)]
      by_cases hut : u = t
      · -- the same table: the same process and the same directory entry
        subst hut
        obtain ⟨hqp, hdiv⟩ := h.inj q hq p hp _ _ u (.inl (div_lt_of_page hk))
          (.inl (div_lt_of_page hpage)) hu ht
        rw [Vm.setEntry_self]
        by_cases hmod : k % 1024 = page % 1024
        · have hkp : k = page := page_eq_of_div_mod hdiv hmod
          rw [hmod, Function.update_self, if_pos ⟨hqp, hkp⟩]
        · have hkp : ¬(q = p ∧ k = page) := fun hkp => hmod (by rw [hkp.2])
          rw [Function.update_of_ne hmod, if_neg hkp]
      · have hne : ¬(q = p ∧ k = page) := fun ⟨hqp, hkp⟩ => by
          rw [hqp, hkp, ht] at hu
          exact hut (Option.some.inj hu).symm
        have haddr : pageAddr u ≠ pageAddr t := fun heq => hut (pageAddr_inj heq)
        rw [if_neg hne, Vm.setEntry_of_ne _ _ _ haddr]

/-- A new entry in a page table of a process keeps the order of all spaces: the table is the only
page that changes, and no other process has it. -/
theorem setEntry (h : Spaces vm n dir lim own) (hp : p < n) (hpage : page < lim p * 1024)
    (ht : vm.tableIdx (dir p) (page / 1024) = some t)
    (hw : PageEntry (PG_P ||| PG_USER) (own .user) w) :
    Spaces (vm.setEntry (pageAddr t) (page % 1024) w) n dir lim own := by
  have hdir : ∀ q < n, (vm.setEntry (pageAddr t) (page % 1024) w).table (dir q)
      = vm.table (dir q) := fun q hq => h.table_setEntry hp (div_lt_of_page hpage) ht _ w hq
  constructor
  · intro q hq
    constructor
    · rw [Vm.tableIdx, hdir q hq]
      exact h.self hq
    · intro i hi
      rw [hdir q hq]
      exact (h.space q hq).pde i hi
    · intro k hk
      rw [h.pte_setEntry hp hpage ht w hq hk]
      split
      · exact hw
      · exact (h.space q hq).pte k hk
  · exact h.lim_le
  · intro q hq r hr i j u hi hj hui huj
    rw [Vm.tableIdx, hdir q hq] at hui
    rw [Vm.tableIdx, hdir r hr] at huj
    exact h.inj q hq r hr i j u hi hj hui huj

/-! ### A new page table -/

/-- A directory entry leads to a new table. -/
structure Installs (vm vm' : Vm) (own : Pool → Multiset Nat) (pgDir i t : Nat) (w : Word)
    (content : Nat → Word) : Prop where
  fresh : t ∉ own .kernel
  present : presentPage w = some t
  rights : w &&& (PG_P ||| PG_RWE ||| PG_USER) = PG_P ||| PG_RWE ||| PG_USER
  dir : vm'.table pgDir = Function.update (vm.table pgDir) i w
  table : vm'.table (pageAddr t) = content
  other : ∀ u ∈ own .kernel, pageAddr u ≠ pgDir → vm'.table (pageAddr u) = vm.table (pageAddr u)

section
variable {content : Nat → Word} (h : Spaces vm n dir lim own) (hp : p < n)
  (hnew : Installs vm vm' own (dir p) i t w content)
include h hp hnew

/-- A new page table goes to the directory of its own process. -/
theorem table_install_of_ne (hq : q < n) (hne : q ≠ p) :
    vm'.table (dir q) = vm.table (dir q) := by
  obtain ⟨d, hd, hdir, -⟩ := h.self hq
  have hqp := h.dir_ne_dir hp hq hne
  rw [hdir] at hqp ⊢
  exact hnew.other d hd hqp

/-- Behind that the process has the new table at its place, and all others are where they were. -/
theorem tableIdx_install (hq : q < n) (j : Nat) :
    vm'.tableIdx (dir q) j = if q = p ∧ j = i then some t else vm.tableIdx (dir q) j := by
  by_cases hqp : q = p
  · subst hqp
    rw [Vm.tableIdx, hnew.dir]
    by_cases hji : j = i
    · subst hji
      rw [Function.update_self, if_pos ⟨rfl, rfl⟩, hnew.present]
    · rw [Function.update_of_ne hji, if_neg fun hj => hji hj.2]
      rfl
  · rw [if_neg fun hj => hqp hj.1, Vm.tableIdx, h.table_install_of_ne hp hnew hq hqp]
    rfl

/-- The pages of the entry are those of the new table. -/
theorem pte_install (hi : i ≤ lim p) (hq : q < n) {k : Nat}
    (hk : k < Function.update lim p (max (lim p) (i + 1)) q * 1024) :
    vm'.pte (dir q) k = if q = p ∧ k / 1024 = i then content (k % 1024) else vm.pte (dir q) k := by
  have hidx := h.tableIdx_install hp hnew hq (k / 1024)
  by_cases hqp : q = p ∧ k / 1024 = i
  · rw [if_pos hqp] at hidx
    rw [pte_of_some hidx, if_pos hqp, hnew.table]
  · rw [if_neg hqp] at hidx
    rw [if_neg hqp]
    cases hu : vm.tableIdx (dir q) (k / 1024) with
    | none => rw [pte_of_none hu, pte_of_none (hidx.trans hu)]
    | some u =>
        have hlim : k / 1024 < lim q := by
          have hlt := div_lt_of_page hk
          by_cases hq' : q = p
          · subst hq'
            rw [Function.update_self] at hlt
            have hne : k / 1024 ≠ i := fun heq => hqp ⟨rfl, heq⟩
            omega
          · rwa [Function.update_of_ne hq'] at hlt
        have hmem := h.table_mem hq (.inl hlim) hu
        have hne : pageAddr u ≠ dir p := (h.dir_ne_table hq hlim hu hp).symm
        rw [pte_of_some hu, pte_of_some (hidx.trans hu), hnew.other u hmem hne]

/-- A new page table keeps the order of the spaces when each of its entries is in order and its page
is one that the process has. The process may have as many more tables as the place says. -/
theorem install (hi : i ≤ lim p) (hlt : i < 768)
    (hcontent : ∀ j < 1024, PageEntry (PG_P ||| PG_USER) (own .user) (content j))
    (hown : ∀ P, ∀ t ∈ own P, t ∈ own' P) (ht : t ∈ own' .kernel) :
    Spaces vm' n dir (Function.update lim p (max (lim p) (i + 1))) own' := by
  -- the other entries of a directory were set up before
  have hold : ∀ q < n, ∀ j, ¬(q = p ∧ j = i) →
      j < Function.update lim p (max (lim p) (i + 1)) q → j < lim q := by
    intro q _ j hne hj
    by_cases hqp : q = p
    · subst hqp
      rw [Function.update_self] at hj
      have hji : j ≠ i := fun heq => hne ⟨rfl, heq⟩
      omega
    · rwa [Function.update_of_ne hqp] at hj
  have hentry : ∀ q < n, ∀ j, ¬(q = p ∧ j = i) →
      vm'.table (dir q) j = vm.table (dir q) j := by
    intro q hq j hne
    by_cases hqp : q = p
    · subst hqp
      rw [hnew.dir, Function.update_of_ne fun heq => hne ⟨rfl, heq⟩]
    · rw [h.table_install_of_ne hp hnew hq hqp]
  have hself : ∀ q < n, vm'.tableIdx (dir q) 1023 = vm.tableIdx (dir q) 1023 := by
    intro q hq
    have hne : ¬(q = p ∧ 1023 = i) := fun hqi => by omega
    rw [h.tableIdx_install hp hnew hq, if_neg hne]
  constructor
  · intro q hq
    constructor
    · obtain ⟨d, hd, hdir, hd'⟩ := h.self hq
      exact ⟨d, hown _ d hd, hdir, (hself q hq).trans hd'⟩
    · intro j hj
      by_cases hqp : q = p ∧ j = i
      · obtain ⟨rfl, rfl⟩ := hqp
        rw [hnew.dir, Function.update_self]
        refine .inr ⟨hnew.rights, ?_⟩
        rw [(presentPage_eq_some.mp hnew.present).2]
        exact ht
      · rw [hentry q hq j hqp]
        exact PageEntry.mono ((h.space q hq).pde j (hold q hq j hqp hj)) (hown _)
    · intro k hk
      rw [h.pte_install hp hnew hi hq hk]
      split
      · exact PageEntry.mono (hcontent _ (Nat.mod_lt _ (by decide))) (hown _)
      next hqp =>
        have hlim := page_lt_of_div (hold q hq (k / 1024) hqp (div_lt_of_page hk))
        exact PageEntry.mono ((h.space q hq).pte k hlim) (hown _)
  · intro q hq
    have hle := h.lim_le q hq
    by_cases hqp : q = p
    · subst hqp
      rw [Function.update_self]
      omega
    · rwa [Function.update_of_ne hqp]
  · -- the new table is none of the old ones
    have hnone : ∀ q < n, ∀ j, ¬(q = p ∧ j = i) →
        OwnEntry (Function.update lim p (max (lim p) (i + 1)) q) j →
        vm'.tableIdx (dir q) j ≠ some t := by
      intro q hq j hne hj hjt
      rw [h.tableIdx_install hp hnew hq, if_neg hne] at hjt
      exact hnew.fresh (h.table_mem hq (hj.imp_left (hold q hq j hne)) hjt)
    intro q hq r hr j k u hj hk hju hku
    by_cases hqp : q = p ∧ j = i
    · have hut : u = t := by
        rw [h.tableIdx_install hp hnew hq, if_pos hqp] at hju
        exact (Option.some.inj hju).symm
      by_cases hrp : r = p ∧ k = i
      · exact ⟨hqp.1.trans hrp.1.symm, hqp.2.trans hrp.2.symm⟩
      · exact absurd (hut ▸ hku) (hnone r hr k hrp hk)
    · by_cases hrp : r = p ∧ k = i
      · have hut : u = t := by
          rw [h.tableIdx_install hp hnew hr, if_pos hrp] at hku
          exact (Option.some.inj hku).symm
        exact absurd (hut ▸ hju) (hnone q hq j hqp hj)
      · rw [h.tableIdx_install hp hnew hq, if_neg hqp] at hju
        rw [h.tableIdx_install hp hnew hr, if_neg hrp] at hku
        exact h.inj q hq r hr j k u (hj.imp_left (hold q hq j hqp))
          (hk.imp_left (hold r hr k hrp)) hju hku

end

/-- A new directory without user memory. -/
theorem addDir (h : Spaces vm n dir lim own) {d : Nat}
    (hsame : ∀ t ∈ own .kernel, vm'.table (pageAddr t) = vm.table (pageAddr t))
    (hfresh : d ∉ own .kernel) (hself : vm'.tableIdx (pageAddr d) 1023 = some d)
    (hown : ∀ P, ∀ t ∈ own P, t ∈ own' P) (hd : d ∈ own' .kernel) :
    Spaces vm' (n + 1) (Function.update dir n (pageAddr d)) (Function.update lim n 0) own' := by
  have hold := h.congr hsame hown
  -- the old processes keep their directories
  have hdir : ∀ q < n, Function.update dir n (pageAddr d) q = dir q ∧
      Function.update lim n 0 q = lim q := fun q hq =>
    ⟨Function.update_of_ne hq.ne _ _, Function.update_of_ne hq.ne _ _⟩
  -- the entries of the new directory are one entry
  have hnew : ∀ i t, OwnEntry (Function.update lim n 0 n) i →
      vm'.tableIdx (Function.update dir n (pageAddr d) n) i = some t → i = 1023 ∧ t = d := by
    intro i t hi ht
    rw [Function.update_self] at hi ht
    obtain rfl : i = 1023 := hi.resolve_left (Nat.not_lt_zero i)
    rw [hself] at ht
    exact ⟨rfl, (Option.some.inj ht).symm⟩
  have hne : ∀ q < n, ∀ i, OwnEntry (Function.update lim n 0 q) i →
      vm'.tableIdx (Function.update dir n (pageAddr d) q) i ≠ some d := by
    intro q hq i hi ht
    rw [(hdir q hq).1, Vm.tableIdx, h.table_dir hsame hq] at ht
    rw [(hdir q hq).2] at hi
    exact hfresh (h.table_mem hq hi ht)
  constructor
  · intro q hq
    rcases Nat.lt_succ_iff_lt_or_eq.mp hq with hlt | rfl
    · rw [(hdir q hlt).1, (hdir q hlt).2]
      exact hold.space q hlt
    · rw [Function.update_self, Function.update_self]
      exact ⟨⟨d, hd, rfl, hself⟩, fun i hi => absurd hi (Nat.not_lt_zero i),
        fun page hpage => absurd hpage (by simp)⟩
  · intro q hq
    rcases Nat.lt_succ_iff_lt_or_eq.mp hq with hlt | rfl
    · rw [(hdir q hlt).2]
      exact h.lim_le q hlt
    · rw [Function.update_self]
      exact Nat.zero_le _
  · intro q hq r hr i j t hi hj hit hjt
    rcases Nat.lt_succ_iff_lt_or_eq.mp hq with hq' | rfl
    · rcases Nat.lt_succ_iff_lt_or_eq.mp hr with hr' | rfl
      · rw [(hdir q hq').1] at hit
        rw [(hdir q hq').2] at hi
        rw [(hdir r hr').1] at hjt
        rw [(hdir r hr').2] at hj
        exact hold.inj q hq' r hr' i j t hi hj hit hjt
      · obtain ⟨rfl, rfl⟩ := hnew j t hj hjt
        exact absurd hit (hne q hq' i hi)
    · obtain ⟨rfl, rfl⟩ := hnew i t hi hit
      rcases Nat.lt_succ_iff_lt_or_eq.mp hr with hr' | rfl
      · exact absurd hjt (hne r hr' j hj)
      · exact ⟨rfl, (hnew j _ hj hjt).1.symm⟩

/-- An empty directory entry is set up as it is. -/
theorem extend (h : Spaces vm n dir lim own) (hlt : lim p < 768)
    (hempty : vm.table (dir p) (lim p) &&& 0b11 = 0) :
    Spaces vm n dir (Function.update lim p (lim p + 1)) own := by
  have hnone : vm.tableIdx (dir p) (lim p) = none := presentPage_of_empty hempty
  have hold : ∀ q j, ¬(q = p ∧ j = lim p) → j < Function.update lim p (lim p + 1) q →
      j < lim q := by
    intro q j hne hj
    by_cases hqp : q = p
    · subst hqp
      rw [Function.update_self] at hj
      have hji : j ≠ lim q := fun heq => hne ⟨rfl, heq⟩
      omega
    · rwa [Function.update_of_ne hqp] at hj
  -- a present entry is not the new one
  have hpresent : ∀ q j u, vm.tableIdx (dir q) j = some u → ¬(q = p ∧ j = lim p) := by
    rintro q j u hu ⟨rfl, rfl⟩
    rw [hnone] at hu
    exact absurd hu (by simp)
  constructor
  · intro q hq
    constructor
    · exact h.self hq
    · intro j hj
      by_cases hqp : q = p ∧ j = lim p
      · obtain ⟨rfl, rfl⟩ := hqp
        exact .inl hempty
      · exact (h.space q hq).pde j (hold q j hqp hj)
    · intro k hk
      by_cases hqp : q = p ∧ k / 1024 = lim p
      · rw [pte_of_none (by rw [hqp.1, hqp.2, hnone])]
        exact PageEntry.zero
      · exact (h.space q hq).pte k (page_lt_of_div (hold q (k / 1024) hqp (div_lt_of_page hk)))
  · intro q hq
    have hle := h.lim_le q hq
    by_cases hqp : q = p
    · subst hqp
      rw [Function.update_self]
      omega
    · rwa [Function.update_of_ne hqp]
  · intro q hq r hr j k u hj hk hju hku
    exact h.inj q hq r hr j k u (hj.imp_left (hold q j (hpresent q j u hju)))
      (hk.imp_left (hold r k (hpresent r k u hku))) hju hku

end Spaces

end Fizzos.Proofs
