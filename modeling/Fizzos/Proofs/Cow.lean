import Fizzos.Proofs.Paging
import Fizzos.Support.Sharing

/-!
# `Fizzos.Proofs.Cow`: page faults keep the frames counted

`CowInv` connects a state of `cowSystem` with the machine that copies everything. The user
page-table entries are the slots of a `Sharing`, and `page.count` counts the slots of a frame.
A page that a not-present fault has taken, but not yet mapped, is not a frame of any slot
(`Waits`).

The allocator gives out pages that nobody holds. So a new page can be written and mapped
without a trace in the other address spaces (`CowInv.grow`), and the rest of a fault changes
one page-table entry (`CowInv.remap`).
-/

set_option autoImplicit false

namespace Fizzos.Proofs

open Fizzos.Kernel
open Fizzos.LibKernel
open Fizzos.Support
open BuddyInv (hold mem_hold_iff hold_add)

/-! ### Pages that processes hold -/

/-- One more page of a pool. -/
def addPage (own : Pool → Multiset Nat) (P : Pool) (idx : Nat) : Pool → Multiset Nat :=
  Function.update own P (idx ::ₘ own P)

section
variable {own : Pool → Multiset Nat} {P Q : Pool} {idx i : Nat}

/-- The new page is held. -/
theorem mem_addPage_self : idx ∈ addPage own P idx P := by simp [addPage]

/-- The pages that were held before are held. -/
theorem mem_addPage (h : i ∈ own Q) : i ∈ addPage own P idx Q := by
  unfold addPage
  by_cases hQ : Q = P
  · subst hQ
    simp [h]
  · simpa [hQ] using h

/-- As blocks, the pages get one more block of order 0. -/
theorem pageBlock_addPage : pageBlock (addPage own P idx) = hold (pageBlock own) P ⟨idx, 0⟩ := by
  funext Q
  unfold pageBlock addPage hold
  by_cases hQ : Q = P
  · subst hQ
    simp
  · simp [hQ]

/-- A page that is held is a block of order 0. -/
theorem mem_pageBlock (h : i ∈ own P) : ⟨i, 0⟩ ∈ pageBlock own P := Multiset.mem_map_of_mem _ h

end

/-- The page allocator gave out the pages `own`, and the blocks of other code. -/
def Owns (totalMemSize : Nat) (b : Buddy) (others : Pool → Multiset Block)
    (own : Pool → Multiset Nat) : Prop :=
  ∃ fr, RunInv totalMemSize b (others + pageBlock own) fr

namespace Owns

variable {totalMemSize : Nat} {b : Buddy} {others : Pool → Multiset Block}
  {own : Pool → Multiset Nat}

/-- A page that is held is in memory, so its index is that of a `struct page`. -/
theorem lt_maxPages (h : Owns totalMemSize b others own) (htotal : totalMemSize ≤ 2 ^ 30)
    {P : Pool} {idx : Nat} (hidx : idx ∈ own P) : idx < MAX_PAGES := by
  obtain ⟨fr, h⟩ := h
  have hblk : ⟨idx, 0⟩ ∈ (others + pageBlock own) P :=
    Multiset.mem_add.mpr (.inr (mem_pageBlock hidx))
  exact h.lt_maxPages htotal hblk

/-- A page that is given out is a page that nobody held. -/
theorem getFreePage (h : Owns totalMemSize b others own) (htotal : totalMemSize ≤ 2 ^ 30)
    {flag addr : Nat} {current : Tid} {b' : Buddy}
    (hok : b.getFreePage flag current = .ok (addr, b')) :
    ∃ idx, addr = pageAddr idx ∧ idx < MAX_PAGES ∧ (∀ P, idx ∉ own P) ∧
      Owns totalMemSize b' others (addPage own (poolOfFlag flag) idx) ∧
      b'.page = Function.update b.page idx { count := 1, «private» := 0 } := by
  obtain ⟨fr, h⟩ := h
  rcases h.getFreePage htotal flag current with
    ⟨hpanic, -⟩ | ⟨idx, b₁, fr', hok', hidx, hrun, hnew, hpage⟩
  · rw [hpanic] at hok
    exact absurd hok (by simp)
  · obtain ⟨rfl, rfl⟩ : pageAddr idx = addr ∧ b₁ = b' := by simpa using hok'.symm.trans hok
    refine ⟨idx, rfl, hidx, fun P hmem => ?_, ⟨fr', ?_⟩, hpage⟩
    · exact hnew P ⟨idx, 0⟩ (Multiset.mem_add.mpr (.inr (mem_pageBlock hmem))) rfl
    · rw [pageBlock_addPage, add_comm, hold_add, add_comm]
      exact hrun

/-- The counts of the pages are not part of what is held. -/
theorem setCount (h : Owns totalMemSize b others own) (idx : Nat) (count : Int) :
    Owns totalMemSize (b.setPage idx { b.page idx with count }) others own :=
  h.imp fun _ hrun => hrun.setCount idx count

end Owns

/-! ### The invariant -/

/-- The user page-table entries as slots. -/
def sharing (vm : Vm) (n : Nat) (dir : Nat → Nat) : Sharing (Nat × Nat) Nat where
  dom := Finset.range n ×ˢ Finset.range USER_PAGES
  frame slot := vm.frame (dir slot.1) slot.2
  writable slot := vm.pte (dir slot.1) slot.2 &&& PG_RWE ≠ 0

/-- `page.count` of a frame. -/
def countOf (vm : Vm) (f : Nat) : Int := (vm.buddy.page f).count

/-- The bytes of a frame. -/
def contentOf (vm : Vm) (f : Nat) : Nat → UInt8 := vm.user (pageAddr f)

/-- The first entries of all directories. -/
def fullLim : Nat → Nat := fun _ => 768

/-- A process that runs has all user pages set up. -/
theorem lt_fullLim {page : Nat} (h : page < USER_PAGES) (p : Nat) : page < fullLim p * 1024 := h

/-- So it has the page table of each user page. -/
theorem div_lt_fullLim {page : Nat} (h : page < USER_PAGES) (p : Nat) :
    page / 1024 < fullLim p := div_lt_of_page (lt_fullLim h p)

/-- A fault has taken the page at `buf` for the page of `addr`. -/
structure Waits (s : CowState) (own : Pool → Multiset Nat) (p addr buf : Nat) : Prop where
  addr_lt : addr < TASK_SIZE
  table : ∃ t, s.vm.tableIdx (s.dir p) (pageOf addr / 1024) = some t
  page : ∃ f ∈ own .user, buf = pageAddr f ∧ countOf s.vm f = 1 ∧
    contentOf s.vm f = (fun _ => 0) ∧ ∀ slot ∈ s.slots, s.frame slot ≠ some f

/-- The invariant of a run. -/
structure CowInv (totalMemSize : Nat) (s : CowState) (own : Pool → Multiset Nat) : Prop where
  owns : Owns totalMemSize s.vm.buddy s.others own
  spaces : Spaces s.vm s.procs s.dir fullLim own
  counted : (sharing s.vm s.procs s.dir).Counted (countOf s.vm)
  waits : ∀ p < s.procs, ∀ addr buf, (s.proc p).fault = some (addr, buf) → Waits s own p addr buf
  waits_inj : ∀ p < s.procs, ∀ q < s.procs, ∀ addr addr' buf,
    (s.proc p).fault = some (addr, buf) → (s.proc q).fault = some (addr', buf) → p = q
  eager : ∀ slot ∈ s.slots, s.eager slot.1 slot.2
    = (sharing s.vm s.procs s.dir).view (contentOf s.vm) slot

/-- A slot is a user page of one of the processes. -/
theorem mem_slots {s : CowState} {p page : Nat} :
    (p, page) ∈ s.slots ↔ p < s.procs ∧ page < USER_PAGES := by
  simp [CowState.slots]

/-- The pages `own` keep their content and their counts. -/
structure SameOwn (own : Pool → Multiset Nat) (vm vm' : Vm) : Prop where
  table : ∀ P, ∀ idx ∈ own P, vm'.table (pageAddr idx) = vm.table (pageAddr idx)
  user : ∀ P, ∀ idx ∈ own P, vm'.user (pageAddr idx) = vm.user (pageAddr idx)
  count : ∀ P, ∀ idx ∈ own P, countOf vm' idx = countOf vm idx

section
variable {totalMemSize : Nat} {s : CowState} {own own' : Pool → Multiset Nat} {vm' : Vm}
  {p q page f : Nat}

/-- The frame of a slot is a page of the processes. -/
theorem Spaces.frame_mem {vm : Vm} {n : Nat} {dir : Nat → Nat} (h : Spaces vm n dir fullLim own)
    (hp : p < n) (hpage : page < USER_PAGES) (hf : vm.frame (dir p) page = some f) :
    f ∈ own .user :=
  (PageEntry.of_present ((h.space p hp).pte page hpage) hf).2

/-- What a process has mapped is a page of the user pool that is held. -/
theorem CowInv.frame_mem (h : CowInv totalMemSize s own) {slot : Nat × Nat} (hs : slot ∈ s.slots)
    (hf : s.frame slot = some f) : f ∈ own .user :=
  have hslot := mem_slots.mp hs
  h.spaces.frame_mem hslot.1 hslot.2 hf

/-- Every page-table entry stays, and so do the frames behind them. -/
theorem CowInv.samePte (h : CowInv totalMemSize s own) {others' : Pool → Multiset Block}
    (howns : Owns totalMemSize vm'.buddy others' own')
    (hspaces : Spaces vm' s.procs s.dir fullLim own')
    (hpte : ∀ slot ∈ s.slots, vm'.pte (s.dir slot.1) slot.2 = s.vm.pte (s.dir slot.1) slot.2)
    (htable : ∀ p < s.procs, ∀ i t, s.vm.tableIdx (s.dir p) i = some t →
      vm'.tableIdx (s.dir p) i = some t)
    (hown : ∀ f ∈ own .user, f ∈ own' .user ∧ countOf vm' f = countOf s.vm f ∧
      contentOf vm' f = contentOf s.vm f) :
    CowInv totalMemSize { s with vm := vm', others := others' } own' := by
  -- With the entries the frames are the same, and so is who uses which.
  have hframe : ∀ slot ∈ s.slots, vm'.frame (s.dir slot.1) slot.2 = s.frame slot := by
    intro slot hs
    rw [Vm.frame, hpte slot hs]
    rfl
  constructor
  · exact howns
  · exact hspaces
  · refine h.counted.congr rfl hframe (fun slot hs hw => ?_) fun slot hs f hf => ?_
    · show s.vm.pte (s.dir slot.1) slot.2 &&& PG_RWE ≠ 0
      rw [← hpte slot hs]
      exact hw
    · exact (hown f (h.frame_mem hs hf)).2.1
  · intro p hp addr buf hfault
    obtain ⟨haddr, ⟨t, ht⟩, f, hf, hbuf, hcount, hzero, hnone⟩ := h.waits p hp addr buf hfault
    obtain ⟨hf', hcount', hcontent'⟩ := hown f hf
    refine ⟨haddr, ⟨t, htable p hp _ t ht⟩, f, hf', hbuf, hcount'.trans hcount,
      hcontent'.trans hzero, fun slot hs heq => ?_⟩
    exact hnone slot hs ((hframe slot hs).symm.trans heq)
  · exact h.waits_inj
  · intro slot hs
    show s.eager slot.1 slot.2 = (vm'.frame (s.dir slot.1) slot.2).map (contentOf vm')
    rw [h.eager slot hs, hframe slot hs]
    show (s.frame slot).map (contentOf s.vm) = _
    cases hf : s.frame slot with
    | none => rfl
    | some f => exact congrArg some (hown f (h.frame_mem hs hf)).2.2.symm

/-- What slots map depends on the pages `own` only. -/
theorem CowInv.pte_same (h : CowInv totalMemSize s own) (hsame : SameOwn own s.vm vm')
    {slot : Nat × Nat} (hs : slot ∈ s.slots) :
    vm'.pte (s.dir slot.1) slot.2 = s.vm.pte (s.dir slot.1) slot.2 := by
  obtain ⟨hp, hpage⟩ := mem_slots.mp hs
  exact h.spaces.pte_congr (hsame.table .kernel) hp hpage

/-- When the pages of the processes stay as they are, so does what is mapped. -/
theorem CowInv.frame_same (h : CowInv totalMemSize s own) (hsame : SameOwn own s.vm vm')
    {slot : Nat × Nat} (hs : slot ∈ s.slots) :
    vm'.frame (s.dir slot.1) slot.2 = s.frame slot := by
  rw [Vm.frame, h.pte_same hsame hs]
  rfl

/-- And so do their directories. -/
theorem CowInv.tableIdx_same (h : CowInv totalMemSize s own) (hsame : SameOwn own s.vm vm')
    (hp : p < s.procs) (i : Nat) : vm'.tableIdx (s.dir p) i = s.vm.tableIdx (s.dir p) i := by
  rw [Vm.tableIdx, h.spaces.table_dir (hsame.table .kernel) hp]
  rfl

/-- The pages of the processes stay, and they may get more of them. -/
theorem CowInv.grow (h : CowInv totalMemSize s own) {others' : Pool → Multiset Block}
    (howns : Owns totalMemSize vm'.buddy others' own') (hsame : SameOwn own s.vm vm')
    (hown : ∀ P, ∀ idx ∈ own P, idx ∈ own' P) :
    CowInv totalMemSize { s with vm := vm', others := others' } own' := by
  refine h.samePte howns (h.spaces.congr (hsame.table .kernel) hown)
    (fun slot hs => h.pte_same hsame hs) (fun p hp i t ht => ?_)
    fun f hf => ⟨hown _ f hf, hsame.count _ f hf, hsame.user _ f hf⟩
  rw [h.tableIdx_same hsame hp, ht]

/-- Where the page-table entry of a slot is: the table, and the index in it. -/
def ptePlace (s : CowState) (slot : Nat × Nat) : Nat × Nat :=
  ((s.vm.tableIdx (s.dir slot.1) (slot.2 / 1024)).getD 0, slot.2 % 1024)

/-- A slot that uses a frame has its entry in a page table of its process. -/
theorem CowInv.ptePlace_eq {slot : Nat × Nat}
    (hs : slot ∈ (sharing s.vm s.procs s.dir).users f) : slot ∈ s.slots ∧
      s.vm.tableIdx (s.dir slot.1) (slot.2 / 1024) = some (ptePlace s slot).1 := by
  obtain ⟨hs, hf⟩ := Sharing.mem_users.mp hs
  obtain ⟨t, ht⟩ := exists_table_of_frame hf
  exact ⟨hs, by simp [ptePlace, ht]⟩

/-- A frame has fewer references than a machine has page-table entries. -/
theorem CowInv.refs_le (h : CowInv totalMemSize s own) (htotal : totalMemSize ≤ 2 ^ 30)
    (f : Nat) : (sharing s.vm s.procs s.dir).refs f ≤ MAX_PAGES * 1024 := by
  have hlt : ∀ slot ∈ (sharing s.vm s.procs s.dir).users f,
      (ptePlace s slot).1 < MAX_PAGES ∧ (ptePlace s slot).2 < 1024 := by
    intro slot hs
    obtain ⟨hslot, ht⟩ := CowInv.ptePlace_eq hs
    obtain ⟨hp, hpage⟩ := mem_slots.mp hslot
    have hmem := h.spaces.table_mem hp (.inl (div_lt_fullLim hpage _)) ht
    exact ⟨h.owns.lt_maxPages htotal hmem, Nat.mod_lt _ (by decide)⟩
  -- one table is one process and one directory entry
  have hinj : Set.InjOn (ptePlace s) ((sharing s.vm s.procs s.dir).users f) := by
    intro slot hs slot' hs' heq
    obtain ⟨hslot, ht⟩ := CowInv.ptePlace_eq hs
    obtain ⟨hslot', ht'⟩ := CowInv.ptePlace_eq hs'
    obtain ⟨hp, hpage⟩ := mem_slots.mp hslot
    obtain ⟨hp', hpage'⟩ := mem_slots.mp hslot'
    rw [← heq] at ht'
    obtain ⟨hproc, hdiv⟩ := h.spaces.inj _ hp _ hp' _ _ _ (.inl (div_lt_fullLim hpage _))
      (.inl (div_lt_fullLim hpage' _)) ht ht'
    have hmod : slot.2 % 1024 = slot'.2 % 1024 := congrArg Prod.snd heq
    exact Prod.ext hproc (page_eq_of_div_mod hdiv hmod)
  generalize MAX_PAGES = n at hlt ⊢
  have hmaps : ∀ slot ∈ (sharing s.vm s.procs s.dir).users f,
      ptePlace s slot ∈ Finset.range n ×ˢ Finset.range 1024 := fun slot hs =>
    Finset.mem_product.mpr ((hlt slot hs).imp Finset.mem_range.mpr Finset.mem_range.mpr)
  have hcard := Finset.card_le_card_of_injOn (ptePlace s) hmaps hinj
  rwa [Finset.card_product, Finset.card_range, Finset.card_range] at hcard

/-- The count of a frame is positive and far from an overflow. -/
theorem CowInv.count_range (h : CowInv totalMemSize s own) (htotal : totalMemSize ≤ 2 ^ 30)
    {slot : Nat × Nat} (hs : slot ∈ s.slots) (hf : s.frame slot = some f) :
    1 ≤ countOf s.vm f ∧ countOf s.vm f ≤ 2 ^ 28 := by
  have hcount := h.counted.eq_refs slot hs f hf
  have hle := h.refs_le htotal f
  have hpos : 0 < (sharing s.vm s.procs s.dir).refs f :=
    Finset.card_pos.mpr ⟨slot, Sharing.mem_users.mpr ⟨hs, hf⟩⟩
  simp only [MAX_PAGES] at hle
  omega

/-! ### One page-table entry changes -/

/-- The slot `(p, page)` has the page-table entry `w` from now on, which maps `f`. -/
structure Remaps (s : CowState) (own : Pool → Multiset Nat) (p page f : Nat) (vm' : Vm) :
    Prop where
  proc_lt : p < s.procs
  page_lt : page < USER_PAGES
  entry : ∃ t w, s.vm.tableIdx (s.dir p) (page / 1024) = some t ∧ presentPage w = some f ∧
    PageEntry (PG_P ||| PG_USER) (own .user) w ∧
    vm'.table = (s.vm.setEntry (pageAddr t) (page % 1024) w).table

section
variable (h : CowInv totalMemSize s own) (hmap : Remaps s own p page f vm')
include h hmap

/-- The page tables are as before, so the address spaces are in order. -/
theorem CowInv.spaces_remap : Spaces vm' s.procs s.dir fullLim own := by
  obtain ⟨hp, hpage, t, w, ht, -, hentry, htable⟩ := hmap
  have hspaces := h.spaces.setEntry hp hpage ht hentry
  exact hspaces.congr (fun u _ => by rw [htable]) fun _ _ hmem => hmem

/-- One entry leads to the frame `f` now, and all others are as before. -/
theorem CowInv.pte_remap : ∃ w, presentPage w = some f ∧ ∀ slot ∈ s.slots,
    vm'.pte (s.dir slot.1) slot.2
      = if slot = (p, page) then w else s.vm.pte (s.dir slot.1) slot.2 := by
  obtain ⟨hp, hpage, t, w, ht, hw, -, htable⟩ := hmap
  refine ⟨w, hw, fun slot hs => ?_⟩
  obtain ⟨hq, hk⟩ := mem_slots.mp hs
  have hpte := h.spaces.pte_setEntry hp hpage ht w hq hk
  have heq : slot = (p, page) ↔ slot.1 = p ∧ slot.2 = page := Prod.ext_iff
  rw [if_congr heq rfl rfl, ← hpte]
  simp only [Vm.pte, Vm.tableIdx, htable]

/-- In the sharing of frames, the slot is mapped to `f` and the others stay. -/
theorem CowInv.frame_remap {slot : Nat × Nat} (hs : slot ∈ s.slots) :
    vm'.frame (s.dir slot.1) slot.2
      = ((sharing s.vm s.procs s.dir).map (p, page) f).frame slot := by
  obtain ⟨w, hw, hpte⟩ := h.pte_remap hmap
  rw [Vm.frame, hpte slot hs]
  by_cases heq : slot = (p, page)
  · rw [if_pos heq, hw, heq, Sharing.map_frame_self]
  · rw [if_neg heq, Sharing.map_frame_of_ne heq]
    rfl

/-- No directory has changed. -/
theorem CowInv.tableIdx_remap (hq : q < s.procs) (i : Nat) :
    vm'.tableIdx (s.dir q) i = s.vm.tableIdx (s.dir q) i := by
  obtain ⟨hp, hpage, t, w, ht, -, -, htable⟩ := hmap
  rw [Vm.tableIdx, htable, h.spaces.table_setEntry hp (div_lt_fullLim hpage _) ht _ w hq]
  rfl

/-- A fault ends with one new page-table entry. The pages that other faults have taken stay
as they are. -/
theorem CowInv.remap {proc' : Nat → Proc} {eager' : Nat → Nat → Option (Nat → UInt8)}
    (howns : Owns totalMemSize vm'.buddy s.others own)
    (hcounted : ((sharing s.vm s.procs s.dir).map (p, page) f).Counted (countOf vm'))
    (hmm : ∀ q, (proc' q).mm = (s.proc q).mm)
    (hwaits : ∀ q < s.procs, ∀ addr buf, (proc' q).fault = some (addr, buf) →
      (s.proc q).fault = some (addr, buf) ∧ ∀ g ∈ own .user, buf = pageAddr g →
        g ≠ f ∧ countOf vm' g = countOf s.vm g ∧ contentOf vm' g = contentOf s.vm g)
    (heager : ∀ slot ∈ s.slots, eager' slot.1 slot.2
      = ((sharing s.vm s.procs s.dir).map (p, page) f).view (contentOf vm') slot) :
    CowInv totalMemSize { s with vm := vm', proc := proc', eager := eager' } own := by
  have hdir : CowState.dir { s with vm := vm', proc := proc', eager := eager' } = s.dir :=
    funext fun q => congrArg MmStruct.pgDir (hmm q)
  constructor
  · exact howns
  · rw [hdir]
    exact h.spaces_remap hmap
  · rw [hdir]
    refine hcounted.congr rfl (fun slot hs => h.frame_remap hmap hs) (fun slot hs hw => ?_)
      fun _ _ _ _ => rfl
    obtain ⟨w, -, hpte⟩ := h.pte_remap hmap
    by_cases heq : slot = (p, page)
    · exact .inl heq
    · right
      show s.vm.pte (s.dir slot.1) slot.2 &&& PG_RWE ≠ 0
      have hsame := hpte slot hs
      rw [if_neg heq] at hsame
      rw [← hsame]
      exact hw
  · intro q hq addr buf hfault
    obtain ⟨hfault', hother⟩ := hwaits q hq addr buf hfault
    obtain ⟨haddr, ⟨t, ht⟩, g, hg, hbuf, hcount, hzero, hnone⟩ := h.waits q hq addr buf hfault'
    obtain ⟨hgf, hcount', hcontent'⟩ := hother g hg hbuf
    refine ⟨haddr, ⟨t, ?_⟩, g, hg, hbuf, hcount'.trans hcount, hcontent'.trans hzero, ?_⟩
    · rw [hdir]
      exact (h.tableIdx_remap hmap hq _).trans ht
    · intro slot hs hslot
      have hframe : ((sharing s.vm s.procs s.dir).map (p, page) f).frame slot = some g := by
        rw [← h.frame_remap hmap hs, ← hslot, CowState.frame, hdir]
      -- The page of another fault is not the one that was mapped.
      by_cases heq : slot = (p, page)
      · rw [heq, Sharing.map_frame_self] at hframe
        exact hgf (Option.some.inj hframe).symm
      · rw [Sharing.map_frame_of_ne heq] at hframe
        exact hnone slot hs hframe
  · intro q hq r hr addr addr' buf hfault hfault'
    exact h.waits_inj q hq r hr addr addr' buf (hwaits q hq addr buf hfault).1
      (hwaits r hr addr' buf hfault').1
  · intro slot hs
    rw [hdir]
    show eager' slot.1 slot.2 = (vm'.frame (s.dir slot.1) slot.2).map (contentOf vm')
    rw [h.frame_remap hmap hs]
    exact heager slot hs

/-- A fault maps a page that was no frame. A frame that the slot mapped before has other
users, and it loses one reference. -/
theorem CowInv.remap_fresh {proc' : Nat → Proc} {eager' : Nat → Nat → Option (Nat → UInt8)}
    (howns : Owns totalMemSize vm'.buddy s.others own)
    (hfresh : ∀ slot ∈ s.slots, s.frame slot ≠ some f) (hone : countOf vm' f = 1)
    (hold : ∀ g, s.frame (p, page) = some g →
      1 < countOf s.vm g ∧ countOf vm' g = countOf s.vm g - 1)
    (hother : ∀ g, g ≠ f → s.frame (p, page) ≠ some g → countOf vm' g = countOf s.vm g)
    (hcontent : ∀ g, g ≠ f → contentOf vm' g = contentOf s.vm g)
    (hmm : ∀ q, (proc' q).mm = (s.proc q).mm)
    (hfault : ∀ q < s.procs, ∀ addr buf, (proc' q).fault = some (addr, buf) →
      (s.proc q).fault = some (addr, buf) ∧ buf ≠ pageAddr f)
    (heager : ∀ slot ∈ s.slots, eager' slot.1 slot.2
      = if slot = (p, page) then some (contentOf vm' f) else s.eager slot.1 slot.2) :
    CowInv totalMemSize { s with vm := vm', proc := proc', eager := eager' } own := by
  have hslot : (p, page) ∈ s.slots := mem_slots.mpr ⟨hmap.proc_lt, hmap.page_lt⟩
  refine h.remap hmap howns ?_ hmm ?_ fun slot hs => ?_
  · refine h.counted.map_fresh hslot hfresh hone hold fun slot hs g hg hne => ?_
    exact hother g (fun heq => hfresh slot hs (heq ▸ hg)) hne
  · intro q hq addr buf hbuf
    obtain ⟨hbuf', hne⟩ := hfault q hq addr buf hbuf
    refine ⟨hbuf', fun g _ hg => ?_⟩
    -- a page that a fault has taken is not a frame
    obtain ⟨-, -, g', -, hg', -, -, hnone⟩ := h.waits q hq addr buf hbuf'
    obtain rfl : g = g' := pageAddr_inj (hg.symm.trans hg')
    have hgf : g ≠ f := fun heq => hne (heq ▸ hg)
    exact ⟨hgf, hother g hgf (hnone _ hslot), hcontent g hgf⟩
  · rw [heager slot hs]
    split
    next heq => rw [heq, Sharing.map_view_self]
    next heq =>
      rw [Sharing.map_view_of_ne _ heq, h.eager slot hs]
      show (s.frame slot).map _ = (s.frame slot).map _
      cases hg : s.frame slot with
      | none => rfl
      | some g => exact congrArg some (hcontent g fun heq => hfresh slot hs (heq ▸ hg)).symm

end

/-! ### New pages -/

/-- A page that was not among `own` may be written. -/
theorem SameOwn.of_fresh {vm : Vm} (hfresh : ∀ P, f ∉ own P)
    (htable : ∀ a, a ≠ pageAddr f → vm'.table a = vm.table a)
    (huser : ∀ a, a ≠ pageAddr f → vm'.user a = vm.user a)
    (hpage : ∀ g, g ≠ f → vm'.buddy.page g = vm.buddy.page g) : SameOwn own vm vm' := by
  have hne : ∀ P, ∀ idx ∈ own P, idx ≠ f := fun P idx hidx heq => hfresh P (heq ▸ hidx)
  constructor
  · exact fun P idx hidx => htable _ fun heq => hne P idx hidx (pageAddr_inj heq)
  · exact fun P idx hidx => huser _ fun heq => hne P idx hidx (pageAddr_inj heq)
  · exact fun P idx hidx => congrArg Page.count (hpage idx (hne P idx hidx))

/-- `get_free_page` changes the allocator, and no page table. -/
theorem getFreePage_ok {vm : Vm} {flag addr : Nat} {current : Tid}
    (hok : vm.getFreePage flag current = .ok (addr, vm')) :
    ∃ buddy, vm.buddy.getFreePage flag current = .ok (addr, buddy) ∧ vm' = { vm with buddy } := by
  obtain ⟨⟨a, buddy⟩, hget, hret⟩ := bind_eq_ok.mp hok
  obtain ⟨rfl, rfl⟩ : a = addr ∧ { vm with buddy } = vm' := by simpa using hret
  exact ⟨buddy, hget, rfl⟩

/-- `get_free_page` gives out a page that nobody held, so its caller may write to it. -/
theorem CowInv.freshPage (h : CowInv totalMemSize s own) (htotal : totalMemSize ≤ 2 ^ 30)
    {flag addr : Nat} {current : Tid} {vm₁ : Vm}
    (hok : s.vm.getFreePage flag current = .ok (addr, vm₁)) :
    ∃ f, addr = pageAddr f ∧ f < MAX_PAGES ∧ (∀ P, f ∉ own P) ∧
      (∀ a, vm₁.table a = s.vm.table a ∧ vm₁.user a = s.vm.user a) ∧
      ∀ vm' : Vm, vm'.buddy = vm₁.buddy →
        (∀ a, a ≠ addr → vm'.table a = vm₁.table a ∧ vm'.user a = vm₁.user a) →
        SameOwn own s.vm vm' ∧ countOf vm' f = 1 ∧
          CowInv totalMemSize { s with vm := vm' } (addPage own (poolOfFlag flag) f) := by
  obtain ⟨buddy, hget, rfl⟩ := getFreePage_ok hok
  obtain ⟨f, rfl, hf, hfresh, howns, hpage⟩ := h.owns.getFreePage htotal hget
  refine ⟨f, rfl, hf, hfresh, fun _ => ⟨rfl, rfl⟩, fun vm' hbuddy hother => ?_⟩
  have hpage' : vm'.buddy.page = Function.update s.vm.buddy.page f ⟨1, 0⟩ := by
    rw [hbuddy]
    exact hpage
  have hsame : SameOwn own s.vm vm' := by
    refine .of_fresh hfresh (fun a ha => (hother a ha).1) (fun a ha => (hother a ha).2) ?_
    intro g hg
    rw [hpage', Function.update_of_ne hg]
  refine ⟨hsame, ?_, h.grow ?_ hsame fun P idx hidx => mem_addPage hidx⟩
  · rw [countOf, hpage', Function.update_self]
  · rw [hbuddy]
    exact howns

/-- `get_zeroed_page` fills the new page with zeros. -/
theorem CowInv.getZeroedPage (h : CowInv totalMemSize s own) (htotal : totalMemSize ≤ 2 ^ 30)
    {flag addr : Nat} {current : Tid}
    (hok : s.vm.getZeroedPage flag current = .ok (addr, vm')) :
    ∃ f, addr = pageAddr f ∧ f < MAX_PAGES ∧ (∀ P, f ∉ own P) ∧ SameOwn own s.vm vm' ∧
      CowInv totalMemSize { s with vm := vm' } (addPage own (poolOfFlag flag) f) ∧
      countOf vm' f = 1 ∧ contentOf vm' f = (fun _ => 0) ∧ vm'.table (pageAddr f) = fun _ => 0 := by
  obtain ⟨⟨a, vm₁⟩, hget, hret⟩ := bind_eq_ok.mp hok
  obtain ⟨rfl, rfl⟩ : a = addr ∧ vm₁.zeroPage a = vm' := by simpa using hret
  obtain ⟨f, rfl, hf, hfresh, -, hnew⟩ := h.freshPage htotal hget
  obtain ⟨hsame, hone, hinv⟩ := hnew (vm₁.zeroPage (pageAddr f)) rfl fun a ha =>
    ⟨Vm.zeroPage_table_of_ne _ ha, Vm.zeroPage_user_of_ne _ ha⟩
  exact ⟨f, rfl, hf, hfresh, hsame, hinv, hone, Vm.zeroPage_user_self _ _,
    Vm.zeroPage_table_self _ _⟩

/-! ### User writes -/

/-- The content of the frames is what is in user memory. -/
theorem contentOf_congr {vm : Vm} (h : vm'.user = vm.user) : contentOf vm' = contentOf vm := by
  funext g
  rw [contentOf, contentOf, h]

/-- A frame that is written has the new content, and the others keep theirs. -/
theorem contentOf_update (user : Nat → Nat → UInt8) (vm : Vm) (f : Nat) (x : Nat → UInt8) :
    contentOf { vm with user := Function.update user (pageAddr f) x }
      = Function.update (contentOf { vm with user }) f x := by
  funext g
  by_cases hg : g = f
  · subst hg
    simp [contentOf]
  · have hne : pageAddr g ≠ pageAddr f := fun heq => hg (pageAddr_inj heq)
    simp [contentOf, hg, hne]

/-- The eager copy changes at one slot. -/
theorem setEager_eager (s : CowState) (p page : Nat) (c : Option (Nat → UInt8))
    (slot : Nat × Nat) : (s.setEager p page c).eager slot.1 slot.2
      = if slot = (p, page) then c else s.eager slot.1 slot.2 := by
  obtain ⟨q, k⟩ := slot
  unfold CowState.setEager
  by_cases hq : q = p
  · subst hq
    by_cases hk : k = page
    · subst hk
      simp
    · simp [hk]
  · simp [hq]

/-- What a store to a mapped page does to the memory. -/
theorem userWrite_eq {vm : Vm} {pgDir addr : Nat} (hf : vm.frame pgDir (pageOf addr) = some f)
    (byte : UInt8) :
    vm.userWrite pgDir addr byte =
      { vm with
        user := Function.update vm.user (pageAddr f)
          (Function.update (vm.user (pageAddr f)) (addr % PG_SIZE) byte) } := by
  have hentry : entryAddr (vm.pte pgDir (pageOf addr)) = pageAddr f := by
    rw [entryAddr_eq, (presentPage_eq_some.mp hf).2]
  rw [Vm.userWrite, walk_of_frame hf]
  simp only [hentry]

/-- A mapped frame gets another content. -/
theorem CowInv.setContent (h : CowInv totalMemSize s own) {slot : Nat × Nat}
    (hslot : slot ∈ s.slots) (hf : s.frame slot = some f) (x : Nat → UInt8)
    {eager' : Nat → Nat → Option (Nat → UInt8)}
    (heager : ∀ slot ∈ s.slots, eager' slot.1 slot.2
      = (sharing s.vm s.procs s.dir).view (Function.update (contentOf s.vm) f x) slot) :
    CowInv totalMemSize { s with
      vm := { s.vm with user := Function.update s.vm.user (pageAddr f) x }
      eager := eager' } own := by
  constructor
  · exact h.owns
  · exact h.spaces.congr (fun _ _ => rfl) fun _ _ hmem => hmem
  · exact h.counted
  · intro q hq addr' buf hfault
    obtain ⟨haddr', htable, g, hg, hbuf, hcount, hzero, hnone⟩ := h.waits q hq addr' buf hfault
    refine ⟨haddr', htable, g, hg, hbuf, hcount, ?_, hnone⟩
    -- a page that a fault has taken is not mapped yet
    have hne : g ≠ f := fun heq => hnone _ hslot (heq ▸ hf)
    show contentOf { s.vm with user := _ } g = _
    rw [contentOf_update, Function.update_of_ne hne]
    exact hzero
  · exact h.waits_inj
  · intro slot' hs
    show eager' slot'.1 slot'.2 = Sharing.view _ (contentOf { s.vm with user := _ }) slot'
    rw [contentOf_update]
    exact heager slot' hs

/-- A permitted user write reaches the memory of one process. -/
theorem CowInv.write (h : CowInv totalMemSize s own) {addr : Nat} (byte : UInt8)
    (hp : p < s.procs) (haddr : addr < TASK_SIZE)
    (hperm : s.vm.Permits (s.dir p) addr (PG_USER ||| PG_RWE)) {s' : CowState}
    (hok : s.next (.write p addr byte) = .ok s') : CowInv totalMemSize s' own := by
  have hpage := pageOf_lt haddr
  have hslot : (p, pageOf addr) ∈ s.slots := mem_slots.mpr ⟨hp, hpage⟩
  obtain ⟨hsome, hrwe⟩ := (permits_iff (h.spaces.space p hp) hpage).mp hperm
  obtain ⟨f, hf⟩ := Option.isSome_iff_exists.mp hsome
  -- the frame has one slot, so the content changes for this slot only
  have hview := fun x slot =>
      Sharing.view_write (t := slot) h.counted (contentOf s.vm) hslot hf hrwe x
  obtain rfl : _ = s' := Except.ok.inj hok
  rw [userWrite_eq hf]
  refine h.setContent hslot hf _ fun slot hs => ?_
  refine (setEager_eager s p (pageOf addr) _ slot).trans (Eq.trans ?_ (hview _ slot hs).symm)
  split
  next =>
    rw [show s.eager p (addr / PG_SIZE) = _ from h.eager _ hslot, Sharing.view,
      show (sharing s.vm s.procs s.dir).frame (p, pageOf addr) = some f from hf]
    rfl
  next => exact h.eager slot hs

/-! ### `page_protect_fault` -/

/-- The flags of a user entry for a new frame, as `page_protect_fault` and
`page_not_present` write them. -/
def frameWord (f : Nat) : Word := paddrWord (pageAddr f) ||| (PG_P ||| PG_RWE ||| PG_USER)

/-- The word leads to its frame. -/
theorem frameWord_present (hf : f < MAX_PAGES) : presentPage (frameWord f) = some f :=
  presentPage_paddrWord hf (by decide) (by decide)

/-- It has all rights of a program. -/
theorem frameWord_rights (f : Nat) : frameWord f &&& (PG_P ||| PG_RWE ||| PG_USER)
    = PG_P ||| PG_RWE ||| PG_USER := or_and_eq _ (by decide)

/-- The source writes the flags in several orders. -/
theorem or_flags_eq {a b c : Word} (f : Nat)
    (hflags : a ||| b ||| c = PG_P ||| PG_RWE ||| PG_USER) :
    paddrWord (pageAddr f) ||| a ||| b ||| c = frameWord f := by
  rw [frameWord, ← hflags, BitVec.or_assoc, BitVec.or_assoc, BitVec.or_assoc]

/-- An entry for a frame of the processes. -/
theorem frameWord_entry (hf : f < MAX_PAGES) (hmem : f ∈ own .user) :
    PageEntry (PG_P ||| PG_USER) (own .user) (frameWord f) := by
  refine .inr ⟨and_eq_of_sub (frameWord_rights f) (by decide), ?_⟩
  rwa [(presentPage_eq_some.mp (frameWord_present hf)).2]

/-- The two ways in which `page_protect_fault` returns. -/
theorem pageProtectFault_ok {vm : Vm} {mm : MmStruct} {addr n t : Nat} {current : Tid}
    (hspace : AddressSpace vm mm.pgDir n own)
    (ht : vm.tableIdx mm.pgDir (pageOf addr / 1024) = some t)
    (hok : vm.pageProtectFault mm addr current = .ok vm') :
    let w := vm.pte mm.pgDir (pageOf addr)
    (vm.count w ≤ 1 ∧
      vm' = vm.setEntry (pageAddr t) (pageOf addr % 1024) (w ||| (PG_RWE ||| PG_USER))) ∨
    (1 < vm.count w ∧ ∃ newPg vm₁ vm₂, vm.getFreePage USER_POOL current = .ok (newPg, vm₁) ∧
      (vm₁.copyPage newPg (entryAddr w)).freePage (entryAddr w) current = .ok vm₂ ∧
      vm' = vm₂.setEntry (pageAddr t) (pageOf addr % 1024)
        (paddrWord newPg ||| PG_RWE ||| PG_P ||| PG_USER)) := by
  intro w
  have hw : vm.table (pageAddr t) (pageOf addr % 1024) = w := (pte_of_some ht).symm
  simp only [Vm.pageProtectFault, getPde_eq hspace, getPte_of_table hspace ht, hw] at hok
  obtain ⟨vma, -, hok⟩ := bind_eq_ok.mp hok
  obtain ⟨-, -, hok⟩ := bind_eq_ok.mp hok
  by_cases hwrite : vma.vmFlags &&& VM_WRITE ≠ 0
  · rw [if_pos hwrite] at hok
    obtain ⟨-, -, hok⟩ := bind_eq_ok.mp hok
    -- A shared page is copied. The last process that has it gets its rights back.
    by_cases hcount : vm.count w > 1
    · rw [if_pos hcount] at hok
      obtain ⟨⟨newPg, vm₁⟩, hget, hok⟩ := bind_eq_ok.mp hok
      obtain ⟨vm₂, hfree, hok⟩ := bind_eq_ok.mp hok
      obtain ⟨-, -, hok⟩ := bind_eq_ok.mp hok
      exact .inr ⟨hcount, newPg, vm₁, vm₂, hget, hfree, (Except.ok.inj hok).symm⟩
    · rw [if_neg hcount] at hok
      exact .inl ⟨Int.not_lt.mp hcount, (Except.ok.inj hok).symm⟩
  · rw [if_neg hwrite] at hok
    exact absurd hok (by simp [PANIC])

/-- The last user of a frame may write to it. -/
theorem CowInv.protectFault_own (h : CowInv totalMemSize s own) {t : Nat} (hp : p < s.procs)
    (hpage : page < USER_PAGES) (ht : s.vm.tableIdx (s.dir p) (page / 1024) = some t)
    (hf : s.frame (p, page) = some f) (hone : countOf s.vm f = 1)
    (hvm : vm' = s.vm.setEntry (pageAddr t) (page % 1024)
      (s.vm.pte (s.dir p) page ||| (PG_RWE ||| PG_USER))) :
    CowInv totalMemSize { s with vm := vm' } own := by
  subst hvm
  have hslot : (p, page) ∈ s.slots := mem_slots.mpr ⟨hp, hpage⟩
  obtain ⟨hrights, hmem⟩ := PageEntry.of_present ((h.spaces.space p hp).pte page hpage) hf
  obtain ⟨hp', hentry⟩ := presentPage_eq_some.mp hf
  have hflags : (PG_RWE ||| PG_USER) >>> 12 = 0 := by decide
  -- the new flags leave the others set
  have hkeep : ∀ m : Word, s.vm.pte (s.dir p) page &&& m = m →
      (s.vm.pte (s.dir p) page ||| (PG_RWE ||| PG_USER)) &&& m = m := by
    intro m hm
    rw [BitVec.or_comm]
    exact or_and_eq _ hm
  have hmap : Remaps s own p page f (s.vm.setEntry (pageAddr t) (page % 1024)
      (s.vm.pte (s.dir p) page ||| (PG_RWE ||| PG_USER))) := by
    refine ⟨hp, hpage, t, _, ht, presentPage_eq_some.mpr ⟨?_, ?_⟩, .inr ⟨hkeep _ hrights, ?_⟩, rfl⟩
    · rw [hkeep _ (and_eq_of_sub hrights (by decide))]
      decide
    · rw [entryPage_or _ hflags, hentry]
    · rwa [entryPage_or _ hflags, hentry]
  have hmine : (sharing s.vm s.procs s.dir).frame (p, page) = some f := hf
  refine h.remap hmap h.owns (h.counted.map_self hmine hone) (fun _ => rfl) ?_ ?_
  · intro q hq addr buf hfault
    refine ⟨hfault, fun g _ hbuf => ⟨?_, rfl, rfl⟩⟩
    -- a page that a fault has taken is not a frame
    obtain ⟨-, -, g', -, hbuf', -, -, hnone⟩ := h.waits q hq addr buf hfault
    obtain rfl : g = g' := pageAddr_inj (hbuf.symm.trans hbuf')
    exact fun heq => hnone _ hslot (heq ▸ hf)
  · intro slot hs
    rw [h.eager slot hs]
    by_cases heq : slot = (p, page)
    · subst heq
      rw [Sharing.map_view_self, Sharing.view, hmine]
      rfl
    · exact (Sharing.map_view_of_ne _ heq).symm

/-- `free_page` of a shared frame takes one reference away. -/
theorem freePage_shared_eq {vm : Vm} (hf : f < MAX_PAGES) (hshared : 1 < countOf vm f)
    (hle : countOf vm f ≤ 2 ^ 28) (current : Tid) :
    vm.freePage (pageAddr f) current = .ok { vm with
      buddy := vm.buddy.setPage f { vm.buddy.page f with count := countOf vm f - 1 } } := by
  have hwrap : wrap32 ((vm.buddy.page f).count - 1) = countOf vm f - 1 :=
    wrap32_eq (by simp only [countOf] at hshared; omega) (by simp only [countOf] at hle; omega)
  rw [Vm.freePage, freePageAt_shared hf hshared, hwrap]
  rfl

/-- A new page with the content of a frame. The other pages stay as they are. -/
theorem CowInv.copiedPage (h : CowInv totalMemSize s own) (htotal : totalMemSize ≤ 2 ^ 30)
    {newPg : Nat} {vm₁ : Vm} {current : Tid}
    (hget : s.vm.getFreePage USER_POOL current = .ok (newPg, vm₁)) (f : Nat) :
    ∃ g vmc, newPg = pageAddr g ∧ vmc = vm₁.copyPage newPg (pageAddr f) ∧ g < MAX_PAGES ∧
      (∀ P, g ∉ own P) ∧ SameOwn own s.vm vmc ∧ countOf vmc g = 1 ∧
      CowInv totalMemSize { s with vm := vmc } (addPage own .user g) ∧
      contentOf vmc g = contentOf s.vm f := by
  obtain ⟨g, rfl, hg, hfresh, hvm₁, hnew⟩ := h.freshPage htotal hget
  obtain ⟨hsame, hone, hcopy⟩ := hnew (vm₁.copyPage (pageAddr g) (pageAddr f)) rfl fun a ha =>
    ⟨Vm.copyPage_table_of_ne _ _ ha, Vm.copyPage_user_of_ne _ _ ha⟩
  exact ⟨g, _, rfl, rfl, hg, hfresh, hsame, hone, hcopy,
    (Vm.copyPage_user_self _ _ _).trans (hvm₁ _).2⟩

/-- A user of a shared frame gets a copy. -/
theorem CowInv.protectFault_copy (h : CowInv totalMemSize s own) (htotal : totalMemSize ≤ 2 ^ 30)
    {t newPg : Nat} {vm₁ vm₂ : Vm} {current : Tid} (hp : p < s.procs) (hpage : page < USER_PAGES)
    (ht : s.vm.tableIdx (s.dir p) (page / 1024) = some t)
    (hf : s.frame (p, page) = some f) (hshared : 1 < countOf s.vm f)
    (hget : s.vm.getFreePage USER_POOL current = .ok (newPg, vm₁))
    (hfree : (vm₁.copyPage newPg (pageAddr f)).freePage (pageAddr f) current = .ok vm₂)
    (hvm : vm' = vm₂.setEntry (pageAddr t) (page % 1024)
      (paddrWord newPg ||| PG_RWE ||| PG_P ||| PG_USER)) :
    ∃ own', CowInv totalMemSize { s with vm := vm' } own' := by
  have hslot : (p, page) ∈ s.slots := mem_slots.mpr ⟨hp, hpage⟩
  have hfmem : f ∈ own .user := h.frame_mem hslot hf
  -- first the new page, with the content of the old one
  obtain ⟨g, vmc, rfl, hvmc, hg, hfresh, hsame, hone, hcopy, hcontent⟩ := h.copiedPage htotal hget f
  have hfg : f ≠ g := fun heq => hfresh .user (heq ▸ hfmem)
  rw [← hvmc] at hfree
  -- then one reference less to the old one
  have hcountf : countOf vmc f = countOf s.vm f := hsame.count .user f hfmem
  have hrange := h.count_range htotal hslot hf
  obtain rfl := Except.ok.inj (hfree.symm.trans (freePage_shared_eq
    (h.owns.lt_maxPages htotal hfmem) (by rwa [hcountf]) (by rw [hcountf]; exact hrange.2) current))
  have hcount' : ∀ i, i ≠ f → countOf vm' i = countOf vmc i := by
    intro i hi
    rw [hvm]
    exact congrArg Page.count (Function.update_of_ne hi _ _)
  have hword : paddrWord (pageAddr g) ||| PG_RWE ||| PG_P ||| PG_USER = frameWord g :=
    or_flags_eq g (by decide)
  have hmap : Remaps { s with vm := vmc } (addPage own .user g) p page g vm' := by
    refine ⟨hp, hpage, t, frameWord g, ?_, frameWord_present hg,
      frameWord_entry hg mem_addPage_self, ?_⟩
    · exact (h.tableIdx_same hsame hp _).trans ht
    · rw [hvm, hword, Vm.setEntry_table, Vm.setEntry_table]
  refine ⟨addPage own .user g, hcopy.remap_fresh hmap ?_ (fun slot hs heq => ?_) ?_ (fun i hi => ?_)
    (fun i _ hi => ?_) (fun i hi => ?_) (fun _ => rfl) (fun q hq addr buf hbuf => ⟨hbuf, ?_⟩)
    fun slot hs => ?_⟩
  · rw [hvm]
    exact hcopy.owns.setCount f _
  · exact hfresh .user (h.frame_mem hs ((h.frame_same hsame hs).symm.trans heq))
  · rw [hcount' g hfg.symm, hone]
  · have hi' : s.frame (p, page) = some i := (h.frame_same hsame hslot).symm.trans hi
    obtain rfl : f = i := Option.some.inj (hf.symm.trans hi')
    refine ⟨hcountf ▸ hshared, ?_⟩
    rw [hvm]
    show (Function.update vmc.buddy.page f _ f).count = countOf vmc f - 1
    rw [Function.update_self]
  · refine hcount' i fun heq => hi ?_
    rw [heq]
    exact (h.frame_same hsame hslot).trans hf
  · rw [hvm]
    rfl
  · obtain ⟨-, -, i, hi, hbuf', -⟩ := h.waits q hq addr buf hbuf
    rw [hbuf']
    exact fun heq => hfresh .user (pageAddr_inj heq ▸ hi)
  · split
    next heq =>
      have hcontent' : contentOf vm' g = contentOf s.vm f := by
        rw [hvm]
        exact hcontent
      rw [heq, hcontent', h.eager _ hslot, Sharing.view,
        show (sharing s.vm s.procs s.dir).frame (p, page) = some f from hf]
      rfl
    next => rfl

/-- A write fault does not change what the processes read. -/
theorem CowInv.protectFault (h : CowInv totalMemSize s own) (htotal : totalMemSize ≤ 2 ^ 30)
    {addr : Nat} {current : Tid} (hp : p < s.procs) (haddr : addr < TASK_SIZE)
    (hwalk : (s.vm.walk (s.dir p) addr).isSome) {s' : CowState}
    (hok : s.next (.protectFault p addr current) = .ok s') :
    ∃ own', CowInv totalMemSize s' own' := by
  obtain ⟨vm', hfault, hret⟩ := bind_eq_ok.mp hok
  obtain rfl : { s with vm := vm' } = s' := Except.ok.inj hret
  have hpage := pageOf_lt haddr
  have hslot : (p, pageOf addr) ∈ s.slots := mem_slots.mpr ⟨hp, hpage⟩
  obtain ⟨f, hf⟩ : ∃ f, s.vm.frame (s.dir p) (pageOf addr) = some f := by
    refine Option.ne_none_iff_exists'.mp fun hnone => ?_
    rw [walk_of_none hnone] at hwalk
    exact absurd hwalk (by simp)
  obtain ⟨t, ht⟩ := exists_table_of_frame hf
  have hentry := (presentPage_eq_some.mp hf).2
  have hcount : s.vm.count (s.vm.pte (s.dir p) (pageOf addr)) = countOf s.vm f := by
    rw [Vm.count, hentry]
    rfl
  have hrange := h.count_range htotal hslot hf
  -- The count says how many processes have the page, so 1 means that it is only this one.
  rcases pageProtectFault_ok (h.spaces.space p hp) ht hfault with
    ⟨hle, hvm⟩ | ⟨hgt, newPg, vm₁, vm₂, hget, hfree, hvm⟩
  · have hone : countOf s.vm f = 1 := by
      have hle' := hcount ▸ hle
      omega
    exact ⟨own, h.protectFault_own hp hpage ht hf hone hvm⟩
  · have hpage_addr : entryAddr (s.vm.pte (s.dir p) (pageOf addr)) = pageAddr f := by
      rw [entryAddr_eq, hentry]
    exact h.protectFault_copy htotal hp hpage ht hf (hcount ▸ hgt) hget (hpage_addr ▸ hfree) hvm

/-! ### `page_not_present` -/

/-- The two parts of `page_not_present` before `file_read`: a page table, if there is none
yet, and the new page. -/
theorem notPresentAlloc_ok {vm : Vm} {mm : MmStruct} {addr n buf : Nat} {current : Tid}
    (hspace : AddressSpace vm mm.pgDir n own)
    (hok : vm.notPresentAlloc mm addr current = .ok (buf, vm')) :
    ∃ vm₁, vm₁.getZeroedPage USER_POOL current = .ok (buf, vm') ∧
      ((vm.table mm.pgDir (pageOf addr / 1024) &&& 1 ≠ 0 ∧ vm₁ = vm) ∨
      (vm.table mm.pgDir (pageOf addr / 1024) &&& 1 = 0 ∧
        ∃ newPt vm₂, vm.getZeroedPage KERNEL_POOL current = .ok (newPt, vm₂) ∧
          vm₁ = vm₂.setEntry mm.pgDir (pageOf addr / 1024)
            (paddrWord newPt ||| PG_USER ||| PG_P ||| PG_RWE))) := by
  unfold Vm.notPresentAlloc at hok
  by_cases hrange : addr ≥ 0xc0000000 ∨ addr < 0x08048000
  · rw [if_pos hrange] at hok
    exact absurd hok (by simp)
  · rw [if_neg hrange] at hok
    obtain ⟨-, -, hok⟩ := bind_eq_ok.mp hok
    simp only [getPde_eq hspace] at hok
    by_cases hempty : vm.table mm.pgDir (pageOf addr / 1024) &&& 1 = 0
    · rw [if_pos hempty] at hok
      obtain ⟨⟨newPt, vm₂⟩, hget, hok⟩ := bind_eq_ok.mp hok
      exact ⟨_, hok, .inr ⟨hempty, newPt, vm₂, hget, rfl⟩⟩
    · rw [if_neg hempty] at hok
      exact ⟨vm, hok, .inl ⟨hempty, rfl⟩⟩

/-- A new page table without entries. -/
theorem CowInv.newTable (h : CowInv totalMemSize s own) (htotal : totalMemSize ≤ 2 ^ 30)
    {i newPt : Nat} {current : Tid} {vm₂ : Vm} (hp : p < s.procs) (hi : i < 768)
    (hnone : s.vm.tableIdx (s.dir p) i = none)
    (hget : s.vm.getZeroedPage KERNEL_POOL current = .ok (newPt, vm₂))
    (hvm : vm' = vm₂.setEntry (s.dir p) i (paddrWord newPt ||| PG_USER ||| PG_P ||| PG_RWE)) :
    ∃ own', CowInv totalMemSize { s with vm := vm' } own' ∧
      ∃ t, vm'.tableIdx (s.dir p) i = some t := by
  obtain ⟨t, rfl, ht, hfresh, hsame, hinv, -, -, hzero⟩ := h.getZeroedPage htotal hget
  have hpool : poolOfFlag KERNEL_POOL = .kernel := by decide
  rw [hpool] at hinv
  have hword : paddrWord (pageAddr t) ||| PG_USER ||| PG_P ||| PG_RWE = frameWord t :=
    or_flags_eq t (by decide)
  rw [hword] at hvm
  have hdir : pageAddr t ≠ s.dir p := by
    obtain ⟨d, hd, hdir, -⟩ := h.spaces.self hp
    rw [hdir]
    exact fun heq => hfresh .kernel (pageAddr_inj heq ▸ hd)
  have hinstall : Spaces.Installs s.vm vm' own (s.dir p) i t (frameWord t) fun _ => 0 := by
    refine ⟨hfresh .kernel, frameWord_present ht, frameWord_rights t, ?_, ?_, fun u hu hne => ?_⟩
    · rw [hvm, Vm.setEntry_self, h.spaces.table_dir (hsame.table .kernel) hp]
    · rw [hvm, Vm.setEntry_of_ne _ _ _ hdir, hzero]
    · rw [hvm, Vm.setEntry_of_ne _ _ _ hne, hsame.table .kernel u hu]
  -- The table is for user memory, so the limit of the process does not move.
  have hlim : Function.update fullLim p (max (fullLim p) (i + 1)) = fullLim := by
    have hmax : max (fullLim p) (i + 1) = fullLim p := Nat.max_eq_left (show i + 1 ≤ 768 from hi)
    rw [hmax, Function.update_eq_self]
  have hmore : ∀ P, ∀ idx ∈ own P, idx ∈ addPage own .kernel t P :=
    fun P idx hidx => mem_addPage hidx
  have hspaces := h.spaces.install hp hinstall (Nat.le_of_lt hi) hi (fun _ _ => PageEntry.zero)
    hmore mem_addPage_self
  rw [hlim] at hspaces
  have htable : ∀ q < s.procs, ∀ j, vm'.tableIdx (s.dir q) j
      = if q = p ∧ j = i then some t else s.vm.tableIdx (s.dir q) j := fun q hq j =>
    h.spaces.tableIdx_install hp hinstall hq j
  refine ⟨addPage own .kernel t, h.samePte ?_ hspaces (fun slot hs => ?_) (fun q hq j u hu => ?_)
    (fun f hf => ⟨mem_addPage hf, ?_, ?_⟩), t, ?_⟩
  · rw [hvm]
    exact hinv.owns
  · obtain ⟨hq, hk⟩ := mem_slots.mp hs
    have hpte := h.spaces.pte_install hp hinstall (Nat.le_of_lt hi) hq (k := slot.2)
      (by rw [hlim]; exact lt_fullLim hk _)
    rw [hpte]
    split
    next heq => rw [pte_of_none (by rw [heq.1, heq.2, hnone])]
    next => rfl
  · have hne : ¬(q = p ∧ j = i) := fun ⟨hqp, hji⟩ => by
      rw [hqp, hji, hnone] at hu
      exact absurd hu (by simp)
    rw [htable q hq, if_neg hne, hu]
  · rw [hvm]
    exact hsame.count .user f hf
  · rw [hvm]
    exact hsame.user .user f hf
  · rw [htable p hp, if_pos ⟨rfl, rfl⟩]

/-- The record of one process changes. -/
theorem setProc_proc (s : CowState) (p : Nat) (pr : Proc) :
    (s.setProc p pr).proc = Function.update s.proc p pr := rfl

/-- A record with the same areas has the same directory. -/
theorem dir_setProc {pr : Proc} (hmm : pr.mm = (s.proc p).mm) : (s.setProc p pr).dir = s.dir := by
  funext q
  show (Function.update s.proc p pr q).mm.pgDir = (s.proc q).mm.pgDir
  by_cases hq : q = p
  · subst hq
    rw [Function.update_self, hmm]
  · rw [Function.update_of_ne hq]

/-- A process waits for a file. -/
theorem CowInv.setFault (h : CowInv totalMemSize s own) {addr buf : Nat}
    (hwaits : Waits s own p addr buf)
    (hnew : ∀ q < s.procs, ∀ a, (s.proc q).fault ≠ some (a, buf)) :
    CowInv totalMemSize (s.setProc p { s.proc p with fault := some (addr, buf) }) own := by
  have hdir : (s.setProc p { s.proc p with fault := some (addr, buf) }).dir = s.dir :=
    dir_setProc rfl
  -- the frames of the slots are those of `s`
  have hkeep : ∀ q a b, Waits s own q a b →
      Waits (s.setProc p { s.proc p with fault := some (addr, buf) }) own q a b := by
    intro q a b hw
    obtain ⟨ha, htable, f, hf, hbuf, hcount, hzero, hnone⟩ := hw
    refine ⟨ha, by rw [hdir]; exact htable, f, hf, hbuf, hcount, hzero, fun slot hs => ?_⟩
    rw [CowState.frame, hdir]
    exact hnone slot hs
  constructor
  · exact h.owns
  · rw [hdir]
    exact h.spaces
  · rw [hdir]
    exact h.counted
  · intro q hq a b hfault
    by_cases hqp : q = p
    · subst hqp
      simp only [CowState.setProc, Function.update_self, Option.some.injEq, Prod.mk.injEq]
        at hfault
      obtain ⟨rfl, rfl⟩ := hfault
      exact hkeep q addr buf hwaits
    · simp only [CowState.setProc, Function.update_of_ne hqp] at hfault
      exact hkeep q a b (h.waits q hq a b hfault)
  · intro q hq r hr a a' b hfault hfault'
    simp only [CowState.setProc] at hfault hfault'
    by_cases hqp : q = p
    · by_cases hrp : r = p
      · exact hqp.trans hrp.symm
      · rw [hqp, Function.update_self] at hfault
        rw [Function.update_of_ne hrp] at hfault'
        obtain ⟨-, rfl⟩ : addr = a ∧ buf = b := by simpa using hfault
        exact absurd hfault' (hnew r hr a')
    · rw [Function.update_of_ne hqp] at hfault
      by_cases hrp : r = p
      · rw [hrp, Function.update_self] at hfault'
        obtain ⟨-, rfl⟩ : addr = a' ∧ buf = b := by simpa using hfault'
        exact absurd hfault (hnew q hq a)
      · rw [Function.update_of_ne hrp] at hfault'
        exact h.waits_inj q hq r hr a a' b hfault hfault'
  · rw [hdir]
    exact h.eager

/-- A not-present fault takes a new page. -/
theorem CowInv.notPresent (h : CowInv totalMemSize s own) (htotal : totalMemSize ≤ 2 ^ 30)
    {addr : Nat} {current : Tid} (hp : p < s.procs) (haddr : addr < TASK_SIZE) {s' : CowState}
    (hok : s.next (.notPresent p addr current) = .ok s') :
    ∃ own', CowInv totalMemSize s' own' := by
  obtain ⟨⟨buf, vm'⟩, halloc, hret⟩ := bind_eq_ok.mp hok
  obtain rfl := Except.ok.inj hret
  have hi : pageOf addr / 1024 < 768 := div_lt_fullLim (pageOf_lt haddr) p
  obtain ⟨vm₁, hget, htable⟩ := notPresentAlloc_ok (h.spaces.space p hp) halloc
  -- first the page table
  obtain ⟨own₁, h₁, t, ht⟩ : ∃ own₁, CowInv totalMemSize { s with vm := vm₁ } own₁ ∧
      ∃ t, vm₁.tableIdx (s.dir p) (pageOf addr / 1024) = some t := by
    rcases htable with ⟨hpresent, rfl⟩ | ⟨hempty, newPt, vm₂, hget₁, hvm⟩
    · exact ⟨own, h, _, if_neg hpresent⟩
    · exact h.newTable htotal hp hi (if_pos hempty) hget₁ hvm
  -- then the page
  obtain ⟨f, rfl, -, hfresh, hsame, h₂, hone, hzero, -⟩ := h₁.getZeroedPage htotal hget
  have hpool : poolOfFlag USER_POOL = .user := by decide
  rw [hpool] at h₂
  refine ⟨addPage own₁ .user f, h₂.setFault ⟨haddr, ⟨t, ?_⟩, f, mem_addPage_self, rfl, hone, hzero,
    fun slot hs heq => ?_⟩ fun q hq a hfault => ?_⟩
  · exact (h₁.tableIdx_same hsame hp _).trans ht
  · exact hfresh .user (h₁.frame_mem hs ((h₁.frame_same hsame hs).symm.trans heq))
  · obtain ⟨-, -, g, hg, hbuf, -⟩ := h₁.waits q hq a _ hfault
    exact hfresh .user (pageAddr_inj hbuf ▸ hg)

/-- What `page_not_present` does behind `file_read`. -/
theorem notPresentMap_ok {vm : Vm} {mm : MmStruct} {addr buf n t : Nat}
    {fileRead : Nat → Nat → Nat → UInt8} (hspace : AddressSpace vm mm.pgDir n own)
    (ht : vm.tableIdx mm.pgDir (pageOf addr / 1024) = some t)
    (hok : vm.notPresentMap mm addr buf fileRead = .ok vm') :
    vm.frame mm.pgDir (pageOf addr) = none ∧
    ∃ content, content = (Vm.pageContent mm addr fileRead).getD (vm.user buf) ∧
      vm' = { vm with user := Function.update vm.user buf content }.setEntry (pageAddr t)
        (pageOf addr % 1024) (paddrWord buf ||| PG_USER ||| PG_P ||| PG_RWE) := by
  have hpte : ∀ user, ({ vm with user } : Vm).getPte mm.pgDir addr
      = (pageAddr t, pageOf addr % 1024) :=
    fun _ => (getPte_of_table hspace ht : vm.getPte mm.pgDir addr = _)
  simp only [Vm.notPresentMap, hpte] at hok
  obtain ⟨u, hassert, hret⟩ := bind_eq_ok.mp hok
  refine ⟨?_, _, rfl, (Except.ok.inj hret).symm⟩
  rw [Vm.frame, pte_of_some ht]
  exact if_pos (ASSERT_eq_ok.mp hassert)

/-- The end of a not-present fault gives one process a new page. -/
theorem CowInv.mapped (h : CowInv totalMemSize s own) (htotal : totalMemSize ≤ 2 ^ 30)
    {fileRead : Nat → Nat → Nat → UInt8} (hp : p < s.procs) {s' : CowState}
    (hok : s.next (.mapped p fileRead) = .ok s') : CowInv totalMemSize s' own := by
  obtain ⟨⟨addr, buf⟩, hderef, hok⟩ := bind_eq_ok.mp hok
  obtain ⟨vm', hmap, hret⟩ := bind_eq_ok.mp hok
  obtain rfl := Except.ok.inj hret
  have hfault : (s.proc p).fault = some (addr, buf) := deref_eq_ok.mp hderef
  obtain ⟨haddr, ⟨t, ht⟩, f, hf, rfl, hone, hzero, hnone⟩ := h.waits p hp addr buf hfault
  obtain ⟨hempty, content, hread, hvm⟩ := notPresentMap_ok (h.spaces.space p hp) ht hmap
  have hlt := h.owns.lt_maxPages htotal hf
  have hword : paddrWord (pageAddr f) ||| PG_USER ||| PG_P ||| PG_RWE = frameWord f :=
    or_flags_eq f (by decide)
  -- the page was zeroed, so a mapping without a file gets zeros
  have hcontent : contentOf vm' = Function.update (contentOf s.vm) f
      ((Vm.pageContent (s.proc p).mm addr fileRead).getD fun _ => 0) := by
    rw [show s.vm.user (pageAddr f) = fun _ => 0 from hzero] at hread
    rw [hvm, ← hread, contentOf_congr (Vm.setEntry_user _ _ _ _)]
    exact contentOf_update s.vm.user s.vm f content
  have hslot : s.frame (p, pageOf addr) = none := hempty
  have hremap : Remaps s own p (pageOf addr) f vm' := by
    refine ⟨hp, pageOf_lt haddr, t, frameWord f, ht, frameWord_present hlt,
      frameWord_entry hlt hf, ?_⟩
    rw [hvm, hword, Vm.setEntry_table, Vm.setEntry_table]
  refine h.remap_fresh hremap ?_ hnone ?_ (fun g hg => ?_) (fun g _ _ => ?_) (fun g hg => ?_)
    (fun q => ?_) (fun q hq a b hb => ?_) fun slot hs => ?_
  · rw [hvm]
    exact h.owns
  · rw [hvm]
    exact hone
  · rw [hslot] at hg
    exact absurd hg (by simp)
  · rw [hvm]
    rfl
  · rw [hcontent, Function.update_of_ne hg]
  · rw [setProc_proc]
    by_cases hq : q = p
    · subst hq
      simp
    · simp [hq]
  · rw [setProc_proc] at hb
    by_cases hqp : q = p
    · rw [hqp, Function.update_self] at hb
      exact absurd hb (by simp)
    · rw [Function.update_of_ne hqp] at hb
      refine ⟨hb, fun heq => hqp ?_⟩
      exact h.waits_inj q hq p hp a addr (pageAddr f) (heq ▸ hb) hfault
  · refine (setEager_eager s p (pageOf addr) _ slot).trans ?_
    rw [hcontent, Function.update_self]

/-! ### Other code -/

/-- A call of other code to the page allocator. -/
theorem CowInv.pages (h : CowInv totalMemSize s own) (htotal : totalMemSize ≤ 2 ^ 30)
    {a : BuddyAct} (ha : (BuddyState.mk s.vm.buddy s.others).Enabled a) {s' : CowState}
    (hok : s.next (.pages a) = .ok s') : CowInv totalMemSize s' own := by
  obtain ⟨t, hnext, hret⟩ := bind_eq_ok.mp hok
  obtain rfl := Except.ok.inj hret
  obtain ⟨fr, hrun⟩ := h.owns
  rcases RunInv.next (s := ⟨s.vm.buddy, s.others⟩) hrun (by omega) ha with
    ⟨hpanic, -⟩ | ⟨t', fr', hok', hkeeps⟩
  · rw [hnext] at hpanic
    exact absurd hpanic (by simp)
  · obtain rfl : t' = t := Except.ok.inj (hok'.symm.trans hnext)
    refine h.grow ⟨fr', hkeeps.run⟩ ⟨fun _ _ _ => rfl, fun _ _ _ => rfl, fun P idx hidx => ?_⟩
      fun _ _ hmem => hmem
    exact congrArg Page.count (hkeeps.page P _ (mem_pageBlock hidx))

/-- Other code writes to its own pages. -/
theorem CowInv.store (h : CowInv totalMemSize s own) (htotal : totalMemSize ≤ 2 ^ 30)
    {table : Nat → Nat → Word} {user : Nat → Nat → UInt8} (ha : s.Enabled (.store table user))
    {s' : CowState} (hok : s.next (.store table user) = .ok s') : CowInv totalMemSize s' own := by
  obtain rfl := Except.ok.inj hok
  obtain ⟨fr, hrun⟩ := h.owns
  have hkeep : ∀ P, ∀ idx ∈ own P, table (pageAddr idx) = s.vm.table (pageAddr idx) ∧
      user (pageAddr idx) = s.vm.user (pageAddr idx) := by
    intro P idx hidx
    refine ha (pageAddr idx) fun Q blk hblk hcov => ?_
    rw [paddr2pg_pageAddr] at hcov
    exact RunInv.live_not_covers (s := ⟨s.vm.buddy, s.others⟩) hrun (by omega) hblk
      (mem_pageBlock hidx) hcov (Block.covers_idx ⟨idx, 0⟩)
  exact h.grow ⟨fr, hrun⟩ ⟨fun P idx hidx => (hkeep P idx hidx).1,
    fun P idx hidx => (hkeep P idx hidx).2, fun _ _ _ => rfl⟩ fun _ _ hmem => hmem

end

end Fizzos.Proofs
