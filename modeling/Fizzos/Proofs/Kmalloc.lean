import Fizzos.Kernel.Kmalloc
import Fizzos.Proofs.ListFamily
import Fizzos.Proofs.Pages

/-!
# `Fizzos.Proofs.Kmalloc`: small allocations do not overlap

`KInv` connects the memory of `kmalloc` with a picture of its pages. `pages` are the
addresses of the descriptors, `cls` their size classes, and `S` the sequences of all lists.
In each page the free blocks and the live allocations are exactly the blocks that the page
was cut into. A page is on the list of full pages when no block is free, and on the other
list when some are. No page is without a live allocation.

A block of a page belongs to a list or to a caller. So `kmalloc` moves one block from the
list to the callers and `kfree` moves it back (`KInv.repage`), and only the first allocation
in a page and the last `kfree` change the pages.
-/

set_option autoImplicit false

namespace Fizzos.Proofs

open Fizzos.Kernel
open Fizzos.LibKernel
open Fizzos.Support
open BuddyInv (hold mem_hold_iff hold_add hold_erase)

/-! ### Addresses -/

namespace PageBase

variable {desc : Nat}

/-- Every address in a page leads to its descriptor. -/
theorem descOf_add (h : PageBase desc) {off : Nat} (hoff : off < PG_SIZE) :
    descOf (desc + off) = desc := by
  have hfits := h.fits
  obtain ⟨k, rfl⟩ := h.dvd
  rw [descOf, and_pageMask (by omega), Nat.mul_add_div (by decide), Nat.div_eq_of_lt hoff,
    Nat.add_zero,
    Nat.mul_comm]

/-- The descriptor of a page lies at its start. -/
theorem descOf_self (h : PageBase desc) : descOf desc = desc := by
  have hpos : 0 < PG_SIZE := by decide
  exact h.descOf_add hpos

end PageBase

/-! ### The blocks of a page -/

/-- The address of a block. -/
def blockAddr (desc idx k : Nat) : Nat := desc + 32 + memBlockSize idx * k

/-- The addresses of all blocks of a page of class `idx`. -/
def blockAddrs (desc idx : Nat) : List Nat :=
  (List.range (memBlockCount idx)).map (blockAddr desc idx)

/-- The size classes: each block holds a list element, a page has at least two blocks, and
the blocks fit behind the descriptor. -/
theorem class_fits {idx : Nat} (h : idx < 7) :
    32 ≤ memBlockSize idx ∧ 2 ≤ memBlockCount idx ∧
      32 + memBlockSize idx * memBlockCount idx ≤ PG_SIZE := by
  have hall : ∀ idx < 7, 32 ≤ memBlockSize idx ∧ 2 ≤ memBlockCount idx ∧
      32 + memBlockSize idx * memBlockCount idx ≤ PG_SIZE := by decide
  exact hall idx h

/-- A small request has a class that is large enough. -/
theorem sizeClass_spec {size : Nat} (h : size ≤ MAX_BLOCK_SIZE) :
    sizeClass size < 7 ∧ size ≤ memBlockSize (sizeClass size) := by
  have hlast : 6 ∈ List.range 7 ∧ decide (size ≤ memBlockSize 6) = true :=
    ⟨by decide, decide_eq_true h⟩
  unfold sizeClass
  cases hfind : (List.range 7).find? fun idx => decide (size ≤ memBlockSize idx) with
  | none =>
      have hnone := List.find?_eq_none.mp hfind 6 hlast.1
      exact absurd hlast.2 hnone
  | some idx =>
      have hmem := List.mem_of_find?_eq_some hfind
      have hsize := List.find?_some hfind
      exact ⟨List.mem_range.mp hmem, of_decide_eq_true hsize⟩

section
variable {desc idx a : Nat}

/-- A block lies behind the descriptor and inside the page. -/
theorem block_range (hidx : idx < 7) (ha : a ∈ blockAddrs desc idx) :
    desc + 32 ≤ a ∧ a + memBlockSize idx ≤ desc + PG_SIZE := by
  obtain ⟨k, hk, rfl⟩ := List.mem_map.mp ha
  have hfits := (class_fits hidx).2.2
  have hmul : memBlockSize idx * (k + 1) ≤ memBlockSize idx * memBlockCount idx :=
    Nat.mul_le_mul_left _ (List.mem_range.mp hk)
  rw [Nat.mul_succ] at hmul
  simp only [blockAddr]
  omega

/-- A block leads to the descriptor of its page. -/
theorem descOf_block (h : PageBase desc) (hidx : idx < 7) (ha : a ∈ blockAddrs desc idx) :
    descOf a = desc := by
  obtain ⟨hlo, hhi⟩ := block_range hidx ha
  have hsize := (class_fits hidx).1
  obtain ⟨off, rfl⟩ := Nat.exists_eq_add_of_le (show desc ≤ a by omega)
  exact h.descOf_add (by omega)

/-- Different blocks of a page do not overlap. -/
theorem block_disjoint {a' : Nat} (ha : a ∈ blockAddrs desc idx) (ha' : a' ∈ blockAddrs desc idx)
    (hne : a ≠ a') : a + memBlockSize idx ≤ a' ∨ a' + memBlockSize idx ≤ a := by
  obtain ⟨k, -, rfl⟩ := List.mem_map.mp ha
  obtain ⟨k', -, rfl⟩ := List.mem_map.mp ha'
  have hkk : k ≠ k' := fun heq => hne (heq ▸ rfl)
  simp only [blockAddr]
  rcases Nat.lt_or_gt_of_ne hkk with hlt | hgt
  · have hmul := Nat.mul_le_mul_left (memBlockSize idx) (show k + 1 ≤ k' from hlt)
    rw [Nat.mul_succ] at hmul
    omega
  · have hmul := Nat.mul_le_mul_left (memBlockSize idx) (show k' + 1 ≤ k from hgt)
    rw [Nat.mul_succ] at hmul
    omega

/-- The blocks of a page have different addresses. -/
theorem blockAddrs_nodup (desc : Nat) (hidx : idx < 7) : (blockAddrs desc idx).Nodup := by
  have hpos : 0 < memBlockSize idx := by have := (class_fits hidx).1; omega
  refine List.Nodup.map ?_ List.nodup_range
  intro k k' heq
  simp only [blockAddr, Nat.add_left_cancel_iff] at heq
  exact Nat.eq_of_mul_eq_mul_left hpos heq

end

/-! ### The live allocations of a page -/

/-- The pointers of the live allocations in a page. -/
def liveIn (live : Multiset (Nat × Nat)) (desc : Nat) : Multiset Nat :=
  (live.map Prod.fst).filter (descOf · = desc)

/-- The live blocks of a page, when there is one more block. -/
theorem liveIn_cons (p : Nat × Nat) (live : Multiset (Nat × Nat)) (desc : Nat) :
    liveIn (p ::ₘ live) desc
      = if descOf p.1 = desc then p.1 ::ₘ liveIn live desc else liveIn live desc := by
  by_cases h : descOf p.1 = desc <;> simp [liveIn, h]

/-- The live allocations before one of them is freed. -/
theorem liveIn_erase {p : Nat × Nat} {live : Multiset (Nat × Nat)} (hp : p ∈ live)
    (desc : Nat) :
    liveIn live desc = if descOf p.1 = desc then p.1 ::ₘ liveIn (live.erase p) desc
      else liveIn (live.erase p) desc := by
  rw [← liveIn_cons, Multiset.cons_erase hp]

/-- They are the live blocks with this page. -/
theorem mem_liveIn {live : Multiset (Nat × Nat)} {desc a : Nat} :
    a ∈ liveIn live desc ↔ (∃ n, (a, n) ∈ live) ∧ descOf a = desc := by
  simp [liveIn]

/-! ### The invariant -/

/-- The lists that are in use when the pages are `pages`. -/
def InUse (pages : Multiset Nat) : MList → Prop
  | .part idx => idx < 7
  | .full idx => idx < 7
  | .block desc => desc ∈ pages

/-- The pages as blocks of the page allocator. -/
def pageBlocks (pages : Multiset Nat) : Pool → Multiset Block
  | .kernel => pages.map fun desc => ⟨paddr2pg (getPaddr desc), 0⟩
  | .user => 0

/-- One more page is one more block of the allocator that is held. -/
theorem pageBlocks_cons (desc : Nat) (pages : Multiset Nat) :
    pageBlocks (desc ::ₘ pages)
      = hold (pageBlocks pages) .kernel ⟨paddr2pg (getPaddr desc), 0⟩ := by
  funext P
  cases P <;> simp [pageBlocks, BuddyInv.hold]

/-- What the descriptor of a page says, for a class and a list of free blocks. -/
def pageDesc (idx : Nat) (free : List Nat) : MemBlockDesc :=
  { count := memBlockCount idx, remain := free.length, mlistIdx := idx, large := false }

/-- The lists of the allocator are `S`, for the memory `mem` and the pages `pages` of the
classes `cls`. -/
structure MemInv (mem : KMem) (pages : Multiset Nat) (cls : Nat → Nat) (S : MList → List Nat) :
    Prop where
  base : ∀ desc ∈ pages, PageBase desc
  cls_lt : ∀ desc ∈ pages, cls desc < 7
  lists : Lists id (InUse pages) mem.list mem.links S
  part : ∀ idx desc, desc ∈ S (.part idx) ↔
    desc ∈ pages ∧ cls desc = idx ∧ S (.block desc) ≠ []
  full : ∀ idx desc, desc ∈ S (.full idx) ↔
    desc ∈ pages ∧ cls desc = idx ∧ S (.block desc) = []
  desc : ∀ desc ∈ pages, mem.desc desc = pageDesc (cls desc) (S (.block desc))

/-- The blocks of the pages are free or belong to live allocations. -/
structure LiveInv (live : Multiset (Nat × Nat)) (pages : Multiset Nat) (cls : Nat → Nat)
    (free : Nat → List Nat) : Prop where
  blocks : ∀ desc ∈ pages,
    (free desc : Multiset Nat) + liveIn live desc = (blockAddrs desc (cls desc) : Multiset Nat)
  used : ∀ desc ∈ pages, liveIn live desc ≠ 0
  live : ∀ p ∈ live, descOf p.1 ∈ pages ∧ p.2 ≤ memBlockSize (cls (descOf p.1))

/-- The page allocator, with the pages that `kmalloc` holds. -/
structure PagesInv (totalMemSize : Nat) (b : Buddy) (others : Pool → Multiset Block)
    (pages : Multiset Nat) (fr : FreeLists) : Prop where
  run : RunInv totalMemSize b (others + pageBlocks pages) fr
  count : ∀ desc ∈ pages, (b.page (paddr2pg (getPaddr desc))).count = 1

/-- The invariant of a run. -/
structure KInv (totalMemSize : Nat) (s : KmallocState) (pages : Multiset Nat)
    (cls : Nat → Nat) (S : MList → List Nat) (fr : FreeLists) : Prop where
  held : PagesInv totalMemSize s.buddy s.others pages fr
  mem : MemInv s.mem pages cls S
  live : LiveInv s.live pages cls fun desc => S (.block desc)

/-! ### Lists in memory -/

section
variable {m : KMem} {V : MList → Prop} {S : MList → List Nat} {q : MList} {x : Nat}

/-- `list_push_back` of a node that is on no list. -/
theorem pushBack_mem (hs : Lists id V m.list m.links S) (hq : V q) (hx : ∀ r, x ∉ S r)
    (haddr : KERNEL_VADDR_START ≤ x) :
    ∃ m', m.pushBack q x = .ok m' ∧ m'.desc = m.desc ∧
      Lists id V m'.list m'.links (Function.update S q (S q ++ [x])) := by
  obtain ⟨l, links, hok, hs'⟩ := hs.pushBack hq hx haddr
  exact ⟨m.setList q l links, by simp [KMem.pushBack, hok], rfl, hs'⟩

/-- `list_push_back` of the only node of a list changes nothing. -/
theorem pushBack_again_mem (hs : Lists id V m.list m.links S) (hq : V q) (hx : S q = [x]) :
    ∃ m', m.pushBack q x = .ok m' ∧ m'.desc = m.desc ∧ Lists id V m'.list m'.links S := by
  obtain ⟨l, links, hok, hs'⟩ := hs.pushBack_again hq hx
  exact ⟨m.setList q l links, by simp [KMem.pushBack, hok], rfl, hs'⟩

/-- `list_pop_front` of a list that has a node. -/
theorem popFront_mem (hs : Lists id V m.list m.links S) (hq : V q) {xs : List Nat}
    (hx : S q = x :: xs) :
    ∃ m', m.popFront q = .ok (some x, m') ∧ m'.desc = m.desc ∧
      Lists id V m'.list m'.links (Function.update S q xs) := by
  obtain ⟨l, links, hok, hs'⟩ := hs.popFront hq hx
  exact ⟨m.setList q l links, by simp [KMem.popFront, hok], rfl, hs'⟩

/-- `list_delete` of a node that is on the list. -/
theorem delete_mem (hs : Lists id V m.list m.links S) (hq : V q) (hx : x ∈ S q)
    (hlen : (S q).length ≤ LIST_WALK) :
    ∃ m', m.delete q x = .ok m' ∧ m'.desc = m.desc ∧
      Lists id V m'.list m'.links (Function.update S q ((S q).erase x)) := by
  obtain ⟨l, links, hok, hs'⟩ := hs.delete hq hx hlen
  exact ⟨m.setList q l links, by simp [KMem.delete, hok], rfl, hs'⟩

/-- A loop of `list_push_back`s appends all its nodes. -/
theorem foldlM_pushBack (f : Nat → Nat) (is : List Nat) :
    ∀ {m : KMem} {S : MList → List Nat}, Lists id V m.list m.links S → V q →
      (is.map f).Nodup → (∀ i ∈ is, ∀ r, f i ∉ S r) → (∀ i ∈ is, KERNEL_VADDR_START ≤ f i) →
      ∃ m', is.foldlM (fun m i => m.pushBack q (f i)) m = .ok m' ∧ m'.desc = m.desc ∧
        Lists id V m'.list m'.links (Function.update S q (S q ++ is.map f)) := by
  induction is with
  | nil =>
      intro m S hs hq _ _ _
      exact ⟨m, rfl, rfl, by simpa using hs⟩
  | cons i is ih =>
      intro m S hs hq hnodup hfresh haddr
      rw [List.map_cons, List.nodup_cons] at hnodup
      obtain ⟨m₁, hpush, hdesc₁, hs₁⟩ :=
        pushBack_mem hs hq (hfresh i List.mem_cons_self) (haddr i List.mem_cons_self)
      -- The nodes that are left are on no list, also behind the first step.
      have hfresh₁ : ∀ j ∈ is, ∀ r, f j ∉ Function.update S q (S q ++ [f i]) r := by
        intro j hj r
        have hold := hfresh j (List.mem_cons_of_mem i hj)
        by_cases hr : r = q
        · subst hr
          rw [Function.update_self, List.mem_append, List.mem_singleton, not_or]
          refine ⟨hold r, fun heq => hnodup.1 ?_⟩
          rw [← heq]
          exact List.mem_map_of_mem hj
        · rw [Function.update_of_ne hr]
          exact hold r
      obtain ⟨m', hloop, hdesc, hs'⟩ := ih hs₁ hq hnodup.2 hfresh₁
        fun j hj => haddr j (List.mem_cons_of_mem i hj)
      refine ⟨m', ?_, hdesc.trans hdesc₁, ?_⟩
      · rw [List.foldlM_cons, hpush]
        exact hloop
      · simpa using hs'

end

namespace MemInv

variable {mem : KMem} {pages : Multiset Nat} {cls : Nat → Nat} {S : MList → List Nat}
  {desc : Nat}

/-- A node of a list of pages is the base of a page. -/
theorem desc_mem (h : MemInv mem pages cls S) {idx : Nat}
    (hmem : desc ∈ S (.part idx) ∨ desc ∈ S (.full idx)) : desc ∈ pages :=
  hmem.elim (fun hm => ((h.part idx desc).mp hm).1) fun hm => ((h.full idx desc).mp hm).1

/-- A block list that is in use belongs to a page. -/
theorem block_mem (h : MemInv mem pages cls S) {x : Nat} (hx : x ∈ S (.block desc)) :
    desc ∈ pages := by
  by_contra hnot
  have hunused := h.lists.unused (.block desc) hnot
  rw [hunused] at hx
  exact absurd hx List.not_mem_nil

/-- No list of pages is longer than a list walk. -/
theorem length_le (h : MemInv mem pages cls S) {q : MList}
    (hq : ∀ desc ∈ S q, desc ∈ pages) : (S q).length ≤ LIST_WALK := by
  have hsub : S q ⊆ List.range LIST_WALK := by
    intro desc hdesc
    have hfits := (h.base desc (hq desc hdesc)).fits
    have hpage : 0 < PG_SIZE := by decide
    rw [List.mem_range, LIST_WALK]
    omega
  have hlen := ((h.lists.nodup q).subperm hsub).length_le
  rwa [List.length_range] at hlen

/-- `list_find` tells the pages with a free block. -/
theorem find_part (h : MemInv mem pages cls S) {idx : Nat} (hidx : idx < 7) :
    mem.find (.part idx) desc = .ok (decide (desc ∈ S (.part idx))) :=
  h.lists.find (show InUse pages (.part idx) from hidx)
    (h.length_le fun _ hmem => h.desc_mem (.inl hmem)) desc

/-- `list_find` tells the pages without a free block. -/
theorem find_full (h : MemInv mem pages cls S) {idx : Nat} (hidx : idx < 7) :
    mem.find (.full idx) desc = .ok (decide (desc ∈ S (.full idx))) :=
  h.lists.find (show InUse pages (.full idx) from hidx)
    (h.length_le fun _ hmem => h.desc_mem (.inr hmem)) desc

end MemInv

/-- Every node leads to a page of the allocator. -/
theorem KInv.descOf_node {totalMemSize : Nat} {s : KmallocState} {pages : Multiset Nat}
    {cls : Nat → Nat} {S : MList → List Nat} {fr : FreeLists}
    (h : KInv totalMemSize s pages cls S fr) {q : MList} {x : Nat} (hx : x ∈ S q) :
    descOf x ∈ pages := by
  cases q with
  | part idx =>
      have hdesc := h.mem.desc_mem (.inl hx)
      rwa [(h.mem.base x hdesc).descOf_self]
  | full idx =>
      have hdesc := h.mem.desc_mem (.inr hx)
      rwa [(h.mem.base x hdesc).descOf_self]
  | block desc =>
      have hdesc := h.mem.block_mem hx
      have hall : x ∈ (S (.block desc) : Multiset Nat) + liveIn s.live desc :=
        Multiset.mem_add.mpr (.inl hx)
      rw [h.live.blocks desc hdesc] at hall
      rwa [descOf_block (h.mem.base desc hdesc) (h.mem.cls_lt desc hdesc) hall]

/-! ### One block of a page moves -/

section
variable {live live' : Multiset (Nat × Nat)} {pages : Multiset Nat} {cls : Nat → Nat}
  {free free' : Nat → List Nat} {desc : Nat}

/-- Only the page `desc` changes, and it keeps a live allocation. -/
theorem LiveInv.repage (h : LiveInv live pages cls free)
    (hfree : ∀ e, e ≠ desc → free' e = free e)
    (hlive : ∀ e, e ≠ desc → liveIn live' e = liveIn live e)
    (hblocks : (free' desc : Multiset Nat) + liveIn live' desc
      = (blockAddrs desc (cls desc) : Multiset Nat))
    (hused : liveIn live' desc ≠ 0)
    (hnew : ∀ p ∈ live', p ∈ live ∨
      descOf p.1 = desc ∧ desc ∈ pages ∧ p.2 ≤ memBlockSize (cls desc)) :
    LiveInv live' pages cls free' where
  blocks e he := by
    by_cases heq : e = desc
    · subst heq
      exact hblocks
    · rw [hfree e heq, hlive e heq]
      exact h.blocks e he
  used e he := by
    by_cases heq : e = desc
    · subst heq
      exact hused
    · rw [hlive e heq]
      exact h.used e he
  live p hp := by
    rcases hnew p hp with hold | ⟨rfl, hdesc, hsize⟩
    · exact h.live p hold
    · exact ⟨hdesc, hsize⟩

/-- A free block of a page becomes live. -/
theorem LiveInv.take (h : LiveInv live pages cls free) (hdesc : desc ∈ pages)
    (hbase : PageBase desc) (hcls : cls desc < 7) {x n : Nat} {xs : List Nat}
    (hx : free desc = x :: xs) (hself : free' desc = xs)
    (hother : ∀ e, e ≠ desc → free' e = free e) (hn : n ≤ memBlockSize (cls desc)) :
    LiveInv ((x, n) ::ₘ live) pages cls free' := by
  have hblocks := h.blocks desc hdesc
  rw [hx] at hblocks
  have hpage : descOf x = desc := by
    refine descOf_block hbase hcls (Multiset.mem_coe.mp ?_)
    rw [← hblocks]
    simp
  refine h.repage hother (fun e he => ?_) ?_ ?_ fun p hp => ?_
  · rw [liveIn_cons, if_neg]
    rw [hpage]
    exact he.symm
  · rw [liveIn_cons, if_pos hpage, hself, Multiset.add_cons, ← Multiset.cons_add]
    exact hblocks
  · rw [liveIn_cons, if_pos hpage]
    exact Multiset.cons_ne_zero
  · rcases Multiset.mem_cons.mp hp with rfl | hold
    · exact .inr ⟨hpage, hdesc, hn⟩
    · exact .inl hold

/-- A live block becomes free, and its page keeps another one. -/
theorem LiveInv.give (h : LiveInv live pages cls free) {p : Nat × Nat} (hp : p ∈ live)
    (hpage : descOf p.1 = desc) (hself : free' desc = free desc ++ [p.1])
    (hother : ∀ e, e ≠ desc → free' e = free e)
    (hused : liveIn (live.erase p) desc ≠ 0) :
    LiveInv (live.erase p) pages cls free' := by
  have hdesc : desc ∈ pages := hpage ▸ (h.live p hp).1
  refine h.repage hother (fun e he => ?_) ?_ hused fun r hr =>
    .inl (Multiset.mem_of_mem_erase hr)
  · rw [liveIn_erase hp e, if_neg]
    rw [hpage]
    exact he.symm
  · have hblocks := h.blocks desc hdesc
    rw [liveIn_erase hp desc, if_pos hpage, Multiset.add_cons, ← Multiset.cons_add] at hblocks
    rw [hself, ← hblocks, ← Multiset.coe_add, Multiset.add_comm (free desc : Multiset Nat)]
    rfl

/-- A new page, with its first block live. -/
theorem LiveInv.newPage (h : LiveInv live pages cls free) (hdesc : desc ∉ pages)
    (hbase : PageBase desc) {idx x n : Nat} {xs : List Nat} (hidx : idx < 7)
    (hx : blockAddrs desc idx = x :: xs) (hself : free' desc = xs)
    (hother : ∀ e, e ≠ desc → free' e = free e) (hn : n ≤ memBlockSize idx) :
    LiveInv ((x, n) ::ₘ live) (desc ::ₘ pages) (Function.update cls desc idx) free' := by
  have hpage : descOf x = desc := descOf_block hbase hidx (by rw [hx]; exact List.mem_cons_self)
  -- Nothing is live in a page that was not held.
  have hnone : liveIn live desc = 0 := by
    refine Multiset.eq_zero_of_forall_notMem fun a ha => ?_
    obtain ⟨⟨n, hmem⟩, hdescOf⟩ := mem_liveIn.mp ha
    exact hdesc (hdescOf ▸ (h.live _ hmem).1)
  have hne : ∀ e ∈ pages, e ≠ desc := by
    rintro e he rfl
    exact hdesc he
  refine ⟨fun e he => ?_, fun e he => ?_, fun p hp => ?_⟩
  · rw [liveIn_cons]
    rcases Multiset.mem_cons.mp he with rfl | he
    · rw [if_pos hpage, hnone, hself, Function.update_self, hx, Multiset.add_cons,
        Multiset.add_zero]
      rfl
    · rw [if_neg (hpage ▸ (hne e he).symm), hother e (hne e he),
        Function.update_of_ne (hne e he)]
      exact h.blocks e he
  · rw [liveIn_cons]
    rcases Multiset.mem_cons.mp he with rfl | he
    · rw [if_pos hpage]
      exact Multiset.cons_ne_zero
    · rw [if_neg (hpage ▸ (hne e he).symm)]
      exact h.used e he
  · rcases Multiset.mem_cons.mp hp with rfl | hold
    · rw [hpage, Function.update_self]
      exact ⟨Multiset.mem_cons_self _ _, hn⟩
    · obtain ⟨hmem, hsize⟩ := h.live p hold
      rw [Function.update_of_ne (hne _ hmem)]
      exact ⟨Multiset.mem_cons_of_mem hmem, hsize⟩

/-- The last live block of a page is freed, and the page goes. -/
theorem LiveInv.dropPage (h : LiveInv live pages cls free) (hnodup : pages.Nodup)
    {p : Nat × Nat} (hp : p ∈ live) (hpage : descOf p.1 = desc)
    (hother : ∀ e, e ≠ desc → free' e = free e)
    (hlast : liveIn (live.erase p) desc = 0) :
    LiveInv (live.erase p) (pages.erase desc) cls free' := by
  have hlive : ∀ e, e ≠ desc → liveIn (live.erase p) e = liveIn live e := by
    intro e he
    rw [liveIn_erase hp e, if_neg]
    rw [hpage]
    exact he.symm
  refine ⟨fun e he => ?_, fun e he => ?_, fun r hr => ?_⟩
  · obtain ⟨hne, he⟩ := hnodup.mem_erase_iff.mp he
    rw [hother e hne, hlive e hne]
    exact h.blocks e he
  · obtain ⟨hne, he⟩ := hnodup.mem_erase_iff.mp he
    rw [hlive e hne]
    exact h.used e he
  · obtain ⟨hmem, hsize⟩ := h.live r (Multiset.mem_of_mem_erase hr)
    refine ⟨hnodup.mem_erase_iff.mpr ⟨fun heq => ?_, hmem⟩, hsize⟩
    -- an allocation in the page would be live still
    have hr' : r.1 ∈ liveIn (live.erase p) desc := mem_liveIn.mpr ⟨⟨r.2, hr⟩, heq⟩
    rw [hlast] at hr'
    exact Multiset.notMem_zero _ hr'

end

section
variable {mem mem' : KMem} {pages : Multiset Nat} {cls : Nat → Nat} {S S' : MList → List Nat}
  {desc : Nat}

/-- Only the page `desc` changes: its blocks, and the list of pages that it is on. -/
theorem MemInv.repage (h : MemInv mem pages cls S) (hdesc : desc ∈ pages)
    (hlists : Lists id (InUse pages) mem'.list mem'.links S')
    (hmem : mem'.desc = Function.update mem.desc desc (pageDesc (cls desc) (S' (.block desc))))
    (hblock : ∀ e, e ≠ desc → S' (.block e) = S (.block e))
    (hpart : ∀ idx e, e ∈ S' (.part idx) ↔
      if e = desc then cls desc = idx ∧ S' (.block desc) ≠ [] else e ∈ S (.part idx))
    (hfull : ∀ idx e, e ∈ S' (.full idx) ↔
      if e = desc then cls desc = idx ∧ S' (.block desc) = [] else e ∈ S (.full idx)) :
    MemInv mem' pages cls S' where
  base := h.base
  cls_lt := h.cls_lt
  lists := hlists
  -- Each list is looked at twice: at `desc`, and at the pages that stay as they are.
  part idx e := by
    rw [hpart]
    by_cases he : e = desc
    · subst he
      simp [hdesc]
    · rw [if_neg he, h.part idx e, hblock e he]
  full idx e := by
    rw [hfull]
    by_cases he : e = desc
    · subst he
      simp [hdesc]
    · rw [if_neg he, h.full idx e, hblock e he]
  desc e he := by
    rw [hmem]
    by_cases heq : e = desc
    · subst heq
      rw [Function.update_self]
    · rw [Function.update_of_ne heq, hblock e heq]
      exact h.desc e he

end

/-! ### `kmalloc` -/

section
variable {m : KMem} {pages : Multiset Nat} {cls : Nat → Nat} {S : MList → List Nat}
  {desc idx x : Nat} {xs : List Nat}

/-- The free blocks of a page are counted. -/
theorem MemInv.take_desc (h : MemInv m pages cls S) (hdesc : desc ∈ pages)
    (hx : S (.block desc) = x :: xs) :
    m.addRemain desc (-1) = m.setDesc desc (pageDesc (cls desc) xs) := by
  rw [KMem.addRemain, h.desc desc hdesc, hx]
  simp [pageDesc]

/-- A block of the first page with free blocks is popped. The page goes to the list of full
pages with its last free block. -/
theorem MemInv.takeDesc_popFront (h : MemInv m pages cls S) (hidx : idx < 7) {rest : List Nat}
    (hfirst : S (.part idx) = desc :: rest) (hx : S (.block desc) = x :: xs) :
    ∃ m₁ m' S', takeDesc m idx = .ok (desc, m₁) ∧
      m₁.popFront (.block desc) = .ok (some x, m') ∧ MemInv m' pages cls S' ∧
      S' (.block desc) = xs ∧ ∀ e, e ≠ desc → S' (.block e) = S (.block e) := by
  have hpart : InUse pages (.part idx) := hidx
  have hfull : InUse pages (.full idx) := hidx
  have hmem : desc ∈ S (.part idx) := hfirst ▸ List.mem_cons_self
  obtain ⟨hdesc, hcls, -⟩ := (h.part idx desc).mp hmem
  have hblock : InUse pages (.block desc) := hdesc
  have hfront : listFront (m.list (.part idx)) = .ok desc := by
    have hlist := h.lists.isList hpart
    rw [hfirst] at hlist
    exact listFront_spec hlist
  have hnew := h.take_desc hdesc hx
  -- the descriptor with one free block less; the lists are as before
  obtain ⟨m₀, hm₀⟩ : ∃ m₀, m₀ = m.setDesc desc (pageDesc (cls desc) xs) := ⟨_, rfl⟩
  have hlists : Lists id (InUse pages) m₀.list m₀.links S := by
    rw [hm₀]
    exact h.lists
  have hdesc₀ : m₀.desc = Function.update m.desc desc (pageDesc (cls desc) xs) := by
    rw [hm₀]
    rfl
  have hremain : (m₀.desc desc).remain = xs.length := by simp [hdesc₀, pageDesc]
  cases xs with
  | nil =>
      obtain ⟨m₁, hdel, hdesc₁, hs₁⟩ := delete_mem hlists hpart hmem
        (h.length_le fun e he => h.desc_mem (.inl he))
      have hgone : ∀ r, desc ∉ Function.update S (.part idx) ((S (.part idx)).erase desc) r := by
        intro r
        by_cases hr : r = .part idx
        · subst hr
          rw [Function.update_self]
          exact (h.lists.nodup _).not_mem_erase
        · rw [Function.update_of_ne hr]
          exact fun hr' => hr (h.lists.family.apart _ _ desc hr' hmem)
      obtain ⟨m₂, hpush, hdesc₂, hs₂⟩ := pushBack_mem hs₁ hfull hgone (h.base desc hdesc).kernel
      obtain ⟨m₃, hpop, hdesc₃, hs₃⟩ := popFront_mem hs₂ hblock (x := x) (by simpa using hx)
      refine ⟨m₂, m₃, _, ?_, hpop, h.repage hdesc hs₃ ?_ (fun e he => ?_) (fun j e => ?_)
        (fun j e => ?_), ?_, fun e he => ?_⟩
      · simp only [takeDesc, hfront, ok_bind, hnew, ← hm₀]
        rw [if_pos (by simpa using hremain)]
        simp only [hdel, hpush, ok_bind]
        rfl
      · simp [hdesc₃, hdesc₂, hdesc₁, hdesc₀]
      · simp [he]
      · by_cases hj : j = idx
        · subst hj
          by_cases he : e = desc
          · subst he
            simpa using (h.lists.nodup _).not_mem_erase
          · simp [he, List.mem_erase_of_ne he]
        · by_cases he : e = desc
          · subst he
            simp [hj, h.part, hcls]
            omega
          · simp [he, hj]
      · by_cases hj : j = idx
        · subst hj
          by_cases he : e = desc
          · subst he
            simp [hcls]
          · simp [he]
        · by_cases he : e = desc
          · subst he
            simp [hj, h.full, hcls]
            omega
          · simp [he, hj]
      · simp
      · simp [he]
  | cons y ys =>
      obtain ⟨m', hpop, hdesc', hs'⟩ := popFront_mem hlists hblock hx
      refine ⟨m₀, m', _, ?_, hpop, h.repage hdesc hs' ?_ (fun e he => ?_) (fun j e => ?_)
        (fun j e => ?_), ?_, fun e he => ?_⟩
      · simp only [takeDesc, hfront, ok_bind, hnew, ← hm₀]
        rw [if_neg (by rw [hremain]; simp; omega)]
        rfl
      · simp [hdesc', hdesc₀]
      · simp [he]
      · by_cases he : e = desc
        · subst he
          simp [h.part, hx, hdesc]
        · simp [he]
      · by_cases he : e = desc
        · subst he
          simp [h.full, hx]
        · simp [he]
      · simp
      · simp [he]

/-- The lists in use when a page comes in. -/
theorem inUse_cons (desc : Nat) (pages : Multiset Nat) (q : MList) :
    InUse (desc ::ₘ pages) q ↔ q = .block desc ∨ InUse pages q := by
  cases q <;> simp [InUse]

/-- A fresh page is cut into blocks, and its first block is popped. The page is pushed twice
on the list of pages with free blocks, and is there once. -/
theorem MemInv.initDesc_popFront (h : MemInv m pages cls S) (hdesc : desc ∉ pages)
    (hnode : ∀ q, ∀ y ∈ S q, descOf y ≠ desc) (hbase : PageBase desc) (hidx : idx < 7)
    (hempty : S (.part idx) = []) :
    ∃ m₁ m' S' x xs, initDesc m desc idx = .ok m₁ ∧
      m₁.popFront (.block desc) = .ok (some x, m') ∧ blockAddrs desc idx = x :: xs ∧
      MemInv m' (desc ::ₘ pages) (Function.update cls desc idx) S' ∧
      S' (.block desc) = xs ∧ ∀ e, e ≠ desc → S' (.block e) = S (.block e) := by
  have hpart : InUse pages (.part idx) := hidx
  have hpart' : InUse (desc ::ₘ pages) (.part idx) := hidx
  have hblock' : InUse (desc ::ₘ pages) (.block desc) := Multiset.mem_cons_self desc pages
  have hfresh : ∀ q, desc ∉ S q := fun q hmem => hnode q desc hmem hbase.descOf_self
  -- the first `list_push_back`
  have hs₀ : Lists id (InUse pages) m.list (m.links.setPrev desc none) S :=
    h.lists.congr (fun _ _ => rfl) fun q y hy => LinkHeap.setPrev_of_ne _ _ fun heq =>
      hfresh q (heq ▸ hy)
  obtain ⟨m₁, hpush₁, hdesc₁, hs₁⟩ := pushBack_mem (m := { m with
    links := m.links.setPrev desc none }) hs₀ hpart hfresh hbase.kernel
  rw [hempty, List.nil_append] at hs₁
  -- the empty block list, and its blocks
  let d : MemBlockDesc := ⟨memBlockCount idx, memBlockCount idx - 1, idx, false⟩
  obtain ⟨m₂, hm₂⟩ : ∃ m₂, m₂ = (m₁.setDesc desc d).initList (.block desc) := ⟨_, rfl⟩
  have hdesc₂ : m₂.desc = Function.update m.desc desc d := by
    rw [hm₂, ← show m₁.desc = m.desc from hdesc₁]
    rfl
  have hs₂ : Lists id (InUse (desc ::ₘ pages)) m₂.list m₂.links
      (Function.update S (.part idx) [desc]) := by
    rw [hm₂]
    exact hs₁.add (show ¬InUse pages (.block desc) from hdesc) (inUse_cons desc pages)
  have hnew : ∀ k ∈ List.range (memBlockCount idx), ∀ r,
      blockAddr desc idx k ∉ Function.update S (.part idx) [desc] r := by
    intro k hk r
    have ha : blockAddr desc idx k ∈ blockAddrs desc idx := List.mem_map_of_mem hk
    by_cases hr : r = .part idx
    · subst hr
      rw [Function.update_self, List.mem_singleton]
      have := (block_range hidx ha).1
      omega
    · rw [Function.update_of_ne hr]
      exact fun hmem => hnode r _ hmem (descOf_block hbase hidx ha)
  have hkernel : ∀ k ∈ List.range (memBlockCount idx),
      KERNEL_VADDR_START ≤ blockAddr desc idx k := by
    intro k _
    have hle := hbase.kernel
    simp only [blockAddr]
    omega
  obtain ⟨m₃, hloop, hdesc₃, hs₃⟩ := foldlM_pushBack (blockAddr desc idx) _ hs₂ hblock'
    (blockAddrs_nodup _ hidx) hnew hkernel
  have hnil : S (.block desc) = [] := h.lists.unused (.block desc) hdesc
  rw [Function.update_of_ne (by simp), hnil, List.nil_append] at hs₃
  -- the second `list_push_back`
  obtain ⟨m₄, hpush₄, hdesc₄, hs₄⟩ := pushBack_again_mem hs₃ hpart' (x := desc) (by simp)
  have hcount : 2 ≤ (blockAddrs desc idx).length := by
    rw [blockAddrs, List.length_map, List.length_range]
    exact (class_fits hidx).2.1
  obtain ⟨x, y, ys, hx⟩ : ∃ x y ys, blockAddrs desc idx = x :: y :: ys := by
    match hall : blockAddrs desc idx with
    | [] => simp [hall] at hcount
    | [x] => simp [hall] at hcount
    | x :: y :: ys => exact ⟨x, y, ys, rfl⟩
  obtain ⟨m', hpop, hdesc', hs'⟩ := popFront_mem hs₄ hblock'
    (by simp only [Function.update_self]; exact hx)
  refine ⟨m₄, m', _, x, y :: ys, ?_, hpop, hx, ⟨?_, ?_, hs', fun j e => ?_, fun j e => ?_, ?_⟩,
    by simp, fun e he => by simp [he]⟩
  · simp only [initDesc, hpush₁, ok_bind]
    rw [← hm₂]
    have htoNat : (m₂.desc desc).count.toNat = memBlockCount idx := by simp [hdesc₂, d]
    rw [htoNat]
    exact bind_eq_ok.mpr ⟨m₃, hloop, hpush₄⟩
  · intro e he
    rcases Multiset.mem_cons.mp he with rfl | he
    · exact hbase
    · exact h.base e he
  · intro e he
    by_cases heq : e = desc
    · subst heq
      simpa using hidx
    · rw [Function.update_of_ne heq]
      exact h.cls_lt e ((Multiset.mem_cons.mp he).resolve_left heq)
  · by_cases he : e = desc
    · subst he
      by_cases hj : j = idx
      · simp [hj]
      · simp [hj, hfresh]
        omega
    · by_cases hj : j = idx
      · subst hj
        have hnot : e ∉ S (.part j) := by simp [hempty]
        rw [h.part] at hnot
        simpa [he] using hnot
      · simp [he, hj, h.part]
  · by_cases he : e = desc
    · subst he
      simp [hfresh]
    · simp [he, h.full]
  · intro e he
    rw [hdesc', hdesc₄, hdesc₃, hdesc₂]
    by_cases heq : e = desc
    · subst heq
      have hlen := congrArg List.length hx
      rw [blockAddrs, List.length_map, List.length_range] at hlen
      simp only [Function.update_self, pageDesc, d, hlen, List.length_cons]
      simp
    · have hmem := (Multiset.mem_cons.mp he).resolve_left heq
      simp [heq, h.desc e hmem]

end

/-! ### `kfree` -/

section
variable {m : KMem} {pages : Multiset Nat} {cls : Nat → Nat} {S : MList → List Nat}
  {desc a : Nat}

/-- A node leaves its list, so it is on no list. -/
theorem MemInv.not_mem_erase (h : MemInv m pages cls S) {q : MList} (hmem : a ∈ S q)
    (r : MList) : a ∉ Function.update S q ((S q).erase a) r := by
  by_cases hr : r = q
  · subst hr
    rw [Function.update_self]
    exact (h.lists.nodup _).not_mem_erase
  · rw [Function.update_of_ne hr]
    exact fun hr' => hr (h.lists.family.apart _ _ a hr' hmem)

/-- A free of a block of a full page: the page goes to the list of pages with free blocks. -/
theorem MemInv.kfree_full (h : MemInv m pages cls S) (hdesc : desc ∈ pages)
    (hfull : S (.block desc) = []) (ha : ∀ q, a ∉ S q) (hne : a ≠ desc)
    (hkernel : KERNEL_VADDR_START ≤ a) :
    ∃ m₁ m₂ m' S', m.delete (.full (cls desc)) desc = .ok m₁ ∧
      m₁.pushBack (.part (cls desc)) desc = .ok m₂ ∧ (m₂.desc desc).remain = 0 ∧
      (m₂.addRemain desc 1).pushBack (.block desc) a = .ok m' ∧ MemInv m' pages cls S' ∧
      S' (.block desc) = [a] ∧ ∀ e, e ≠ desc → S' (.block e) = S (.block e) := by
  have hcls := h.cls_lt desc hdesc
  have hmem : desc ∈ S (.full (cls desc)) := (h.full _ desc).mpr ⟨hdesc, rfl, hfull⟩
  obtain ⟨m₁, hdel, hdesc₁, hs₁⟩ := delete_mem h.lists
    (show InUse pages (.full (cls desc)) from hcls) hmem
    (h.length_le fun e he => h.desc_mem (.inr he))
  obtain ⟨m₂, hpush, hdesc₂, hs₂⟩ := pushBack_mem hs₁
    (show InUse pages (.part (cls desc)) from hcls) (h.not_mem_erase hmem)
    (h.base desc hdesc).kernel
  -- The block is on no list, also not after the page has moved.
  have hafresh : ∀ r, a ∉ Function.update (Function.update S (.full (cls desc))
      ((S (.full (cls desc))).erase desc)) (.part (cls desc))
      (Function.update S (.full (cls desc)) ((S (.full (cls desc))).erase desc)
        (.part (cls desc)) ++ [desc]) r := by
    intro r hr
    by_cases hp : r = .part (cls desc)
    · subst hp
      simp [ha, hne] at hr
    · by_cases hf : r = .full (cls desc)
      · subst hf
        simp only [Function.update_of_ne hp, Function.update_self] at hr
        exact ha _ (List.mem_of_mem_erase hr)
      · simp only [Function.update_of_ne hp, Function.update_of_ne hf] at hr
        exact ha r hr
  have hdescs : m₂.desc = m.desc := hdesc₂.trans hdesc₁
  -- `addRemain` writes a descriptor, no list and no link.
  have hs₂' : Lists id (InUse pages) (m₂.addRemain desc 1).list (m₂.addRemain desc 1).links _ := hs₂
  obtain ⟨m', hpop, hdesc', hs'⟩ := pushBack_mem hs₂'
    (show InUse pages (.block desc) from hdesc) hafresh hkernel
  refine ⟨m₁, m₂, m', _, hdel, hpush, ?_, hpop, h.repage hdesc hs' ?_ (fun e he => ?_)
    (fun j e => ?_) (fun j e => ?_), ?_, fun e he => ?_⟩
  · simp [hdescs, h.desc desc hdesc, pageDesc, hfull]
  · rw [hdesc', KMem.addRemain, KMem.setDesc, hdescs, h.desc desc hdesc]
    simp [pageDesc, hfull]
  · simp [he]
  · by_cases hj : j = cls desc
    · subst hj
      by_cases he : e = desc
      · subst he
        simp
      · simp [he]
    · by_cases he : e = desc
      · subst he
        simp [hj, h.part, hfull]
        omega
      · simp [he, hj]
  · by_cases hj : j = cls desc
    · subst hj
      by_cases he : e = desc
      · subst he
        simpa using (h.lists.nodup _).not_mem_erase
      · simp [he, List.mem_erase_of_ne he]
    · by_cases he : e = desc
      · subst he
        simp [hj, h.full]
        omega
      · simp [he, hj]
  · simp [hfull]
  · simp [he]

/-- A free of a block of another page: the page stays on its list. -/
theorem MemInv.kfree_part (h : MemInv m pages cls S) (hdesc : desc ∈ pages)
    (hpart : S (.block desc) ≠ []) (ha : ∀ q, a ∉ S q) (hkernel : KERNEL_VADDR_START ≤ a) :
    ∃ m' S', (m.addRemain desc 1).pushBack (.block desc) a = .ok m' ∧ MemInv m' pages cls S' ∧
      S' (.block desc) = S (.block desc) ++ [a] ∧
      ∀ e, e ≠ desc → S' (.block e) = S (.block e) := by
  have hlists : Lists id (InUse pages) (m.addRemain desc 1).list (m.addRemain desc 1).links S :=
    h.lists
  obtain ⟨m', hpush, hdesc', hs'⟩ := pushBack_mem hlists
    (show InUse pages (.block desc) from hdesc) ha hkernel
  refine ⟨m', _, hpush, h.repage hdesc hs' ?_ (fun e he => ?_) (fun j e => ?_)
    (fun j e => ?_), ?_, fun e he => ?_⟩
  · rw [hdesc', KMem.addRemain, KMem.setDesc, h.desc desc hdesc]
    simp [pageDesc]
  · simp [he]
  · by_cases he : e = desc
    · subst he
      simp [h.part, hdesc, hpart]
    · simp [he]
  · by_cases he : e = desc
    · subst he
      simp [h.full, hpart]
    · simp [he]
  · simp
  · simp [he]

/-- A free of the last live block: the page leaves its list. -/
theorem MemInv.kfree_last (h : MemInv m pages cls S) (hnodup : pages.Nodup)
    (hdesc : desc ∈ pages) (hpart : S (.block desc) ≠ []) :
    ∃ m' S', (m.addRemain desc 1).delete (.part (cls desc)) desc = .ok m' ∧
      MemInv m' (pages.erase desc) cls S' ∧ ∀ e, e ≠ desc → S' (.block e) = S (.block e) := by
  have hmem : desc ∈ S (.part (cls desc)) := (h.part _ desc).mpr ⟨hdesc, rfl, hpart⟩
  have hlists : Lists id (InUse pages) (m.addRemain desc 1).list (m.addRemain desc 1).links S :=
    h.lists
  obtain ⟨m', hdel, hdesc', hs'⟩ := delete_mem hlists
    (show InUse pages (.part (cls desc)) from h.cls_lt desc hdesc) hmem
    (h.length_le fun e he => h.desc_mem (.inl he))
  -- The page is not in use any more, and only its own list of blocks goes away.
  have hV : ∀ r, InUse (pages.erase desc) r ↔ r ≠ .block desc ∧ InUse pages r := by
    intro r
    cases r <;> simp [InUse, hnodup.mem_erase_iff]
  refine ⟨m', _, hdel,
    { base := fun e he => h.base e (Multiset.mem_of_mem_erase he)
      cls_lt := fun e he => h.cls_lt e (Multiset.mem_of_mem_erase he)
      lists := hs'.drop hV
      part := fun j e => ?_
      full := fun j e => ?_
      desc := fun e he => ?_ }, fun e he => by simp [he]⟩
  · rw [hnodup.mem_erase_iff]
    by_cases he : e = desc
    · subst he
      by_cases hj : j = cls e
      · subst hj
        simpa using (h.lists.nodup _).not_mem_erase
      · simp [hj, h.part]
        omega
    · by_cases hj : j = cls desc
      · subst hj
        simp [he, List.mem_erase_of_ne he, h.part]
      · simp [he, hj, h.part]
  · rw [hnodup.mem_erase_iff]
    by_cases he : e = desc
    · subst he
      simp [h.full, hpart]
    · simp [he, h.full]
  · obtain ⟨hne, he⟩ := hnodup.mem_erase_iff.mp he
    simpa [hdesc', KMem.addRemain, KMem.setDesc, hne] using h.desc e he

end

/-! ### Pages from the page allocator -/

section
variable {totalMemSize : Nat} {b : Buddy} {others : Pool → Multiset Block}
  {pages : Multiset Nat} {fr : FreeLists}

/-- The same, beside what others hold. -/
theorem add_pageBlocks_cons (others : Pool → Multiset Block) (desc : Nat)
    (pages : Multiset Nat) : others + pageBlocks (desc ::ₘ pages)
      = hold (others + pageBlocks pages) .kernel ⟨paddr2pg (getPaddr desc), 0⟩ := by
  rw [pageBlocks_cons, add_comm, hold_add, add_comm]

/-- The page of `kmalloc` is one of the blocks that are held. -/
theorem mem_pageBlocks {desc : Nat} (h : desc ∈ pages) :
    ⟨paddr2pg (getPaddr desc), 0⟩ ∈ (others + pageBlocks pages) .kernel :=
  Multiset.mem_add.mpr (.inr (Multiset.mem_map_of_mem _ h))

namespace PagesInv

/-- No page is held twice. -/
theorem nodup (h : PagesInv totalMemSize b others pages fr) : pages.Nodup := by
  have htiles := (h.run.buddy.tiles .kernel).nodup
  have hsub : pageBlocks pages .kernel
      ≤ freeBlocks (fr .kernel) (MAX_ORDER + 1) + (others + pageBlocks pages) .kernel :=
    (Multiset.le_add_left _ _).trans (Multiset.le_add_left _ _)
  exact Multiset.Nodup.of_map _ (Multiset.nodup_of_le hsub htiles)

/-- `get_free_page` gives out a new page. -/
theorem getFreePage (h : PagesInv totalMemSize b others pages fr)
    (htotal : totalMemSize ≤ 2 ^ 30) (current : Tid) :
    (b.getFreePage KERNEL_POOL current = .error .panic ∧
      b.allocPages KERNEL_POOL 0 current = .error .panic) ∨
    ∃ desc b' fr', b.getFreePage KERNEL_POOL current = .ok (desc, b') ∧ PageBase desc ∧
      desc ∉ pages ∧ PagesInv totalMemSize b' others (desc ::ₘ pages) fr' := by
  rcases h.run.getFreePage htotal KERNEL_POOL current with
    hpanic | ⟨idx, b', fr', hok, hidx, hrun, hnew, hpage⟩
  · exact .inl hpanic
  · have hpool : poolOfFlag KERNEL_POOL = .kernel := by decide
    have hne : ∀ e ∈ pages, paddr2pg (getPaddr e) ≠ idx := fun e he =>
      hnew .kernel _ (mem_pageBlocks he)
    refine .inr ⟨pageAddr idx, b', fr', hok, pageBase_pageAddr hidx, fun hmem => ?_, ?_,
      fun e he => ?_⟩
    · exact hne _ hmem (paddr2pg_pageAddr idx)
    · rw [add_pageBlocks_cons, paddr2pg_pageAddr, ← hpool]
      exact hrun
    · rw [hpage]
      rcases Multiset.mem_cons.mp he with rfl | he
      · rw [paddr2pg_pageAddr, Function.update_self]
      · rw [Function.update_of_ne (hne e he)]
        exact h.count e he

/-- `free_page` gives a page back. -/
theorem freePage (h : PagesInv totalMemSize b others pages fr)
    (htotal : totalMemSize ≤ 2 ^ 30) {desc : Nat} (hdesc : desc ∈ pages)
    (hbase : PageBase desc) (current : Tid) :
    ∃ b' fr', b.freePageAt desc current = .ok b' ∧
      PagesInv totalMemSize b' others (pages.erase desc) fr' := by
  have hrun := h.run
  rw [← Multiset.cons_erase hdesc, add_pageBlocks_cons] at hrun
  obtain ⟨b', fr', hok, hrun', hpage⟩ :=
    hrun.freePageAt_last htotal hbase (h.count desc hdesc) current
  refine ⟨b', fr', hok, hrun', fun e he => ?_⟩
  have hne : paddr2pg (getPaddr e) ≠ paddr2pg (getPaddr desc) :=
    hrun.buddy.idx_ne_of_mem (poolRanges (by omega)) (mem_pageBlocks he)
  rw [hpage, Function.update_of_ne hne]
  exact h.count e (Multiset.mem_of_mem_erase he)

/-- A call of other code to the page allocator. -/
theorem others_next {s : BuddyState} (h : PagesInv totalMemSize s.buddy s.live pages fr)
    (htotal : totalMemSize ≤ 2 ^ 30) {a : BuddyAct} (ha : s.Enabled a) :
    s.next a = .error .panic ∨
    ∃ t fr', s.next a = .ok t ∧ PagesInv totalMemSize t.buddy t.live pages fr' := by
  rcases h.run.next (by omega) ha with ⟨hpanic, -⟩ | ⟨t, fr', hok, hkeeps⟩
  · exact .inl hpanic
  · refine .inr ⟨t, fr', hok, hkeeps.run, fun desc hdesc => ?_⟩
    have hmem : ⟨paddr2pg (getPaddr desc), 0⟩ ∈ pageBlocks pages .kernel :=
      Multiset.mem_map_of_mem _ hdesc
    have hsame := hkeeps.page .kernel _ hmem
    simp only at hsame
    rw [hsame]
    exact h.count desc hdesc

end PagesInv

end

/-! ### The calls -/

namespace KInv

variable {totalMemSize : Nat} {s : KmallocState} {pages : Multiset Nat} {cls : Nat → Nat}
  {S : MList → List Nat} {fr : FreeLists}

/-- `kmalloc` of a small size returns a new live block, or stops because no page is free. -/
theorem kmalloc (h : KInv totalMemSize s pages cls S fr) (htotal : totalMemSize ≤ 2 ^ 30)
    {size : Nat} (hsize : size ≤ MAX_BLOCK_SIZE) (current : Tid) :
    (Kernel.kmalloc s.buddy s.mem size current = .error .panic ∧
      s.buddy.allocPages KERNEL_POOL 0 current = .error .panic) ∨
    ∃ x b' m' pages' cls' S' fr',
      Kernel.kmalloc s.buddy s.mem size current = .ok (some x, b', m') ∧
      KInv totalMemSize { s with buddy := b', mem := m', live := (x, size) ::ₘ s.live }
        pages' cls' S' fr' := by
  obtain ⟨hidx, hfits⟩ := sizeClass_spec hsize
  have hlist := h.mem.lists.isList (show InUse pages (.part (sizeClass size)) from hidx)
  have hsmall : ¬size > MAX_BLOCK_SIZE := by omega
  simp only [Kernel.kmalloc, if_neg hsmall, ASSERT_true hidx, ok_bind, hlist.listEmpty_eq]
  -- A page of the class with a free block, or a new page.
  cases hpart : S (.part (sizeClass size)) with
  | nil =>
      rw [List.isEmpty_nil, if_pos rfl]
      rcases h.held.getFreePage htotal current with
        ⟨hpanic, halloc⟩ | ⟨desc, b', fr', hget, hbase, hnew, hheld⟩
      · exact .inl ⟨by simp [hpanic], halloc⟩
      · have hnode : ∀ q, ∀ y ∈ S q, descOf y ≠ desc := by
          rintro q y hy rfl
          exact hnew (h.descOf_node hy)
        obtain ⟨m₁, m', S', x, xs, hinit, hpop, hx, hmem, hself, hother⟩ :=
          h.mem.initDesc_popFront hnew hnode hbase hidx hpart
        refine .inr ⟨x, b', m', _, _, S', fr', by simp [hget, hinit, hpop], hheld, hmem, ?_⟩
        exact h.live.newPage hnew hbase hidx hx hself hother hfits
  | cons desc rest =>
      rw [List.isEmpty_cons, if_neg (by simp)]
      have hmem : desc ∈ S (.part (sizeClass size)) := hpart ▸ List.mem_cons_self
      obtain ⟨hdesc, hcls, hfree⟩ := (h.mem.part _ desc).mp hmem
      obtain ⟨x, xs, hx⟩ := List.exists_cons_of_ne_nil hfree
      obtain ⟨m₁, m', S', htake, hpop, hmem', hself, hother⟩ :=
        h.mem.takeDesc_popFront hidx hpart hx
      refine .inr ⟨x, s.buddy, m', pages, cls, S', fr, by simp [htake, hpop], h.held, hmem', ?_⟩
      exact h.live.take hdesc (h.mem.base desc hdesc) (h.mem.cls_lt desc hdesc) hx hself hother
        (hcls ▸ hfits)

/-- A live block is on no list. -/
theorem live_fresh (h : KInv totalMemSize s pages cls S fr) {p : Nat × Nat} (hp : p ∈ s.live) :
    p.1 ∈ blockAddrs (descOf p.1) (cls (descOf p.1)) ∧ ∀ q, p.1 ∉ S q := by
  have hdesc := (h.live.live p hp).1
  have hbase := h.mem.base _ hdesc
  have hcls := h.mem.cls_lt _ hdesc
  have hblocks := h.live.blocks _ hdesc
  have hlive : p.1 ∈ liveIn s.live (descOf p.1) := mem_liveIn.mpr ⟨⟨p.2, hp⟩, rfl⟩
  have hblock : p.1 ∈ blockAddrs (descOf p.1) (cls (descOf p.1)) := by
    rw [← Multiset.mem_coe, ← hblocks]
    exact Multiset.mem_add.mpr (.inr hlive)
  -- a block is not the base of a page
  have hnotBase : p.1 ∉ pages := by
    intro hmem
    have hself := (h.mem.base _ hmem).descOf_self
    have hlo := (block_range hcls hblock).1
    omega
  refine ⟨hblock, fun q hq => ?_⟩
  cases q with
  | part idx => exact hnotBase (h.mem.desc_mem (.inl hq))
  | full idx => exact hnotBase (h.mem.desc_mem (.inr hq))
  | block e =>
      -- no block of a page is free and live
      have he : e = descOf p.1 := by
        have hmem := h.mem.block_mem hq
        have hall : p.1 ∈ (S (.block e) : Multiset Nat) + liveIn s.live e :=
          Multiset.mem_add.mpr (.inl hq)
        rw [h.live.blocks e hmem] at hall
        exact (descOf_block (h.mem.base e hmem) (h.mem.cls_lt e hmem) hall).symm
      have hnodup := Multiset.coe_nodup.mpr (blockAddrs_nodup (descOf p.1) hcls)
      rw [← hblocks, Multiset.nodup_add] at hnodup
      exact Multiset.disjoint_left.mp hnodup.2.2 (he ▸ hq) hlive

/-- The free blocks of a page, the freed block and the other live blocks are all. -/
theorem card_blocks (h : KInv totalMemSize s pages cls S fr) {p : Nat × Nat}
    (hp : p ∈ s.live) :
    (S (.block (descOf p.1))).length + 1 + (liveIn (s.live.erase p) (descOf p.1)).card
      = memBlockCount (cls (descOf p.1)) := by
  have hblocks := congrArg Multiset.card (h.live.blocks _ (h.live.live p hp).1)
  rw [liveIn_erase hp, if_pos rfl, Multiset.card_add, Multiset.card_cons, Multiset.coe_card,
    Multiset.coe_card, blockAddrs, List.length_map, List.length_range] at hblocks
  omega

/-- `kfree` of a live block frees it, and its page with the last live block. -/
theorem kfree (h : KInv totalMemSize s pages cls S fr) (htotal : totalMemSize ≤ 2 ^ 30)
    {p : Nat × Nat} (hp : p ∈ s.live) (current : Tid) :
    ∃ b' m' pages' S' fr', Kernel.kfree s.buddy s.mem p.1 current = .ok (b', m') ∧
      KInv totalMemSize { s with buddy := b', mem := m', live := s.live.erase p }
        pages' cls S' fr' := by
  obtain ⟨hdesc, -⟩ := h.live.live p hp
  obtain ⟨hblock, hfresh⟩ := h.live_fresh hp
  have hcard := h.card_blocks hp
  have hbase := h.mem.base _ hdesc
  have hcls := h.mem.cls_lt _ hdesc
  have hcount := (class_fits hcls).2.1
  have hrange := (block_range hcls hblock).1
  have hkernel : KERNEL_VADDR_START ≤ p.1 := by
    have := hbase.kernel
    omega
  have hd := h.mem.desc _ hdesc
  have hlarge : (s.mem.desc (descOf p.1)).large = false := by rw [hd]; rfl
  have hidx : (s.mem.desc (descOf p.1)).mlistIdx = cls (descOf p.1) := by rw [hd]; rfl
  simp only [Kernel.kfree, hlarge, Bool.false_eq_true, if_false, hidx, h.mem.find_full hcls,
    h.mem.find_part hcls, ok_bind]
  -- The page is on the list of full pages exactly when it has no free block.
  by_cases hfree : S (.block (descOf p.1)) = []
  · have hinFull : descOf p.1 ∈ S (.full (cls (descOf p.1))) :=
      (h.mem.full _ _).mpr ⟨hdesc, rfl, hfree⟩
    have hnotPart : descOf p.1 ∉ S (.part (cls (descOf p.1))) := fun hmem =>
      ((h.mem.part _ _).mp hmem).2.2 hfree
    obtain ⟨m₁, m₂, m', S', hdel, hpush, hremain, hblockPush, hmem, hself, hother⟩ :=
      h.mem.kfree_full hdesc hfree hfresh (by omega) hkernel
    -- A full page of two blocks or more keeps a live one, so it does not go back.
    have hused : liveIn (s.live.erase p) (descOf p.1) ≠ 0 := by
      intro hzero
      rw [hzero, hfree] at hcard
      simp at hcard
      omega
    have hlive := h.live.give hp rfl (by rw [hself, hfree]; rfl) hother hused
    refine ⟨s.buddy, m', pages, S', fr, ?_, h.held, hmem, hlive⟩
    simp only [decide_eq_true hinFull, if_true, decide_eq_false hnotPart, ASSERT_true, ok_bind,
      hdel, hpush, hremain]
    exact bind_eq_ok.mpr ⟨m', hblockPush, rfl⟩
  · have hnotFull : descOf p.1 ∉ S (.full (cls (descOf p.1))) := fun hmem =>
      hfree ((h.mem.full _ _).mp hmem).2.2
    have hinPart : descOf p.1 ∈ S (.part (cls (descOf p.1))) :=
      (h.mem.part _ _).mpr ⟨hdesc, rfl, hfree⟩
    have hless : (s.mem.desc (descOf p.1)).remain < (s.mem.desc (descOf p.1)).count := by
      rw [hd]
      simp only [pageDesc]
      omega
    have hinc : (s.mem.addRemain (descOf p.1) 1).desc (descOf p.1)
        = { s.mem.desc (descOf p.1) with
            remain := (s.mem.desc (descOf p.1)).remain + 1 } := by
      simp [KMem.addRemain, KMem.setDesc]
    simp only [decide_eq_false hnotFull, decide_eq_true hinPart, ASSERT_true, ok_bind,
      ASSERT_true hless, Bool.false_eq_true, if_false]
    -- `remain` comes to `count` exactly with the last live block of the page.
    by_cases hlast : liveIn (s.live.erase p) (descOf p.1) = 0
    · obtain ⟨m', S', hdel, hmem, hother⟩ := h.mem.kfree_last h.held.nodup hdesc hfree
      obtain ⟨b', fr', hgive, hheld⟩ := h.held.freePage htotal hdesc hbase current
      have hlive := h.live.dropPage h.held.nodup hp rfl hother hlast
      refine ⟨b', m', _, S', fr', ?_, hheld, hmem, hlive⟩
      rw [if_pos]
      · simp only [hdel, hgive, ok_bind]
        rfl
      · rw [hinc, hd]
        rw [hlast, Multiset.card_zero] at hcard
        simp only [pageDesc]
        omega
    · obtain ⟨m', S', hpush, hmem, hself, hother⟩ :=
        h.mem.kfree_part hdesc hfree hfresh hkernel
      have hlive := h.live.give hp rfl hself hother hlast
      refine ⟨s.buddy, m', pages, S', fr, ?_, h.held, hmem, hlive⟩
      rw [if_neg]
      · simp only [hpush, ok_bind]
        rfl
      · rw [hinc, hd]
        have hpos := Multiset.card_pos.mpr hlast
        simp only [pageDesc]
        omega

/-- A byte of a page that belongs to no live block is not writable. -/
theorem not_writable (h : KInv totalMemSize s pages cls S fr) (htotal : totalMemSize ≤ 2 ^ 30)
    {desc y : Nat} (hdesc : desc ∈ pages) (hlo : desc ≤ y) (hhi : y < desc + PG_SIZE)
    (hlive : ∀ p ∈ s.live, descOf p.1 = desc →
      y < p.1 ∨ p.1 + memBlockSize (cls desc) ≤ y) : ¬s.Writable y := by
  have hbase := h.mem.base desc hdesc
  obtain ⟨off, rfl⟩ := Nat.exists_eq_add_of_le hlo
  rintro (⟨p, hp, hple, hplt⟩ | ⟨P, blk, hblk, hcov⟩)
  · -- the allocation lies in its own page, so it is in this one
    obtain ⟨hmem, hsize⟩ := h.live.live p hp
    have hrange := block_range (h.mem.cls_lt _ hmem) (h.live_fresh hp).1
    have hsame : descOf p.1 = desc := by
      have hthis : descOf (desc + off) = desc := hbase.descOf_add (by omega)
      obtain ⟨off', hoff'⟩ := Nat.exists_eq_add_of_le (show descOf p.1 ≤ desc + off by omega)
      rw [hoff', (h.mem.base _ hmem).descOf_add (by omega)] at hthis
      exact hthis
    rw [hsame] at hsize
    rcases hlive p hp hsame with hbefore | hbehind <;> omega
  · -- no other code holds the page
    have hpg : paddr2pg (getPaddr (desc + off)) = paddr2pg (getPaddr desc) := by
      have hkernel := hbase.kernel
      have hdvd : PG_SIZE ∣ desc - KERNEL_VADDR_START := Nat.dvd_sub hbase.dvd (by decide)
      obtain ⟨k, hk⟩ := hdvd
      have hoff : off < PG_SIZE := by omega
      rw [paddr2pg, paddr2pg, getPaddr, getPaddr, hk,
        show desc + off - KERNEL_VADDR_START = PG_SIZE * k + off by omega,
        Nat.mul_add_div (by decide), Nat.div_eq_of_lt hoff, Nat.mul_div_cancel_left _ (by decide),
        Nat.add_zero]
    have hmine : ⟨paddr2pg (getPaddr desc), 0⟩ ∈ pageBlocks pages .kernel :=
      Multiset.mem_map_of_mem _ hdesc
    rw [hpg] at hcov
    exact RunInv.live_not_covers (s := ⟨s.buddy, s.others⟩) h.held.run (by omega) hblk hmine hcov
      (Block.covers_idx ⟨paddr2pg (getPaddr desc), 0⟩)

/-- Writes of the owners of memory change nothing that the allocator relies on. -/
theorem write (h : KInv totalMemSize s pages cls S fr) (htotal : totalMemSize ≤ 2 ^ 30)
    {m' : KMem} (hw : s.Writes m') :
    KInv totalMemSize { s with mem := m' } pages cls S fr := by
  -- the descriptor of a page
  have hdescs : ∀ desc ∈ pages, ∀ i < 32, ¬s.Writable (desc + i) := by
    intro desc hdesc i hi
    have hpage : 32 ≤ PG_SIZE := by decide
    refine h.not_writable htotal hdesc (Nat.le_add_right _ _) (by omega) fun p hp hsame => ?_
    have hrange := (block_range (h.mem.cls_lt _ (hsame ▸ hdesc)) (h.live_fresh hp).1).1
    exact .inl (by omega)
  -- the links of a free block, and of a descriptor
  have hnodes : ∀ q, ∀ x ∈ S q, ∀ i < 8, ¬s.Writable (x + i) := by
    intro q x hx i hi
    cases q with
    | part idx => exact hdescs x (h.mem.desc_mem (.inl hx)) i (by omega)
    | full idx => exact hdescs x (h.mem.desc_mem (.inr hx)) i (by omega)
    | block desc =>
        have hdesc := h.mem.block_mem hx
        have hcls := h.mem.cls_lt desc hdesc
        have hsize := (class_fits hcls).1
        have hall : x ∈ (S (.block desc) : Multiset Nat) + liveIn s.live desc :=
          Multiset.mem_add.mpr (.inl hx)
        rw [h.live.blocks desc hdesc] at hall
        have hrange := block_range hcls hall
        refine h.not_writable htotal hdesc (by omega) (by omega) fun p hp hsame => ?_
        obtain ⟨hblock, hfresh⟩ := h.live_fresh hp
        rw [hsame] at hblock
        have hne : x ≠ p.1 := by
          rintro rfl
          exact hfresh _ hx
        rcases block_disjoint hall hblock hne with hbefore | hbehind
        · exact .inl (by omega)
        · exact .inr (by omega)
  refine ⟨h.held, ?_, h.live⟩
  exact
    { h.mem with
      lists := h.mem.lists.congr (fun q hq => by
          cases q with
          | part idx => exact hw.part idx
          | full idx => exact hw.full idx
          | block desc => exact (hw.block desc (hdescs desc hq)).2)
        fun q x hx => hw.links x (hnodes q x hx)
      desc := fun desc hdesc => by
        rw [(hw.block desc (hdescs desc hdesc)).1]
        exact h.mem.desc desc hdesc }

/-- Every step keeps the invariant, and stops only with the `PANIC` of `alloc_pages`. -/
theorem next (h : KInv totalMemSize s pages cls S fr) (htotal : totalMemSize ≤ 2 ^ 30)
    {a : KmallocAct} (ha : s.Enabled a) :
    (s.next a = .error .panic ∧
      ((∃ size current, a = .kmalloc size current ∧
        s.buddy.allocPages KERNEL_POOL 0 current = .error .panic) ∨ ∃ call, a = .pages call)) ∨
    ∃ s' pages' cls' S' fr', s.next a = .ok s' ∧ KInv totalMemSize s' pages' cls' S' fr' := by
  cases a with
  | kmalloc size current =>
      rcases h.kmalloc htotal ha current with
        ⟨hpanic, halloc⟩ | ⟨x, b', m', pages', cls', S', fr', hok, h'⟩
      · exact .inl ⟨by simp [KmallocState.next, hpanic], .inl ⟨size, current, rfl, halloc⟩⟩
      · exact .inr ⟨_, pages', cls', S', fr', by simp [KmallocState.next, hok], h'⟩
  | kfree p current =>
      obtain ⟨b', m', pages', S', fr', hok, h'⟩ := h.kfree htotal ha current
      exact .inr ⟨_, pages', cls, S', fr', by simp [KmallocState.next, hok], h'⟩
  | pages call =>
      rcases PagesInv.others_next (s := ⟨s.buddy, s.others⟩) h.held htotal ha with
        hpanic | ⟨t, fr', hok, hheld⟩
      · exact .inl ⟨by simp [KmallocState.next, hpanic], .inr ⟨call, rfl⟩⟩
      · exact .inr ⟨{ s with buddy := t.buddy, others := t.live }, pages, cls, S, fr',
          by simp [KmallocState.next, hok], hheld, h.mem, h.live⟩
  | write m' => exact .inr ⟨_, pages, cls, S, fr, rfl, h.write htotal ha⟩

end KInv

/-! ### Runs -/

section
variable {totalMemSize : Nat} {s : KmallocState}

/-- The invariant holds behind `pool_init`. -/
theorem kInv_init (hs : KmallocState.Init totalMemSize s) :
    ∃ fr, KInv totalMemSize s 0 (fun _ => 0) (fun _ => []) fr := by
  obtain ⟨⟨-, hsize⟩, hreach, hlists, hlive⟩ := hs
  obtain ⟨s₀, hinit⟩ := hreach.exists_init
  obtain ⟨fr, hrun⟩ :=
    (buddySystem_inductive (poolBlocks_pos_of_init hinit) (by omega)).reachable hreach
  have hnone : pageBlocks 0 = 0 := by
    funext P
    cases P <;> simp [pageBlocks]
  refine ⟨fr, ⟨by rw [hnone]; exact hrun, by simp⟩, ⟨by simp, by simp, ?_, by simp, by simp,
    by simp⟩, ⟨by simp, by simp, by simp [hlive]⟩⟩
  have hempty : ∀ q, InUse 0 q → s.mem.list q = listInit := by
    intro q hq
    cases q with
    | part idx => exact (hlists idx hq).1
    | full idx => exact (hlists idx hq).2
    | block desc => exact absurd hq (Multiset.notMem_zero _)
  exact
    { family := ⟨fun _ => Linked.nil _, by simp⟩
      head := fun q hq => by rw [hempty q hq]; rfl
      tail := fun q hq => by rw [hempty q hq]; rfl
      kernel := fun _ _ hx => absurd hx List.not_mem_nil
      unused := fun _ _ => rfl }

/-- The run lemma. -/
theorem kmallocSystem_inductive (htotal : totalMemSize ≤ 2 ^ 30) :
    (kmallocSystem totalMemSize).Inductive fun s =>
      ∃ pages cls S fr, KInv totalMemSize s pages cls S fr where
  init hs := by
    obtain ⟨fr, h⟩ := kInv_init hs
    exact ⟨_, _, _, fr, h⟩
  step h ha hnext := by
    obtain ⟨pages, cls, S, fr, h⟩ := h
    rcases h.next htotal ha with ⟨hpanic, -⟩ | ⟨s', pages', cls', S', fr', hok, h'⟩
    · exact absurd (hnext.symm.trans hpanic) (by simp)
    · obtain rfl := Except.ok.inj (hok.symm.trans hnext)
      exact ⟨pages', cls', S', fr', h'⟩

/-- What holds of the page of a descriptor of class `idx`, when the lists are `S`. -/
structure DescPage (s : KmallocState) (S : MList → List Nat) (desc idx : Nat) : Prop where
  mlistIdx : (s.mem.desc desc).mlistIdx = idx
  blockList : IsList s.mem.links (s.mem.list (.block desc)) (S (.block desc))
  remain : (s.mem.desc desc).remain = (S (.block desc)).length
  /-- A block is free or live. -/
  balance : (s.mem.desc desc).remain + (liveIn s.live desc).card = (s.mem.desc desc).count
  count : (s.mem.desc desc).count = memBlockCount idx
  full : ∀ j, desc ∈ S (.full j) ↔ j = idx ∧ (s.mem.desc desc).remain = 0
  part : ∀ j, desc ∈ S (.part j) ↔ j = idx ∧ 0 < (s.mem.desc desc).remain ∧
    (s.mem.desc desc).remain < (s.mem.desc desc).count

/-- A descriptor, its lists and its blocks, as the invariant has them. -/
theorem KInv.descPage {pages : Multiset Nat} {cls : Nat → Nat} {S : MList → List Nat}
    {fr : FreeLists} (h : KInv totalMemSize s pages cls S fr) {desc : Nat}
    (hdesc : desc ∈ pages) : DescPage s S desc (cls desc) := by
  have hd := h.mem.desc desc hdesc
  have hblocks := congrArg Multiset.card (h.live.blocks desc hdesc)
  rw [Multiset.card_add, Multiset.coe_card, Multiset.coe_card, blockAddrs, List.length_map,
    List.length_range] at hblocks
  have hused := Multiset.card_pos.mpr (h.live.used desc hdesc)
  have hzero : S (.block desc) = [] ↔ (S (.block desc)).length = 0 := List.length_eq_zero_iff.symm
  refine ⟨by rw [hd]; rfl, h.mem.lists.isList (show InUse pages (.block desc) from hdesc),
    by rw [hd]; rfl, ?_, by rw [hd]; rfl, fun j => ?_, fun j => ?_⟩
  · rw [hd]
    simp only [pageDesc]
    omega
  · rw [h.mem.full, hd, hzero]
    simp only [pageDesc, hdesc, true_and, eq_comm (a := cls desc)]
    omega
  · rw [h.mem.part, hd, ne_eq, hzero]
    simp only [pageDesc, hdesc, true_and, eq_comm (a := cls desc)]
    omega

/-- Live allocations do not overlap. -/
theorem KInv.disjoint {pages : Multiset Nat} {cls : Nat → Nat} {S : MList → List Nat}
    {fr : FreeLists} (h : KInv totalMemSize s pages cls S fr) {p r : Nat × Nat}
    {rest : Multiset (Nat × Nat)} (hlive : s.live = p ::ₘ r ::ₘ rest) :
    p.1 ≠ r.1 ∧ (p.1 + p.2 ≤ r.1 ∨ r.1 + r.2 ≤ p.1) := by
  have hp : p ∈ s.live := by simp [hlive]
  have hr : r ∈ s.live := by simp [hlive]
  obtain ⟨hpdesc, hpsize⟩ := h.live.live p hp
  obtain ⟨hrdesc, hrsize⟩ := h.live.live r hr
  have hpblock := (h.live_fresh hp).1
  have hrblock := (h.live_fresh hr).1
  have hpcls := h.mem.cls_lt _ hpdesc
  have hprange := block_range hpcls hpblock
  have hrrange := block_range (h.mem.cls_lt _ hrdesc) hrblock
  by_cases hsame : descOf p.1 = descOf r.1
  · -- two blocks of one page
    have hne : p.1 ≠ r.1 := by
      have hnodup := Multiset.coe_nodup.mpr (blockAddrs_nodup (descOf p.1) hpcls)
      rw [← h.live.blocks _ hpdesc, hlive, liveIn_cons, liveIn_cons, if_pos rfl,
        if_pos hsame.symm] at hnodup
      have hcons := (Multiset.nodup_add.mp hnodup).2.1
      exact fun heq => (Multiset.nodup_cons.mp hcons).1 (by simp [heq])
    rw [← hsame] at hrblock hrsize
    refine ⟨hne, ?_⟩
    rcases block_disjoint hpblock hrblock hne with hbefore | hbehind
    · exact .inl (by omega)
    · exact .inr (by omega)
  · -- two pages
    have hpages : descOf p.1 + PG_SIZE ≤ descOf r.1 ∨ descOf r.1 + PG_SIZE ≤ descOf p.1 := by
      have hpdvd := (h.mem.base _ hpdesc).dvd
      have hrdvd := (h.mem.base _ hrdesc).dvd
      rcases Nat.lt_or_gt_of_ne hsame with hlt | hgt
      · refine .inl (Tiles.le_of_dvd_of_lt_add (u := PG_SIZE) ?_ hrdvd (by omega))
        exact (Nat.dvd_add_right hpdvd).mpr (Nat.dvd_refl _)
      · refine .inr (Tiles.le_of_dvd_of_lt_add (u := PG_SIZE) ?_ hpdvd (by omega))
        exact (Nat.dvd_add_right hrdvd).mpr (Nat.dvd_refl _)
    constructor
    · omega
    · rcases hpages with hbefore | hbehind
      · exact .inl (by omega)
      · exact .inr (by omega)

/-- The pages that are held are the pages with a live allocation. -/
theorem KInv.mem_pages_iff {pages : Multiset Nat} {cls : Nat → Nat} {S : MList → List Nat}
    {fr : FreeLists} (h : KInv totalMemSize s pages cls S fr) (desc : Nat) :
    desc ∈ pages ↔ ∃ p ∈ s.live, descOf p.1 = desc := by
  constructor
  · intro hdesc
    obtain ⟨a, ha⟩ := Multiset.exists_mem_of_ne_zero (h.live.used desc hdesc)
    obtain ⟨⟨n, hmem⟩, hpage⟩ := mem_liveIn.mp ha
    exact ⟨(a, n), hmem, hpage⟩
  · rintro ⟨p, hp, rfl⟩
    exact (h.live.live p hp).1

/-- `kmalloc` and `kfree` are correct for small sizes, in every run. The live allocations lie
behind the descriptors of their pages and do not overlap. The pages that `kmalloc` holds from
the page allocator are those with a live allocation, and their descriptors and lists agree
with what is live. No call stops, except for the `PANIC` of `alloc_pages`. -/
theorem kmallocSystem_safe (hs : (kmallocSystem totalMemSize).Reachable s) :
    (∀ p ∈ s.live, ∃ desc, PG_SIZE ∣ desc ∧ desc + 32 ≤ p.1 ∧ p.1 + p.2 ≤ desc + PG_SIZE) ∧
    (∀ p r rest, s.live = p ::ₘ r ::ₘ rest →
      p.1 ≠ r.1 ∧ (p.1 + p.2 ≤ r.1 ∨ r.1 + r.2 ≤ p.1)) ∧
    (∃ (pages : Multiset Nat) (S : MList → List Nat) (free : Nat → List Nat),
      (∀ desc, desc ∈ pages ↔ ∃ p ∈ s.live, descOf p.1 = desc) ∧
      (∀ o ≤ MAX_ORDER, IsList s.buddy.lru (s.buddy.area .kernel o).pgList (free o)) ∧
      Tiles (poolLo totalMemSize .kernel) (poolHi totalMemSize .kernel) MAX_ORDER
        (freeBlocks free (MAX_ORDER + 1) + (s.others .kernel +
          pages.map fun desc => ⟨paddr2pg (getPaddr desc), 0⟩)) ∧
      (∀ idx < 7, IsList s.mem.links (s.mem.list (.part idx)) (S (.part idx)) ∧
        IsList s.mem.links (s.mem.list (.full idx)) (S (.full idx)) ∧
        ∀ desc, desc ∈ S (.part idx) ∨ desc ∈ S (.full idx) → desc ∈ pages) ∧
      ∀ desc ∈ pages, ∃ idx < 7, DescPage s S desc idx) ∧
    ∀ a e, s.Enabled a → s.next a = .error e → e = .panic ∧
      ((∃ size current, a = .kmalloc size current ∧
        s.buddy.allocPages KERNEL_POOL 0 current = .error .panic) ∨ ∃ call, a = .pages call) := by
  obtain ⟨s₀, hinit⟩ := hs.exists_init
  have htotal : totalMemSize ≤ 2 ^ 30 := hinit.size.2
  obtain ⟨pages, cls, S, fr, h⟩ := (kmallocSystem_inductive htotal).reachable hs
  refine ⟨fun p hp => ?_, fun p r rest hlive => h.disjoint hlive,
    ⟨pages, S, fr .kernel, h.mem_pages_iff, h.held.run.buddy.rep.list .kernel,
      h.held.run.buddy.tiles .kernel, fun idx hidx => ⟨?_, ?_, fun _ => h.mem.desc_mem⟩,
      fun desc hdesc => ⟨cls desc, h.mem.cls_lt desc hdesc, h.descPage hdesc⟩⟩,
    fun a e ha he => ?_⟩
  · obtain ⟨hmem, hsize⟩ := h.live.live p hp
    have hrange := block_range (h.mem.cls_lt _ hmem) (h.live_fresh hp).1
    exact ⟨descOf p.1, (h.mem.base _ hmem).dvd, hrange.1, by omega⟩
  · exact h.mem.lists.isList (show InUse pages (.part idx) from hidx)
  · exact h.mem.lists.isList (show InUse pages (.full idx) from hidx)
  · -- An enabled call that stops is out of pages, by the step lemma.
    rcases h.next htotal ha with ⟨hpanic, hact⟩ | ⟨s', _, _, _, _, hok, -⟩
    · rw [he] at hpanic
      exact ⟨Except.error.inj hpanic, hact⟩
    · exact absurd (he.symm.trans hok) (by simp)

/-- The first `kmalloc` on a machine with 32 MiB, behind `pool_init`. -/
theorem kmallocSystem_safe_32M : ∃ s a, (kmallocSystem 0x2000000).Reachable s ∧
    s.live = {(a, 100)} ∧
    ∃ desc, PG_SIZE ∣ desc ∧ desc + 32 ≤ a ∧ a + 100 ≤ desc + PG_SIZE := by
  obtain ⟨b, hboot, halloc⟩ := exists_boot_32M
  let s₀ : KmallocState :=
    { buddy := b, live := 0, others := bootLive
      mem := ⟨fun _ => listInit, fun _ => ⟨0, 0, 0, false⟩, fun _ => ⟨none, none⟩⟩ }
  have hs₀ : KmallocState.Init 0x2000000 s₀ := ⟨by decide, hboot, fun _ _ => ⟨rfl, rfl⟩, rfl⟩
  obtain ⟨fr, h⟩ := kInv_init hs₀
  have henabled : (kmallocSystem 0x2000000).enabled s₀ (.kmalloc 100 0) :=
    show 100 ≤ MAX_BLOCK_SIZE by decide
  obtain ⟨idx, b', hok⟩ := halloc KERNEL_POOL 0 0 (Nat.zero_le MAX_ORDER)
  rcases h.kmalloc (by decide) henabled 0 with
    ⟨-, hpanic⟩ | ⟨a, b₁, m₁, pages, cls, S, fr', hkmalloc, -⟩
  · exact absurd (hok.symm.trans hpanic) (by simp)
  · have hnext : (kmallocSystem 0x2000000).next s₀ (.kmalloc 100 0)
        = .ok { s₀ with buddy := b₁, mem := m₁, live := {(a, 100)} } := by
      simp only [kmallocSystem, KmallocState.next, hkmalloc, ok_bind, deref_some]
      rfl
    have hs := (System.Reachable.init hs₀).step henabled hnext
    exact ⟨_, a, hs, rfl, (kmallocSystem_safe hs).1 (a, 100) (by simp)⟩

end

end Fizzos.Proofs
