import Fizzos.Kernel.DupMmap
import Fizzos.Proofs.Kmalloc
import Fizzos.Support.Chain

/-!
# `Fizzos.Proofs.DupMmap`: `fork` copies the areas

Behind `dup_mmap` the child has a list of its own (`copyMm_deep`). The list is as long as the
parent's, its nodes say the same but for `vm_next`, they come from calls of `kmalloc`, and nothing
that was allocated before has changed. The only way not to return is the `PANIC` of `alloc_pages`.

The loop is always at a node `x` of the parent and at its copy `y`. The copy is bitwise, so
`vm_next` of `y` points to the parent's next node until the next turn redirects it (`DupAt.cons`).
-/

set_option autoImplicit false

namespace Fizzos.Proofs

open Fizzos.Kernel
open Fizzos.LibKernel
open Fizzos.Support

/-- The list `mmap` at a pointer. -/
abbrev AreaList (area : Nat → VmAreaNode) : Option Nat → List Nat → Prop :=
  Support.Chain fun p => (area p).vmNext

/-- What an area says, but for `vm_next`. -/
def areaFields (a : VmAreaNode) : VmAreaNode := { a with vmNext := none }

/-- From the allocator `a` on, there is no page left for one of `n` calls of `kmalloc`. -/
def NoPage (totalMemSize : Nat) (a : KmallocState) (n : Nat) (current : Tid) : Prop :=
  ∃ t, (kmallocSystem totalMemSize).Reachable t ∧ t.others = a.others ∧ a.live ≤ t.live ∧
    t.live.card < a.live.card + n ∧ t.buddy.allocPages KERNEL_POOL 0 current = .error .panic

section
variable {totalMemSize : Nat} {s : MmState} {current : Tid}

/-- The addresses of allocations are 32-bit values. -/
theorem live_lt (hs : (kmallocSystem totalMemSize).Reachable s.alloc) {p : Nat × Nat}
    (hp : p ∈ s.alloc.live) : p.1 < 2 ^ 32 := by
  obtain ⟨s₀, hinit⟩ := hs.exists_init
  obtain ⟨pages, cls, S, fr, h⟩ := (kmallocSystem_inductive hinit.size.2).reachable hs
  have hdesc := (h.live.live p hp).1
  have hfits := (h.mem.base _ hdesc).fits
  have hrange := block_range (h.mem.cls_lt _ hdesc) (h.live_fresh hp).1
  have hsize := (class_fits (h.mem.cls_lt _ hdesc)).1
  omega

/-- The allocator `a` behind a `kmalloc` that has returned `x` in the state `old`. -/
structure Kmalloced (totalMemSize : Nat) (old a : KmallocState) (x size : Nat) : Prop where
  reachable : (kmallocSystem totalMemSize).Reachable a
  live : a.live = (x, size) ::ₘ old.live
  others : a.others = old.others
  fresh : ∀ p ∈ old.live, x ≠ p.1 ∧ (x + size ≤ p.1 ∨ p.1 + p.2 ≤ x)

/-- There is no page left when there is none behind the first call. -/
theorem NoPage.before {old a : KmallocState} {x size n : Nat}
    (h : NoPage totalMemSize a n current) (ha : Kmalloced totalMemSize old a x size) :
    NoPage totalMemSize old (n + 1) current := by
  obtain ⟨t, ht, hothers, hlive, hcard, hpanic⟩ := h
  rw [ha.live] at hlive hcard
  rw [Multiset.card_cons] at hcard
  exact ⟨t, ht, hothers.trans ha.others, (Multiset.le_cons_self _ _).trans hlive, by omega, hpanic⟩

theorem NoPage.more {a : KmallocState} (h : NoPage totalMemSize a 1 current) (n : Nat) :
    NoPage totalMemSize a (n + 1) current := by
  obtain ⟨t, ht, hothers, hlive, hcard, hpanic⟩ := h
  exact ⟨t, ht, hothers, hlive, by omega, hpanic⟩

/-- `kmalloc` returns a new block, or there is no page. -/
theorem mmState_kmalloc (hs : (kmallocSystem totalMemSize).Reachable s.alloc) {size : Nat}
    (hsize : size ≤ MAX_BLOCK_SIZE) (current : Tid) :
    (s.kmalloc size current = .error .panic ∧ NoPage totalMemSize s.alloc 1 current) ∨
    ∃ x alloc, s.kmalloc size current = .ok (x, { s with alloc }) ∧
      Kmalloced totalMemSize s.alloc alloc x size := by
  obtain ⟨s₀, hinit⟩ := hs.exists_init
  obtain ⟨pages, cls, S, fr, h⟩ := (kmallocSystem_inductive hinit.size.2).reachable hs
  rcases h.kmalloc hinit.size.2 hsize current with
    ⟨hpanic, hpages⟩ | ⟨x, b', m', pages', cls', S', fr', hok, h'⟩
  · exact .inl ⟨by simp [MmState.kmalloc, hpanic], s.alloc, hs, rfl, le_rfl, by omega, hpages⟩
  · have hnext : (kmallocSystem totalMemSize).next s.alloc (.kmalloc size current) =
        .ok { s.alloc with buddy := b', mem := m', live := (x, size) ::ₘ s.alloc.live } := by
      simp [kmallocSystem, KmallocState.next, hok]
    have hact : (kmallocSystem totalMemSize).enabled s.alloc (.kmalloc size current) := hsize
    refine .inr ⟨x, _, by simp [MmState.kmalloc, hok], hs.step hact hnext, rfl, rfl, ?_⟩
    intro p hp
    obtain ⟨rest, hrest⟩ := Multiset.exists_cons_of_mem hp
    exact h'.disjoint (congrArg (Multiset.cons (x, size)) hrest)

end

/-- The live allocations with new areas. -/
def withAreas (live : Multiset (Nat × Nat)) (ys : List Nat) : Multiset (Nat × Nat) :=
  (ys.map fun y => (y, VM_AREA_SIZE) : List (Nat × Nat)) + live

/-- From areas `area` and the allocator `old`, the state `s` has new copies `ys` of the areas `xs`,
and `head` points to them. -/
structure Copied (totalMemSize : Nat) (area : Nat → VmAreaNode) (old : KmallocState)
    (s : MmState) (head : Option Nat) (xs ys : List Nat) : Prop where
  reachable : (kmallocSystem totalMemSize).Reachable s.alloc
  live : s.alloc.live = withAreas old.live ys
  fresh : ∀ y ∈ ys, ∀ p ∈ old.live, y ≠ p.1 ∧ (y + VM_AREA_SIZE ≤ p.1 ∨ p.1 + p.2 ≤ y)
  list : AreaList s.area head ys
  same : (ys.map fun y => areaFields (s.area y)) = xs.map fun x => areaFields (area x)
  frame : ∀ z, z ∉ ys → s.area z = area z

/-- The areas before the first new node was written. -/
theorem Copied.before {totalMemSize : Nat} {area area' : Nat → VmAreaNode}
    {old : KmallocState} {s : MmState} {head : Option Nat} {xs ys : List Nat} {v : Nat}
    (h : Copied totalMemSize area old s head xs (v :: ys)) (heq : ∀ z, z ≠ v → area z = area' z)
    (hv : v ∉ xs) : Copied totalMemSize area' old s head xs (v :: ys) := by
  refine ⟨h.reachable, h.live, h.fresh, h.list, ?_, fun z hz => ?_⟩
  · rw [h.same]
    exact List.map_congr_left fun z hz => congrArg areaFields (heq z fun hzv => hv (hzv ▸ hz))
  · rw [h.frame z hz]
    exact heq z fun hzv => hz (hzv ▸ List.mem_cons_self)

/-- Where the loop of `dup_mmap` stands: at `x`, with `xs` behind it and a new copy `y`. -/
structure DupAt (totalMemSize : Nat) (s : MmState) (old : KmallocState) (x y : Nat)
    (xs : List Nat) : Prop where
  alloc : Kmalloced totalMemSize old s.alloc y VM_AREA_SIZE
  list : AreaList s.area (some x) (x :: xs)
  parent : ∀ z ∈ x :: xs, (z, VM_AREA_SIZE) ∈ old.live
  copy : s.area y = s.area x

section
variable {totalMemSize : Nat} {s s' : MmState} {current : Tid} {old : KmallocState}
  {x y : Nat} {xs ys : List Nat}

namespace DupAt

/-- The copy is no node of the parent. -/
theorem copy_ne (h : DupAt totalMemSize s old x y xs) {z : Nat} (hz : z ∈ x :: xs) : y ≠ z :=
  (h.alloc.fresh _ (h.parent z hz)).1

/-- The last turn. -/
theorem last (h : DupAt totalMemSize s old x y []) :
    Copied totalMemSize s.area old s (some y) [x] [y] where
  reachable := h.alloc.reachable
  live := h.alloc.live
  fresh z hz := by
    rw [List.mem_singleton.mp hz]
    exact h.alloc.fresh
  list := ⟨rfl, (congrArg VmAreaNode.vmNext h.copy).trans h.list.2⟩
  same := by simp [h.copy]
  frame _ _ := rfl

/-- One turn: a node `v` for the next area `x'`, and the link of `y` goes to it. -/
def turn (s : MmState) (alloc : KmallocState) (y v x' : Nat) : MmState :=
  (({ s with alloc } : MmState).setArea y { s.area y with vmNext := some v }).copyArea v x'

/-- The turn writes `y` and the new node. -/
theorem turn_area {alloc : KmallocState} {v x' z : Nat} (hzv : z ≠ v) (hzy : z ≠ y) :
    (turn s alloc y v x').area z = s.area z := by
  simp [turn, MmState.copyArea, MmState.setArea, hzv, hzy]

/-- The turn leaves the areas of the parent alone. -/
theorem turn_parent {x' v : Nat} {alloc : KmallocState}
    (h : DupAt totalMemSize s old x y (x' :: xs))
    (hv : Kmalloced totalMemSize s.alloc alloc v VM_AREA_SIZE) :
    ∀ z ∈ x' :: xs, (z, VM_AREA_SIZE) ∈ s.alloc.live ∧
      (turn s alloc y v x').area z = s.area z := by
  intro z hz
  have hlive : (z, VM_AREA_SIZE) ∈ s.alloc.live := by
    rw [h.alloc.live]
    exact Multiset.mem_cons_of_mem (h.parent z (List.mem_cons_of_mem _ hz))
  have hzv : z ≠ v := ((hv.fresh _ hlive).1).symm
  exact ⟨hlive, turn_area hzv (h.copy_ne (List.mem_cons_of_mem _ hz)).symm⟩

/-- The invariant behind one turn. -/
theorem next {x' v : Nat} {alloc : KmallocState} (h : DupAt totalMemSize s old x y (x' :: xs))
    (hv : Kmalloced totalMemSize s.alloc alloc v VM_AREA_SIZE) :
    DupAt totalMemSize (turn s alloc y v x') s.alloc x' v xs := by
  have hparent := h.turn_parent hv
  have hx' : x' ≠ y := (h.copy_ne (List.mem_cons_of_mem _ List.mem_cons_self)).symm
  -- a bitwise copy: the link of `v` still leads into the list of the parent
  have hcopy : (turn s alloc y v x').area v = (turn s alloc y v x').area x' := by
    rw [(hparent x' List.mem_cons_self).2]
    simp [turn, MmState.copyArea, MmState.setArea, hx']
  have hlist : AreaList (turn s alloc y v x').area (some x') (x' :: xs) :=
    Support.Chain.congr ⟨rfl, h.list.2.2⟩ fun z hz => congrArg VmAreaNode.vmNext (hparent z hz).2
  exact ⟨hv, hlist, fun z hz => (hparent z hz).1, hcopy⟩

/-- The copies from the next area on, and the copy of this one. -/
theorem cons {x' v : Nat} {alloc : KmallocState} (h : DupAt totalMemSize s old x y (x' :: xs))
    (hv : Kmalloced totalMemSize s.alloc alloc v VM_AREA_SIZE)
    (hrest : Copied totalMemSize (turn s alloc y v x').area s.alloc s' (some v) (x' :: xs)
      (v :: ys)) :
    Copied totalMemSize s.area old s' (some y) (x :: x' :: xs) (y :: v :: ys) := by
  have hy : (y, VM_AREA_SIZE) ∈ s.alloc.live := by
    rw [h.alloc.live]
    exact Multiset.mem_cons_self _ _
  have hnew : ∀ z ∈ v :: ys, z ≠ y := fun z hz => (hrest.fresh z hz _ hy).1
  -- The rest of the loop leaves `y` alone but for the link that this turn has set.
  have hself : s'.area y = { s.area y with vmNext := some v } := by
    rw [hrest.frame y fun hmem => hnew y hmem rfl]
    simp [turn, MmState.copyArea, MmState.setArea, (hnew v List.mem_cons_self).symm]
  refine ⟨hrest.reachable, ?_, ?_, ⟨rfl, ?_⟩, ?_, ?_⟩
  · rw [hrest.live, h.alloc.live]
    simp only [withAreas, List.map_cons, ← Multiset.cons_coe, Multiset.cons_add,
      Multiset.add_cons]
  · intro z hz p hp
    rcases List.mem_cons.mp hz with rfl | hz
    · exact h.alloc.fresh p hp
    · exact hrest.fresh z hz p (h.alloc.live ▸ Multiset.mem_cons_of_mem hp)
  · -- the link of the copy has been redirected
    have hlink : (s'.area y).vmNext = some v := by rw [hself]
    show AreaList s'.area (s'.area y).vmNext (v :: ys)
    rw [hlink]
    exact hrest.list
  · have hold : (x' :: xs).map (fun z => areaFields ((turn s alloc y v x').area z)) =
        (x' :: xs).map fun z => areaFields (s.area z) :=
      List.map_congr_left fun z hz => congrArg areaFields (h.turn_parent hv z hz).2
    have hfields : areaFields (s'.area y) = areaFields (s.area x) := by
      rw [hself, h.copy]
      rfl
    calc (y :: v :: ys).map (fun z => areaFields (s'.area z))
        = areaFields (s'.area y) :: (v :: ys).map fun z => areaFields (s'.area z) := rfl
      _ = areaFields (s.area x) :: (x' :: xs).map fun z => areaFields (s.area z) := by
          rw [hfields, hrest.same, hold]
  · intro z hz
    have hzy : z ≠ y := fun heq => hz (heq ▸ List.mem_cons_self)
    have hzrest : z ∉ v :: ys := fun hmem => hz (List.mem_cons_of_mem _ hmem)
    have hzv : z ≠ v := fun heq => hzrest (heq ▸ List.mem_cons_self)
    rw [hrest.frame z hzrest, turn_area hzv hzy]

end DupAt

/-- The loop of `dup_mmap` copies the areas from `x` on. -/
theorem dupLoop_spec (current : Tid) (fuel : Nat) (hfuel : xs.length < fuel)
    (h : DupAt totalMemSize s old x y xs) :
    (MmState.dupLoop current fuel (some x) (some y) s = .error .panic ∧
      NoPage totalMemSize s.alloc xs.length current) ∨
    ∃ s' ys, MmState.dupLoop current fuel (some x) (some y) s = .ok s' ∧ s'.mm = s.mm ∧
      Copied totalMemSize s.area old s' (some y) (x :: xs) (y :: ys) := by
  induction xs generalizing s old x y fuel with
  | nil =>
      -- the link of the last copy is 0 already
      obtain ⟨fuel, rfl⟩ := Nat.exists_eq_add_of_lt hfuel
      have hnext : (s.area x).vmNext = none := h.list.2
      refine .inr ⟨s, [], ?_, rfl, h.last⟩
      simp [MmState.dupLoop, hnext, h.copy]
  | cons x' xs ih =>
      obtain ⟨fuel, rfl⟩ : ∃ k, fuel = k + 1 := ⟨fuel - 1, by omega⟩
      have hnext : (s.area x).vmNext = some x' := h.list.2.1
      rcases mmState_kmalloc h.alloc.reachable (show VM_AREA_SIZE ≤ MAX_BLOCK_SIZE by decide)
        current with ⟨hpanic, hpage⟩ | ⟨v, alloc, hok, hv⟩
      · exact .inl ⟨by simp [MmState.dupLoop, hnext, hpanic], hpage.more _⟩
      · have hx : y ≠ x := h.copy_ne List.mem_cons_self
        have hstep : MmState.dupLoop current (fuel + 1) (some x) (some y) s =
            MmState.dupLoop current fuel (some x') (some v) (DupAt.turn s alloc y v x') := by
          have hxv : x ≠ v := by
            refine (hv.fresh (x, VM_AREA_SIZE) ?_).1.symm
            rw [h.alloc.live]
            exact Multiset.mem_cons_of_mem (h.parent x List.mem_cons_self)
          have hyv : y ≠ v := by
            refine (hv.fresh (y, VM_AREA_SIZE) ?_).1.symm
            rw [h.alloc.live]
            exact Multiset.mem_cons_self _ _
          simp [MmState.dupLoop, hnext, hok, MmState.setArea, MmState.copyArea, DupAt.turn, hx.symm,
            hxv, hyv]
        rw [hstep]
        rcases ih fuel (by simpa using hfuel) (h.next hv) with
          ⟨hpanic, hpage⟩ | ⟨s', ys, hrun, hmm, hrest⟩
        · exact .inl ⟨hpanic, hpage.before hv⟩
        · exact .inr ⟨s', v :: ys, hrun, hmm, h.cons hv hrest⟩

/-- The areas of the parent are fewer than the addresses. -/
theorem length_areas_le (hs : (kmallocSystem totalMemSize).Reachable s.alloc) {p : Option Nat}
    (hlist : AreaList s.area p xs) (hxs : ∀ z ∈ xs, (z, VM_AREA_SIZE) ∈ s.alloc.live) :
    xs.length ≤ LIST_WALK := by
  have hsub : xs ⊆ List.range LIST_WALK :=
    fun z hz => List.mem_range.mpr (live_lt hs (hxs z hz))
  have hlen := (hlist.nodup.subperm hsub).length_le
  rwa [List.length_range] at hlen

/-- `dup_mmap`, behind the copy of the structure. -/
theorem dupMmap_spec (hs : (kmallocSystem totalMemSize).Reachable s.alloc) {old new : Nat}
    (hne : new ≠ old) (hmm : s.mm new = s.mm old) (hlist : AreaList s.area (s.mm old).mmap xs)
    (hxs : ∀ z ∈ xs, (z, VM_AREA_SIZE) ∈ s.alloc.live) (current : Tid) :
    (s.dupMmap old new current = .error .panic ∧ NoPage totalMemSize s.alloc xs.length current) ∨
    ∃ s' head ys, s.dupMmap old new current = .ok s' ∧
      s'.mm = Function.update s.mm new { s.mm old with mmap := head } ∧
      Copied totalMemSize s.area s.alloc s' head xs ys := by
  have hlen := length_areas_le hs hlist hxs
  cases xs with
  | nil =>
      have hnull : (s.mm old).mmap = none := hlist
      have hsame : { s.mm old with mmap := none } = s.mm new := by rw [← hnull, hmm]
      refine .inr ⟨s, none, [], by simp [MmState.dupMmap, hnull, MmState.dupLoop], ?_, hs, ?_, ?_,
        rfl, rfl, ?_⟩
      · rw [hsame, Function.update_eq_self]
      · simp [withAreas]
      · simp
      · exact fun _ _ => rfl
  | cons x xs =>
      have hmmap : (s.mm old).mmap = some x := hlist.1
      rcases mmState_kmalloc hs (show VM_AREA_SIZE ≤ MAX_BLOCK_SIZE by decide) current with
        ⟨hpanic, hpage⟩ | ⟨v, alloc, hok, hv⟩
      · exact .inl ⟨by simp [MmState.dupMmap, hmmap, hpanic], hpage.more _⟩
      · -- the first node is copied in front of the loop
        let child := { s.mm old with mmap := some v }
        let s₁ := (({ s with alloc } : MmState).setMm new child).copyArea v x
        have hvx : v ∉ x :: xs := fun hmem => (hv.fresh _ (hxs v hmem)).1 rfl
        have harea : ∀ z, z ≠ v → s₁.area z = s.area z := by
          intro z hz
          simp [s₁, child, MmState.copyArea, MmState.setArea, MmState.setMm, hz]
        have hx : x ≠ v := fun heq => hvx (heq ▸ List.mem_cons_self)
        have hat : DupAt totalMemSize s₁ s.alloc x v xs := by
          refine ⟨hv, ?_, hxs, ?_⟩
          · refine Support.Chain.congr ⟨rfl, hlist.2⟩ fun z hz => ?_
            exact congrArg VmAreaNode.vmNext (harea z fun heq => hvx (heq ▸ hz))
          · rw [harea x hx]
            simp [s₁, MmState.copyArea, MmState.setArea, MmState.setMm]
        have hrun : s.dupMmap old new current =
            MmState.dupLoop current LIST_WALK (some x) (some v) s₁ := by
          simp [MmState.dupMmap, hmmap, hok, hmm, s₁, child, MmState.copyArea, MmState.setArea,
            MmState.setMm, hne.symm]
        -- Behind the first node the loop runs as its own lemma says.
        rw [hrun]
        rcases dupLoop_spec current LIST_WALK hlen hat with
          ⟨hpanic, hpage⟩ | ⟨s', ys, hloop, hmm', hcopied⟩
        · exact .inl ⟨hpanic, hpage.before hv⟩
        · exact .inr ⟨s', some v, v :: ys, hloop, hmm', hcopied.before harea hvx⟩

end

/-- The state `s'` behind `copy_mm` in `s`: the child has `mm` with the areas `ys`, and the parent
has `oldMm` with the areas `xs`. -/
structure DeepCopy (s s' : MmState) (oldMm mm : Nat) (xs ys : List Nat) : Prop where
  child : AreaList s'.area (s'.mm mm).mmap ys
  parent : AreaList s'.area (s'.mm oldMm).mmap xs
  length : ys.length = xs.length
  same : (ys.map fun y => areaFields (s'.area y)) = xs.map fun x => areaFields (s'.area x)
  nodup : ys.Nodup
  live : s'.alloc.live = withAreas ((mm, MM_SIZE) ::ₘ s.alloc.live) ys
  /-- The new nodes lie outside of everything that was allocated before. -/
  fresh : ∀ y ∈ ys, ∀ p ∈ s.alloc.live, y ≠ p.1 ∧ (y + VM_AREA_SIZE ≤ p.1 ∨ p.1 + p.2 ≤ y)
  disjoint : ys.Disjoint xs
  otherAreas : ∀ z, z ∉ ys → s'.area z = s.area z
  otherMms : ∀ m, m ≠ mm → s'.mm m = s.mm m
  /-- The rest of the structure is a copy. -/
  struct : { s'.mm mm with mmap := (s.mm oldMm).mmap } = s.mm oldMm

section
variable {totalMemSize : Nat} {s : MmState} {oldMm : Nat} {xs : List Nat}

/-- The areas of the child are a deep copy: new nodes with the same fields, in the same order, and
those of the parent as they were. The only other result is a `PANIC`, when there is no page for a
new node. -/
theorem copyMm_deep (hs : (kmallocSystem totalMemSize).Reachable s.alloc)
    (hmm : (oldMm, MM_SIZE) ∈ s.alloc.live) (hlist : AreaList s.area (s.mm oldMm).mmap xs)
    (hxs : ∀ x ∈ xs, (x, VM_AREA_SIZE) ∈ s.alloc.live) (current : Tid) :
    (s.copyMm oldMm current = .error .panic ∧ NoPage totalMemSize s.alloc (xs.length + 1) current) ∨
    ∃ mm s' ys, s.copyMm oldMm current = .ok (mm, s') ∧ DeepCopy s s' oldMm mm xs ys := by
  rcases mmState_kmalloc hs (show MM_SIZE ≤ MAX_BLOCK_SIZE by decide) current with
    ⟨hpanic, hpage⟩ | ⟨mm, alloc, hok, hnew⟩
  · exact .inl ⟨by simp [MmState.copyMm, hpanic], hpage.more _⟩
  have hne : mm ≠ oldMm := (hnew.fresh _ hmm).1
  -- `memcpy` of the structure: the child starts with the list of the parent.
  let s₁ := ({ s with alloc } : MmState).setMm mm (s.mm oldMm)
  have hold : s₁.mm oldMm = s.mm oldMm := by simp [s₁, MmState.setMm, hne.symm]
  have hcopy : s₁.mm mm = s₁.mm oldMm := by
    rw [hold]
    simp [s₁, MmState.setMm]
  have hlive : s₁.alloc.live = (mm, MM_SIZE) ::ₘ s.alloc.live := hnew.live
  have hxs₁ : ∀ x ∈ xs, (x, VM_AREA_SIZE) ∈ s₁.alloc.live := by
    intro x hx
    rw [hlive]
    exact Multiset.mem_cons_of_mem (hxs x hx)
  have hrun : s.copyMm oldMm current = s₁.dupMmap oldMm mm current >>= fun s => pure (mm, s) := by
    simp [MmState.copyMm, hok, s₁]
  rcases dupMmap_spec (s := s₁) hnew.reachable hne hcopy (hold ▸ hlist) hxs₁ current with
    ⟨hpanic, hpage⟩ | ⟨s', head, ys, hdup, hmm', h⟩
  · exact .inl ⟨by rw [hrun, hpanic]; rfl, hpage.before hnew⟩
  have hfresh : ∀ y ∈ ys, ∀ p ∈ s.alloc.live,
      y ≠ p.1 ∧ (y + VM_AREA_SIZE ≤ p.1 ∨ p.1 + p.2 ≤ y) :=
    fun y hy p hp => h.fresh y hy p (hlive ▸ Multiset.mem_cons_of_mem hp)
  -- The new nodes are fresh, so the nodes of the parent are not written.
  have hdisjoint : ys.Disjoint xs := fun y hy hx => (hfresh y hy _ (hxs y hx)).1 rfl
  have harea : ∀ x ∈ xs, s'.area x = s.area x := fun x hx => h.frame x fun hy => hdisjoint hy hx
  have hmmOf : ∀ m, m ≠ mm → s'.mm m = s.mm m := by
    intro m hm
    rw [hmm']
    simp [hm, s₁, MmState.setMm]
  have hchild : s'.mm mm = { s.mm oldMm with mmap := head } := by
    rw [hmm', hold]
    simp
  have hsame : (ys.map fun y => areaFields (s'.area y)) = xs.map fun x =>
      areaFields (s'.area x) := by
    rw [h.same]
    exact List.map_congr_left fun x hx => congrArg areaFields (harea x hx).symm
  refine .inr ⟨mm, s', ys, by rw [hrun, hdup]; rfl, ?_⟩
  exact
    { child := by rw [hchild]; exact h.list
      parent := by
        rw [hmmOf oldMm hne.symm]
        exact hlist.congr fun x hx => congrArg VmAreaNode.vmNext (harea x hx)
      length := by simpa using congrArg List.length hsame
      same := hsame
      nodup := h.list.nodup
      live := by rw [h.live, hlive]
      fresh := hfresh
      disjoint := hdisjoint
      otherAreas := h.frame
      otherMms := hmmOf
      struct := by rw [hchild] }

/-- A page is free while `kmalloc` has fewer allocations than the pool has pages that nobody else
holds. -/
theorem allocPages_ne_panic {a : KmallocState} (ha : (kmallocSystem totalMemSize).Reachable a)
    (hroom : a.live.card + Tiles.weight (a.others .kernel)
      < poolHi totalMemSize .kernel - poolLo totalMemSize .kernel)
    (current : Tid) : a.buddy.allocPages KERNEL_POOL 0 current ≠ .error .panic := by
  intro hpanic
  obtain ⟨s₀, hinit⟩ := ha.exists_init
  have htotal := hinit.size.2
  obtain ⟨pages, cls, S, fr, h⟩ := (kmallocSystem_inductive htotal).reachable ha
  rcases h.held.run.buddy.allocPages (poolRanges (by omega)) KERNEL_POOL (Nat.zero_le MAX_ORDER)
    current with ⟨-, hempty⟩ | ⟨idx, b', fr', hok, -⟩
  · have hfree : freeBlocks (fr .kernel) (MAX_ORDER + 1) = 0 := by
      refine Multiset.eq_zero_of_forall_notMem fun blk hblk => ?_
      obtain ⟨ho, hidx⟩ := mem_freeBlocks.mp hblk
      have hnil : fr .kernel blk.order = [] := hempty _ (Nat.zero_le _) (by omega)
      rw [hnil] at hidx
      exact List.not_mem_nil hidx
    -- so the pages of `kmalloc` and of the others are all pages of the pool
    have hweight := (h.held.run.buddy.tiles .kernel).weight_eq
    have hpages : pages.card ≤ a.live.card := by
      have hsub : pages ⊆ a.live.map fun p => descOf p.1 := fun desc hdesc => by
        obtain ⟨p, hp, hpage⟩ := (h.mem_pages_iff desc).mp hdesc
        exact Multiset.mem_map.mpr ⟨p, hp, hpage⟩
      have hle := Multiset.card_le_card ((Multiset.le_iff_subset h.held.nodup).mpr hsub)
      rwa [Multiset.card_map] at hle
    simp [hfree, pageBlocks, Tiles.weight] at hweight
    rw [Tiles.weight] at hroom
    omega
  · exact absurd (hpanic.symm.trans hok) (by simp)

/-- The next `kmalloc`, while there is room. -/
theorem exists_kmalloc {a : KmallocState} (ha : (kmallocSystem totalMemSize).Reachable a)
    (hroom : a.live.card + Tiles.weight (a.others .kernel)
      < poolHi totalMemSize .kernel - poolLo totalMemSize .kernel) (size : Nat)
    (hsize : size ≤ MAX_BLOCK_SIZE) : ∃ x a', Kmalloced totalMemSize a a' x size := by
  let s₀ : MmState := ⟨a, fun _ => ⟨none, 0, 0, none, 0, 0, 0, none, none⟩, fun _ => ⟨none, 0, 0⟩⟩
  rcases mmState_kmalloc (s := s₀) ha hsize 0 with
    ⟨-, t, ht, hothers, -, hcard, hpanic⟩ | ⟨x, a', -, ha'⟩
  · have hothers' : t.others = a.others := hothers
    have hcard' : t.live.card < a.live.card + 1 := hcard
    exact absurd hpanic (allocPages_ne_panic ht (by rw [hothers']; omega) 0)
  · exact ⟨x, a', ha'⟩

/-- Two areas, one behind the other, of a process whose nodes are at `x₁` and `x₂`. -/
def twoAreas (x₁ x₂ : Nat) (z : Nat) : VmAreaNode :=
  if z = x₁ then ⟨none, 0x8048000, 0x8049000, some x₂, 0, 7, 0, none, none⟩
  else ⟨none, 0x804a000, 0x804c000, none, 0, 3, 0, none, none⟩

/-- A process with two areas forks on a machine with 32 MiB, where no page is missing: the first new
node leads to the second one. -/
theorem copyMm_deep_32M : ∃ (s s' : MmState) (oldMm mm x₁ x₂ y₁ y₂ : Nat),
    (kmallocSystem 0x2000000).Reachable s.alloc ∧ (s.area x₁).vmNext = some x₂ ∧
    s.copyMm oldMm 0 = .ok (mm, s') ∧ DeepCopy s s' oldMm mm [x₁, x₂] [y₁, y₂] ∧
    (s'.area y₁).vmNext = some y₂ := by
  obtain ⟨b, hboot, -⟩ := exists_boot_32M
  have hs₀ : (kmallocSystem 0x2000000).init ⟨b, ⟨fun _ => listInit, fun _ => ⟨0, 0, 0, false⟩,
      fun _ => ⟨none, none⟩⟩, 0, bootLive⟩ :=
    ⟨by decide, hboot, fun _ _ => ⟨rfl, rfl⟩, rfl⟩
  have hroom : 10 + Tiles.weight (bootLive .kernel)
      < poolHi 0x2000000 .kernel - poolLo 0x2000000 .kernel := by decide
  -- the structure and two nodes
  obtain ⟨oldMm, a₁, ha₁⟩ := exists_kmalloc (.init hs₀)
    (show 0 + Tiles.weight (bootLive .kernel) < _ by omega) MM_SIZE (by decide)
  have hlive₁ : a₁.live = {(oldMm, MM_SIZE)} := ha₁.live
  have hothers₁ : a₁.others = bootLive := ha₁.others
  obtain ⟨x₁, a₂, ha₂⟩ := exists_kmalloc ha₁.reachable
    (by rw [hothers₁, hlive₁, Multiset.card_singleton]; omega) VM_AREA_SIZE (by decide)
  have hlive₂ : a₂.live = {(x₁, VM_AREA_SIZE), (oldMm, MM_SIZE)} := by
    rw [ha₂.live, hlive₁]
    rfl
  obtain ⟨x₂, a₃, ha₃⟩ := exists_kmalloc ha₂.reachable
    (by rw [ha₂.others, hothers₁, hlive₂, Multiset.card_pair]; omega) VM_AREA_SIZE (by decide)
  have hlive : a₃.live = {(x₂, VM_AREA_SIZE), (x₁, VM_AREA_SIZE), (oldMm, MM_SIZE)} := by
    rw [ha₃.live, hlive₂]
    rfl
  have hne : x₂ ≠ x₁ := (ha₃.fresh (x₁, VM_AREA_SIZE) (by simp [hlive₂])).1
  let s : MmState := ⟨a₃, twoAreas x₁ x₂, fun _ => ⟨some x₁, 1, 0⟩⟩
  have hnext : (s.area x₁).vmNext = some x₂ := by simp [s, twoAreas]
  have hlast : (s.area x₂).vmNext = none := by simp [s, twoAreas, hne]
  have hlist : AreaList s.area (s.mm oldMm).mmap [x₁, x₂] := ⟨rfl, hnext, hlast⟩
  rcases @copyMm_deep _ s oldMm [x₁, x₂] ha₃.reachable (by simp [s, hlive]) hlist
    (by simp [s, hlive]) 0 with
    ⟨-, t, ht, hothers, -, hcard, hpanic⟩ | ⟨mm, s', ys, hok, h⟩
  · have hothers' : t.others = bootLive := by
      rw [hothers]
      show a₃.others = _
      rw [ha₃.others, ha₂.others, hothers₁]
    have hcard' : t.live.card < a₃.live.card + 3 := hcard
    rw [hlive] at hcard'
    exact absurd hpanic (allocPages_ne_panic ht (by rw [hothers']; simp at hcard'; omega) 0)
  · obtain ⟨y₁, y₂, rfl⟩ := List.length_eq_two.mp h.length
    exact ⟨s, s', oldMm, mm, x₁, x₂, y₁, y₂, ha₃.reachable, hnext, hok, h, h.child.2.1⟩

end

end Fizzos.Proofs
