import Fizzos.Kernel.Vma

/-!
# `Fizzos.Proofs.VmaQueries`: which area a query finds

`find_vma` answers with the first area that ends behind an address. In a list in order this is the
lowest one (`findVma_some`). `find_inter_section` looks at this area only. It need not go on: an
area behind it starts later, and an area before it ends too early (`findInterSection_lowest`).
-/

set_option autoImplicit false

namespace Fizzos.Proofs

open Fizzos.Kernel

/-- The area intersects `[startAddr, endAddr)`. -/
def AreaMeets (vma : VmAreaStruct) (startAddr endAddr : Nat) : Prop :=
  vma.vmStart < endAddr ∧ startAddr < vma.vmEnd

/-- The areas are in order and pairwise disjoint, and none is empty. -/
structure SortedAreas (mmap : List VmAreaStruct) : Prop where
  nonempty : ∀ a ∈ mmap, a.vmStart < a.vmEnd
  sorted : mmap.Pairwise fun a b => a.vmStart ≤ b.vmStart
  disjoint : mmap.Pairwise fun a b => ¬AreaMeets a b.vmStart b.vmEnd

/-- `v` is the area with the lowest address among those with the property `P`. -/
structure Lowest (mmap : List VmAreaStruct) (P : VmAreaStruct → Prop)
    (v : VmAreaStruct) : Prop where
  mem : v ∈ mmap
  prop : P v
  least : ∀ w ∈ mmap, P w → v.vmStart ≤ w.vmStart

section
variable {mm : MmStruct} {v : VmAreaStruct} {addr startAddr endAddr : Nat}

/-- `find_vma` returns the lowest area that ends behind the address. -/
theorem findVma_some (h : SortedAreas mm.mmap) (hv : findVma mm addr = some v) :
    Lowest mm.mmap (fun w => addr < w.vmEnd) v := by
  obtain ⟨hend, before, behind, hmmap, hbefore⟩ := List.find?_eq_some_iff_append.mp hv
  have hsorted := h.sorted
  rw [hmmap] at hsorted
  have hbehind := (List.pairwise_cons.mp (List.pairwise_append.mp hsorted).2.1).1
  refine ⟨by simp [hmmap], of_decide_eq_true hend, fun w hw hwend => ?_⟩
  rw [hmmap] at hw
  rcases List.mem_append.mp hw with hw | hw
  · -- the areas before end at the address or below
    have hnot := hbefore w hw
    simp only [hwend, decide_true] at hnot
    exact absurd hnot (by decide)
  · rcases List.mem_cons.mp hw with rfl | hw
    · exact Nat.le_refl _
    · exact hbehind w hw

/-- `find_vma` returns `NULL` when no area ends behind the address. -/
theorem findVma_none : findVma mm addr = none ↔ ∀ w ∈ mm.mmap, ¬addr < w.vmEnd := by
  rw [findVma, List.find?_eq_none]
  simp

/-- `find_inter_section` returns the lowest area that meets the range. -/
theorem findInterSection_some (h : SortedAreas mm.mmap)
    (hv : findInterSection mm startAddr endAddr = some v) :
    Lowest mm.mmap (fun w => AreaMeets w startAddr endAddr) v := by
  rw [findInterSection] at hv
  split at hv
  next vma hfind =>
    split at hv
    next => cases hv
    next hstart =>
      cases hv
      -- an area that meets the range ends behind its start, so it is not below this one
      have hlow := findVma_some h hfind
      refine ⟨hlow.mem, ⟨Nat.lt_of_not_le hstart, hlow.prop⟩, fun w hw hmeets => ?_⟩
      exact hlow.least w hw hmeets.2
  next => cases hv

/-- `find_inter_section` returns `NULL` only when no area meets the range. -/
theorem findInterSection_none (h : SortedAreas mm.mmap)
    (hnone : findInterSection mm startAddr endAddr = none) {w : VmAreaStruct} (hw : w ∈ mm.mmap) :
    ¬AreaMeets w startAddr endAddr := by
  rintro ⟨hstart, hend⟩
  rw [findInterSection] at hnone
  split at hnone
  next vma hfind =>
    split at hnone
    next hle =>
      -- the first area that ends behind the start is `w` or an area below it
      have hleast := (findVma_some h hfind).least w hw hend
      exact absurd (Nat.lt_of_le_of_lt (hle.trans hleast) hstart) (Nat.lt_irrefl _)
    next => cases hnone
  next hfind => exact findVma_none.mp hfind w hw hend

end

/-- For every list of areas in order: `find_inter_section` answers with the lowest area that meets
the range, and with `NULL` only when there is none. `find_vma` answers in the same way for the areas
that end behind an address. -/
theorem findInterSection_lowest {mm : MmStruct} (h : SortedAreas mm.mmap)
    (startAddr endAddr addr : Nat) :
    ((findInterSection mm startAddr endAddr ≠ none ↔ ∃ w ∈ mm.mmap, AreaMeets w startAddr endAddr) ∧
      ∀ v, findInterSection mm startAddr endAddr = some v →
        Lowest mm.mmap (fun w => AreaMeets w startAddr endAddr) v) ∧
    (findVma mm addr ≠ none ↔ ∃ w ∈ mm.mmap, addr < w.vmEnd) ∧
      ∀ v, findVma mm addr = some v → Lowest mm.mmap (fun w => addr < w.vmEnd) v := by
  refine ⟨⟨⟨fun hsome => ?_, ?_⟩, fun v => findInterSection_some h⟩, ⟨fun hsome => ?_, ?_⟩,
    fun v => findVma_some h⟩
  · obtain ⟨v, hv⟩ := Option.ne_none_iff_exists'.mp hsome
    have hlow := findInterSection_some h hv
    exact ⟨v, hlow.mem, hlow.prop⟩
  · rintro ⟨w, hw, hmeets⟩ hnone
    exact findInterSection_none h hnone hw hmeets
  · obtain ⟨v, hv⟩ := Option.ne_none_iff_exists'.mp hsome
    have hlow := findVma_some h hv
    exact ⟨v, hlow.mem, hlow.prop⟩
  · rintro ⟨w, hw, hend⟩ hnone
    exact findVma_none.mp hnone w hw hend

/-- Two areas. A range that touches the first one and ends in the second meets the second. -/
theorem findInterSection_lowest_two :
    let low : VmAreaStruct := ⟨0x8048000, 0x8049000, 0, 0, 0, none⟩
    let high : VmAreaStruct := ⟨0x8050000, 0x8051000, 0, 0, 0, none⟩
    findInterSection ⟨[low, high], 0⟩ 0x8049000 0x8050800 = some high ∧
      Lowest [low, high] (fun w => AreaMeets w 0x8049000 0x8050800) high := by
  intro low high
  have hsorted : SortedAreas (MmStruct.mk [low, high] 0).mmap := by
    constructor
    · simp [low, high]
    · simp [low, high]
    · simp [low, high, AreaMeets]
  have hfind : findInterSection ⟨[low, high], 0⟩ 0x8049000 0x8050800 = some high := rfl
  exact ⟨hfind, (findInterSection_lowest hsorted 0x8049000 0x8050800 0).1.2 high hfind⟩

end Fizzos.Proofs
