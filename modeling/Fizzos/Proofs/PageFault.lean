import Fizzos.Proofs.FaultRuns
import Fizzos.Proofs.Halts

/-!
# `Fizzos.Proofs.PageFault`: which area a page fault uses

The loop of `page_not_present` stops at the first area that ends behind the address, and does not
look where this area starts. So an address in a gap gets a page of the area above the gap, and an
address in an area a page of its own area (`faultOk_iff`).

`page_not_present` answers an address outside of user memory with a message and an endless loop, its
segment fault. A statement about gaps has to tell this loop from the other ways in which a fault can
stop. `Never .hang` has one lemma for each function that a page fault calls, and
`pageNotPresent_gap` is the one about the whole fault.
-/

set_option autoImplicit false

namespace Fizzos.Proofs

open Fizzos.Device
open Fizzos.Fs
open Fizzos.Kernel
open Fizzos.LibKernel
open Fizzos.Support

/-! ### The calls of a page fault

None of them loops forever, whatever the page tables, the lists of the allocator and the file hold.
So a fault that goes on to them is not taken for a segment fault. -/

section
variable {current : Tid}

/-- `bitmap_reverse` sets the bit or clears it, with the lock of the bitmap taken twice. -/
theorem bitmapReverse_noHang (b : Bitmap) (idx : Nat) :
    Never .hang (bitmapReverse b idx current) := by
  have hacquire : ∀ b : Bitmap, Never .hang (b.acquire current) := bitmapAcquire_never unasked_hang
  have hrelease : ∀ b : Bitmap, Never .hang (b.release current) := bitmapRelease_never unasked_hang
  have hassert : ∀ (cond : Prop) [Decidable cond], Never .hang (ASSERT cond) := .assert unasked_hang
  refine .bind (hacquire b) fun b => ?_
  split
  · refine .bind ?_ fun b => .bind (hrelease b) fun _ => .pure _
    exact .bind (hacquire b) fun b => .bind (hassert _) fun _ => hrelease _
  · refine .bind ?_ fun b => .bind (hrelease b) fun _ => .pure _
    exact .bind (hacquire b) fun b => .bind (hassert _) fun _ => hrelease _

/-- The bit of two buddies changes with each block that is taken or put back. -/
theorem reverse_noHang (b : Buddy) (P : Pool) (o k : Nat) : Never .hang (b.reverse P o k current) :=
  .bind (bitmapReverse_noHang _ _) fun _ => .pure _

/-- A block goes to the end of the free list of its order. `list_push_back` asserts that the links
are those of a list. -/
theorem pushBack_noHang (b : Buddy) (P : Pool) (o idx : Nat) :
    Never .hang (b.pushBack P o idx) := by
  have hassert : ∀ (cond : Prop) [Decidable cond], Never .hang (ASSERT cond) := .assert unasked_hang
  refine .bind ?_ fun _ => .pure _
  unfold listPushBack
  cases (b.area P o).pgList.tail with
  | none =>
      exact .bind (hassert _) fun _ => .bind (.pure _) fun _ => .bind (hassert _) fun _ => .pure _
  | some tail => exact .bind (.pure _) fun _ => .bind (hassert _) fun _ => .pure _

/-- A block is taken from the front of the free list. When there is none, the kernel follows `NULL`,
which is no loop. -/
theorem popFront_noHang (b : Buddy) (P : Pool) (o : Nat) : Never .hang (b.popFront P o) := by
  have hderef : ∀ x : Option Nat, Never .hang (Fizzos.deref x) := by
    intro x
    cases x with
    | none => exact .halt (by decide)
    | some a => exact .ok a
  refine .bind ?_ fun _ => .bind (hderef _) fun _ => .pure _
  unfold listPopFront
  split
  · exact .bind (.assert unasked_hang _) fun _ => .pure _
  · exact .bind (.assert unasked_hang _) fun _ => .pure _

/-- A block that is too large is split, and its upper halves go to the lists of the orders below.
There is one round for each order. -/
theorem split_noHang (P : Pool) (order idx n size : Nat) (b : Buddy) :
    Never .hang (Buddy.split P order idx current n size b) := by
  induction n generalizing size b with
  | zero => exact .pure b
  | succ n ih =>
      exact .bind (pushBack_noHang _ _ _ _) fun _ => .bind (reverse_noHang _ _ _ _) fun _ => ih _ _

/-- A block of the order `o` is taken for a request of the order `order`. -/
theorem take_noHang (b : Buddy) (P : Pool) (order o : Nat) :
    Never .hang (b.take P order o current) :=
  .bind (popFront_noHang _ _ _) fun _ => .bind (reverse_noHang _ _ _ _) fun _ =>
    .bind (split_noHang _ _ _ _ _ _) fun _ => .pure _

/-- The search for an order with a free block goes up to the largest order. Without one it is a
`PANIC`. -/
theorem allocFrom_noHang (b : Buddy) (P : Pool) (order n o : Nat) :
    Never .hang (b.allocFrom P order current n o) := by
  induction n generalizing o with
  | zero => exact .halt (by decide)
  | succ n ih =>
      rw [Buddy.allocFrom]
      by_cases hfree : (b.area P o).nrFree > 0
      · rw [if_pos hfree]
        exact take_noHang b P order o
      · rw [if_neg hfree]
        exact ih (o + 1)

/-- `get_zeroed_page` asserts the order, takes a block, and fills the page with zeros. -/
theorem getZeroedPage_noHang (vm : Vm) (flag : Nat) :
    Never .hang (vm.getZeroedPage flag current) := by
  refine .bind (.bind ?_ fun _ => .pure _) fun _ => .pure _
  exact .bind (.bind (.assert unasked_hang _) fun _ => allocFrom_noHang _ _ _ _ _) fun _ => .pure _

/-- A missing page table is made, from a page of the kernel. -/
theorem openTable_noHang (vm : Vm) (pgDir addr : Nat) :
    Never .hang (vm.openTable pgDir addr current) := by
  unfold Vm.openTable
  dsimp only
  by_cases hempty : vm.table (vm.getPde pgDir addr).1 (vm.getPde pgDir addr).2 &&& 1 = 0
  · rw [if_pos hempty]
    exact .bind (getZeroedPage_noHang _ _) fun _ => .pure _
  · rw [if_neg hempty]
    exact .pure vm

/-- The rest of a fault, in the area that `find_vma` has found: the page table, a page of the user
pool, the part of the file that belongs to the page, and the entry. -/
theorem faultArea_noHang (f : Files) (vm : Vm) (pgDir : Nat) (vas : VmAreaStruct) (addr : Nat)
    (ioBuf : Bytes) : Never .hang (f.faultArea vm pgDir vas addr ioBuf current) := by
  have hinstall : ∀ (vm : Vm) (buf : Nat), Never .hang (vm.installPage pgDir addr buf) :=
    fun _ _ => .bind (.assert unasked_hang _) fun _ => .pure _
  unfold Files.faultArea
  cases vas.vmFile with
  | some file =>
      exact .bind (openTable_noHang _ _ _) fun _ => .bind (getZeroedPage_noHang _ _) fun _ =>
        .bind (fileRead_never unasked_hang _ _ _ _ _ _) fun _ => hinstall _ _
  | none =>
      exact .bind (openTable_noHang _ _ _) fun _ => .bind (getZeroedPage_noHang _ _) fun _ =>
        hinstall _ _

end

/-! ### The area of a fault -/

/-- The address lies below some area, and in none. -/
def InGap (mmap : List VmAreaStruct) (addr : Nat) : Prop :=
  (∀ vas ∈ mmap, ¬Covers vas addr) ∧ ∃ vas ∈ mmap, addr < vas.vmStart

section
variable {mm : MmStruct} {vas : VmAreaStruct} {addr : Nat}

/-- In a gap, `find_vma` finds an area that starts behind the address. -/
theorem InGap.findVma (hgap : InGap mm.mmap addr) (hok : AreasOk mm.mmap) :
    ∃ vas, Kernel.findVma mm addr = some vas ∧ vas ∈ mm.mmap ∧ addr < vas.vmStart := by
  obtain ⟨hnone, above, hmem, hlt⟩ := hgap
  obtain ⟨vas, hfound⟩ := exists_findVma hok hmem hlt
  obtain ⟨hvas, hend⟩ := findVma_mem hfound
  exact ⟨vas, hfound, hvas, Nat.lt_of_not_le fun hle => hnone vas hvas ⟨hle, hend⟩⟩

/-- `find_vma` finds the area of the address, outside of the gaps. -/
theorem covers_of_findVma (h : findVma mm addr = some vas) (hok : AreasOk mm.mmap)
    (hgap : ¬InGap mm.mmap addr) : Covers vas addr := by
  obtain ⟨hmem, hend⟩ := findVma_mem h
  refine ⟨Nat.le_of_not_lt fun hlt => hgap ⟨fun a ha hin => ?_, vas, hmem, hlt⟩, hend⟩
  rw [findVma_of_covers hok ha hin] at h
  obtain rfl := Option.some.inj h
  exact Nat.not_le_of_lt hlt hin.1

end

section
variable {f : Files} {vm vm' : Vm} {mm : MmStruct} {vas : VmAreaStruct} {pgDir addr : Nat}
  {ioBuf : Bytes} {current : Tid}

/-- What `page_not_present` should do: a page that it installs belongs to the area that holds the
address, and an address in a gap is a segment fault. -/
structure FaultOk (f : Files) (vm : Vm) (mm : MmStruct) (addr : Nat) (ioBuf : Bytes)
    (current : Tid) : Prop where
  area : ∀ vm', f.pageNotPresent vm mm addr ioBuf current = .ok vm' →
    ∃ vas ∈ mm.mmap, Covers vas addr ∧ f.faultArea vm mm.pgDir vas addr ioBuf current = .ok vm'
  gap : InGap mm.mmap addr → f.pageNotPresent vm mm addr ioBuf current = .error .hang

/-- An address in a gap of user memory is no segment fault. -/
theorem pageNotPresent_gap (hok : AreasOk mm.mmap) (hlo : USER_VADDR_START ≤ addr)
    (hgap : InGap mm.mmap addr) :
    Never .hang (f.pageNotPresent vm mm addr ioBuf current) := by
  obtain ⟨vas, hfind, hmem, hlt⟩ := hgap.findVma hok
  have hrange := hok.range vas hmem
  have hhi : addr < TASK_SIZE := by omega
  rw [Files.pageNotPresent, if_neg (user_range hlo hhi), faultLoop_eq mm.mmap hfind]
  exact faultArea_noHang f vm mm.pgDir vas addr ioBuf

/-- `page_not_present` does what it should exactly when the address is in no gap of user memory: the
loop over the areas stops at the first one that ends behind it, and does not look where it
starts. -/
theorem faultOk_iff (hok : AreasOk mm.mmap) :
    FaultOk f vm mm addr ioBuf current ↔ ¬(USER_VADDR_START ≤ addr ∧ InGap mm.mmap addr) := by
  constructor
  · rintro h ⟨hlo, hgap⟩
    exact pageNotPresent_gap hok hlo hgap (h.gap hgap)
  · intro hno
    refine ⟨fun vm' hret => ?_, fun hgap => ?_⟩
    · obtain ⟨hlo, -, vas, hfind, harea⟩ := pageNotPresent_area hret
      exact ⟨vas, (findVma_mem hfind).1,
        covers_of_findVma hfind hok fun hgap => hno ⟨hlo, hgap⟩, harea⟩
    · -- a gap below user memory
      have hlow : addr < USER_VADDR_START := Nat.lt_of_not_le fun hle => hno ⟨hle, hgap⟩
      exact if_pos (.inr hlow)

end

/-- An area of one page, three pages above the start of user memory. -/
def upperArea : VmAreaStruct where
  vmStart := 0x0804b000
  vmEnd := 0x0804c000
  vmPageProt := 0
  vmFlags := VM_READ ||| VM_WRITE
  vmPgoff := 0
  vmFile := none

/-- One area is always in order. -/
theorem upperArea_ok : AreasOk [upperArea] :=
  ⟨fun a ha => by rw [List.mem_singleton.mp ha]; decide, List.pairwise_singleton _ _⟩

/-- A fault in the area is right, and one in the gap below is not. -/
theorem faultOk_iff_upperArea : ∃ vm : Vm,
    FaultOk noFiles vm ⟨[upperArea], 0⟩ 0x0804b010 (fun _ => 0) 0 ∧
    ¬FaultOk noFiles vm ⟨[upperArea], 0⟩ 0x08048000 (fun _ => 0) 0 := by
  obtain ⟨s, -⟩ := exists_process []
  have hok : AreasOk (MmStruct.mk [upperArea] 0).mmap := upperArea_ok
  refine ⟨s.vm, (faultOk_iff hok).mpr fun h => ?_, fun h => (faultOk_iff hok).mp h ⟨by decide, ?_⟩⟩
  · exact h.2.1 upperArea (List.mem_singleton_self _) ⟨by decide, by decide⟩
  · refine ⟨fun a ha hin => ?_, upperArea, List.mem_singleton_self _, by decide⟩
    rw [List.mem_singleton.mp ha] at hin
    exact absurd hin.1 (by decide)

/-- On a machine with 32 MiB, a fault in the gap below the area installs a page. The search takes
this area, since it ends behind the address. -/
theorem pageNotPresent_maps_gap :
    ¬∀ (f : Files) (vm : Vm) (mm : MmStruct) (addr : Nat) (ioBuf : Bytes) (current : Tid),
      AreasOk mm.mmap → FaultOk f vm mm addr ioBuf current := by
  intro hall
  obtain ⟨s, hs, hruns, hmmap, hwalk, hkernel, huser⟩ := exists_process [upperArea]
  have hlo : USER_VADDR_START ≤ 0x08048000 := by decide
  have hhi : 0x08048000 < TASK_SIZE := by decide
  have hvas : findVma (s.proc 0).mm 0x08048000 = some upperArea := by
    rw [findVma, hmmap]
    rfl
  obtain ⟨vm', hret⟩ := pageNotPresent_returns (f := noFiles) hs hruns (hwalk _ hhi) hlo hhi hvas
      hkernel huser rfl
  have hok : AreasOk (s.proc 0).mm.mmap := by
    rw [hmmap]
    exact upperArea_ok
  obtain ⟨vas, hmem, hin, -⟩ := (hall noFiles s.vm (s.proc 0).mm 0x08048000 (fun _ => 0) 0 hok).area
    vm' hret
  rw [hmmap] at hmem
  rw [List.mem_singleton.mp hmem] at hin
  exact absurd hin.1 (by decide)

end Fizzos.Proofs
