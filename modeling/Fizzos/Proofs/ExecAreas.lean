import Fizzos.Proofs.Exec
import Fizzos.Proofs.Vma

/-!
# `Fizzos.Proofs.ExecAreas`: the areas of a program

The segments of an ELF file are in order and do not overlap. Then each `do_mmap` of `do_exec` puts
its area behind the ones before it (`doMmap_append`), and a load makes one area for each segment
that it maps, and the stack (`doExec_areas`).
-/

set_option autoImplicit false

namespace Fizzos.Proofs

open Fizzos.Fs
open Fizzos.Kernel
open Fizzos.Lib
open Fizzos.Support

section
variable {mm mm' : MmStruct} {before behind : List VmAreaStruct} {vma : VmAreaStruct}
  {file : Option Nat} {addr len prot offset : Nat} {ret : Int}

/-- The search for an address behind all areas ends at the last one. -/
theorem mmapSearch_last (len : Nat) (before : List VmAreaStruct) (hrange : ∀ b ∈ behind,
    b.vmStart < b.vmEnd)
    (hends : ∀ b ∈ vma :: behind, b.vmEnd ≤ addr) :
    let c := mmapSearch len addr before vma behind
    c.addr = addr ∧ c.before ++ [c.vma] = before ++ vma :: behind ∧ c.behind = [] := by
  induction behind generalizing before vma with
  | nil => exact ⟨rfl, rfl, rfl⟩
  | cons next behind ih =>
      have hvma := hends vma List.mem_cons_self
      have hend := hends next (List.mem_cons_of_mem _ List.mem_cons_self)
      have hstart := hrange next List.mem_cons_self
      rw [mmapSearch, if_pos (.inl (by omega)), Nat.max_eq_left hvma]
      have hrest := ih (before ++ [vma]) (fun b hb => hrange b (List.mem_cons_of_mem _ hb))
        fun b hb => hends b (List.mem_cons_of_mem _ hb)
      rw [List.append_assoc] at hrest
      exact hrest

/-- `do_mmap` behind all areas adds one at the end. -/
theorem doMmap_append (hok : AreasOk mm.mmap) (hends : ∀ b ∈ mm.mmap, b.vmEnd ≤ addr)
    (haddr : addr < 2 ^ 32) (hlen : len < 2 ^ 32)
    (hret : doMmap mm file addr len prot offset = .ok (ret, mm')) :
    mm'.mmap = mm.mmap ++ [newArea file addr len prot offset] ∧ addr + len ≤ TASK_SIZE ∧
      AreasOk mm'.mmap := by
  obtain ⟨-, a, before, behind, hplace, rfl, hstart, hlt, hend⟩ := doMmap_area hret
  have htask := taskSize_lt
  obtain ⟨rfl, hlist⟩ : a = addr ∧ before ++ newArea file a len prot offset :: behind
      = mm.mmap ++ [newArea file a len prot offset] := by
    rcases mmapPlace_ok hplace with ⟨hnil, rfl, rfl, rfl⟩ | ⟨first, rest, hlist, rfl, rfl, rfl⟩
    · rw [hnil]
      exact ⟨rfl, rfl⟩
    · rw [hlist] at hends
      obtain ⟨haddr', hall, hbehind⟩ := mmapSearch_last len []
        (fun b hb => (hok.range b (by rw [hlist]; exact List.mem_cons_of_mem _ hb)).2.1) hends
      rw [haddr', hall, hbehind, hlist]
      exact ⟨rfl, rfl⟩
  -- the assertion on the ends excludes a sum that wraps around
  have hfits : a + len < 2 ^ 32 := by
    by_contra hwrap
    have hsmall := add32_lt haddr hlen (by omega)
    omega
  have hvend : add32 a len = a + len := add32_eq hfits
  have hmem : ∀ b ∈ mm.mmap, b.vmEnd ≤ (newArea file a len prot offset).vmStart := hends
  refine ⟨hlist, by omega, ⟨?_, ?_⟩⟩
  · intro b hb
    replace hb : b ∈ before ++ newArea file a len prot offset :: behind := hb
    rw [hlist, List.mem_append, List.mem_singleton] at hb
    rcases hb with hb | rfl
    · exact hok.range b hb
    · exact ⟨hstart, hlt, hend⟩
  · show List.Pairwise _ (before ++ newArea file a len prot offset :: behind)
    rw [hlist, List.pairwise_append]
    refine ⟨hok.sorted, List.pairwise_singleton _ _, fun b hb v hv => ?_⟩
    rw [List.mem_singleton.mp hv]
    exact hmem b hb

/-- `do_mmap` of the stack lies behind all areas, or it stops. -/
theorem doMmap_stack (hok : AreasOk mm.mmap)
    (hret : doMmap mm file (TASK_SIZE - PG_SIZE * 2) (PG_SIZE * 2) prot offset = .ok (ret, mm')) :
    ∀ b ∈ mm.mmap, b.vmEnd ≤ TASK_SIZE - PG_SIZE * 2 := by
  obtain ⟨-, a, before, behind, hplace, -⟩ := doMmap_area hret
  have hpage : PG_SIZE = 4096 := rfl
  have htask : TASK_SIZE = 0xc0000000 := rfl
  cases hlist : mm.mmap with
  | nil => exact fun b hb => absurd hb List.not_mem_nil
  | cons first rest =>
      have hok' : AreasOk ([] ++ first :: rest) := hlist ▸ hok
      have hstart : Searching (TASK_SIZE - PG_SIZE * 2) (TASK_SIZE - PG_SIZE * 2) [] :=
        ⟨Nat.le_refl _, by simp, .inl rfl⟩
      obtain ⟨hsame, hfound, hgap⟩ := mmapSearch_spec (PG_SIZE * 2) hstart hok'
      rw [mmapPlace, hlist] at hplace
      dsimp only at hplace
      generalize mmapSearch (PG_SIZE * 2) (TASK_SIZE - PG_SIZE * 2) [] first rest = c at *
      rw [List.nil_append] at hsame
      have hrange : ∀ b ∈ c.before ++ c.vma :: c.behind,
          b.vmStart < b.vmEnd ∧ b.vmEnd ≤ TASK_SIZE := by
        intro b hb
        rw [hsame, ← hlist] at hb
        exact (hok.range b hb).2
      have hvma := hrange c.vma (by simp)
      -- the stack ends at the end of user memory, so no area lies behind it
      split at hplace
      · cases hplace
      · rename_i hroom
        rw [add32_eq (by omega)] at hroom
        have hlast : c.behind = [] := by
          cases hcase : c.behind with
          | nil => rfl
          | cons n tail =>
              have hn := hrange n (by rw [hcase]; simp)
              have hle := hfound.le
              have hnext := (hgap n (by rw [hcase]; rfl)).2 (by omega)
              omega
        intro b hb
        have hsorted := hok.sorted
        rw [hlist, ← hsame, hlast, List.pairwise_append] at hsorted
        rw [← hsame, hlast, List.mem_append, List.mem_singleton] at hb
        rcases hb with hb | rfl
        · have hle := hsorted.2.2 b hb c.vma (List.mem_singleton_self _)
          omega
        · omega

end

/-! ### The areas of a load -/

/-- The area of a segment. -/
def Segment.area (file : Nat) (g : Segment) : VmAreaStruct :=
  newArea (some file) g.vaddr g.memsz 0 g.offset

/-- The area of the stack. -/
def stackOf : VmAreaStruct :=
  newArea none (TASK_SIZE - PG_SIZE * 2) (PG_SIZE * 2) 0 0

/-- The segments are in order, and fit into the fields of a header. -/
structure SegmentsOk (gs : List Segment) : Prop where
  sorted : gs.Pairwise fun g g' => g.vaddr + g.memsz ≤ g'.vaddr
  fits : ∀ g ∈ gs, g.vaddr < 2 ^ 32 ∧ g.memsz < 2 ^ 32

/-- Segments in order get areas in order. -/
theorem mmapSegments_areas {file : Nat} {gs : List Segment} {mm mm' : MmStruct}
    (hgs : SegmentsOk gs) (hok : AreasOk mm.mmap)
    (hends : ∀ g ∈ gs, ∀ b ∈ mm.mmap, b.vmEnd ≤ g.vaddr)
    (hret : mmapSegments file gs mm = .ok mm') :
    mm'.mmap = mm.mmap ++ gs.map (Segment.area file) ∧ AreasOk mm'.mmap := by
  induction gs generalizing mm with
  | nil =>
      obtain rfl := Except.ok.inj hret
      exact ⟨(List.append_nil _).symm, hok⟩
  | cons g rest ih =>
      obtain ⟨⟨ret, mm₁⟩, hmmap, hret⟩ := bind_eq_ok.mp hret
      obtain ⟨hsorted, hrest⟩ := List.pairwise_cons.mp hgs.sorted
      have hfits := hgs.fits g List.mem_cons_self
      obtain ⟨hlist, hend, hok₁⟩ := doMmap_append hok (hends g List.mem_cons_self) hfits.1
          hfits.2 hmmap
      have htask := taskSize_lt
      -- The area of `g` ends in front of the segments that are left.
      have hends₁ : ∀ g' ∈ rest, ∀ b ∈ mm₁.mmap, b.vmEnd ≤ g'.vaddr := by
        intro g' hg' b hb
        rw [hlist, List.mem_append, List.mem_singleton] at hb
        rcases hb with hb | rfl
        · exact hends g' (List.mem_cons_of_mem _ hg') b hb
        · show add32 g.vaddr g.memsz ≤ g'.vaddr
          rw [add32_eq (by omega)]
          exact hsorted g' hg'
      obtain ⟨hlist', hok'⟩ :=
        ih ⟨hrest, fun g' hg' => hgs.fits g' (List.mem_cons_of_mem _ hg')⟩ hok₁ hends₁ hret
      refine ⟨?_, hok'⟩
      rw [hlist', hlist, List.append_assoc]
      rfl

/-- The segments of the program headers. -/
def segments (mem : Bytes) : List Segment :=
  (List.range (ePhnum mem)).filterMap fun i => (phead mem i).segment

/-- A load makes an area for each segment, and the stack behind them. -/
theorem doExec_areas {s : FileSys} {p file : Nat} {mm : MmStruct} {mem ioBuf : Bytes} {x : Execed}
    (hret : doExec s p file mm mem ioBuf = .ok x) (hgs : SegmentsOk (segments x.mem)) :
    x.mm.mmap = (segments x.mem).map (Segment.area file) ++ [stackOf] ∧ AreasOk x.mm.mmap := by
  obtain ⟨⟨count, pos, mem'⟩, -, hret⟩ := bind_eq_ok.mp hret
  dsimp only at hret
  split at hret
  · cases hret
  · obtain ⟨mm₁, hloop, hret⟩ := bind_eq_ok.mp hret
    obtain ⟨⟨ret, mm₂⟩, hstack, hret⟩ := bind_eq_ok.mp hret
    obtain rfl := Except.ok.inj hret
    rw [phdrLoop_eq] at hloop
    have hnil : AreasOk ({ mm with mmap := [] } : MmStruct).mmap := ⟨by simp, List.Pairwise.nil⟩
    obtain ⟨hlist, hok⟩ := mmapSegments_areas hgs hnil (by simp) hloop
    obtain ⟨hlist', -, hok'⟩ := doMmap_append hok (doMmap_stack hok hstack) (by decide)
        (by decide) hstack
    refine ⟨?_, hok'⟩
    show mm₂.mmap = _
    rw [hlist', hlist]
    rfl

end Fizzos.Proofs
