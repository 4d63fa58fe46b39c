import Fizzos.Kernel.SelfMap
import Fizzos.Proofs.Paging

/-!
# `Fizzos.Proofs.SelfMap`: a directory that is also a page table

The upper ten bits of an address choose an entry of the directory, and the next ten bits one of the
page table. With 1023 in one of the two places the walk stays in the directory. The address of
`get_pde` has it in both, and the address of `get_pte` in the first, with the number of the
directory entry behind it (`getPde_fields`, `getPte_fields`). So the walk ends one level too early,
at the entry that was to be found (`selfMap_entries`).
-/

set_option autoImplicit false

namespace Fizzos.Proofs

open Fizzos.Kernel

/-- The directory is at the start of a page, and its last entry leads to this page. -/
structure SelfMapped (mem : PhysMem) (pd : Nat) : Prop where
  present : mem (pd + 4 * 1023) &&& PG_P ≠ 0
  self : pageBase (mem (pd + 4 * 1023)) = pd

section
variable {mem : PhysMem} {pd v : Nat}

/-! ### Fields of an address -/

/-- The upper ten bits. -/
theorem pdeIdx_eq (v : Nat) : PDE_IDX v = v / 2 ^ 22 := Nat.shiftRight_eq_div_pow v 22

/-- The next ten bits. -/
theorem pteIdx_eq (v : Nat) : PTE_IDX v = v / 2 ^ 12 % 2 ^ 10 := by
  rw [PTE_IDX, Nat.shiftRight_eq_div_pow]
  exact Nat.and_two_pow_sub_one_eq_mod _ 10

/-- This is an index of the directory. -/
theorem pdeIdx_lt (hv : v < 2 ^ 32) : PDE_IDX v < 1024 := by
  rw [pdeIdx_eq]
  omega

/-- This is an index of a page table. -/
theorem pteIdx_lt (v : Nat) : PTE_IDX v < 1024 := by
  rw [pteIdx_eq]
  omega

/-- The address of `get_pde` is in the last page. -/
theorem getPde_addr (hv : v < 2 ^ 32) : getPde v = 0xfffff000 + 4 * PDE_IDX v := by
  have hidx := pdeIdx_lt hv
  rw [getPde, Nat.shiftLeft_eq, Nat.shiftLeft_eq]
  omega

/-- The address of `get_pte` is in the last 4 MiB. -/
theorem getPte_addr (hv : v < 2 ^ 32) :
    getPte v = 0xffc00000 + 4096 * PDE_IDX v + 4 * PTE_IDX v := by
  have hpde := pdeIdx_lt hv
  have hpte := pteIdx_lt v
  rw [getPte, Nat.shiftLeft_eq, Nat.shiftLeft_eq, Nat.shiftLeft_eq]
  omega

/-- `get_pde` goes twice to the entry 1023. -/
theorem getPde_fields (hv : v < 2 ^ 32) :
    PDE_IDX (getPde v) = 1023 ∧ PTE_IDX (getPde v) = 1023 ∧ getPde v % PG_SIZE = 4 * PDE_IDX v := by
  have hidx := pdeIdx_lt hv
  rw [pdeIdx_eq, pteIdx_eq, getPde_addr hv, PG_SIZE]
  omega

/-- `get_pte` goes to the entry 1023, and then to the directory entry of the address. -/
theorem getPte_fields (hv : v < 2 ^ 32) :
    PDE_IDX (getPte v) = 1023 ∧ PTE_IDX (getPte v) = PDE_IDX v ∧
      getPte v % PG_SIZE = 4 * PTE_IDX v := by
  have hpde := pdeIdx_lt hv
  have hpte := pteIdx_lt v
  rw [pdeIdx_eq (getPte v), pteIdx_eq (getPte v), getPte_addr hv, PG_SIZE]
  omega

/-! ### Entries -/

/-- An entry without its flags, rounded down to a page. -/
theorem pageBase_eq (w : Word) : pageBase w = w.toNat / PG_SIZE * PG_SIZE := by
  rw [pageBase, BitVec.toNat_and]
  exact and_pageMask w.isLt

/-- The page and the offset of `get_paddr` have no bit in common. -/
theorem pageBase_or (w : Word) (v : Nat) :
    (w &&& 0xfffff000).toNat ||| (v &&& 0x00000fff) = pageBase w + v % PG_SIZE := by
  have hoff : v &&& 0x00000fff = v % 2 ^ 12 := Nat.and_two_pow_sub_one_eq_mod v 12
  have hlt : v % 2 ^ 12 < 2 ^ 12 := Nat.mod_lt _ (Nat.two_pow_pos 12)
  have hbase := pageBase_eq w
  rw [show PG_SIZE = 2 ^ 12 from rfl] at hbase ⊢
  rw [hoff, ← pageBase, hbase, Nat.mul_comm, ← Nat.two_pow_add_eq_or_of_lt hlt]

/-- What `copy_pt` and `do_exec` store in the entry 1023 of a directory. -/
theorem selfMapped_of_entry (hpd : PG_SIZE ∣ pd) (hlt : pd < 2 ^ 32)
    (hentry : mem (pd + 4 * 1023) = BitVec.ofNat 32 pd ||| PG_SUPERVISOR ||| PG_P ||| PG_RWE) :
    SelfMapped mem pd := by
  obtain ⟨idx, rfl⟩ := hpd
  have hflags : (PG_SUPERVISOR ||| PG_P ||| PG_RWE) &&& PG_P = PG_P := by decide
  have hpages : (PG_SUPERVISOR ||| PG_P ||| PG_RWE) >>> 12 = 0 := by decide
  have hassoc : BitVec.ofNat 32 (PG_SIZE * idx) ||| PG_SUPERVISOR ||| PG_P ||| PG_RWE
      = BitVec.ofNat 32 (PG_SIZE * idx) ||| (PG_SUPERVISOR ||| PG_P ||| PG_RWE) := by
    rw [BitVec.or_assoc, BitVec.or_assoc, BitVec.or_assoc]
  rw [hassoc] at hentry
  constructor
  · rw [hentry, or_and_eq _ hflags]
    decide
  · -- the flags are below the page number
    have hpage := entryPage_or (BitVec.ofNat 32 (PG_SIZE * idx)) hpages
    rw [entryPage, entryPage, paddr2pg, paddr2pg, BitVec.toNat_ofNat, Nat.mod_eq_of_lt hlt,
      Nat.mul_div_cancel_left _ (by decide)] at hpage
    rw [hentry, pageBase_eq, hpage, Nat.mul_comm]

/-! ### Walks -/

/-- A walk with both entries present. -/
theorem translate_some {pde pte : Word} (hpde : mem (pd + 4 * PDE_IDX v) = pde)
    (hpresent : pde &&& PG_P ≠ 0) (hpte : mem (pageBase pde + 4 * PTE_IDX v) = pte)
    (hpresent' : pte &&& PG_P ≠ 0) : translate mem pd v = some (pageBase pte + v % PG_SIZE) := by
  rw [Kernel.translate, hpde]
  dsimp only
  rw [if_neg hpresent, hpte, if_neg hpresent']

variable (h : SelfMapped mem pd) (hv : v < 2 ^ 32)
include h hv

/-- Through the self-map, the last page is the directory. -/
theorem translate_getPde : translate mem pd (getPde v) = some (pd + 4 * PDE_IDX v) := by
  -- both levels of the walk read the entry 1023 of the directory
  obtain ⟨hdir, htable, hoff⟩ := getPde_fields hv
  have hwalk := @translate_some mem pd (getPde v) _ _ (by rw [hdir]) h.present
    (by rw [h.self, htable]) h.present
  rwa [h.self, hoff] at hwalk

/-- The directory entry of the address plays the page-table entry in the walk of `get_pte`. -/
theorem translate_getPte (hpresent : mem (pd + 4 * PDE_IDX v) &&& PG_P ≠ 0) :
    translate mem pd (getPte v)
      = some (pageBase (mem (pd + 4 * PDE_IDX v)) + 4 * PTE_IDX v) := by
  obtain ⟨hdir, htable, hoff⟩ := getPte_fields hv
  have hwalk := @translate_some mem pd (getPte v) _ _ (by rw [hdir]) h.present
    (by rw [h.self, htable]) hpresent
  rwa [hoff] at hwalk

end

/-! ### The tables of `Vm` -/

section
variable {vm : Vm} {d v : Nat}

/-- The words of a page are the entries of its table. -/
theorem physOf_entry (vm : Vm) (d : Nat) {i : Nat} (hi : i < 1024) :
    physOf vm (d * PG_SIZE + 4 * i) = vm.table (pageAddr d) i := by
  have hpage : (d * PG_SIZE + 4 * i) / PG_SIZE = d := by
    rw [PG_SIZE]
    omega
  have hword : (d * PG_SIZE + 4 * i) % PG_SIZE / 4 = i := by
    rw [PG_SIZE]
    omega
  rw [physOf, hpage, hword]

/-- The walk of `Vm` is the page walk. -/
theorem translate_physOf (hv : v < 2 ^ 32) : translate (physOf vm) (d * PG_SIZE) v
    = (vm.walk (pageAddr d) v).map fun e => pageBase e.2 + v % PG_SIZE := by
  have hpde := physOf_entry vm d (pdeIdx_lt hv)
  have hpte : ∀ w : Word, physOf vm (pageBase w + 4 * PTE_IDX v)
      = vm.table (entryAddr w) (PTE_IDX v) := by
    intro w
    rw [pageBase_eq, entryAddr_eq, entryPage, paddr2pg]
    exact physOf_entry vm _ (pteIdx_lt v)
  rw [Kernel.translate, Vm.walk, hpde]
  dsimp only
  rw [hpte]
  -- both fail at the same level
  by_cases hzero : vm.table (pageAddr d) (PDE_IDX v) &&& PG_P = 0
  · rw [if_pos hzero, if_pos (.inl hzero)]
    rfl
  · rw [if_neg hzero]
    by_cases hzero' : vm.table (entryAddr (vm.table (pageAddr d) (PDE_IDX v))) (PTE_IDX v)
        &&& PG_P = 0
    · rw [if_pos hzero', if_pos (.inr hzero')]
      rfl
    · rw [if_neg hzero', if_neg fun hor => hor.elim hzero hzero']
      rfl

/-- What `Vm` takes for the entries of an address is where `get_pde` and `get_pte` lead. -/
theorem translate_vm (hself : vm.tableIdx (pageAddr d) 1023 = some d) (hv : v < 2 ^ 32)
    (hpresent : vm.table (pageAddr d) (PDE_IDX v) &&& PG_P ≠ 0) :
    translate (physOf vm) (d * PG_SIZE) (getPde v)
      = some (getPaddr (vm.getPde (pageAddr d) v).1 + 4 * (vm.getPde (pageAddr d) v).2) ∧
    translate (physOf vm) (d * PG_SIZE) (getPte v)
      = some (getPaddr (vm.getPte (pageAddr d) v).1 + 4 * (vm.getPte (pageAddr d) v).2) := by
  obtain ⟨hp, hpage⟩ := presentPage_eq_some.mp hself
  have hlast := physOf_entry vm d (show 1023 < 1024 by decide)
  have hdir : entryAddr (vm.table (pageAddr d) 1023) = pageAddr d := by rw [entryAddr_eq, hpage]
  have hmapped : SelfMapped (physOf vm) (d * PG_SIZE) := by
    constructor
    · rw [hlast]
      exact hp
    · rw [hlast, pageBase_eq]
      exact congrArg (· * PG_SIZE) hpage
  have hpde := physOf_entry vm d (pdeIdx_lt hv)
  have hpresent' : physOf vm (d * PG_SIZE + 4 * PDE_IDX v) &&& PG_P ≠ 0 := by
    rw [hpde]
    exact hpresent
  refine ⟨?_, ?_⟩
  · rw [translate_getPde hmapped hv, Vm.getPde, hdir, hdir, getPaddr, pageAddr,
      Nat.add_sub_cancel]
  · rw [translate_getPte hmapped hv hpresent', Vm.getPte, hdir, hpde, pageBase, entryAddr, getPaddr,
      Nat.add_sub_cancel]

end

/-- For every physical memory with a directory that leads to itself, and every address with a
directory entry: `get_pde` and `get_pte` are addresses of its two entries, and with the second entry
present `get_paddr` is the page walk. -/
theorem selfMap_entries {mem : PhysMem} {pd : Nat} (h : SelfMapped mem pd) {v : Nat}
    (hv : v < 2 ^ 32) (hpresent : mem (pd + 4 * PDE_IDX v) &&& PG_P ≠ 0) :
    translate mem pd (getPde v) = some (pd + 4 * PDE_IDX v) ∧
    translate mem pd (getPte v) = some (pageBase (mem (pd + 4 * PDE_IDX v)) + 4 * PTE_IDX v) ∧
    (mem (pageBase (mem (pd + 4 * PDE_IDX v)) + 4 * PTE_IDX v) &&& PG_P ≠ 0 →
      loadPaddr mem pd v = translate mem pd v ∧ (translate mem pd v).isSome) := by
  refine ⟨translate_getPde h hv, translate_getPte h hv hpresent, fun hpte => ?_⟩
  have hwalk := translate_some rfl hpresent rfl hpte
  rw [loadPaddr, loadVirt, translate_getPte h hv hpresent, hwalk]
  refine ⟨?_, rfl⟩
  rw [← pageBase_or]
  rfl

/-- A directory at `0x100000` as the loader makes it, with a page table behind it that maps the page
`0x5000` at `0x8048000`. -/
def loaderTables : PhysMem := fun addr =>
  if addr = 0x100000 + 4 * 1023 then 0x100000 ||| PG_SUPERVISOR ||| PG_P ||| PG_RWE
  else if addr = 0x100000 + 4 * 32 then 0x101000 ||| PG_P
  else if addr = 0x101000 + 4 * 72 then 0x5000 ||| PG_P
  else 0

theorem selfMap_entries_loader : loadPaddr loaderTables 0x100000 0x8048123 = some 0x5123 := by
  have hself : SelfMapped loaderTables 0x100000 :=
    selfMapped_of_entry ⟨0x100, rfl⟩ (by decide) rfl
  obtain ⟨-, -, hpaddr⟩ := selfMap_entries hself (v := 0x8048123) (by decide) (by decide)
  rw [(hpaddr (by decide)).1]
  decide

end Fizzos.Proofs
