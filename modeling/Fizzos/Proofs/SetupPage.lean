import Fizzos.Boot.SetupPage
import Fizzos.Proofs.PoolInit
import Fizzos.Proofs.SelfMap
import Fizzos.Support.Stores

/-!
# `Fizzos.Proofs.SetupPage`: the direct mapping

The directory behind `setup_page` (`dirEntry`), and the page tables behind `pool_init`
(`tableEntry`), for any content of memory in front of them. With both, the paging unit translates
every address of the kernel to the address `0xc0000000` below it, up to the end of memory
(`translate_kernel`).
-/

set_option autoImplicit false

namespace Fizzos.Proofs

open Fizzos.Boot
open Fizzos.Kernel
open Fizzos.Support

/-- The entry `i` of the directory. -/
def dirEntry (i : Nat) : Word :=
  if i = 0 then 0x101007
  else if i < 768 then 0
  else if i < 1023 then BitVec.ofNat 32 (0x101007 + 0x1000 * (i - 768))
  else 0x100007

/-- The entry for the page `n` of memory. -/
def tableEntry (totalMemSize n : Nat) : Word :=
  if n < 512 then BitVec.ofNat 32 (4096 * n + 7)
  else if n < totalMemSize / PG_SIZE then directEntry n
  else 0

/-! ### The directory -/

section
variable (mem : PhysMem)

/-- Four bytes are a word. -/
theorem clearByte_word {w : Nat} (hw : w % 4 = 0) :
    clearByte (clearByte (clearByte (clearByte mem w) (w + 1)) (w + 2)) (w + 3)
      = Function.update mem w 0 := by
  have hbase (k : Nat) (hk : k < 4) : (w + k) / 4 * 4 = w ∧ (w + k) % 4 = k := by omega
  have h0 := hbase 0 (by decide)
  rw [Nat.add_zero] at h0
  unfold clearByte
  rw [h0.1, h0.2, (hbase 1 (by decide)).1, (hbase 1 (by decide)).2, (hbase 2 (by decide)).1,
    (hbase 2 (by decide)).2, (hbase 3 (by decide)).1, (hbase 3 (by decide)).2]
  simp only [Function.update_self, Function.update_idem, BitVec.and_assoc]
  have hmask : ~~~((0xff : Word) <<< (8 * 0)) &&& (~~~((0xff : Word) <<< (8 * 1)) &&&
      (~~~((0xff : Word) <<< (8 * 2)) &&& ~~~((0xff : Word) <<< (8 * 3)))) = 0 := by decide
  rw [hmask]
  exact congrArg _ BitVec.and_zero

/-- Four bytes that are cleared are one word. -/
theorem clearBytes (n : Nat) :
    (List.range (4 * n)).foldl (fun mem esi => clearByte mem (PAGE_DIR_TABLE_POS + esi)) mem
      = ((List.range n).map fun i => (PAGE_DIR_TABLE_POS + 4 * i, (0 : Word))).foldl
        (fun mem e => Function.update mem e.1 e.2) mem := by
  induction n with
  | zero => rfl
  | succ n ih =>
      rw [Nat.mul_succ, List.range_succ, List.range_succ, List.range_succ, List.range_succ,
        List.range_succ]
      simp only [List.foldl_append, List.foldl_cons, List.foldl_nil, List.map_append, List.map_cons,
        List.map_nil]
      rw [ih]
      exact clearByte_word _ (by rw [PAGE_DIR_TABLE_POS]; omega)

/-- The loop of the loader clears the 1024 entries of the directory. -/
theorem clearPageDir_eq : clearPageDir mem
    = PhysWords.store mem ((List.range 1024).map fun i =>
      (PAGE_DIR_TABLE_POS + 4 * i, (0 : Word))) :=
  clearBytes mem 1024

end

/-- The stores of `setup_page` behind the clear loop. -/
def pageStores : List (Nat × Word) := createPde ++ createPte ++ createKernelPde

/-- The stores of the loader: three entries, the first page tables, and the directory of the
kernel. -/
theorem mem_pageStores {e : Nat × Word} : e ∈ pageStores ↔
    (e = (0x100000, 0x101007) ∨ e = (0x100c00, 0x101007) ∨ e = (0x100ffc, 0x100007)) ∨
      (∃ n < 512, e = (PAGE_TABLES + n * 4, BitVec.ofNat 32 (4096 * n + 7))) ∨
      ∃ i, 769 ≤ i ∧ i < 1023 ∧
        e = (PAGE_DIR_TABLE_POS + i * 4, BitVec.ofNat 32 (0x101007 + 0x1000 * (i - 768))) := by
  have hpde : e ∈ createPde
      ↔ e = (0x100000, 0x101007) ∨ e = (0x100c00, 0x101007) ∨ e = (0x100ffc, 0x100007) := by
    rw [show createPde = [(0x100000, 0x101007), (0x100c00, 0x101007), (0x100ffc, 0x100007)]
      from rfl]
    simp only [List.mem_cons, List.not_mem_nil, or_false]
  have hpte : e ∈ createPte ↔
      ∃ n < 512, e = (PAGE_TABLES + n * 4, BitVec.ofNat 32 (4096 * n + 7)) := by
    have hentry (n : Nat) : (PG_US_U ||| PG_RW_W ||| PG_P) + BitVec.ofNat 32 (4096 * n)
        = BitVec.ofNat 32 (4096 * n + 7) := by
      rw [Nat.add_comm, BitVec.ofNat_add]
      rfl
    simp only [createPte, List.mem_map, List.mem_range, hentry, eq_comm]
  have hkernel : e ∈ createKernelPde ↔ ∃ i, 769 ≤ i ∧ i < 1023 ∧
      e = (PAGE_DIR_TABLE_POS + i * 4, BitVec.ofNat 32 (0x101007 + 0x1000 * (i - 768))) := by
    -- The loader adds 4 KiB for each table, so no bit carries into the flags.
    have hentry (i : Nat) (hi : 769 ≤ i) : (BitVec.ofNat 32 (PAGE_DIR_TABLE_POS + 0x2000) |||
        (PG_US_U ||| PG_RW_W ||| PG_P)) + BitVec.ofNat 32 (0x1000 * (i - 769))
        = BitVec.ofNat 32 (0x101007 + 0x1000 * (i - 768)) := by
      have hsum : 0x101007 + 0x1000 * (i - 768) = 0x102007 + 0x1000 * (i - 769) := by omega
      have hbase : BitVec.ofNat 32 (PAGE_DIR_TABLE_POS + 0x2000) ||| (PG_US_U ||| PG_RW_W ||| PG_P)
          = BitVec.ofNat 32 0x102007 := by decide
      rw [hsum, hbase]
      exact (BitVec.ofNat_add _ _).symm
    simp only [createKernelPde, List.mem_map, List.mem_range'_1]
    constructor
    · rintro ⟨i, ⟨hlo, hhi⟩, rfl⟩
      exact ⟨i, hlo, hhi, by rw [hentry i hlo]⟩
    · rintro ⟨i, hlo, hhi, rfl⟩
      exact ⟨i, ⟨hlo, hhi⟩, by rw [hentry i hlo]⟩
  rw [pageStores, List.mem_append, List.mem_append, hpde, hpte, hkernel, or_assoc]

/-- Each store to the directory has the entry that is there at the end. -/
theorem pageStores_dir {e : Nat × Word} (he : e ∈ pageStores) {i : Nat} (hi : i < 1024)
    (haddr : e.1 = PAGE_DIR_TABLE_POS + 4 * i) : e.2 = dirEntry i := by
  have hpos : PAGE_DIR_TABLE_POS = 0x100000 := rfl
  obtain (rfl | rfl | rfl) | ⟨n, hn, rfl⟩ | ⟨k, hlo, hhi, rfl⟩ := mem_pageStores.mp he
  · obtain rfl : i = 0 := by simp only at haddr; omega
    rfl
  · obtain rfl : i = 768 := by simp only at haddr; omega
    rfl
  · obtain rfl : i = 1023 := by simp only at haddr; omega
    rfl
  · simp only [PAGE_TABLES] at haddr
    omega
  · obtain rfl : k = i := by simp only at haddr; omega
    rw [dirEntry, if_neg (by omega), if_neg (by omega), if_pos hhi]

/-- The directory behind `setup_page`. -/
theorem setupPage_dir (mem : PhysMem) {i : Nat} (hi : i < 1024) :
    setupPage mem (PAGE_DIR_TABLE_POS + 4 * i) = dirEntry i := by
  have hpos : PAGE_DIR_TABLE_POS = 0x100000 := rfl
  rw [setupPage, clearPageDir_eq, PhysWords.store]
  by_cases hset : i = 0 ∨ 768 ≤ i
  · refine foldl_update_of_mem (mem_pageStores.mpr ?_) fun e he => pageStores_dir he hi
    obtain rfl | hlo := hset
    · exact .inl (.inl rfl)
    · obtain rfl | rfl | hmid : i = 768 ∨ i = 1023 ∨ 769 ≤ i ∧ i < 1023 := by omega
      · exact .inl (.inr (.inl rfl))
      · exact .inl (.inr (.inr rfl))
      · refine .inr (.inr ⟨i, hmid.1, hmid.2, ?_⟩)
        rw [dirEntry, if_neg (by omega), if_neg (by omega), if_pos hmid.2, Nat.mul_comm]
  · -- The user part of the directory is cleared, and stays so.
    have hzero : dirEntry i = 0 := by rw [dirEntry, if_neg (by omega), if_pos (by omega)]
    rw [foldl_update_of_notMem, hzero]
    · refine foldl_update_of_mem (List.mem_map.mpr ⟨i, List.mem_range.mpr hi, rfl⟩) fun e he _ => ?_
      obtain ⟨k, -, rfl⟩ := List.mem_map.mp he
      rfl
    · intro e he heq
      obtain (rfl | rfl | rfl) | ⟨n, hn, rfl⟩ | ⟨k, hlo, hhi, rfl⟩ := mem_pageStores.mp he <;>
        simp only [PAGE_TABLES] at heq <;> omega

/-- The first half of the first page table behind `setup_page`. -/
theorem setupPage_table (mem : PhysMem) {n : Nat} (hn : n < 512) :
    setupPage mem (PAGE_TABLES + 4 * n) = BitVec.ofNat 32 (4096 * n + 7) := by
  have hpos : PAGE_DIR_TABLE_POS = 0x100000 := rfl
  have htables : PAGE_TABLES = 0x101000 := rfl
  refine foldl_update_of_mem (mem_pageStores.mpr (.inr (.inl ⟨n, hn, by rw [Nat.mul_comm]⟩))) ?_
  intro e he heq
  obtain (rfl | rfl | rfl) | ⟨k, hk, rfl⟩ | ⟨k, hlo, hhi, rfl⟩ := mem_pageStores.mp he
  · simp only at heq; omega
  · simp only at heq; omega
  · simp only at heq; omega
  · obtain rfl : k = n := by simp only at heq; omega
    rfl
  · simp only at heq; omega

/-! ### The tables -/

section
variable {totalMemSize : Nat}

/-- The loops of `pool_init` that fill tables go to entries behind the ones of the loader. -/
theorem mem_fill {e : Nat × Word} (he : e ∈ firstTable ++ pageTables totalMemSize) :
    ∃ n, 512 ≤ n ∧ e = (PAGE_TABLES + 4 * n, directEntry n) := by
  obtain he | he := List.mem_append.mp he
  · obtain ⟨n, hn, rfl⟩ := List.mem_map.mp he
    exact ⟨n, (List.mem_range'_1.mp hn).1, by rw [Nat.mul_comm]⟩
  · obtain ⟨i, hi, he⟩ := List.mem_flatMap.mp he
    obtain ⟨j, hj, rfl⟩ := List.mem_map.mp he
    have hi' := (List.mem_range'_1.mp hi).1
    refine ⟨i * 1024 + j, by omega, ?_⟩
    rw [show PAGE_TABLES + PG_SIZE * i + j * 4 = PAGE_TABLES + 4 * (i * 1024 + j) by
      rw [PG_SIZE]; omega]

/-- They go to all pages of memory. -/
theorem fill_mem {n : Nat} (hlo : 512 ≤ n) (hhi : n < totalMemSize / PG_SIZE) :
    (PAGE_TABLES + 4 * n, directEntry n) ∈ firstTable ++ pageTables totalMemSize := by
  rw [List.mem_append]
  by_cases hfirst : n < 1024
  · exact .inl (List.mem_map.mpr ⟨n, List.mem_range'_1.mpr ⟨hlo, by omega⟩, by rw [Nat.mul_comm]⟩)
  · refine .inr (List.mem_flatMap.mpr ⟨n / 1024, List.mem_range'_1.mpr ⟨by omega, ?_⟩, ?_⟩)
    · rw [PG_SIZE] at hhi
      rw [DIV_ROUND_UP, PG_SIZE]
      omega
    · refine List.mem_map.mpr ⟨n % 1024, List.mem_range.mpr (Nat.mod_lt _ (by decide)), ?_⟩
      rw [show n / 1024 * 1024 + n % 1024 = n by omega,
        show PAGE_TABLES + PG_SIZE * (n / 1024) + n % 1024 * 4 = PAGE_TABLES + 4 * n by
          rw [PG_SIZE]; omega]

/-- The last loop clears the entries of pages that do not exist. -/
theorem mem_noMemory {e : Nat × Word} : e ∈ noMemory totalMemSize ↔
    ∃ n, totalMemSize / PG_SIZE ≤ n ∧ n < 255 * 1024 ∧ e = (PAGE_TABLES + 4 * n, 0) := by
  have htables : PAGE_TABLES = 0x101000 := rfl
  rw [noMemory, List.mem_map]
  constructor
  · rintro ⟨a, ha, rfl⟩
    obtain ⟨k, hk, rfl⟩ := List.mem_range'.mp ha
    exact ⟨totalMemSize / PG_SIZE + k, by omega, by omega, by
      rw [show PAGE_TABLES + totalMemSize / PG_SIZE * 4 + 4 * k
        = PAGE_TABLES + 4 * (totalMemSize / PG_SIZE + k) by omega]⟩
  · rintro ⟨n, hlo, hhi, rfl⟩
    exact ⟨_, List.mem_range'.mpr ⟨n - totalMemSize / PG_SIZE, by omega, by omega⟩, rfl⟩

end

/-- The directory and the tables as the loader and `pool_init` leave them. -/
structure BootTables (totalMemSize : Nat) (mem : PhysMem) : Prop where
  dir : ∀ i < 1024, mem (PAGE_DIR_TABLE_POS + 4 * i) = dirEntry i
  tables : ∀ n < 255 * 1024, mem (PAGE_TABLES + 4 * n) = tableEntry totalMemSize n

/-- `pool_init` completes the tables of the loader, whatever else has been written in between. -/
theorem bootTables {totalMemSize : Nat} (hmin : totalMemSize > 512 * PG_SIZE) {mem mem' : PhysMem}
    (hsame : ∀ a, PAGE_DIR_TABLE_POS ≤ a → a < POOL_START → mem' a = setupPage mem a) :
    BootTables totalMemSize (PhysWords.store mem' (entryStores totalMemSize)) := by
  have hpos : PAGE_DIR_TABLE_POS = 0x100000 := rfl
  have htables : PAGE_TABLES = 0x101000 := rfl
  have hend : POOL_START = 0x200000 := rfl
  have hpages : 512 < totalMemSize / PG_SIZE + 1 := by
    rw [PG_SIZE] at hmin ⊢
    omega
  constructor
  · -- the directory is below the tables, and `pool_init` does not write there
    intro i hi
    rw [PhysWords.store, foldl_update_of_notMem, hsame _ (by omega) (by omega),
      setupPage_dir mem hi]
    intro e he heq
    obtain he | he := List.mem_append.mp he
    · obtain ⟨n, hn, rfl⟩ := mem_fill he
      simp only at heq
      omega
    · obtain ⟨n, hlo, hhi, rfl⟩ := mem_noMemory.mp he
      simp only at heq
      omega
  · intro n hn
    rw [PhysWords.store, entryStores, List.foldl_append, tableEntry]
    -- The last loop clears the entries above the memory, also those that the loop before it has
    -- filled.
    by_cases hclear : totalMemSize / PG_SIZE ≤ n
    · rw [if_neg (by omega), if_neg (by omega)]
      refine foldl_update_of_mem (mem_noMemory.mpr ⟨n, hclear, hn, rfl⟩) fun e he _ => ?_
      obtain ⟨k, -, -, rfl⟩ := mem_noMemory.mp he
      rfl
    · rw [foldl_update_of_notMem fun e he heq => ?_]
      · by_cases hlow : n < 512
        · rw [if_pos hlow, foldl_update_of_notMem, hsame _ (by omega) (by omega),
            setupPage_table mem hlow]
          intro e he heq
          obtain ⟨k, hk, rfl⟩ := mem_fill he
          simp only at heq
          omega
        · rw [if_neg hlow, if_pos (by omega)]
          refine foldl_update_of_mem (fill_mem (by omega) (by omega)) fun e he heq => ?_
          obtain ⟨k, hk, rfl⟩ := mem_fill he
          obtain rfl : k = n := by simp only at heq; omega
          rfl
      · obtain ⟨k, hlo, hhi, rfl⟩ := mem_noMemory.mp he
        simp only at heq
        omega

/-! ### The walk -/

/-- The entries of the directory at `pd` that are for the kernel. -/
def KernelHalf (mem : PhysMem) (pd : Nat) : Prop :=
  ∀ i, 768 ≤ i → i < 1023 → mem (pd + 4 * i) = dirEntry i

/-- The present bit is the lowest one. -/
theorem present_iff (w : Word) : w &&& PG_P = 0 ↔ w.toNat % 2 = 0 := by
  rw [← BitVec.toNat_inj, BitVec.toNat_and]
  exact (Nat.and_one_is_mod w.toNat) ▸ Iff.rfl

section
variable {n f : Nat} (hn : n < 2 ^ 20) (hf : f < 4096)
include hn hf

/-- An entry is a page and its flags. -/
theorem toNat_entry : (BitVec.ofNat 32 (4096 * n + f)).toNat = 4096 * n + f := by
  rw [BitVec.toNat_ofNat]
  exact Nat.mod_eq_of_lt (by omega)

/-- Without the flags it is the address of the page. -/
theorem pageBase_entry : pageBase (BitVec.ofNat 32 (4096 * n + f)) = 4096 * n := by
  rw [pageBase_eq, toNat_entry hn hf, PG_SIZE]
  omega

/-- With the lowest flag set it is present. -/
theorem present_entry (hodd : f % 2 = 1) : BitVec.ofNat 32 (4096 * n + f) &&& PG_P ≠ 0 := by
  rw [Ne, present_iff, toNat_entry hn hf]
  omega

end

/-- The entries of `pool_init` are present and nothing else. -/
theorem directEntry_eq {n : Nat} (hn : n < 2 ^ 20) :
    directEntry n = BitVec.ofNat 32 (4096 * n + 1) := by
  have hflags : directEntry n = BitVec.ofNat 32 (n * PG_SIZE) ||| PG_P := BitVec.or_zero
  apply BitVec.eq_of_toNat_eq
  rw [toNat_entry hn (by decide), hflags, BitVec.toNat_or, BitVec.toNat_ofNat,
    Nat.mod_eq_of_lt (by rw [PG_SIZE]; omega), PG_SIZE, Nat.mul_comm]
  exact (Nat.two_pow_add_eq_or_of_lt (by decide : 1 < 2 ^ 12) n).symm

section
variable {totalMemSize : Nat} {mem : PhysMem} {pd v i a : Nat}

/-- A walk through the `i`-th table reaches the page of `a`. -/
theorem translate_table (hmin : totalMemSize > 512 * PG_SIZE)
    (htables : ∀ n < 255 * 1024, mem (PAGE_TABLES + 4 * n) = tableEntry totalMemSize n)
    (hdir : mem (pd + 4 * PDE_IDX v) = BitVec.ofNat 32 (0x101007 + 0x1000 * i)) (hi : i < 255)
    (ha : a = i * 2 ^ 22 + v % 2 ^ 22) :
    translate mem pd v = if a / PG_SIZE < totalMemSize / PG_SIZE then some a else none := by
  have hpde : BitVec.ofNat 32 (0x101007 + 0x1000 * i)
      = BitVec.ofNat 32 (4096 * (0x101 + i) + 7) := by
    rw [show 0x101007 + 0x1000 * i = 4096 * (0x101 + i) + 7 by omega]
  rw [hpde] at hdir
  have hindex := pteIdx_eq v
  have hpage : a / PG_SIZE = i * 1024 + PTE_IDX v := by rw [PG_SIZE]; omega
  have hoff : v % PG_SIZE = a % PG_SIZE := by rw [PG_SIZE]; omega
  have hlt : PTE_IDX v < 1024 := pteIdx_lt v
  have hpte : mem (pageBase (mem (pd + 4 * PDE_IDX v)) + 4 * PTE_IDX v)
      = tableEntry totalMemSize (a / PG_SIZE) := by
    rw [hdir, pageBase_entry (by omega) (by decide), hpage, ← htables _ (by omega)]
    exact congrArg mem (by rw [PAGE_TABLES]; omega)
  -- The entry of the directory is present, so the walk goes on to the table.
  have hpresent := present_entry (n := 0x101 + i) (f := 7) (by omega) (by decide) (by decide)
  unfold Kernel.translate
  simp only [hpte]
  rw [hdir, if_neg hpresent]
  have hn : a / PG_SIZE < 2 ^ 20 := by omega
  have hmin' : 512 ≤ totalMemSize / PG_SIZE := by rw [PG_SIZE] at hmin ⊢; omega
  have hsplit : 4096 * (a / PG_SIZE) + v % PG_SIZE = a := by
    rw [hoff, PG_SIZE]
    omega
  rw [tableEntry]
  -- The first 512 entries are those of the loader, the others are those of `pool_init`.
  by_cases hlow : a / PG_SIZE < 512
  · have hmem : a / PG_SIZE < totalMemSize / PG_SIZE := by omega
    rw [if_pos hlow, if_pos hmem, if_neg (present_entry hn (by decide) (by decide)),
      pageBase_entry hn (by decide), hsplit]
  · rw [if_neg hlow]
    by_cases hmem : a / PG_SIZE < totalMemSize / PG_SIZE
    · rw [if_pos hmem, if_pos hmem, directEntry_eq hn,
        if_neg (present_entry hn (by decide) (by decide)),   pageBase_entry hn (by decide), hsplit]
    · rw [if_neg hmem, if_neg hmem]
      rfl

/-- The direct mapping: the kernel finds the physical address `a` at `0xc0000000 + a`. -/
theorem translate_kernel (hmin : totalMemSize > 512 * PG_SIZE)
    (htables : ∀ n < 255 * 1024, mem (PAGE_TABLES + 4 * n) = tableEntry totalMemSize n)
    (hdir : KernelHalf mem pd) (ha : a < 255 * 2 ^ 22) :
    translate mem pd (KERNEL_VADDR_START + a)
      = if a / PG_SIZE < totalMemSize / PG_SIZE then some a else none := by
  have hstart : KERNEL_VADDR_START = 768 * 2 ^ 22 := rfl
  have hidx : PDE_IDX (KERNEL_VADDR_START + a) = 768 + a / 2 ^ 22 := by
    rw [pdeIdx_eq]
    omega
  refine translate_table hmin htables (i := a / 2 ^ 22) ?_ (by omega) (by omega)
  rw [hidx, hdir _ (by omega) (by omega), dirEntry, if_neg (by omega), if_neg (by omega),
    if_pos (by omega), Nat.add_sub_cancel_left]

end

/-! ### Boot -/

/-- The directory of the loader maps the first 4 MiB at 0 as well, and no other user memory. -/
theorem BootTables.translate_user {totalMemSize : Nat} {mem : PhysMem}
    (h : BootTables totalMemSize mem)
    (hmin : totalMemSize > 512 * PG_SIZE) {v : Nat} (hv : v < KERNEL_VADDR_START) :
    translate mem PAGE_DIR_TABLE_POS v
      = if v < 2 ^ 22 ∧ v / PG_SIZE < totalMemSize / PG_SIZE then some v else none := by
  have hstart : KERNEL_VADDR_START = 768 * 2 ^ 22 := rfl
  have hidx := pdeIdx_eq v
  have hdir := h.dir (PDE_IDX v) (by omega)
  by_cases hlow : v < 2 ^ 22
  · have hzero : PDE_IDX v = 0 := by omega
    rw [translate_table (i := 0) hmin h.tables (hdir.trans (by rw [hzero]; rfl)) (by decide)
      (by omega : v = 0 * 2 ^ 22 + v % 2 ^ 22)]
    exact if_congr (and_iff_right hlow).symm rfl rfl
  · have hnone : dirEntry (PDE_IDX v) = 0 := by rw [dirEntry, if_neg (by omega), if_pos (by omega)]
    rw [if_neg fun hand => hlow hand.1]
    unfold Kernel.translate
    rw [hdir, hnone]
    rfl

/-- The directory has an entry for itself. -/
theorem BootTables.selfMapped {totalMemSize : Nat} {mem : PhysMem}
    (h : BootTables totalMemSize mem) : SelfMapped mem PAGE_DIR_TABLE_POS := by
  have hentry := h.dir 1023 (by decide)
  exact ⟨by rw [hentry]; decide, by rw [hentry]; decide⟩

/-- `pool_init` returns with the tables complete. -/
theorem poolInit_tables {mem words : PhysMem} {b : Buddy} {totalMemSize : Nat} {current : Tid}
    {x : Booted}
    (hsame : ∀ a, PAGE_DIR_TABLE_POS ≤ a → a < POOL_START → words a = setupPage mem a)
    (hboot : poolInit words b totalMemSize current = .ok x) :
    totalMemSize > 512 * PG_SIZE ∧ BootTables totalMemSize x.words := by
  obtain ⟨_, hmin, hboot⟩ := bind_eq_ok.mp hboot
  obtain ⟨_, -, hboot⟩ := bind_eq_ok.mp hboot
  obtain ⟨⟨saddr, b₁⟩, -, hboot⟩ := bind_eq_ok.mp hboot
  obtain ⟨⟨reserved, b₂⟩, -, hret⟩ := bind_eq_ok.mp hboot
  have hwords : x.words = PhysWords.store words (entryStores totalMemSize) := by
    rw [← Except.ok.inj hret]
  rw [hwords]
  exact ⟨ASSERT_eq_ok.mp hmin, bootTables (ASSERT_eq_ok.mp hmin) hsame⟩

/-- The address space behind boot, for every size of memory that `pool_init` returns with, and
whatever the memory was: the kernel sees physical memory from `0xc0000000` on, and nothing behind
its end. The first 4 MiB are also at 0, there is no other user memory, and the directory leads to
itself. -/
theorem boot_direct_map {mem words : PhysMem} {b : Buddy} {totalMemSize : Nat} {current : Tid}
    {x : Booted}
    (hsame : ∀ a, PAGE_DIR_TABLE_POS ≤ a → a < POOL_START → words a = setupPage mem a)
    (hboot : poolInit words b totalMemSize current = .ok x) :
    (∀ a < 255 * 2 ^ 22, translate x.words PAGE_DIR_TABLE_POS (KERNEL_VADDR_START + a)
      = if a / PG_SIZE < totalMemSize / PG_SIZE then some a else none) ∧
    (∀ v < KERNEL_VADDR_START, translate x.words PAGE_DIR_TABLE_POS v
      = if v < 2 ^ 22 ∧ v / PG_SIZE < totalMemSize / PG_SIZE then some v else none) ∧
    SelfMapped x.words PAGE_DIR_TABLE_POS := by
  obtain ⟨hmin, htables⟩ := poolInit_tables hsame hboot
  refine ⟨fun a ha => ?_, fun v hv => htables.translate_user hmin hv, htables.selfMapped⟩
  have hdir : KernelHalf x.words PAGE_DIR_TABLE_POS := fun i _ hhi =>
    htables.dir i (Nat.lt_succ_of_lt hhi)
  exact translate_kernel hmin htables.tables hdir ha

/-- A machine with 16 MiB: the last page is there, and the next one is not. -/
theorem boot_direct_map_16M : ∃ x,
    poolInit (setupPage fun _ => 0xffffffff) zeroedBuddy 0x1000000 0 = .ok x ∧
    translate x.words PAGE_DIR_TABLE_POS (KERNEL_VADDR_START + 0xffffff) = some 0xffffff ∧
    translate x.words PAGE_DIR_TABLE_POS (KERNEL_VADDR_START + 0x1000000) = none := by
  obtain ⟨-, x, -, hboot, -⟩ := @boots_of_rightSize 0x1000000 ⟨by decide, by decide⟩
    (setupPage fun _ => 0xffffffff) zeroedBuddy 0 zeroedBuddy_zeroed
  obtain ⟨hmap, -, -⟩ := boot_direct_map (fun _ _ _ => rfl) hboot
  exact ⟨x, hboot, (hmap 0xffffff (by decide)).trans (if_pos (by decide)),
    (hmap 0x1000000 (by decide)).trans (if_neg (by decide))⟩

end Fizzos.Proofs
