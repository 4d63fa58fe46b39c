import Fizzos.Kernel.DescTables
import Fizzos.Support.Stores
import Mathlib.Tactic.IntervalCases

/-!
# `Fizzos.Proofs.Protection`: what a program can reach past the pages

`make_desc` and `make_idt_desc` write descriptors that the processor reads back as their arguments
(`makeDesc_decode`, `makeIdtDesc_decode`). The table of the loader with the segments of `tss_init`
has seven entries (`bootSegs`), and the gates come from the loop of `idt_desc_init`
(`idtDescInit_eq`). A check of the processor at level 3 comes down to these entries
(`user_confined`).
-/

set_option autoImplicit false

namespace Fizzos.Proofs

open Fizzos.Kernel
open Fizzos.Support
open Fizzos.Support.X86

/-! ### `make_desc` -/

section
variable (base limit : Dword) (G D_B S : Bool) (dpl : BitVec 2) (TYPE : Dword)

/-- The two words of `make_desc`. -/
def descLow : Dword := (limit &&& 0xffff) ||| ((base &&& 0xffff) <<< 16)

/-- The upper word of a descriptor, as `make_gdt_desc` puts it together. -/
def descHigh : Dword :=
  ((base &&& 0xff0000) >>> 16) ||| ((TYPE &&& 0xf) <<< 8)
    ||| ((BitVec.ofBool S).setWidth 32 <<< 12) |||
    (dpl.setWidth 32 <<< 13) ||| (DESC_P <<< 15) ||| (limit &&& 0xf0000) ||| (DESC_AVL <<< 20) |||
    ((BitVec.ofBool D_B).setWidth 32 <<< 22) ||| ((BitVec.ofBool G).setWidth 32 <<< 23) |||
    (base &&& 0xff000000)

/-- The lower word has the lower 16 bits of the limit. -/
theorem descLow_limit : (descLow base limit).extractLsb' 0 16 = limit.extractLsb' 0 16 := by
  apply BitVec.eq_of_getLsbD_eq
  intro i hi
  interval_cases i <;> simp [descLow]

/-- It has the lower 16 bits of the base above them. -/
theorem descLow_base : (descLow base limit).extractLsb' 16 16 = base.extractLsb' 0 16 := by
  apply BitVec.eq_of_getLsbD_eq
  intro i hi
  interval_cases i <;> simp [descLow]

/-- The upper word has the other 16 bits of the base, at its two ends. -/
theorem descHigh_base :
    (descHigh base limit G D_B S dpl TYPE).extractLsb' 0 8 = base.extractLsb' 16 8 ∧
      (descHigh base limit G D_B S dpl TYPE).extractLsb' 24 8 = base.extractLsb' 24 8 := by
  constructor
  · apply BitVec.eq_of_getLsbD_eq
    intro i hi
    interval_cases i <;> simp [descHigh, DESC_P, DESC_AVL]
  · apply BitVec.eq_of_getLsbD_eq
    intro i hi
    interval_cases i <;> simp [descHigh, DESC_P, DESC_AVL]

/-- The upper four bits of the limit are in the middle. -/
theorem descHigh_limit :
    (descHigh base limit G D_B S dpl TYPE).extractLsb' 16 4 = limit.extractLsb' 16 4 := by
  apply BitVec.eq_of_getLsbD_eq
  intro i hi
  interval_cases i <;> simp [descHigh, DESC_P, DESC_AVL]

/-- The type is behind the first byte of the base. -/
theorem descHigh_typ : (descHigh base limit G D_B S dpl TYPE).extractLsb' 8 4
    = TYPE.setWidth 4 := by
  apply BitVec.eq_of_getLsbD_eq
  intro i hi
  interval_cases i <;> simp [descHigh, DESC_P, DESC_AVL]

/-- The level that may use the segment is in two bits above the type. -/
theorem descHigh_dpl : (descHigh base limit G D_B S dpl TYPE).extractLsb' 13 2 = dpl := by
  apply BitVec.eq_of_getLsbD_eq
  intro i hi
  interval_cases i <;> simp [descHigh, DESC_P, DESC_AVL]

/-- The bits that stand alone: if it is a segment of the system, if it is present, the size of its
operands, and the unit of its limit. -/
theorem descHigh_flags :
    (descHigh base limit G D_B S dpl TYPE).getLsbD 12 = S ∧
      (descHigh base limit G D_B S dpl TYPE).getLsbD 15 = true ∧
      (descHigh base limit G D_B S dpl TYPE).getLsbD 22 = D_B ∧
      (descHigh base limit G D_B S dpl TYPE).getLsbD 23 = G := by
  refine ⟨?_, ?_, ?_, ?_⟩ <;> simp [descHigh, DESC_P, DESC_AVL]

/-- The processor finds the arguments in the words of `make_desc`. The limit has 20 bits there. -/
theorem decode_desc : SegDesc.decode (descLow base limit) (descHigh base limit G D_B S dpl TYPE) =
    ⟨base, limit.setWidth 20, TYPE.setWidth 4, S, dpl, true, D_B, G⟩ := by
  obtain ⟨hmid, htop⟩ := descHigh_base base limit G D_B S dpl TYPE
  obtain ⟨hs, hp, hdb, hg⟩ := descHigh_flags base limit G D_B S dpl TYPE
  have hbase : base.extractLsb' 24 8 ++ base.extractLsb' 16 8 ++ base.extractLsb' 0 16 = base := by
    rw [BitVec.extractLsb'_append_extractLsb'_eq_extractLsb' (by rfl),
      BitVec.extractLsb'_append_extractLsb'_eq_extractLsb' (by rfl)]
    exact BitVec.extractLsb'_eq_self
  have hlimit : limit.extractLsb' 16 4 ++ limit.extractLsb' 0 16 = limit.setWidth 20 := by
    rw [BitVec.extractLsb'_append_extractLsb'_eq_extractLsb' (by rfl)]
    rfl
  rw [SegDesc.decode, hmid, htop, descLow_base, descHigh_limit, descLow_limit,
    descHigh_typ, descHigh_dpl, hs, hp, hdb, hg, hbase, hlimit]

end

/-- The halves of a `uint64_t`. -/
theorem quad_low (hi lo : Dword) :
    ((hi.setWidth 64 <<< 32) + lo.setWidth 64 : BitVec 64).setWidth 32 = lo := by
  apply BitVec.eq_of_toNat_eq
  simp
  omega

/-- A descriptor is stored as 64 bits, and its upper word comes back. -/
theorem quad_high (hi lo : Dword) :
    (((hi.setWidth 64 <<< 32) + lo.setWidth 64 : BitVec 64) >>> 32).setWidth 32 = hi := by
  apply BitVec.eq_of_toNat_eq
  simp [Nat.shiftRight_eq_div_pow, Nat.shiftLeft_eq]
  omega

/-- `make_desc` for a level between 0 and 3. -/
theorem makeDesc_eq (base : Dword) (G D_B : Bool) (limit : Dword) (dpl : BitVec 2) (S : Bool)
    (TYPE : Dword) : makeDesc base G D_B limit (dpl.setWidth 32) S TYPE = .ok
      ((descHigh base limit G D_B S dpl TYPE).setWidth 64 <<< 32
        + (descLow base limit).setWidth 64) := by
  have hdpl : ∀ d : BitVec 2, 0 ≤ (d.setWidth 32).toInt ∧ (d.setWidth 32).toInt ≤ 3 := by decide
  rw [makeDesc, ASSERT, if_pos (hdpl dpl)]
  rfl

/-- For every base, limit, level and type, `make_desc` fails its `ASSERT` or gives a descriptor that
the processor reads as these arguments, with the low 20 bits of the limit and the low 4 bits of the
type. -/
theorem makeDesc_decode (base : Dword) (G D_B : Bool) (limit DPL : Dword) (S : Bool)
    (TYPE : Dword) : (makeDesc base G D_B limit DPL S TYPE = .error .assertFailed ∧ 4 ≤ DPL.toNat) ∨
      ∃ q, makeDesc base G D_B limit DPL S TYPE = .ok q ∧ DPL.toNat < 4 ∧
        SegDesc.decode (q.setWidth 32) ((q >>> 32).setWidth 32) =
          ⟨base, limit.setWidth 20, TYPE.setWidth 4, S, DPL.setWidth 2, true, D_B, G⟩ := by
  by_cases hdpl : DPL.toNat < 4
  · have hd : (DPL.setWidth 2).setWidth 32 = DPL := by
      apply BitVec.eq_of_toNat_eq
      simp
      omega
    have heq := makeDesc_eq base G D_B limit (DPL.setWidth 2) S TYPE
    rw [hd] at heq
    exact .inr ⟨_, heq, hdpl, by rw [quad_low, quad_high, decode_desc]⟩
  · refine .inl ⟨?_, Nat.le_of_not_lt hdpl⟩
    rw [makeDesc, ASSERT, if_neg ?_]
    · rfl
    · rw [BitVec.toInt_eq_toNat_cond]
      split <;> omega

/-! ### `make_idt_desc` -/

/-- The gate of a function. -/
def handlerGate (function : Dword) (dpl : BitVec 2) : GateDesc :=
  ⟨function, SELECTOR_K_CODE, 0xe, false, dpl, true⟩

/-- The fields of the second word of a gate. -/
theorem gate_word (high : BitVec 16) (attr dcount : BitVec 8) :
    (high ++ attr ++ dcount).extractLsb' 16 16 = high ∧
      (high ++ attr ++ dcount).extractLsb' 8 4 = attr.extractLsb' 0 4 ∧
      (high ++ attr ++ dcount).extractLsb' 13 2 = attr.extractLsb' 5 2 ∧
      (high ++ attr ++ dcount).getLsbD 12 = attr.getLsbD 4 ∧
      (high ++ attr ++ dcount).getLsbD 15 = attr.getLsbD 7 := by
  refine ⟨?_, ?_, ?_, ?_, ?_⟩
  · rw [BitVec.extractLsb'_append_eq_of_le (by decide), BitVec.extractLsb'_append_eq_left]
  · rw [BitVec.extractLsb'_append_eq_of_le (by decide),
      BitVec.extractLsb'_append_eq_of_add_le (by decide)]
  · rw [BitVec.extractLsb'_append_eq_of_le (by decide),
      BitVec.extractLsb'_append_eq_of_add_le (by decide)]
  · rw [BitVec.getLsbD_append, if_neg (by decide), BitVec.getLsbD_append, if_pos (by decide)]
  · rw [BitVec.getLsbD_append, if_neg (by decide), BitVec.getLsbD_append, if_pos (by decide)]

/-- The processor finds the function and the attributes in the words of `make_idt_desc`. -/
theorem makeIdtDesc_decode (attr : BitVec 8) (function : Dword) :
    GateDesc.decode (makeIdtDesc attr function).words.1 (makeIdtDesc attr function).words.2 =
      ⟨function, SELECTOR_K_CODE, attr.extractLsb' 0 4, attr.getLsbD 4, attr.extractLsb' 5 2,
        attr.getLsbD 7⟩ := by
  have hlow : (function &&& 0x0000ffff).setWidth 16 = function.extractLsb' 0 16 := by
    apply BitVec.eq_of_getLsbD_eq
    intro i hi
    interval_cases i <;> simp
  have hhigh : ((function &&& 0xffff0000) >>> 16).setWidth 16 = function.extractLsb' 16 16 := by
    apply BitVec.eq_of_getLsbD_eq
    intro i hi
    interval_cases i <;> simp
  have hfun : function.extractLsb' 16 16 ++ function.extractLsb' 0 16 = function := by
    rw [BitVec.extractLsb'_append_extractLsb'_eq_extractLsb' (by rfl)]
    exact BitVec.extractLsb'_eq_self
  obtain ⟨hoff, htyp, hdpl, hs, hp⟩ := gate_word (function.extractLsb' 16 16) attr 0
  simp only [GateDesc.decode, IdtDesc.words, makeIdtDesc, hlow, hhigh, GateDesc.mk.injEq]
  refine ⟨?_, BitVec.extractLsb'_append_eq_left, htyp, hs, hdpl, hp⟩
  rw [hoff, BitVec.extractLsb'_append_eq_right, hfun]

/-! ### `idt_desc_init` -/

/-- The function behind a gate. -/
def gateFunction (entryTable : Nat → Dword) (pageFaultHandler syscallHandler : Dword)
    (n : Nat) : Dword :=
  if n = 0x80 then syscallHandler else if n = 14 then pageFaultHandler else entryTable n

section
variable (entryTable : Nat → Dword) (pageFaultHandler syscallHandler : Dword) (idt : Nat → IdtDesc)

/-- Each entry of the table. Only the one for system calls is for programs. -/
theorem idtDescInit_eq {n : Nat} (hn : n < IDT_DESC_CNT) :
    idtDescInit entryTable pageFaultHandler syscallHandler idt n =
      makeIdtDesc (if n = 0x80 then IDT_DESC_ATTR_DPL3 else IDT_DESC_ATTR_DPL0)
        (gateFunction entryTable pageFaultHandler syscallHandler n) := by
  unfold idtDescInit gateFunction
  by_cases hlast : n = 0x80
  · subst hlast
    exact Function.update_self ..
  · rw [Function.update_of_ne (by exact hlast), if_neg hlast, if_neg hlast]
    by_cases hpf : n = 14
    · subst hpf
      exact Function.update_self ..
    · rw [Function.update_of_ne hpf, if_neg hpf, foldl_fill, if_pos hn]

variable (t : TssInit) (portBits : Nat → Bool)

/-- The processor takes an interrupt through the gate of its function. -/
theorem descTables_gate (n : BitVec 8) :
    (descTables t (idtDescInit entryTable pageFaultHandler syscallHandler idt) portBits).gate n =
      if n.toNat < IDT_DESC_CNT then
        some (handlerGate (gateFunction entryTable pageFaultHandler syscallHandler n.toNat)
          (if n.toNat = 0x80 then 3 else 0))
      else none := by
  unfold Tables.gate
  have hlimit : (descTables t (idtDescInit entryTable pageFaultHandler syscallHandler idt)
      portBits).idtLimit.toNat = 8 * IDT_DESC_CNT - 1 := by rfl
  rw [hlimit]
  by_cases hn : n.toNat < IDT_DESC_CNT
  · rw [if_neg (by unfold IDT_DESC_CNT at hn ⊢; omega), if_pos hn]
    have hgate : GateDesc.decode
        (idtDescInit entryTable pageFaultHandler syscallHandler idt n.toNat).words.1
        (idtDescInit entryTable pageFaultHandler syscallHandler idt n.toNat).words.2 =
          handlerGate (gateFunction entryTable pageFaultHandler syscallHandler n.toNat)
            (if n.toNat = 0x80 then 3 else 0) := by
      rw [idtDescInit_eq _ _ _ _ hn, makeIdtDesc_decode]
      split <;> rfl
    have hidt : (descTables t
        (idtDescInit entryTable pageFaultHandler syscallHandler idt) portBits).idt
        n.toNat = (idtDescInit entryTable pageFaultHandler syscallHandler idt n.toNat).words := rfl
    rw [hidt, hgate]
    rfl
  · rw [if_pos (by unfold IDT_DESC_CNT at hn ⊢; omega), if_neg hn]

end

/-! ### The segments -/

/-- The entries of the table behind `tss_init`. -/
def bootSegs (tssAddr : Dword) : List SegDesc :=
  [⟨0, 0, 0, false, 0, false, false, false⟩, ⟨0, 0xfffff, 8, true, 0, true, true, true⟩,
    ⟨0, 0xfffff, 2, true, 0, true, true, true⟩, ⟨0xc00b8000, 7, 2, true, 0, true, true, true⟩,
    ⟨tssAddr, 103, 9, false, 0, true, true, false⟩, ⟨0, 0xfffff, 8, true, 3, true, true, true⟩,
    ⟨0, 0xfffff, 2, true, 3, true, true, true⟩]

/-- A descriptor in memory has its lower word at its address. -/
theorem storeQuad_low (mem : Dword → Dword) (a : Dword) (q : BitVec 64) :
    storeQuad mem a q a = q.setWidth 32 := by
  have hne : a ≠ a + 4 := by bv_omega
  rw [storeQuad, Function.update_of_ne hne, Function.update_self]

/-- It has its upper word in the word behind. -/
theorem storeQuad_high (mem : Dword → Dword) (a : Dword) (q : BitVec 64) :
    storeQuad mem a q (a + 4) = (q >>> 32).setWidth 32 := by
  rw [storeQuad, Function.update_self]

/-- The words around a descriptor stay as they are. -/
theorem storeQuad_of_ne (mem : Dword → Dword) {a b : Dword} (q : BitVec 64) (h : b ≠ a)
    (h' : b ≠ a + 4) : storeQuad mem a q b = mem b := by
  rw [storeQuad, Function.update_of_ne h', Function.update_of_ne h]

/-- The entry that a store of a descriptor writes, and the others. -/
theorem gdtAt_store (mem : Dword → Dword) (q : BitVec 64) {i j : Nat} (hi : i < 64) (hj : j < 64) :
    gdtAt (storeQuad mem (GDT_BASE + BitVec.ofNat 32 (8 * j)) q) GDT_BASE i =
      if i = j then (q.setWidth 32, (q >>> 32).setWidth 32) else gdtAt mem GDT_BASE i := by
  unfold gdtAt
  split
  · next h =>
    subst h
    rw [storeQuad_low, storeQuad_high]
  · next h =>
    have hlow : GDT_BASE + BitVec.ofNat 32 (8 * i)
        ≠ GDT_BASE + BitVec.ofNat 32 (8 * j) := by bv_omega
    have hcross : GDT_BASE + BitVec.ofNat 32 (8 * i)
        ≠ GDT_BASE + BitVec.ofNat 32 (8 * j) + 4 := by bv_omega
    have hcross' : GDT_BASE + BitVec.ofNat 32 (8 * i) + 4
        ≠ GDT_BASE + BitVec.ofNat 32 (8 * j) := by bv_omega
    have hhigh : GDT_BASE + BitVec.ofNat 32 (8 * i) + 4
        ≠ GDT_BASE + BitVec.ofNat 32 (8 * j) + 4 := by
      bv_omega
    rw [storeQuad_of_ne mem q hlow hcross, storeQuad_of_ne mem q hcross' hhigh]

/-- `tss_init` stores three descriptors. -/
theorem tssInit_eq {tssAddr : Dword} {mem : Dword → Dword} {q₄ q₅ q₆ : BitVec 64}
    (h₄ : makeDesc tssAddr false DESC_D_32 (BitVec.ofNat 32 TSS_SIZE - 1) DESC_DPL_0 DESC_S_SYS
      DESC_TYPE_TSS = .ok q₄)
    (h₅ : makeDesc 0 DESC_G_4K DESC_D_32 0xfffff DESC_DPL_3 DESC_S_CODE DESC_TYPE_CODE = .ok q₅)
    (h₆ : makeDesc 0 DESC_G_4K DESC_D_32 0xfffff DESC_DPL_3 DESC_S_DATA DESC_TYPE_DATA = .ok q₆) :
    ∃ t, tssInit tssAddr mem = .ok t ∧ t.gdtr = 0xc00009000037 ∧ t.tr = SELECTOR_TSS ∧
      t.tss.ioMap = 104 ∧ t.mem =
        storeQuad (storeQuad (storeQuad mem 0xc0000920 q₄) 0xc0000928 q₅) 0xc0000930 q₆ := by
  have hgdtr : (7 * 8 - 1) ||| ((0xc0000900 : BitVec 64) <<< 16) = 0xc00009000037 := by decide
  have hsize : (BitVec.ofNat 32 TSS_SIZE).setWidth 16 = 104 := by decide
  refine ⟨⟨storeQuad (storeQuad (storeQuad mem 0xc0000920 q₄) 0xc0000928 q₅) 0xc0000930 q₆,
    ⟨SELECTOR_K_STACK.setWidth 32, 104⟩, 0xc00009000037, SELECTOR_TSS⟩, ?_, rfl, rfl, rfl, rfl⟩
  rw [tssInit]
  simp only [h₄, h₅, h₆, hgdtr, hsize]
  rfl

/-- The entries of the loader. -/
theorem loaderGdt_decode (tssAddr : Dword) {i : Nat} (hi : i < 4) :
    ∃ d, loaderGdt[i]? = some d ∧ (bootSegs tssAddr)[i]? = some (SegDesc.decode d.1 d.2) := by
  interval_cases i
  · exact ⟨_, rfl, congrArg some (by decide)⟩
  · exact ⟨_, rfl, congrArg some (by decide)⟩
  · exact ⟨_, rfl, congrArg some (by decide)⟩
  · exact ⟨_, rfl, congrArg some (by decide)⟩

/-- `tss_init` fills its three entries and keeps those of the loader. -/
theorem tssInit_spec {mem : Dword → Dword} (hgdt : LoaderGdt mem) (tssAddr : Dword) :
    ∃ t, tssInit tssAddr mem = .ok t ∧ t.gdtr = 0xc00009000037 ∧ t.tr = SELECTOR_TSS ∧
      t.tss.ioMap = 104 ∧ ∀ i < 7, (bootSegs tssAddr)[i]? =
        some (SegDesc.decode (gdtAt t.mem GDT_BASE i).1 (gdtAt t.mem GDT_BASE i).2) := by
  obtain ⟨q₄, h₄, -, hdec₄⟩ :=
    (makeDesc_decode tssAddr false DESC_D_32 (BitVec.ofNat 32 TSS_SIZE - 1)
    DESC_DPL_0 DESC_S_SYS DESC_TYPE_TSS).resolve_left fun h => absurd h.2 (by decide)
  obtain ⟨q₅, h₅, -, hdec₅⟩ := (makeDesc_decode 0 DESC_G_4K DESC_D_32 0xfffff DESC_DPL_3 DESC_S_CODE
    DESC_TYPE_CODE).resolve_left fun h => absurd h.2 (by decide)
  obtain ⟨q₆, h₆, -, hdec₆⟩ := (makeDesc_decode 0 DESC_G_4K DESC_D_32 0xfffff DESC_DPL_3 DESC_S_DATA
    DESC_TYPE_DATA).resolve_left fun h => absurd h.2 (by decide)
  obtain ⟨t, ht, hgdtr, htr, hio, hmem⟩ := @tssInit_eq _ mem _ _ _ h₄ h₅ h₆
  refine ⟨t, ht, hgdtr, htr, hio, fun i hi => ?_⟩
  -- The three stores are for different entries, so the others are those of the loader.
  have hentry : gdtAt t.mem GDT_BASE i =
      if i = 6 then (q₆.setWidth 32, (q₆ >>> 32).setWidth 32)
      else if i = 5 then (q₅.setWidth 32, (q₅ >>> 32).setWidth 32)
      else if i = 4 then (q₄.setWidth 32, (q₄ >>> 32).setWidth 32) else gdtAt mem GDT_BASE i := by
    rw [hmem, ← gdtAt_store (j := 4) mem q₄ (by omega) (by decide),
      ← gdtAt_store (j := 5) _ q₅ (by omega) (by decide),
        ← gdtAt_store (j := 6) _ q₆ (by omega) (by decide)]
    rfl
  rw [hentry]
  by_cases hlt : i < 4
  · obtain ⟨d, hd, hdec⟩ := loaderGdt_decode tssAddr hlt
    rw [if_neg (by omega), if_neg (by omega), if_neg (by omega), hgdt i d hd, hdec]
  · have hcases : i = 4 ∨ i = 5 ∨ i = 6 := by omega
    obtain rfl | rfl | rfl := hcases
    · exact congrArg some hdec₄.symm
    · exact congrArg some hdec₅.symm
    · exact congrArg some hdec₆.symm

section
variable {mem : Dword → Dword} {tssAddr : Dword} {t : TssInit} (idt : Nat →
  IdtDesc) (portBits : Nat → Bool)

/-- The segments that a selector can name. -/
theorem descTables_segment (hgdtr : t.gdtr = 0xc00009000037)
    (hsegs : ∀ i < 7, (bootSegs tssAddr)[i]? =
      some (SegDesc.decode (gdtAt t.mem GDT_BASE i).1 (gdtAt t.mem GDT_BASE i).2))
        (sel : BitVec 16) :
    (descTables t idt portBits).segment sel =
      if Selector.ti sel then none else (bootSegs tssAddr)[Selector.index sel]? := by
  have hlimit : (descTables t idt portBits).gdtLimit.toNat = 55 := by
    show (t.gdtr.extractLsb' 0 16).toNat = 55
    rw [hgdtr]
    decide
  have hbase : t.gdtr.extractLsb' 16 32 = GDT_BASE := by
    rw [hgdtr]
    decide
  have hgdt : (descTables t idt portBits).gdt = gdtAt t.mem GDT_BASE := congrArg (gdtAt t.mem) hbase
  rw [Tables.segment, hlimit, hgdt]
  cases hti : Selector.ti sel with
  | true => rfl
  | false =>
      by_cases hidx : Selector.index sel < 7
      · rw [if_neg (by simp; omega), if_neg (by decide), hsegs _ hidx]
      · rw [if_pos (by simp; omega), if_neg (by decide)]
        exact (List.getElem?_eq_none (Nat.le_of_not_lt hidx)).symm

end

/-- The parts of a selector of the global table. -/
theorem selector_toNat {sel : BitVec 16} (h : Selector.ti sel = false) :
    sel.toNat = 8 * Selector.index sel + (Selector.rpl sel).toNat := by
  have hbit : sel.toNat / 4 % 2 = 0 := by
    rw [Selector.ti, BitVec.getLsbD, Nat.testBit_eq_decide_div_mod_eq] at h
    have := of_decide_eq_false h
    omega
  have hrpl : (Selector.rpl sel).toNat = sel.toNat % 4 := by
    simp [Selector.rpl]
  rw [hrpl, Selector.index]
  omega

/-- A selector of the global table that asks for level 3 is known by its index. -/
theorem selector_eq {sel : BitVec 16} {i : Nat} (hi : i < 7) :
    Selector.ti sel = false ∧ Selector.index sel = i ∧ Selector.rpl sel = 3 ↔
      sel = BitVec.ofNat 16 (8 * i + 3) := by
  constructor
  · rintro ⟨hti, rfl, hrpl⟩
    apply BitVec.eq_of_toNat_eq
    rw [selector_toNat hti, hrpl, BitVec.toNat_ofNat, Nat.mod_eq_of_lt (by omega)]
    rfl
  · rintro rfl
    interval_cases i <;> decide

/-- The code segment of the programs is the one where a jump leads to. -/
theorem jump_selector {sel : BitVec 16} (hti : Selector.ti sel = false)
    (hidx : Selector.index sel = 5) : sel.extractLsb' 2 14 ++ (3 : BitVec 2) = SELECTOR_U_CODE := by
  have hnat := selector_toNat hti
  have hrpl : (Selector.rpl sel).toNat < 4 := (Selector.rpl sel).isLt
  rw [hidx] at hnat
  have hcases : sel = 0x28 ∨ sel = 0x29 ∨ sel = 0x2a ∨ sel = 0x2b := by bv_omega
  obtain rfl | rfl | rfl | rfl := hcases <;> decide

/-! ### Programs -/

/-- The code and the data segment of the programs. -/
def userCode : SegDesc := ⟨0, 0xfffff, 8, true, 3, true, true, true⟩

/-- The data segment of the programs: 4 GiB from zero on, for level 3. -/
def userData : SegDesc := ⟨0, 0xfffff, 2, true, 3, true, true, true⟩

/-- The segments of the table that a program can use. -/
theorem bootSegs_program {tssAddr : Dword} {i : Nat} {d : SegDesc} :
    (bootSegs tssAddr)[i]? = some d ∧ (d.conforming ∨ d.dpl = 3) ↔
      (i = 5 ∧ d = userCode) ∨ (i = 6 ∧ d = userData) := by
  constructor
  · rintro ⟨h, hd⟩
    have hi : i < 7 := (List.getElem?_eq_some_iff.mp h).1
    interval_cases i
    -- the null entry, the three segments of the kernel, and the task state segment
    · cases h
      exact absurd hd (by decide)
    · cases h
      exact absurd hd (by decide)
    · cases h
      exact absurd hd (by decide)
    · cases h
      exact absurd hd (by decide)
    · cases h
      exact absurd hd (by rintro (h | h) <;> cases h)
    · cases h
      exact .inl ⟨rfl, rfl⟩
    · cases h
      exact .inr ⟨rfl, rfl⟩
  · rintro (⟨rfl, rfl⟩ | ⟨rfl, rfl⟩)
    · exact ⟨rfl, .inr rfl⟩
    · exact ⟨rfl, .inr rfl⟩

section
variable {p : Tables} {tssAddr : Dword}

/-- What the checks at level 3 look for, in a table with these segments. -/
theorem segment_program (hseg : ∀ sel, p.segment sel =
      if Selector.ti sel then none else (bootSegs tssAddr)[Selector.index sel]?)
    {sel : BitVec 16} {d : SegDesc} :
    p.segment sel = some d ∧ (d.conforming ∨ d.dpl = 3) ↔ Selector.ti sel = false ∧
      ((Selector.index sel = 5 ∧ d = userCode) ∨ (Selector.index sel = 6 ∧ d = userData)) := by
  rw [hseg, ← @bootSegs_program tssAddr]
  cases Selector.ti sel with
  | true => simp
  | false => simp

/-- A program can load a data segment register with the null selector and with its own data segment,
with any level in the selector. No other selector gets through. -/
theorem loadData_program (hseg : ∀ sel, p.segment sel =
      if Selector.ti sel then none else (bootSegs tssAddr)[Selector.index sel]?) (sel : BitVec 16) :
    p.loadData 3 sel = true ↔
      Selector.ti sel = false ∧ (Selector.index sel = 0 ∨ Selector.index sel = 6) := by
  rw [Tables.loadData_outermost]
  constructor
  · rintro (⟨hti, hidx⟩ | ⟨d, hd, -, hread, hlevel⟩)
    · exact ⟨hti, .inl hidx⟩
    · obtain ⟨hti, ⟨-, rfl⟩ | ⟨hidx, rfl⟩⟩ := (segment_program hseg).mp ⟨hd, hlevel⟩
      · exact absurd hread (by decide)
      · exact ⟨hti, .inr hidx⟩
  · rintro ⟨hti, hidx | hidx⟩
    · exact .inl ⟨hti, hidx⟩
    · obtain ⟨hd, hlevel⟩ := (segment_program hseg).mpr ⟨hti, .inr ⟨hidx, rfl⟩⟩
      exact .inr ⟨userData, hd, rfl, rfl, hlevel⟩

/-- It can load `ss` with its own stack segment only. -/
theorem loadStack_program (hseg : ∀ sel, p.segment sel =
      if Selector.ti sel then none else (bootSegs tssAddr)[Selector.index sel]?) (sel : BitVec 16) :
    p.loadStack 3 sel = true ↔ sel = SELECTOR_U_STACK := by
  have hstack : SELECTOR_U_STACK = BitVec.ofNat 16 (8 * 6 + 3) := by decide
  rw [Tables.loadStack_outermost, hstack, ← selector_eq (by decide)]
  constructor
  · rintro ⟨-, hrpl, d, hd, -, hwrite, hdpl⟩
    obtain ⟨hti, ⟨-, rfl⟩ | ⟨hidx, rfl⟩⟩ := (segment_program hseg).mp ⟨hd, .inr hdpl⟩
    · exact absurd hwrite (by decide)
    · exact ⟨hti, hidx, hrpl⟩
  · rintro ⟨hti, hidx, hrpl⟩
    obtain ⟨hd, -⟩ := (segment_program hseg).mpr ⟨hti, .inr ⟨hidx, rfl⟩⟩
    exact ⟨by rw [hidx]; decide, hrpl, userData, hd, rfl, rfl, rfl⟩

/-- It can jump to its own code segment only, and its level stays the same. -/
theorem farJump_program (hseg : ∀ sel, p.segment sel =
      if Selector.ti sel then none else (bootSegs tssAddr)[Selector.index sel]?)
    (sel : BitVec 16) (cs : Option (BitVec 16)) :
    p.farJump 3 sel = some cs ↔
      Selector.ti sel = false ∧ Selector.index sel = 5 ∧ cs = some SELECTOR_U_CODE := by
  rw [Tables.farJump_outermost]
  constructor
  · rintro ⟨-, d, hd, -, ⟨hcode, hlevel, hcs⟩ | ⟨-, hs, hdpl, -⟩⟩
    · obtain ⟨hti, ⟨hidx, rfl⟩ | ⟨-, rfl⟩⟩ := (segment_program hseg).mp ⟨hd, hlevel⟩
      · exact ⟨hti, hidx, hcs.trans (congrArg some (jump_selector hti hidx))⟩
      · exact absurd hcode (by decide)
    · obtain ⟨-, ⟨-, rfl⟩ | ⟨-, rfl⟩⟩ := (segment_program hseg).mp ⟨hd, .inr hdpl⟩
      · exact absurd hs (by decide)
      · exact absurd hs (by decide)
  · rintro ⟨hti, hidx, rfl⟩
    obtain ⟨hd, hlevel⟩ := (segment_program hseg).mpr ⟨hti, .inl ⟨hidx, rfl⟩⟩
    exact ⟨by rw [hidx]; decide, userCode, hd, rfl,
      .inl ⟨rfl, hlevel, congrArg some (jump_selector hti hidx).symm⟩⟩

/-- A far return of a program goes to its own code segment. -/
theorem farReturn_program (hseg : ∀ sel, p.segment sel =
      if Selector.ti sel then none else (bootSegs tssAddr)[Selector.index sel]?)
        (sel cs : BitVec 16) :
    p.farReturn 3 sel = some cs ↔ sel = SELECTOR_U_CODE ∧ cs = SELECTOR_U_CODE := by
  rw [Tables.farReturn_outermost]
  constructor
  · rintro ⟨-, hrpl, rfl, d, hd, -, hcode, hlevel⟩
    obtain ⟨hti, ⟨hidx, rfl⟩ | ⟨-, rfl⟩⟩ := (segment_program hseg).mp ⟨hd, hlevel⟩
    · have hsel : cs = SELECTOR_U_CODE := (@selector_eq cs 5 (by decide)).mp ⟨hti, hidx, hrpl⟩
      exact ⟨hsel, hsel⟩
    · exact absurd hcode (by decide)
  · rintro ⟨rfl, rfl⟩
    obtain ⟨hd, hlevel⟩ := (@segment_program p tssAddr hseg SELECTOR_U_CODE _).mpr
      ⟨by decide, .inl ⟨by decide, rfl⟩⟩
    exact ⟨by decide, by decide, rfl, userCode, hd, rfl, rfl, hlevel⟩

end

/-- What a program can do behind `tss_init` and `idt_init`, wherever the handlers and the task state
segment are, and whatever lies behind `intr_entry_table`. The only interrupt that it can raise is
the system call. It can jump and return to the code segment of the programs, and have their data
segment or none in the other registers. It can use no port. -/
theorem user_confined {mem : Dword → Dword} (hgdt : LoaderGdt mem)
    (tssAddr pageFaultHandler syscallHandler : Dword) (entryTable : Nat → Dword)
    (idt : Nat → IdtDesc) (portBits : Nat → Bool) :
    ∃ t, tssInit tssAddr mem = .ok t ∧
      let p := descTables t (idtDescInit entryTable pageFaultHandler syscallHandler idt) portBits
      (∀ n d, p.softInt 3 n = some d ↔ n = 0x80 ∧ d = handlerGate syscallHandler 3) ∧
      (∀ sel cs, p.farJump 3 sel = some cs ↔
        Selector.ti sel = false ∧ Selector.index sel = 5 ∧ cs = some SELECTOR_U_CODE) ∧
      (∀ sel cs, p.farReturn 3 sel = some cs ↔ sel = SELECTOR_U_CODE ∧ cs = SELECTOR_U_CODE) ∧
      (∀ sel, p.loadStack 3 sel = true ↔ sel = SELECTOR_U_STACK) ∧
      (∀ sel, p.loadData 3 sel = true ↔
        Selector.ti sel = false ∧ (Selector.index sel = 0 ∨ Selector.index sel = 6)) ∧
      ∀ port, p.portAllowed 3 0 port = false := by
  obtain ⟨t, ht, hgdtr, htr, hio, hsegs⟩ := tssInit_spec hgdt tssAddr
  have hseg := @descTables_segment tssAddr t
    (idtDescInit entryTable pageFaultHandler syscallHandler idt) portBits hgdtr hsegs
  refine ⟨t, ht, fun n d => ?_, farJump_program hseg, farReturn_program hseg,
    loadStack_program hseg, loadData_program hseg, fun port => ?_⟩
  · rw [Tables.softInt_outermost, descTables_gate]
    by_cases hn : n = 0x80
    · subst hn
      constructor
      · rintro ⟨h, -⟩
        exact ⟨rfl, (Option.some.inj h).symm⟩
      · rintro ⟨-, rfl⟩
        exact ⟨rfl, rfl⟩
    · -- all other gates are for the kernel
      refine iff_of_false ?_ fun h => hn h.1
      rintro ⟨h, hdpl⟩
      split at h
      · obtain rfl := Option.some.inj h
        have hne : n.toNat ≠ 0x80 := fun heq => hn (BitVec.eq_of_toNat_eq heq)
        simp [handlerGate, hne] at hdpl
      · cases h
  · have hbase : t.gdtr.extractLsb' 16 32 = GDT_BASE := by
      rw [hgdtr]
      decide
    -- The bit map would begin behind the end of the segment, so every port is refused.
    have hlimit : (descTables t (idtDescInit entryTable pageFaultHandler syscallHandler idt)
        portBits).tssLimit = 103 := by
      have hdesc := Option.some.inj (hsegs 4 (by decide))
      simp only [descTables, hbase, htr]
      exact congrArg SegDesc.limit hdesc.symm
    rw [Tables.portAllowed, hlimit]
    show (decide ((3 : BitVec 2) ≤ 0) || (decide (t.tss.ioMap.toNat + port.toNat / 8 + 1 ≤ _) && _))
      = false
    rw [hio, decide_eq_false (by decide), decide_eq_false]
    · rfl
    · show ¬104 + port.toNat / 8 + 1 ≤ 103
      omega

/-- Memory with the table of the loader and nothing else. -/
private def loaderMem (a : Dword) : Dword :=
  let i := (a - GDT_BASE).toNat
  let d := loaderGdt.getD (i / 8) (0, 0)
  if i % 8 = 0 then d.1 else d.2

/-- A program behind the loader that asks for the timer interrupt by hand is refused. -/
theorem user_confined_loader : ∃ t, tssInit 0xc0010000 loaderMem = .ok t ∧
    (descTables t (idtDescInit (fun _ => 0xc0001000) 0xc0001200 0xc0001300 fun _ => default)
      fun _ => false).softInt 3 0x20 = none := by
  have hgdt : LoaderGdt loaderMem := by
    intro i d hd
    have hi : i < 64 := (List.getElem?_eq_some_iff.mp (Option.mem_def.mp hd)).1
    have hall : ∀ i < 64, loaderGdt[i]? = some (gdtAt loaderMem GDT_BASE i) := by decide +kernel
    exact (Option.some.inj ((Option.mem_def.mp hd).symm.trans (hall i hi))).symm
  obtain ⟨t, ht, hint, -⟩ :=
    user_confined hgdt 0xc0010000 0xc0001200 0xc0001300 (fun _ => 0xc0001000)
    (fun _ => default) fun _ => false
  refine ⟨t, ht, Option.eq_none_iff_forall_ne_some.mpr fun d hd => ?_⟩
  exact absurd ((hint 0x20 d).mp hd).1 (by decide)

end Fizzos.Proofs
