import Mathlib.Logic.Function.Basic

/-!
# `Fizzos.Support.Protection`: segments, gates and privilege levels

The checks of a 32-bit processor in protected mode. A descriptor is two words of a table
(`SegDesc.decode`, `GateDesc.decode`). Code at level `cpl` names an entry of the global descriptor
table with a selector: the index, a bit for the local table, and the level that it asks for (`rpl`).
There is no local table here.

`loadData`, `loadStack`, `farJump`, `farReturn`, `softInt` and `portAllowed` say what the processor
permits. Each is `none` or `false` where it raises a fault.

Left out: virtual 8086 mode. A jump to a task or to a call gate is only told apart from a fault.
-/

set_option autoImplicit false

namespace Fizzos.Support

/-! ### Descriptors -/

/-- A segment descriptor. The limit counts bytes, or pages with `g`. -/
structure SegDesc where
  base : BitVec 32
  limit : BitVec 20
  typ : BitVec 4
  /-- Code or data, and not a system segment. -/
  s : Bool
  dpl : BitVec 2
  present : Bool
  db : Bool
  g : Bool
  deriving DecidableEq

/-- A gate of the interrupt table. -/
structure GateDesc where
  offset : BitVec 32
  selector : BitVec 16
  typ : BitVec 4
  s : Bool
  dpl : BitVec 2
  present : Bool
  deriving DecidableEq

/-- The segment descriptor of two words. -/
def SegDesc.decode (lo hi : BitVec 32) : SegDesc where
  base := hi.extractLsb' 24 8 ++ hi.extractLsb' 0 8 ++ lo.extractLsb' 16 16
  limit := hi.extractLsb' 16 4 ++ lo.extractLsb' 0 16
  typ := hi.extractLsb' 8 4
  s := hi.getLsbD 12
  dpl := hi.extractLsb' 13 2
  present := hi.getLsbD 15
  db := hi.getLsbD 22
  g := hi.getLsbD 23

/-- The gate of two words. -/
def GateDesc.decode (lo hi : BitVec 32) : GateDesc where
  offset := hi.extractLsb' 16 16 ++ lo.extractLsb' 0 16
  selector := lo.extractLsb' 16 16
  typ := hi.extractLsb' 8 4
  s := hi.getLsbD 12
  dpl := hi.extractLsb' 13 2
  present := hi.getLsbD 15

namespace SegDesc

/-- Code, by the highest bit of the type. -/
def isCode (d : SegDesc) : Bool := d.s && d.typ.getLsbD 3

/-- Code that a program of any lower level can jump to. -/
def conforming (d : SegDesc) : Bool := d.isCode && d.typ.getLsbD 2

/-- Data, or code that can be read. -/
def readable (d : SegDesc) : Bool := d.s && (!d.typ.getLsbD 3 || d.typ.getLsbD 1)

/-- Data that can be written. -/
def writable (d : SegDesc) : Bool := d.s && !d.typ.getLsbD 3 && d.typ.getLsbD 1

end SegDesc

/-- An interrupt or trap gate of 32 bits. -/
def GateDesc.isIntr (d : GateDesc) : Bool := !d.s && (d.typ = 0xe || d.typ = 0xf)

/-! ### Selectors -/

namespace Selector

def index (sel : BitVec 16) : Nat := sel.toNat / 8

/-- The entry is in the local table. -/
def ti (sel : BitVec 16) : Bool := sel.getLsbD 2

def rpl (sel : BitVec 16) : BitVec 2 := sel.extractLsb' 0 2

end Selector

/-- What the processor protects by: the words of its tables, and the task register. -/
structure Tables where
  gdt : Nat → BitVec 32 × BitVec 32
  gdtLimit : BitVec 16
  idt : Nat → BitVec 32 × BitVec 32
  idtLimit : BitVec 16
  /-- The limit of the task state segment, the offset of its port bitmap, and the bitmap. -/
  tssLimit : BitVec 20
  ioMap : BitVec 16
  portBits : Nat → Bool

namespace Tables

variable (p : Tables)

/-- The descriptor behind a selector. -/
def segment (sel : BitVec 16) : Option SegDesc :=
  if Selector.ti sel || Selector.index sel * 8 + 7 > p.gdtLimit.toNat then none
  else some (SegDesc.decode (p.gdt (Selector.index sel)).1 (p.gdt (Selector.index sel)).2)

/-- A load of `ds`, `es`, `fs` or `gs`. The null selector can be loaded. -/
def loadData (cpl : BitVec 2) (sel : BitVec 16) : Bool :=
  (!Selector.ti sel && Selector.index sel = 0) ||
    (p.segment sel).any fun d =>
      d.present && d.readable && (d.conforming || (cpl ≤ d.dpl && Selector.rpl sel ≤ d.dpl))

/-- A load of `ss`. -/
def loadStack (cpl : BitVec 2) (sel : BitVec 16) : Bool :=
  Selector.index sel ≠ 0 && (p.segment sel).any fun d =>
    d.present && d.writable && d.dpl = cpl && Selector.rpl sel = cpl

/-- A far jump or call: the new `cs`, or `none` in a table entry that is not code. -/
def farJump (cpl : BitVec 2) (sel : BitVec 16) : Option (Option (BitVec 16)) :=
  if Selector.index sel = 0 then none
  else (p.segment sel).bind fun d =>
    if !d.present then none
    else if d.isCode then
      if d.conforming then if d.dpl ≤ cpl then some (some (sel.extractLsb' 2 14 ++ cpl)) else none
      else if Selector.rpl sel ≤ cpl && d.dpl = cpl then some (some (sel.extractLsb' 2 14 ++ cpl))
      else none
    -- a call gate, a task gate or a task
    else if !d.s && cpl ≤ d.dpl && Selector.rpl sel ≤ d.dpl then some none
    else none

/-- A far return, which does not go to an inner level. -/
def farReturn (cpl : BitVec 2) (sel : BitVec 16) : Option (BitVec 16) :=
  if Selector.index sel = 0 then none
  else (p.segment sel).bind fun d =>
    if d.present && d.isCode && cpl ≤ Selector.rpl sel &&
        (if d.conforming then d.dpl ≤ Selector.rpl sel else d.dpl = Selector.rpl sel) then some sel
    else none

/-- The gate of an interrupt. -/
def gate (n : BitVec 8) : Option GateDesc :=
  if n.toNat * 8 + 7 > p.idtLimit.toNat then none
  else
    let d := GateDesc.decode (p.idt n.toNat).1 (p.idt n.toNat).2
    if d.isIntr && d.present then some d else none

/-- The instruction `int n`. -/
def softInt (cpl : BitVec 2) (n : BitVec 8) : Option GateDesc :=
  (p.gate n).filter fun d => cpl ≤ d.dpl

/-- `in` and `out` of a byte. -/
def portAllowed (cpl iopl : BitVec 2) (port : BitVec 16) : Bool :=
  cpl ≤ iopl ||
    (p.ioMap.toNat + port.toNat / 8 + 1 ≤ p.tssLimit.toNat && !p.portBits port.toNat)

/-! ### The outermost level -/

theorem le_outermost (level : BitVec 2) : level ≤ 3 := by
  revert level
  decide

theorem outermost_le {level : BitVec 2} : 3 ≤ level ↔ level = 3 := by
  revert level
  decide

variable {p}

theorem softInt_outermost {n : BitVec 8} {d : GateDesc} :
    p.softInt 3 n = some d ↔ p.gate n = some d ∧ d.dpl = 3 := by
  rw [softInt, Option.filter_eq_some_iff, decide_eq_true_iff, outermost_le]

theorem loadData_outermost {sel : BitVec 16} :
    p.loadData 3 sel = true ↔ (Selector.ti sel = false ∧ Selector.index sel = 0) ∨
      ∃ d, p.segment sel = some d ∧ d.present ∧ d.readable ∧ (d.conforming ∨ d.dpl = 3) := by
  have hrpl (d : SegDesc) : 3 ≤ d.dpl ∧ Selector.rpl sel ≤ d.dpl ↔ d.dpl = 3 :=
    ⟨fun h => outermost_le.mp h.1, fun h => by rw [h]; exact ⟨le_outermost _, le_outermost _⟩⟩
  simp only [loadData, Bool.or_eq_true, Bool.and_eq_true, Option.any_eq_true,
    decide_eq_true_iff, hrpl, Bool.not_eq_true', and_assoc]

theorem loadStack_outermost {sel : BitVec 16} :
    p.loadStack 3 sel = true ↔ Selector.index sel ≠ 0 ∧ Selector.rpl sel = 3 ∧
      ∃ d, p.segment sel = some d ∧ d.present ∧ d.writable ∧ d.dpl = 3 := by
  simp only [loadStack, Bool.and_eq_true, decide_eq_true_eq, Option.any_eq_true]
  grind

/-- A jump at the outermost level stays there. -/
theorem farJump_outermost {sel : BitVec 16} {cs : Option (BitVec 16)} :
    p.farJump 3 sel = some cs ↔ Selector.index sel ≠ 0 ∧ ∃ d, p.segment sel = some d ∧ d.present ∧
      ((d.isCode ∧ (d.conforming ∨ d.dpl = 3) ∧
        cs = some (sel.extractLsb' 2 14 ++ (3 : BitVec 2))) ∨
        (d.isCode = false ∧ d.s = false ∧ d.dpl = 3 ∧ cs = none)) := by
  rw [farJump]
  by_cases hnull : Selector.index sel = 0
  · simp [hnull]
  rw [if_neg hnull, Option.bind_eq_some_iff]
  refine Iff.trans (exists_congr fun d => and_congr_right fun _ => ?_) (and_iff_right hnull).symm
  have hjump : (Selector.rpl sel ≤ 3 && d.dpl = 3) = true ↔ d.dpl = 3 := by
    rw [Bool.and_eq_true, decide_eq_true_iff, decide_eq_true_iff, and_iff_right (le_outermost _)]
  have hsystem : (!d.s && 3 ≤ d.dpl && Selector.rpl sel ≤ d.dpl) = true ↔ d.s = false ∧
      d.dpl = 3 := by
    rw [Bool.and_eq_true, Bool.and_eq_true, Bool.not_eq_true', decide_eq_true_iff,
      decide_eq_true_iff, outermost_le, and_assoc]
    exact and_congr_right fun _ => and_iff_left_of_imp fun h => h ▸ le_outermost _
  simp only [hjump, hsystem, if_pos (le_outermost d.dpl)]
  cases hcode : d.isCode with
  | true => grind
  | false => grind

theorem farReturn_outermost {sel cs : BitVec 16} :
    p.farReturn 3 sel = some cs ↔ Selector.index sel ≠ 0 ∧ Selector.rpl sel = 3 ∧ cs = sel ∧
      ∃ d, p.segment sel = some d ∧ d.present ∧ d.isCode ∧ (d.conforming ∨ d.dpl = 3) := by
  rw [farReturn]
  by_cases hnull : Selector.index sel = 0
  · simp [hnull]
  rw [if_neg hnull, Option.bind_eq_some_iff]
  have hcond (d : SegDesc) : (d.present && d.isCode && 3 ≤ Selector.rpl sel &&
      (if d.conforming then d.dpl ≤ Selector.rpl sel else d.dpl = Selector.rpl sel)) = true ↔
        d.present ∧ d.isCode ∧ Selector.rpl sel = 3 ∧ (d.conforming ∨ d.dpl = 3) := by
    rw [Bool.and_eq_true, Bool.and_eq_true, Bool.and_eq_true, decide_eq_true_iff, outermost_le]
    constructor
    · rintro ⟨⟨⟨hp, hcode⟩, hrpl⟩, hlevel⟩
      rw [hrpl] at hlevel
      split at hlevel
      · next hconf => exact ⟨hp, hcode, hrpl, .inl hconf⟩
      · exact ⟨hp, hcode, hrpl, .inr (of_decide_eq_true hlevel)⟩
    · rintro ⟨hp, hcode, hrpl, hlevel⟩
      refine ⟨⟨⟨hp, hcode⟩, hrpl⟩, ?_⟩
      rw [hrpl]
      split
      · exact decide_eq_true (le_outermost _)
      · next hconf => exact decide_eq_true (hlevel.resolve_left hconf)
  simp only [hcond]
  grind

end Tables

end Fizzos.Support
