import Fizzos.Proofs.PartitionScan
import Mathlib.Data.List.Induction

/-!
# `Fizzos.Proofs.PartitionOverrun`: when the arrays of partitions are too small

The tables of a disk can form a chain (`Chain`): the boot sector with primary partitions, and
extended tables with logical ones. A chain with at most three primary and eight logical partitions
is recorded, each partition once (`Chain.scanEntries`, `recorded_foldl`). The fourth primary
partition is stored, and then the assertion fails.

The eighth logical partition ends its own table, and the tables above go on. A ninth one that they
come to (`Meets`) is stored behind `logic_parts`. `scanSafe_iff` says that these two are the only
ways to go wrong.
-/

set_option autoImplicit false

namespace Fizzos.Proofs

open Fizzos.Device
open Fizzos.Support

/-! ### What there is to record -/

/-- A partition of the tables. -/
structure TablePart where
  kind : PartitionKind
  startLba : Nat
  secCnt : Nat
  deriving DecidableEq

/-- The partition of the entry `p` in the sector `lba`. -/
def tablePart (kind : PartitionKind) (lba : Nat) (p : PartitionTableEntry) : TablePart :=
  ⟨kind, (lba + p.startLba) % 2 ^ 32, p.secCnt⟩

/-- The partitions of one kind. -/
def ofKind (kind : PartitionKind) (parts : List TablePart) : List TablePart :=
  parts.filter fun x => decide (x.kind = kind)

/-- The entries `ps` of the sector `lba` and the tables that they lead to have the partitions
`parts`. An extended table is on the disk, and is not the boot sector. -/
inductive Chain (d : Disk) : Nat → Nat → List PartitionTableEntry → List TablePart → Prop
  | done {base lba : Nat} : Chain d base lba [] []
  | empty {base lba : Nat} {p : PartitionTableEntry} {ps : List PartitionTableEntry}
      {parts : List TablePart} : p.fsType = 0 → Chain d base lba ps parts →
      Chain d base lba (p :: ps) parts
  | primary {base : Nat} {p : PartitionTableEntry} {ps : List PartitionTableEntry}
      {parts : List TablePart} : IsPart p → Chain d base 0 ps parts →
      Chain d base 0 (p :: ps) (tablePart .prim 0 p :: parts)
  | logical {base lba : Nat} {p : PartitionTableEntry} {ps : List PartitionTableEntry}
      {parts : List TablePart} : IsPart p → lba ≠ 0 → Chain d base lba ps parts →
      Chain d base lba (p :: ps) (tablePart .logic lba p :: parts)
  | extended {base lba : Nat} {p : PartitionTableEntry} {ps : List PartitionTableEntry}
      {inner parts : List TablePart} : p.fsType = 0x5 → extBase base p ≠ 0 →
      extTarget base p ≤ MAX_LBA → extTarget base p ≠ 0 →
      Chain d (extBase base p) (extTarget base p) (tableAt d (extTarget base p)) inner →
      Chain d (extBase base p) lba ps parts → Chain d base lba (p :: ps) (inner ++ parts)

/-- The number in the name of the first partition of a kind. -/
def firstNameNo : PartitionKind → Nat
  | .prim => 1
  | .logic => 5

/-- How many partitions of a kind are recorded, and in which array. -/
def partCount (s : ScanState) : PartitionKind → Nat
  | .prim => s.pNo
  | .logic => s.lNo

/-- The two arrays of a disk. -/
def partArray (s : ScanState) : PartitionKind → Nat → ScannedPartition
  | .prim => s.primParts
  | .logic => s.logicParts

/-- The partitions are recorded in their arrays in order, and each is once on `partition_list`. -/
structure Recorded (s s' : ScanState) (parts : List TablePart) : Prop where
  count : ∀ kind, partCount s' kind = (ofKind kind parts).length
  array : ∀ kind i x, (ofKind kind parts)[i]? = some x →
    partArray s' kind i = ⟨x.startLba, x.secCnt, i + firstNameNo kind⟩
  listed : ∃ new, s'.partitionList = s.partitionList ++ new ∧ ∀ kind,
    new.filter (fun x => decide (x.1 = kind)) =
      (List.range (ofKind kind parts).length).map fun i => (kind, i)

/-- `partition_scan(hd, 0)` stores inside of the arrays, and records what the tables have, when
they have at most four primary and eight logical partitions. -/
structure ScanSafe (d : Disk) (s : ScanState) : Prop where
  inside : ∀ fuel, partitionScan d fuel 0 s ≠ .error .outOfBounds
  records : ∀ parts, Chain d s.extLbaBase 0 (tableAt d 0) parts →
    (ofKind .prim parts).length ≤ 4 → (ofKind .logic parts).length ≤ 8 →
    ∃ fuel s', partitionScan d fuel 0 s = .ok s' ∧ Recorded s s' parts

/-- The entries come to one more logical partition, behind `np` primary ones and the logical ones of
`bs`. -/
inductive Meets (d : Disk) : Nat → Nat → List PartitionTableEntry → Nat → List Bool → Prop
  | here {base lba : Nat} {p : PartitionTableEntry} {ps : List PartitionTableEntry} :
      IsPart p → lba ≠ 0 → Meets d base lba (p :: ps) 0 []
  | empty {base lba np : Nat} {p : PartitionTableEntry} {ps : List PartitionTableEntry}
      {bs : List Bool} : p.fsType = 0 → Meets d base lba ps np bs → Meets d base lba (p :: ps) np bs
  | primary {base np : Nat} {p : PartitionTableEntry} {ps : List PartitionTableEntry}
      {bs : List Bool} : IsPart p → Meets d base 0 ps np bs → Meets d base 0 (p :: ps) (np + 1) bs
  | logical {base lba np : Nat} {p : PartitionTableEntry} {ps : List PartitionTableEntry}
      {bs : List Bool} : IsPart p → lba ≠ 0 → Meets d base lba ps np bs →
      Meets d base lba (p :: ps) np (false :: bs)
  /-- In the table that the entry leads to. -/
  | inside {base lba np : Nat} {p : PartitionTableEntry} {ps : List PartitionTableEntry}
      {bs : List Bool} : p.fsType = 0x5 → extBase base p ≠ 0 → extTarget base p ≤ MAX_LBA →
      Meets d (extBase base p) (extTarget base p) (tableAt d (extTarget base p)) np bs →
      Meets d base lba (p :: ps) np bs
  /-- Behind that table, which holds the tree `child`. -/
  | behind {base lba np : Nat} {p : PartitionTableEntry} {ps : List PartitionTableEntry}
      {bs : List Bool} {child : PartTree} : p.fsType = 0x5 → extBase base p ≠ 0 →
      extTarget base p ≤ MAX_LBA →
      Describes d (extBase base p) (extTarget base p) (tableAt d (extTarget base p)) child →
      Meets d (extBase base p) lba ps np bs →
      Meets d base lba (p :: ps) (child.primaries + np) (child.logicals ++ bs)

/-- The scan comes to a ninth logical partition: eight are recorded by then, and at most three
primary ones. -/
def MeetsNinth (d : Disk) (base : Nat) : Prop :=
  ∃ np bs, Meets d base 0 (tableAt d 0) np bs ∧ np ≤ 3 ∧ bs.length = 8 ∧ EndsAtEighth 0 bs

/-! ### Recording partitions -/

/-- The state with one more partition. -/
def putPart (s : ScanState) (x : TablePart) : ScanState :=
  match x.kind with
  | .prim =>
      { s with pNo := s.pNo + 1
               primParts := Function.update s.primParts s.pNo ⟨x.startLba, x.secCnt, s.pNo + 1⟩
               partitionList := s.partitionList ++ [(.prim, s.pNo)] }
  | .logic =>
      { s with lNo := s.lNo + 1
               logicParts := Function.update s.logicParts s.lNo ⟨x.startLba, x.secCnt, s.lNo + 5⟩
               partitionList := s.partitionList ++ [(.logic, s.lNo)] }

/-- The state of the scan with another base for extended partitions. -/
def withBase (s : ScanState) (base : Nat) : ScanState := { s with extLbaBase := base }

section
variable {s s' : ScanState} {x : TablePart} {parts : List TablePart} {kind : PartitionKind}

/-- The partitions of one kind, of two tables one behind the other. -/
theorem ofKind_append {parts' : List TablePart} :
    ofKind kind (parts ++ parts') = ofKind kind parts ++ ofKind kind parts' := List.filter_append ..

/-- A partition of this kind is kept. -/
theorem ofKind_cons_of_eq (h : x.kind = kind) : ofKind kind (x :: parts) = x :: ofKind kind parts :=
  List.filter_cons_of_pos (decide_eq_true h)

/-- It is one more. -/
theorem length_ofKind_cons (h : x.kind = kind) :
    (ofKind kind (x :: parts)).length = (ofKind kind parts).length + 1 := by
  rw [ofKind_cons_of_eq h, List.length_cons]

/-- A partition of the other kind is left out. -/
theorem ofKind_cons_of_ne (h : x.kind ≠ kind) : ofKind kind (x :: parts) = ofKind kind parts :=
  List.filter_cons_of_neg fun heq => h (of_decide_eq_true heq)

/-- The base and the partitions are apart. -/
theorem putPart_withBase (base : Nat) :
    putPart (withBase s base) x = withBase (putPart s x) base := by
  rw [putPart, putPart]
  cases x.kind with
  | prim => rfl
  | logic => rfl

/-- The base has nothing to do with what is stored. -/
theorem foldl_withBase (base : Nat) :
    parts.foldl putPart (withBase s base) = withBase (parts.foldl putPart s) base := by
  induction parts generalizing s with
  | nil => rfl
  | cons x rest ih => rw [List.foldl_cons, List.foldl_cons, putPart_withBase, ih]

/-- A partition that is stored counts for its own kind. -/
theorem partCount_putPart_self : partCount (putPart s x) x.kind = partCount s x.kind + 1 := by
  rw [putPart]
  cases x.kind with
  | prim => rfl
  | logic => rfl

/-- It does not count for the other kind. -/
theorem partCount_putPart_of_ne (h : x.kind ≠ kind) : partCount (putPart s x) kind
    = partCount s kind := by
  rw [putPart]
  cases hx : x.kind with
  | prim =>
      cases kind with
      | prim => exact absurd hx h
      | logic => rfl
  | logic =>
      cases kind with
      | prim => rfl
      | logic => exact absurd hx h

/-- Behind a table, the count is higher by the partitions of this kind. -/
theorem partCount_foldl :
    partCount (parts.foldl putPart s) kind = partCount s kind + (ofKind kind parts).length := by
  induction parts generalizing s with
  | nil => rfl
  | cons x rest ih =>
      rw [List.foldl_cons, ih]
      by_cases hx : x.kind = kind
      · subst hx
        rw [partCount_putPart_self, ofKind_cons_of_eq rfl, List.length_cons]
        omega
      · rw [partCount_putPart_of_ne hx, ofKind_cons_of_ne hx]

/-- A partition is stored at the count of its kind, with the number that its name gets. -/
theorem partArray_putPart_self : partArray (putPart s x) x.kind =
    Function.update (partArray s x.kind) (partCount s x.kind)
      ⟨x.startLba, x.secCnt, partCount s x.kind + firstNameNo x.kind⟩ := by
  rw [putPart]
  cases x.kind with
  | prim => rfl
  | logic => rfl

/-- The array of the other kind stays as it is. -/
theorem partArray_putPart_of_ne (h : x.kind ≠ kind) : partArray (putPart s x) kind
    = partArray s kind := by
  rw [putPart]
  cases hx : x.kind with
  | prim =>
      cases kind with
      | prim => exact absurd hx h
      | logic => rfl
  | logic =>
      cases kind with
      | prim => rfl
      | logic => exact absurd hx h

/-- The list of all partitions gets it at its end. -/
theorem partitionList_putPart :
    (putPart s x).partitionList = s.partitionList ++ [(x.kind, partCount s x.kind)] := by
  rw [putPart]
  cases x.kind with
  | prim => rfl
  | logic => rfl

/-- The partitions of one kind, when one more has been met. -/
theorem ofKind_snoc : ofKind kind (parts ++ [x]) =
    ofKind kind parts ++ if x.kind = kind then [x] else [] := by
  rw [ofKind_append]
  split
  next hx =>
    rw [ofKind_cons_of_eq hx]
    rfl
  next hx =>
    rw [ofKind_cons_of_ne hx]
    rfl

/-- One more partition is recorded behind the others. -/
theorem Recorded.put (h : Recorded s s' parts) (x : TablePart) :
    Recorded s (putPart s' x) (parts ++ [x]) := by
  obtain ⟨new, hnew, hlisted⟩ := h.listed
  refine ⟨fun kind => ?_, fun kind i y hy => ?_, new ++ [(x.kind, partCount s' x.kind)], ?_,
    fun kind => ?_⟩
  · rw [ofKind_snoc, List.length_append, ← h.count]
    split
    next hx => rw [← hx, partCount_putPart_self, List.length_singleton]
    next hx => rw [partCount_putPart_of_ne hx, List.length_nil, Nat.add_zero]
  · rw [ofKind_snoc] at hy
    by_cases hx : x.kind = kind
    · rw [if_pos hx, List.getElem?_append] at hy
      rw [← hx, partArray_putPart_self, hx, h.count]
      split at hy
      next hlt =>
        rw [Function.update_of_ne (Nat.ne_of_lt hlt)]
        exact h.array kind i y hy
      next hge =>
        -- the new one
        obtain ⟨hzero, hval⟩ := List.getElem?_eq_some_iff.mp hy
        rw [List.length_singleton] at hzero
        have hi : i = (ofKind kind parts).length := by omega
        subst hi
        rw [Function.update_self]
        simp only [Nat.sub_self, List.getElem_cons_zero] at hval
        rw [hval]
    · rw [if_neg hx, List.append_nil] at hy
      rw [partArray_putPart_of_ne hx]
      exact h.array kind i y hy
  · rw [partitionList_putPart, hnew, List.append_assoc]
  · rw [List.filter_append, hlisted, ofKind_snoc, List.length_append]
    by_cases hx : x.kind = kind
    · rw [if_pos hx, List.length_singleton, List.range_succ, List.map_append, hx, h.count,
        List.filter_cons, if_pos (decide_eq_true rfl)]
      rfl
    · rw [if_neg hx, List.filter_cons, if_neg fun heq => hx (of_decide_eq_true heq)]
      exact List.append_nil _

/-- The arrays and the list have the partitions that were put there. -/
theorem recorded_foldl (s : ScanState) (parts : List TablePart) (base : Nat) :
    Recorded s.reset (withBase (parts.foldl putPart s.reset) base) parts := by
  have hput : Recorded s.reset (parts.foldl putPart s.reset) parts := by
    induction parts using List.reverseRec with
    | nil =>
        refine ⟨fun kind => ?_, fun _ _ _ h => ?_, [], (List.append_nil _).symm, fun _ => rfl⟩
        · cases kind with
          | prim => rfl
          | logic => rfl
        · cases h
    | append_singleton parts x ih =>
        rw [List.foldl_append]
        exact ih.put x
  refine ⟨fun kind => ?_, fun kind => ?_, hput.listed⟩
  · rw [← hput.count]
    cases kind with
    | prim => rfl
    | logic => rfl
  · cases kind with
    | prim => exact hput.array .prim
    | logic => exact hput.array .logic

end

/-! ### A chain is scanned -/

section
variable {d : Disk} {base lba : Nat} {ps : List PartitionTableEntry} {parts : List TablePart}
  {s : ScanState}

/-- The three outcomes of a primary partition, and the two of a logical one. -/
theorem addPrim_eq (p : PartitionTableEntry) : s.addPrim lba p =
    if s.pNo < 3 then .ok (putPart s (tablePart .prim lba p))
    else if s.pNo = 3 then .error .assertFailed else .error .outOfBounds := by
  rw [ScanState.addPrim]
  by_cases hroom : s.pNo < 3
  · rw [if_pos (by omega), if_pos hroom]
    dsimp only
    rw [ASSERT_true (by omega)]
    rfl
  · rw [if_neg hroom]
    by_cases hfull : s.pNo = 3
    · rw [if_pos (by omega), if_pos hfull]
      dsimp only
      rw [ASSERT_false (by omega)]
      rfl
    · rw [if_neg (by omega), if_neg hfull]

/-- A logical partition is stored, or is the ninth one. -/
theorem addLogic_eq (p : PartitionTableEntry) : s.addLogic lba p =
    if s.lNo < 8 then .ok (putPart s (tablePart .logic lba p)) else .error .outOfBounds := rfl

/-- One of the first three primary partitions is stored. -/
theorem addPrim_put {p : PartitionTableEntry} (h : s.pNo + 1 < 4) :
    s.addPrim lba p = .ok (putPart s (tablePart .prim lba p)) := by
  rw [addPrim_eq, if_pos (by omega)]

/-- The fourth one is stored too, but then the assertion behind the store fails. -/
theorem addPrim_full {p : PartitionTableEntry} (h : s.pNo = 3) :
    s.addPrim lba p = .error .assertFailed := by
  rw [addPrim_eq, if_neg (by omega), if_pos h]

/-- One of the first eight logical partitions is stored. -/
theorem addLogic_put {p : PartitionTableEntry} (h : s.lNo < 8) :
    s.addLogic lba p = .ok (putPart s (tablePart .logic lba p)) := by
  rw [addLogic_eq, if_pos h]

/-- Primary partitions are in the boot sector only. -/
theorem Chain.noPrim (h : Chain d base lba ps parts)
    (hlba : lba ≠ 0) : ofKind .prim parts = [] := by
  induction h with
  | done => rfl
  | empty _ _ ih => exact ih hlba
  | primary _ _ _ => exact absurd rfl hlba
  | logical _ _ _ ih =>
      rw [ofKind_cons_of_ne (by simp [tablePart])]
      exact ih hlba
  | extended _ _ _ htarget _ _ ihinner ihrest =>
      rw [ofKind_append, ihinner htarget, ihrest hlba]
      rfl

/-- A table without partitions of either kind has none. -/
theorem eq_nil_of_ofKind (hprim : ofKind .prim parts = []) (hlogic : ofKind .logic parts = []) :
    parts = [] := by
  cases parts with
  | nil => rfl
  | cons x rest =>
      exfalso
      cases hx : x.kind with
      | prim =>
          rw [ofKind_cons_of_eq hx] at hprim
          cases hprim
      | logic =>
          rw [ofKind_cons_of_eq hx] at hlogic
          cases hlogic

/-- A chain with at most eight logical partitions is recorded, or stops at its fourth primary
partition. With a base it leaves the base alone. -/
theorem Chain.scanEntries (h : Chain d base lba ps parts) (hbase : s.extLbaBase = base)
    (hprim : s.pNo ≤ 3) (hlogic : s.lNo + (ofKind .logic parts).length ≤ 8) :
    ∃ enough base', (base ≠ 0 → base' = base) ∧ ∀ fuel ≥ enough,
      scanEntries (partitionScan d fuel) lba ps s =
        if s.pNo + (ofKind .prim parts).length ≤ 3 then
          .ok (withBase (parts.foldl putPart s) base')
        else .error .assertFailed := by
  induction h generalizing s with
  | @done base lba =>
      refine ⟨0, base, fun _ => rfl, fun fuel _ => ?_⟩
      rw [← hbase]
      exact (if_pos hprim).symm
  | @empty base lba p ps parts hp _ ih =>
      obtain ⟨enough, base', hkeep, hscan⟩ := ih hbase hprim hlogic
      -- the entry is skipped
      refine ⟨enough, base', hkeep, fun fuel hfuel => ?_⟩
      rw [Device.scanEntries, if_neg (by omega), if_neg (not_not.mpr hp)]
      exact hscan fuel hfuel
  | @primary base p ps parts hp _ ih =>
      rw [ofKind_cons_of_ne (by simp [tablePart])] at hlogic
      have hkind : (tablePart .prim 0 p).kind = .prim := rfl
      rw [length_ofKind_cons hkind]
      by_cases hroom : s.pNo + 1 < 4
      · obtain ⟨enough, base', hkeep, hscan⟩ := @ih (putPart s (tablePart .prim 0 p)) hbase
          (Nat.le_of_lt_succ hroom) hlogic
        refine ⟨enough, base', hkeep, fun fuel hfuel => ?_⟩
        rw [Device.scanEntries, if_neg hp.1, if_pos hp.2, if_pos rfl, addPrim_put hroom, ok_bind,
          hscan fuel hfuel]
        have hnext : (putPart s (tablePart .prim 0 p)).pNo = s.pNo + 1 := rfl
        rw [hnext, Nat.add_right_comm, Nat.add_assoc]
        rfl
      · -- the fourth one is stored, and then `p_no < 4` fails
        refine ⟨0, base, fun _ => rfl, fun fuel _ => ?_⟩
        rw [Device.scanEntries, if_neg hp.1, if_pos hp.2, if_pos rfl, addPrim_full (by omega),
          if_neg (by omega)]
        rfl
  | @logical base lba p ps parts hp hlba hrest ih =>
      have hnone : ofKind .prim parts = [] := hrest.noPrim hlba
      have hkind : (tablePart .logic lba p).kind = .logic := rfl
      rw [length_ofKind_cons hkind] at hlogic
      rw [ofKind_cons_of_ne (by simp [tablePart]), hnone]
      obtain ⟨enough, base', hkeep, hscan⟩ := @ih (putPart s (tablePart .logic lba p)) hbase
        hprim (by
          show s.lNo + 1 + _ ≤ 8
          omega)
      rw [hnone] at hscan
      have hnext : (putPart s (tablePart .logic lba p)).lNo = s.lNo + 1 := rfl
      by_cases hfull : (putPart s (tablePart .logic lba p)).lNo ≥ 8
      · -- the rest of the table is skipped, and has no partition
        have hempty : parts = [] :=
          eq_nil_of_ofKind hnone (List.eq_nil_of_length_eq_zero (by omega))
        refine ⟨0, base, fun _ => rfl, fun fuel _ => ?_⟩
        rw [Device.scanEntries, if_neg hp.1, if_pos hp.2, if_neg hlba, addLogic_put (by omega),
          ok_bind, if_pos hfull, hempty, ← hbase]
        exact (if_pos hprim).symm
      · refine ⟨enough, base', hkeep, fun fuel hfuel => ?_⟩
        rw [Device.scanEntries, if_neg hp.1, if_pos hp.2, if_neg hlba, addLogic_put (by omega),
          ok_bind, if_neg hfull]
        exact hscan fuel hfuel
  | @extended base lba p ps inner parts hp hne hlba htarget hinner _ ihinner ihrest =>
      have hnone : ofKind .prim inner = [] := hinner.noPrim htarget
      rw [ofKind_append, List.length_append] at hlogic
      rw [ofKind_append, hnone, List.nil_append]
      -- the table behind the entry is scanned with the base that the entry sets
      obtain ⟨enough₁, base₁, hkeep₁, hscan₁⟩ := @ihinner (withBase s (extBase base p)) rfl hprim
        (by
          show s.lNo + _ ≤ 8
          omega)
      obtain ⟨s₁, hs₁⟩ : ∃ s₁, s₁ = withBase (inner.foldl putPart s) base₁ := ⟨_, rfl⟩
      have hb₁ : s₁.extLbaBase = extBase base p := hs₁ ▸ hkeep₁ hne
      have hp₁ : s₁.pNo = s.pNo := by
        have hcount : partCount (inner.foldl putPart s) .prim
            = s.pNo + (ofKind .prim inner).length :=
          partCount_foldl
        rw [hnone] at hcount
        exact hs₁ ▸ hcount
      have hl₁ : s₁.lNo = s.lNo + (ofKind .logic inner).length := by
        have hcount : partCount (inner.foldl putPart s) .logic
            = s.lNo + (ofKind .logic inner).length :=
          partCount_foldl
        exact hs₁ ▸ hcount
      -- the rest of this table goes on with what was recorded there
      obtain ⟨enough₂, base₂, hkeep₂, hscan₂⟩ := @ihrest s₁ hb₁ (by omega) (by omega)
      refine ⟨max (enough₁ + 1) enough₂, base₂, fun h => ?_, fun fuel hfuel => ?_⟩
      · rw [hkeep₂ hne, extBase_of_ne h]
      · obtain ⟨fuel, rfl⟩ : ∃ n, fuel = n + 1 := ⟨fuel - 1, by omega⟩
        have hchild : partitionScan d (fuel + 1) (extTarget base p) (withBase s (extBase base p))
            = .ok s₁ := by
          rw [partitionScan_disk hlba]
          refine (hscan₁ fuel (by omega)).trans ?_
          rw [hnone, foldl_withBase, hs₁]
          exact if_pos hprim
        rw [Device.scanEntries, if_pos hp, ← withBase, hbase, hchild, ok_bind,
          hscan₂ (fuel + 1) (by omega), hp₁, hs₁, foldl_withBase, List.foldl_append]
        rfl

end

/-! ### A ninth logical partition -/

section
variable {d : Disk} {base lba fuel l : Nat} {ps : List PartitionTableEntry} {s s' : ScanState}
  {bs : List Bool}

/-- The tables end at the eighth logical partition, so there are no more than eight. -/
theorem endsAtEighth_le (h : EndsAtEighth l bs) (hl : l ≤ 8) : l + bs.length ≤ 8 := by
  induction bs generalizing l with
  | nil => exact hl
  | cons b bs ih =>
      have hrest := ih h.2.2 h.1
      rw [List.length_cons]
      omega

/-- A scan that comes to a ninth logical partition stores it behind the array. -/
theorem Meets.overruns {np : Nat} (h : Meets d base lba ps np bs) :
    ∃ enough, ∀ (s : ScanState) fuel,
    s.extLbaBase = base → s.pNo + np ≤ 3 → EndsAtEighth s.lNo bs → s.lNo + bs.length = 8 →
    enough ≤ fuel → scanEntries (partitionScan d fuel) lba ps s = .error .outOfBounds := by
  induction h with
  | @here base lba p ps hp hlba =>
      -- eight are recorded already
      refine ⟨0, fun s fuel _ _ _ hcount _ => ?_⟩
      have hfull : ¬s.lNo < 8 := Nat.not_lt.mpr (Nat.le_of_eq hcount.symm)
      rw [Device.scanEntries, if_neg hp.1, if_pos hp.2, if_neg hlba, ScanState.addLogic,
        if_neg hfull]
      rfl
  | @empty base lba np p ps bs hp _ ih =>
      obtain ⟨enough, hscan⟩ := ih
      refine ⟨enough, fun s fuel hbase hprim hlogic hcount hfuel => ?_⟩
      rw [Device.scanEntries, if_neg (by omega), if_neg (not_not.mpr hp)]
      exact hscan s fuel hbase hprim hlogic hcount hfuel
  | @primary base np p ps bs hp _ ih =>
      obtain ⟨enough, hscan⟩ := ih
      refine ⟨enough, fun s fuel hbase hprim hlogic hcount hfuel => ?_⟩
      rw [Device.scanEntries, if_neg hp.1, if_pos hp.2, if_pos rfl, addPrim_put (by omega), ok_bind]
      refine hscan _ fuel hbase ?_ hlogic hcount hfuel
      show s.pNo + 1 + np ≤ 3
      omega
  | @logical base lba np p ps bs hp hlba _ ih =>
      obtain ⟨enough, hscan⟩ := ih
      refine ⟨enough, fun s fuel hbase hprim hlogic hcount hfuel => ?_⟩
      obtain ⟨hroom, hmark, hrest⟩ := hlogic
      have hnext : (putPart s (tablePart .logic lba p)).lNo = s.lNo + 1 := rfl
      -- it is not the eighth one, which ends the table
      have hmore : ¬(putPart s (tablePart .logic lba p)).lNo ≥ 8 := by
        have hne : ¬s.lNo + 1 = 8 := fun heq => absurd (hmark.mpr heq) (by decide)
        omega
      rw [Device.scanEntries, if_neg hp.1, if_pos hp.2, if_neg hlba, addLogic_put hroom, ok_bind,
        if_neg hmore]
      refine hscan _ fuel hbase hprim hrest ?_ hfuel
      rw [List.length_cons] at hcount
      omega
  | @inside base lba np p ps bs hp hne hlba _ ih =>
      obtain ⟨enough, hscan⟩ := ih
      refine ⟨enough + 1, fun s fuel hbase hprim hlogic hcount hfuel => ?_⟩
      obtain ⟨fuel, rfl⟩ : ∃ n, fuel = n + 1 := ⟨fuel - 1, by omega⟩
      have hchild : partitionScan d (fuel + 1) (extTarget base p) (withBase s (extBase base p))
          = .error .outOfBounds := by
        rw [partitionScan_disk hlba]
        exact hscan (withBase s (extBase base p)) fuel rfl hprim hlogic hcount (by omega)
      rw [Device.scanEntries, if_pos hp, ← withBase, hbase, hchild]
      rfl
  | @behind base lba np p ps bs child hp hne hlba hdesc _ ih =>
      obtain ⟨enough, hscan⟩ := ih
      refine ⟨max enough (child.depth + 1), fun s fuel hbase hprim hlogic hcount hfuel => ?_⟩
      rw [endsAtEighth_append] at hlogic
      rw [List.length_append] at hcount
      obtain ⟨fuel, rfl⟩ : ∃ n, fuel = n + 1 := ⟨fuel - 1, by omega⟩
      have hprim' : (withBase s (extBase base p)).pNo + child.primaries ≤ 3 := by
        show s.pNo + child.primaries ≤ 3
        omega
      -- the whole tree of the entry is scanned before
      have hinner : ∃ s₁, scanEntries (partitionScan d fuel) (extTarget base p)
          (tableAt d (extTarget base p)) (withBase s (extBase base p)) = .ok s₁ ∧
          TreeScanned child (withBase s (extBase base p)) s₁ :=
        hdesc.scanEntries rfl hprim' hlogic.1 (by omega)
      obtain ⟨s₁, hok, hscanned⟩ := hinner
      have hchild : partitionScan d (fuel + 1) (extTarget base p) (withBase s (extBase base p))
          = .ok s₁ := by
        rw [partitionScan_disk hlba]
        exact hok
      have hp₁ : s₁.pNo = s.pNo + child.primaries := hscanned.pNo
      have hl₁ : s₁.lNo = s.lNo + child.logicals.length := hscanned.lNo
      rw [Device.scanEntries, if_pos hp, ← withBase, hbase, hchild, ok_bind]
      refine hscan s₁ (fuel + 1) (hscanned.base hne) (by omega) ?_ (by omega) (by omega)
      rw [hl₁]
      exact hlogic.2

end

/-! ### A store behind the arrays -/

/-- The scan of the entries `ps` comes to a ninth logical partition. -/
def Ninth (d : Disk) (lba : Nat) (ps : List PartitionTableEntry) (s : ScanState) : Prop :=
  ∃ np bs, Meets d s.extLbaBase lba ps np bs ∧ s.pNo + np ≤ 3 ∧ s.lNo + bs.length = 8 ∧
    EndsAtEighth s.lNo bs

section
variable {d : Disk} {lba fuel : Nat} {ps : List PartitionTableEntry} {s s' : ScanState}

/-- A call with two stages fails when one of them does. -/
theorem bind_eq_error {ε α β : Type} {x : Except ε α} {f : α → Except ε β} {e : ε} :
    (x >>= f) = .error e ↔ x = .error e ∨ ∃ a, x = .ok a ∧ f a = .error e := by
  cases x with
  | ok a => simp
  | error e' => simp

/-- No primary partition is stored behind its array, since the assertion stops the fifth. -/
theorem addPrim_inside (p : PartitionTableEntry) (h : s.pNo ≤ 3) :
    s.addPrim lba p ≠ .error .outOfBounds := by
  by_cases hroom : s.pNo + 1 < 4
  · rw [addPrim_put hroom]
    exact fun heq => by cases heq
  · rw [addPrim_full (by omega)]
    exact fun heq => by cases heq

/-- When the first extended entry makes the base 0, only primary partitions are recorded. -/
theorem scanEntries_zero_inside {scan : Nat → ScanState → Except Halt ScanState}
    (hreturn : ∀ s s', s.extLbaBase = 0 → scan 0 s ≠ .ok s')
    (hscan : ∀ s, s.extLbaBase = 0 → s.pNo ≤ 3 → scan 0 s ≠ .error .outOfBounds)
    {p : PartitionTableEntry} (hfirst : firstExtended ps = some p) (hzero : p.startLba = 0)
    (hbase : s.extLbaBase = 0) (hprim : s.pNo ≤ 3) : scanEntries scan 0 ps s ≠ .error
      .outOfBounds := by
  intro herr
  induction ps generalizing s with
  | nil => cases hfirst
  | cons q ps ih =>
      rw [scanEntries] at herr
      by_cases hext : q.fsType = 0x5
      · obtain rfl : q = p := by
          rw [firstExtended, List.find?_cons_of_pos (by simpa using hext)] at hfirst
          exact Option.some.inj hfirst
        have hself : (withBase s (extBase s.extLbaBase q)).extLbaBase = 0 := by
          show extBase s.extLbaBase q = 0
          rw [hbase, extBase, if_neg (not_not.mpr rfl), hzero]
        have htarget : extTarget s.extLbaBase q = 0 := by
          rw [hbase, extTarget, if_neg (not_not.mpr rfl), hzero]
        -- the call is for the boot sector again, and does not return
        rw [if_pos hext, ← withBase, htarget] at herr
        rcases bind_eq_error.mp herr with hchild | ⟨s₁, hchild, -⟩
        · exact hscan _ hself hprim hchild
        · exact hreturn _ _ hself hchild
      · rw [firstExtended_cons_of_ne hext] at hfirst
        rw [if_neg hext] at herr
        split at herr
        next =>
          rw [if_pos rfl] at herr
          rcases bind_eq_error.mp herr with hadd | ⟨s₁, hadd, hrest⟩
          · exact addPrim_inside q hprim hadd
          · obtain ⟨hp₁, hroom, -, hb₁⟩ := addPrim_eq_ok hadd
            exact ih hfirst (hb₁.trans hbase) (by omega) hrest
        next => exact ih hfirst hbase hprim herr

/-- A scan that calls itself for the same sector for ever stores nothing outside. -/
theorem partitionScan_zero_inside {p : PartitionTableEntry}
    (hfirst : firstExtended (tableAt d 0) = some p) (hzero : p.startLba = 0) (fuel : Nat) :
    ∀ s, s.extLbaBase = 0 → s.pNo ≤ 3 → partitionScan d fuel 0 s ≠ .error .outOfBounds := by
  induction fuel with
  | zero => exact fun s _ _ herr => by cases herr
  | succ fuel ih =>
      intro s hbase hprim herr
      rw [partitionScan_disk (Nat.zero_le _)] at herr
      exact scanEntries_zero_inside (partitionScan_hangs hfirst hzero fuel) ih hfirst hzero hbase
        hprim herr

/-- A loop that stores behind the array has come to a ninth logical partition, when the calls that
it makes have. -/
theorem ninth_of_scanEntries
    (ih : ∀ lba s, partitionScan d fuel lba s = .error .outOfBounds →
      (s.extLbaBase = 0 → lba = 0) → s.pNo ≤ 3 → s.lNo ≤ 8 →
      lba ≤ MAX_LBA ∧ Ninth d lba (tableAt d lba) s)
    (herr : scanEntries (partitionScan d fuel) lba ps s = .error .outOfBounds)
    (hfirst : s.extLbaBase = 0 → lba = 0 ∧ firstExtended ps = firstExtended (tableAt d 0))
    (hprim : s.pNo ≤ 3) (hlogic : s.lNo ≤ 8) : Ninth d lba ps s := by
  induction ps generalizing s with
  | nil => cases herr
  | cons p ps ihps =>
      rw [scanEntries] at herr
      by_cases hext : p.fsType = 0x5
      · rw [if_pos hext, ← withBase] at herr
        -- with the base 0 the call is for the boot sector, and does not store behind an array
        have hne : extBase s.extLbaBase p ≠ 0 := by
          intro hzero
          have hnone : s.extLbaBase = 0 := by
            by_contra hne
            exact hne ((extBase_of_ne hne).symm.trans hzero)
          have hstart : p.startLba = 0 := by
            rwa [hnone, extBase, if_neg (not_not.mpr rfl)] at hzero
          have hself : firstExtended (tableAt d 0) = some p := by
            rw [← (hfirst hnone).2, firstExtended, List.find?_cons_of_pos (by simpa using hext)]
          have htarget : extTarget s.extLbaBase p = 0 := by
            rw [hnone, extTarget, if_neg (not_not.mpr rfl), hstart]
          rw [htarget, hzero] at herr
          rcases bind_eq_error.mp herr with hchild | ⟨s₁, hchild, -⟩
          · exact partitionScan_zero_inside hself hstart fuel (withBase s 0) rfl hprim hchild
          · exact partitionScan_hangs hself hstart fuel (withBase s 0) s₁ rfl hchild
        have hbase : ∀ {lba : Nat}, (withBase s (extBase s.extLbaBase p)).extLbaBase
            = 0 → lba = 0 :=
          fun hz => absurd hz hne
        rcases bind_eq_error.mp herr with hchild | ⟨s₁, hchild, hrest⟩
        -- the store is in the call, or behind a call that returns
        · obtain ⟨hlba, np, bs, hmeets, hp, hl, hends⟩ := ih _ _ hchild hbase hprim hlogic
          exact ⟨np, bs, .inside hext hne hlba hmeets, hp, hl, hends⟩
        · obtain ⟨hlba, child, hc⟩ := found_of_partitionScan fuel _ _ _ hchild hbase
          have hb₁ : s₁.extLbaBase = extBase s.extLbaBase p := hc.scanned.base hne
          have hp₁ : s₁.pNo = s.pNo + child.primaries := hc.scanned.pNo
          have hl₁ : s₁.lNo = s.lNo + child.logicals.length := hc.scanned.lNo
          have hends₁ : EndsAtEighth s.lNo child.logicals := hc.logic
          obtain ⟨np, bs, hmeets, hp, hl, hends⟩ := ihps hrest
            (fun hz => absurd (hb₁.symm.trans hz) hne) (hc.prim hprim)
            (hl₁ ▸ endsAtEighth_le hends₁ hlogic)
          rw [hb₁] at hmeets
          refine ⟨_, _, .behind hext hne hlba hc.describes hmeets, by omega, ?_, ?_⟩
          · rw [List.length_append]
            omega
          · rw [endsAtEighth_append, ← hl₁]
            exact ⟨hends₁, hends⟩
      · rw [if_neg hext] at herr
        rw [firstExtended_cons_of_ne hext] at hfirst
        split at herr
        next hpart =>
          by_cases hlba : lba = 0
          · subst hlba
            rw [if_pos rfl] at herr
            rcases bind_eq_error.mp herr with hadd | ⟨s₁, hadd, hrest⟩
            · exact absurd hadd (addPrim_inside p hprim)
            · obtain ⟨hp₁, hroom, hl₁, hb₁⟩ := addPrim_eq_ok hadd
              obtain ⟨np, bs, hmeets, hp, hl, hends⟩ := ihps hrest (hb₁.symm ▸ hfirst) (by omega)
                (by omega)
              rw [hb₁] at hmeets
              rw [hl₁] at hl hends
              exact ⟨np + 1, bs, .primary ⟨hext, hpart⟩ hmeets, by omega, hl, hends⟩
          · rw [if_neg hlba] at herr
            rcases bind_eq_error.mp herr with hadd | ⟨s₁, hadd, hrest⟩
            · -- this is the ninth one
              have hfull : ¬s.lNo < 8 := by
                intro hroom
                rw [addLogic_put hroom] at hadd
                cases hadd
              exact ⟨0, [], .here ⟨hext, hpart⟩ hlba, hprim, by simp only [List.length_nil]; omega,
                trivial⟩
            · obtain ⟨hp₁, hroom, hl₁, hb₁⟩ := addLogic_eq_ok hadd
              split at hrest
              next => cases hrest
              next hmore =>
                obtain ⟨np, bs, hmeets, hp, hl, hends⟩ := ihps hrest (hb₁.symm ▸ hfirst) (by omega)
                  (by omega)
                rw [hb₁] at hmeets
                rw [hl₁] at hends
                refine ⟨np, false :: bs, .logical ⟨hext, hpart⟩ hlba hmeets, by omega,
                  ?_, hroom, ?_, hends⟩
                · rw [List.length_cons]
                  omega
                · exact iff_of_false (by decide) (by omega)
        next hempty =>
          obtain ⟨np, bs, hmeets, hp, hl, hends⟩ := ihps herr hfirst hprim hlogic
          exact ⟨np, bs, .empty (not_not.mp hempty) hmeets, hp, hl, hends⟩

/-- A scan that stores outside has come to a ninth logical partition. -/
theorem ninth_of_partitionScan (fuel : Nat) :
    ∀ lba s, partitionScan d fuel lba s = .error .outOfBounds → (s.extLbaBase = 0 → lba = 0) →
      s.pNo ≤ 3 → s.lNo ≤ 8 → lba ≤ MAX_LBA ∧ Ninth d lba (tableAt d lba) s := by
  induction fuel with
  | zero => exact fun lba s herr => by cases herr
  | succ fuel ih =>
      intro lba s herr hbase hprim hlogic
      by_cases hlba : lba ≤ MAX_LBA
      · rw [partitionScan_disk hlba] at herr
        refine ⟨hlba, ninth_of_scanEntries ih herr (fun hz => ?_) hprim hlogic⟩
        rw [hbase hz]
        exact ⟨rfl, rfl⟩
      · rw [partitionScan, readCheck, if_pos (Nat.lt_of_not_le hlba)] at herr
        cases herr

end

/-! ### The condition -/

section
variable {d : Disk} {s : ScanState}

/-- Stores stay inside of the arrays unless there is a ninth logical partition. -/
theorem inside_iff (d : Disk) (s : ScanState) :
    (∀ fuel, partitionScan d fuel 0 s.reset ≠ .error .outOfBounds) ↔
      ¬MeetsNinth d s.extLbaBase := by
  constructor
  · rintro hinside ⟨np, bs, hmeets, hprim, hcount, hends⟩
    obtain ⟨enough, hscan⟩ := hmeets.overruns
    refine hinside (enough + 1) ?_
    rw [partitionScan_disk (Nat.zero_le _)]
    refine hscan s.reset enough rfl ?_ hends ?_ (Nat.le_refl _)
    · show 0 + np ≤ 3
      omega
    · show 0 + bs.length = 8
      omega
  · intro hno fuel herr
    obtain ⟨-, np, bs, hmeets, hprim, hcount, hends⟩ := ninth_of_partitionScan fuel 0 s.reset herr
      (fun _ => rfl) (Nat.zero_le 3) (Nat.zero_le 8)
    have hprim' : 0 + np ≤ 3 := hprim
    have hcount' : 0 + bs.length = 8 := hcount
    exact hno ⟨np, bs, hmeets, by omega, by omega, hends⟩

/-- The scan of a chain with at most eight logical partitions. -/
theorem Chain.partitionScan {parts : List TablePart}
    (h : Chain d s.extLbaBase 0 (tableAt d 0) parts) (hlogic : (ofKind .logic parts).length ≤ 8) :
    ∃ enough base', ∀ fuel ≥ enough, partitionScan d fuel 0 s.reset =
      if (ofKind .prim parts).length ≤ 3 then .ok (withBase (parts.foldl putPart s.reset) base')
      else .error .assertFailed := by
  have hlogic' : s.reset.lNo + (ofKind .logic parts).length ≤ 8 := by
    show 0 + _ ≤ 8
    omega
  obtain ⟨enough, base', -, hscan⟩ := h.scanEntries (s := s.reset) rfl (Nat.zero_le 3) hlogic'
  refine ⟨enough + 1, base', fun fuel hfuel => ?_⟩
  obtain ⟨fuel, rfl⟩ : ∃ n, fuel = n + 1 := ⟨fuel - 1, by omega⟩
  rw [partitionScan_disk (Nat.zero_le _)]
  have hresult := hscan fuel (by omega)
  have hzero : s.reset.pNo + (ofKind .prim parts).length = (ofKind .prim parts).length :=
    Nat.zero_add _
  rwa [hzero] at hresult

/-- For every content of the disk and every base: the scan stores inside of its arrays and records
what there is, if and only if it does not come to a ninth logical partition, and there are not
exactly four primary partitions beside at most eight logical ones. -/
theorem scanSafe_iff (d : Disk) (s : ScanState) :
    ScanSafe d s.reset ↔
      ¬MeetsNinth d s.extLbaBase ∧
      ¬∃ parts, Chain d s.extLbaBase 0 (tableAt d 0) parts ∧ (ofKind .prim parts).length = 4 ∧
        (ofKind .logic parts).length ≤ 8 := by
  constructor
  · intro h
    refine ⟨(inside_iff d s).mp h.inside, ?_⟩
    rintro ⟨parts, hchain, hprim, hlogic⟩
    obtain ⟨fuel, s', hok, hrec⟩ := h.records parts hchain (Nat.le_of_eq hprim) hlogic
    -- a scan that returns has met three at most
    obtain ⟨-, t, ht⟩ := found_of_partitionScan fuel 0 _ _ hok fun _ => rfl
    have hmost : s'.pNo ≤ 3 := ht.prim (Nat.zero_le 3)
    have hcount : s'.pNo = (ofKind .prim parts).length := hrec.count .prim
    omega
  · rintro ⟨hno, hfour⟩
    refine ⟨(inside_iff d s).mpr hno, fun parts hchain hprim hlogic => ?_⟩
    obtain ⟨enough, base', hscan⟩ := hchain.partitionScan (s := s) hlogic
    have hroom : (ofKind .prim parts).length ≤ 3 := by
      by_contra hfull
      exact hfour ⟨parts, hchain, by omega, hlogic⟩
    refine ⟨enough, _, ?_, recorded_foldl s parts base'⟩
    rw [hscan enough (Nat.le_refl _), if_pos hroom]

end

/-! ### Four primary partitions -/

/-- The four entries in the boot sector have the type 0x83, and no other sector has any. -/
def fourPrimaries : Disk := fun lba k =>
  if lba = 0 ∧ (k = 450 ∨ k = 466 ∨ k = 482 ∨ k = 498) then 0x83 else 0

/-- The scan of this disk stops at the fourth one. `p_no` is 4 when the assertion compares it with
4, although the partition has just been stored at index 3. -/
theorem scan_stops_at_fourth :
    (∀ fuel, partitionScan fourPrimaries (fuel + 1) 0 bootScan.reset = .error .assertFailed) ∧
      ¬ScanSafe fourPrimaries bootScan.reset := by
  have htable : tableAt fourPrimaries 0 = List.replicate 4 ⟨0x83, 0, 0⟩ := by decide
  have hscan : ∀ fuel, partitionScan fourPrimaries (fuel + 1) 0 bootScan.reset
      = .error .assertFailed := by
    intro fuel
    rw [partitionScan_disk (Nat.zero_le _), htable]
    rfl
  refine ⟨hscan, fun h => ?_⟩
  have hpart : IsPart ⟨0x83, 0, 0⟩ := ⟨by decide, by decide⟩
  have hchain : Chain fourPrimaries 0 0 (tableAt fourPrimaries 0)
      (List.replicate 4 (tablePart .prim 0 ⟨0x83, 0, 0⟩)) := by
    rw [htable]
    exact .primary hpart (.primary hpart (.primary hpart (.primary hpart .done)))
  obtain ⟨fuel, s', hok, -⟩ := h.records _ hchain (by decide) (by decide)
  cases fuel with
  | zero => cases hok
  | succ fuel =>
      rw [hscan] at hok
      cases hok

end Fizzos.Proofs
