import Fizzos.Device.PartitionScan

/-!
# `Fizzos.Proofs.PartitionScan`: when the scan of the partition tables ends

The scan follows the extended entries wherever they lead. Nothing stops it when they lead back, so
it returns exactly when the boot sectors that it meets form a finite tree
(`partitionScan_returns_iff`). Besides, every sector must be on the disk, and the partitions must
fit in their arrays.

`PartTree` is what there is to be found in a table, and `Describes` says that the disk holds it. The
eighth logical partition ends its own table, and no other one (`EndsAtEighth`).
-/

set_option autoImplicit false

namespace Fizzos.Proofs

open Fizzos.Device
open Fizzos.Support

/-- A partition table from one of its entries on, with the tables that it leads to. -/
inductive PartTree where
  | done
  | empty (rest : PartTree)
  | primary (rest : PartTree)
  | logical (rest : PartTree)
  /-- A logical partition, behind which the table does not count. -/
  | last
  | extended (child rest : PartTree)

namespace PartTree

/-- The number of primary partitions. -/
def primaries : PartTree → Nat
  | done => 0
  | empty rest => rest.primaries
  | primary rest => rest.primaries + 1
  | logical rest => rest.primaries
  | last => 0
  | extended child rest => child.primaries + rest.primaries

/-- The logical partitions in their order, with the mark of those that end a table. -/
def logicals : PartTree → List Bool
  | done => []
  | empty rest => rest.logicals
  | primary rest => rest.logicals
  | logical rest => false :: rest.logicals
  | last => [true]
  | extended child rest => child.logicals ++ rest.logicals

/-- The number of tables on top of each other. -/
def depth : PartTree → Nat
  | done => 0
  | empty rest => rest.depth
  | primary rest => rest.depth
  | logical rest => rest.depth
  | last => 0
  | extended child rest => max (child.depth + 1) rest.depth

end PartTree

/-- The entry is a partition. -/
def IsPart (p : PartitionTableEntry) : Prop := p.fsType ≠ 0x5 ∧ p.fsType ≠ 0

/-- The partition table of a sector. -/
def tableAt (d : Disk) (lba : Nat) : List PartitionTableEntry :=
  partitionTable (ideRead d lba (fun _ => 0) 0 1)

/-- The entries `ps` of the sector `lba` hold a tree. The first extended entry makes the base, and
must not make it 0. -/
inductive Describes (d : Disk) : Nat → Nat → List PartitionTableEntry → PartTree → Prop
  | done {base lba : Nat} : Describes d base lba [] .done
  | empty {base lba : Nat} {p : PartitionTableEntry} {ps : List PartitionTableEntry}
      {rest : PartTree} : p.fsType = 0 → Describes d base lba ps rest →
      Describes d base lba (p :: ps) (.empty rest)
  | primary {base : Nat} {p : PartitionTableEntry} {ps : List PartitionTableEntry}
      {rest : PartTree} : IsPart p → Describes d base 0 ps rest →
      Describes d base 0 (p :: ps) (.primary rest)
  | logical {base lba : Nat} {p : PartitionTableEntry} {ps : List PartitionTableEntry}
      {rest : PartTree} : IsPart p → lba ≠ 0 → Describes d base lba ps rest →
      Describes d base lba (p :: ps) (.logical rest)
  | last {base lba : Nat} {p : PartitionTableEntry} {ps : List PartitionTableEntry} :
      IsPart p → lba ≠ 0 → Describes d base lba (p :: ps) .last
  | extended {base lba : Nat} {p : PartitionTableEntry} {ps : List PartitionTableEntry}
      {child rest : PartTree} : p.fsType = 0x5 → extBase base p ≠ 0 →
      extTarget base p ≤ MAX_LBA →
      Describes d (extBase base p) (extTarget base p) (tableAt d (extTarget base p)) child →
      Describes d (extBase base p) lba ps rest →
      Describes d base lba (p :: ps) (.extended child rest)

/-- With `l` logical partitions in front, the eighth one is the last, and it alone ends its
table. -/
def EndsAtEighth : Nat → List Bool → Prop
  | _, [] => True
  | l, b :: bs => l < 8 ∧ (b = true ↔ l + 1 = 8) ∧ EndsAtEighth (l + 1) bs

/-- The tables of the disk form a finite tree that fits in the arrays. -/
def FiniteTables (d : Disk) (base : Nat) : Prop :=
  ∃ t, Describes d base 0 (tableAt d 0) t ∧ t.primaries ≤ 3 ∧ EndsAtEighth 0 t.logicals

section
variable {d : Disk} {base lba fuel l : Nat} {ps : List PartitionTableEntry} {t : PartTree}
  {s s' : ScanState}

theorem endsAtEighth_append {xs ys : List Bool} :
    EndsAtEighth l (xs ++ ys) ↔ EndsAtEighth l xs ∧ EndsAtEighth (l + xs.length) ys := by
  induction xs generalizing l with
  | nil => simp [EndsAtEighth]
  | cons b bs ih =>
      rw [List.cons_append, EndsAtEighth, EndsAtEighth, ih, List.length_cons, Nat.add_right_comm,
        ← Nat.add_assoc]
      tauto

/-- A call for a sector of the disk is the loop over its table. -/
theorem partitionScan_disk (hlba : lba ≤ MAX_LBA) :
    partitionScan d (fuel + 1) lba s
      = scanEntries (partitionScan d fuel) lba (tableAt d lba) s := by
  have hcheck : readCheck lba 1 = .ok () := readCheck_one.mpr hlba
  rw [partitionScan, hcheck, ok_bind]
  rfl

/-- A primary partition that leaves room for another one. -/
theorem addPrim_ok (lba : Nat) (p : PartitionTableEntry) (h : s.pNo + 1 < 4) :
    ∃ s', s.addPrim lba p = .ok s' ∧ s'.pNo = s.pNo + 1 ∧ s'.lNo = s.lNo ∧
      s'.extLbaBase = s.extLbaBase := by
  rw [ScanState.addPrim, if_pos (by omega)]
  dsimp only
  rw [ASSERT_true h]
  exact ⟨_, rfl, rfl, rfl, rfl⟩

/-- A logical partition that has room. -/
theorem addLogic_ok (lba : Nat) (p : PartitionTableEntry) (h : s.lNo < 8) :
    ∃ s', s.addLogic lba p = .ok s' ∧ s'.pNo = s.pNo ∧ s'.lNo = s.lNo + 1 ∧
      s'.extLbaBase = s.extLbaBase := by
  rw [ScanState.addLogic, if_pos h]
  exact ⟨_, rfl, rfl, rfl, rfl⟩

theorem extBase_of_ne {p : PartitionTableEntry} (h : base ≠ 0) : extBase base p = base := if_pos h

/-! ### A finite tree is scanned -/

/-- What a scan of the tree does to the counters. -/
structure TreeScanned (t : PartTree) (s s' : ScanState) : Prop where
  pNo : s'.pNo = s.pNo + t.primaries
  lNo : s'.lNo = s.lNo + t.logicals.length
  base : s.extLbaBase ≠ 0 → s'.extLbaBase = s.extLbaBase

/-- A tree with room in the arrays is scanned with fuel for its depth. -/
theorem Describes.scanEntries (h : Describes d base lba ps t) (hbase : s.extLbaBase = base)
    (hprim : s.pNo + t.primaries ≤ 3) (hlogic : EndsAtEighth s.lNo t.logicals)
    (hfuel : t.depth ≤ fuel) :
    ∃ s', scanEntries (partitionScan d fuel) lba ps s = .ok s' ∧ TreeScanned t s s' := by
  induction h generalizing s fuel with
  | done => exact ⟨s, rfl, rfl, rfl, fun _ => rfl⟩
  | @empty base lba p ps rest hp _ ih =>
      obtain ⟨s', hok, hscan⟩ := ih hbase hprim hlogic hfuel
      refine ⟨s', ?_, hscan.pNo, hscan.lNo, hscan.base⟩
      rw [Device.scanEntries, if_neg (by omega), if_neg (not_not.mpr hp)]
      exact hok
  | @primary base p ps rest hp _ ih =>
      -- There are at most three main partitions, so the array has room for this one.
      have hroom : s.pNo + 1 < 4 := by
        rw [PartTree.primaries] at hprim
        omega
      obtain ⟨s₁, hadd, hp₁, hl₁, hb₁⟩ := addPrim_ok 0 p hroom
      obtain ⟨s', hok, hscan⟩ := ih (hb₁.trans hbase) (by
        rw [PartTree.primaries] at hprim
        omega) (hl₁.symm ▸ hlogic) hfuel
      refine ⟨s', ?_, ?_, hl₁ ▸ hscan.lNo, hb₁ ▸ hscan.base⟩
      · rw [Device.scanEntries, if_neg hp.1, if_pos hp.2, if_pos rfl, hadd, ok_bind]
        exact hok
      · have hcount := hscan.pNo
        rw [PartTree.primaries]
        omega
  | @logical base lba p ps rest hp hlba _ ih =>
      -- More entries follow, so this is not the eighth logical partition.
      obtain ⟨hroom, hmark, hrest⟩ := hlogic
      obtain ⟨s₁, hadd, hp₁, hl₁, hb₁⟩ := addLogic_ok lba p hroom
      obtain ⟨s', hok, hscan⟩ := ih (hb₁.trans hbase) (hp₁.symm ▸ hprim) (hl₁.symm ▸ hrest) hfuel
      refine ⟨s', ?_, hp₁ ▸ hscan.pNo, ?_, hb₁ ▸ hscan.base⟩
      · have hmore : ¬s₁.lNo ≥ 8 := by
          have hne : ¬s.lNo + 1 = 8 := fun heq => absurd (hmark.mpr heq) (by decide)
          omega
        rw [Device.scanEntries, if_neg hp.1, if_pos hp.2, if_neg hlba, hadd, ok_bind, if_neg hmore]
        exact hok
      · have hcount := hscan.lNo
        rw [PartTree.logicals, List.length_cons]
        omega
  | @last base lba p ps hp hlba =>
      -- The eighth logical partition ends the scan of the sector.
      obtain ⟨hroom, hmark, -⟩ := hlogic
      have heighth : s.lNo + 1 = 8 := hmark.mp rfl
      obtain ⟨s₁, hadd, hp₁, hl₁, hb₁⟩ := addLogic_ok lba p hroom
      refine ⟨s₁, ?_, hp₁, hl₁, fun _ => hb₁⟩
      rw [Device.scanEntries, if_neg hp.1, if_pos hp.2, if_neg hlba, hadd, ok_bind,
        if_pos (by omega)]
      rfl
  | @extended base lba p ps child rest hp hne hlba _ _ ihchild ihrest =>
      rw [PartTree.primaries] at hprim
      rw [PartTree.logicals, endsAtEighth_append] at hlogic
      rw [PartTree.depth] at hfuel
      obtain ⟨fuel, rfl⟩ : ∃ n, fuel = n + 1 := ⟨fuel - 1, by omega⟩
      -- The recursive call reads the sector of the extended partition with one fuel less.
      obtain ⟨sb, hsb⟩ : ∃ sb, sb = { s with extLbaBase := extBase s.extLbaBase p } := ⟨_, rfl⟩
      have hpb : sb.pNo = s.pNo := hsb ▸ rfl
      have hlb : sb.lNo = s.lNo := hsb ▸ rfl
      have hbb : sb.extLbaBase = extBase base p := by rw [hsb, hbase]
      obtain ⟨s₁, hok₁, hscan₁⟩ := @ihchild fuel sb hbb (by omega)
        (hlb.symm ▸ hlogic.1) (by omega)
      -- The base is set by now, so the scan of the child leaves it for the entries behind it.
      have hb₁ : s₁.extLbaBase = extBase base p := (hscan₁.base (hbb ▸ hne)).trans hbb
      have hp₁ := hscan₁.pNo
      have hl₁ := hscan₁.lNo
      obtain ⟨s', hok, hscan⟩ := @ihrest (fuel + 1) s₁ hb₁ (by omega)
        (by rw [hl₁, hlb]; exact hlogic.2) (by omega)
      have hchild : partitionScan d (fuel + 1) (extTarget base p) sb = .ok s₁ := by
        rw [partitionScan_disk hlba]
        exact hok₁
      have hpr := hscan.pNo
      have hlr := hscan.lNo
      refine ⟨s', ?_, ?_, ?_, fun hs => ?_⟩
      · rw [Device.scanEntries, if_pos hp, ← hsb, hbase, hchild, ok_bind]
        exact hok
      · rw [PartTree.primaries]
        omega
      · rw [PartTree.logicals, List.length_append]
        omega
      · rw [hscan.base (hb₁.symm ▸ hne), hb₁, ← hbase, extBase_of_ne hs]

/-! ### A scan that returns -/

/-- The first extended entry of a table. -/
def firstExtended (ps : List PartitionTableEntry) : Option PartitionTableEntry :=
  ps.find? fun p => p.fsType == 0x5

theorem firstExtended_cons_of_ne {p : PartitionTableEntry} (h : p.fsType ≠ 0x5) :
    firstExtended (p :: ps) = firstExtended ps :=
  List.find?_cons_of_neg (by simpa using h)

theorem addPrim_eq_ok {p : PartitionTableEntry} (h : s.addPrim lba p = .ok s') :
    s'.pNo = s.pNo + 1 ∧ s.pNo + 1 < 4 ∧ s'.lNo = s.lNo ∧ s'.extLbaBase = s.extLbaBase := by
  rw [ScanState.addPrim] at h
  split at h
  next =>
    obtain ⟨u, hroom, hret⟩ := bind_eq_ok.mp h
    obtain rfl := Except.ok.inj hret
    exact ⟨rfl, ASSERT_eq_ok.mp hroom, rfl, rfl⟩
  next => cases h

theorem addLogic_eq_ok {p : PartitionTableEntry} (h : s.addLogic lba p = .ok s') :
    s'.pNo = s.pNo ∧ s.lNo < 8 ∧ s'.lNo = s.lNo + 1 ∧ s'.extLbaBase = s.extLbaBase := by
  rw [ScanState.addLogic] at h
  split at h
  next hroom =>
    obtain rfl := Except.ok.inj h
    exact ⟨rfl, hroom, rfl, rfl⟩
  next => cases h

/-- The loop does not end when the first extended entry makes the base 0: it leads to sector 0
again, and nothing has changed. -/
theorem scanEntries_hangs {scan : Nat → ScanState → Except Halt ScanState}
    (hscan : ∀ s s', s.extLbaBase = 0 → scan 0 s ≠ .ok s') {p : PartitionTableEntry}
    (hfirst : firstExtended ps = some p) (hzero : p.startLba = 0) (hbase : s.extLbaBase = 0) :
    scanEntries scan 0 ps s ≠ .ok s' := by
  intro hok
  induction ps generalizing s with
  | nil => cases hfirst
  | cons q ps ih =>
      rw [scanEntries] at hok
      by_cases hext : q.fsType = 0x5
      · obtain rfl : q = p := by
          rw [firstExtended, List.find?_cons_of_pos (by simpa using hext)] at hfirst
          exact Option.some.inj hfirst
        rw [if_pos hext] at hok
        obtain ⟨s₁, hchild, -⟩ := bind_eq_ok.mp hok
        rw [hbase, extTarget, if_neg (not_not.mpr rfl), hzero] at hchild
        refine hscan _ _ ?_ hchild
        show extBase 0 q = 0
        rw [extBase, if_neg (not_not.mpr rfl), hzero]
      · rw [firstExtended_cons_of_ne hext] at hfirst
        rw [if_neg hext] at hok
        split at hok
        next hpart =>
          rw [if_pos rfl] at hok
          obtain ⟨s₁, hadd, hrest⟩ := bind_eq_ok.mp hok
          exact ih hfirst ((addPrim_eq_ok hadd).2.2.2.trans hbase) hrest
        next => exact ih hfirst hbase hok

theorem partitionScan_hangs {p : PartitionTableEntry}
    (hfirst : firstExtended (tableAt d 0) = some p) (hzero : p.startLba = 0) (fuel : Nat) :
    ∀ s s', s.extLbaBase = 0 → partitionScan d fuel 0 s ≠ .ok s' := by
  induction fuel with
  | zero =>
      intro s s' _ hok
      cases hok
  | succ fuel ih =>
      intro s s' hbase hok
      obtain ⟨u, -, hloop⟩ := bind_eq_ok.mp hok
      exact scanEntries_hangs ih hfirst hzero hbase hloop

/-- The tree that a scan went through. -/
structure Found (d : Disk) (lba : Nat) (ps : List PartitionTableEntry) (s s' : ScanState)
    (t : PartTree) : Prop where
  describes : Describes d s.extLbaBase lba ps t
  scanned : TreeScanned t s s'
  prim : s.pNo ≤ 3 → s'.pNo ≤ 3
  logic : EndsAtEighth s.lNo t.logicals

/-- The loop finds a tree, when the calls that it makes do. As long as there is no base, it walks
along the table of sector 0, and has met no extended entry. -/
theorem found_of_scanEntries
    (ih : ∀ lba s s', partitionScan d fuel lba s = .ok s' → (s.extLbaBase = 0 → lba = 0) →
      lba ≤ MAX_LBA ∧ ∃ t, Found d lba (tableAt d lba) s s' t)
    (hok : scanEntries (partitionScan d fuel) lba ps s = .ok s')
    (hfirst : s.extLbaBase = 0 → lba = 0 ∧ firstExtended ps = firstExtended (tableAt d 0)) :
    ∃ t, Found d lba ps s s' t := by
  induction ps generalizing s with
  | nil =>
      obtain rfl := Except.ok.inj hok
      exact ⟨.done, .done, ⟨rfl, rfl, fun _ => rfl⟩, id, trivial⟩
  | cons p ps ihps =>
      rw [scanEntries] at hok
      by_cases hext : p.fsType = 0x5
      · rw [if_pos hext] at hok
        obtain ⟨sb, hsb⟩ : ∃ sb, sb = { s with extLbaBase := extBase s.extLbaBase p } := ⟨_, rfl⟩
        rw [← hsb] at hok
        obtain ⟨s₁, hchild, hrest⟩ := bind_eq_ok.mp hok
        have hbb : sb.extLbaBase = extBase s.extLbaBase p := hsb ▸ rfl
        have hpb : sb.pNo = s.pNo := hsb ▸ rfl
        have hlb : sb.lNo = s.lNo := hsb ▸ rfl
        -- the entry makes a base
        have hne : extBase s.extLbaBase p ≠ 0 := by
          intro hzero
          have hbase : s.extLbaBase = 0 := by
            by_contra hne
            exact hne ((extBase_of_ne hne).symm.trans hzero)
          rw [hbase, extBase, if_neg (not_not.mpr rfl)] at hzero
          have hself : firstExtended (tableAt d 0) = some p := by
            rw [← (hfirst hbase).2, firstExtended, List.find?_cons_of_pos (by simpa using hext)]
          rw [hbase, extTarget, if_neg (not_not.mpr rfl), hzero] at hchild
          refine partitionScan_hangs hself hzero fuel sb s₁ ?_ hchild
          rw [hbb, hbase, extBase, if_neg (not_not.mpr rfl), hzero]
        obtain ⟨hlba, child, hc⟩ := ih _ _ _ hchild fun hz => absurd (hbb.symm.trans hz) hne
        have hb₁ : s₁.extLbaBase = extBase s.extLbaBase p :=
          (hc.scanned.base (hbb ▸ hne)).trans hbb
        obtain ⟨rest, hr⟩ := ihps hrest fun hz => absurd (hb₁.symm.trans hz) hne
        have hpc := hc.scanned.pNo
        have hlc := hc.scanned.lNo
        have hpr := hr.scanned.pNo
        have hlr := hr.scanned.lNo
        refine ⟨.extended child rest, ?_, ⟨?_, ?_, fun hs => ?_⟩, fun hp => ?_, ?_⟩
        · exact .extended hext hne hlba (hbb ▸ hc.describes) (hb₁ ▸ hr.describes)
        · rw [PartTree.primaries]
          omega
        · rw [PartTree.logicals, List.length_append]
          omega
        · rw [hr.scanned.base (hb₁.symm ▸ hne), hb₁, extBase_of_ne hs]
        · exact hr.prim (hc.prim (hpb.symm ▸ hp))
        · rw [PartTree.logicals, endsAtEighth_append, ← hlb, ← hlc]
          exact ⟨hc.logic, hr.logic⟩
      · rw [if_neg hext] at hok
        rw [firstExtended_cons_of_ne hext] at hfirst
        split at hok
        next hpart =>
          by_cases hlba : lba = 0
          · subst hlba
            rw [if_pos rfl] at hok
            obtain ⟨s₁, hadd, hrest⟩ := bind_eq_ok.mp hok
            obtain ⟨hp₁, hroom, hl₁, hb₁⟩ := addPrim_eq_ok hadd
            obtain ⟨rest, hr⟩ := ihps hrest (hb₁.symm ▸ hfirst)
            have hpr := hr.scanned.pNo
            refine ⟨.primary rest, .primary ⟨hext, hpart⟩ (hb₁ ▸ hr.describes), ⟨?_, ?_, ?_⟩,
              fun _ => hr.prim (by omega), hl₁ ▸ hr.logic⟩
            · rw [PartTree.primaries]
              omega
            · exact hl₁ ▸ hr.scanned.lNo
            · exact hb₁ ▸ hr.scanned.base
          · rw [if_neg hlba] at hok
            obtain ⟨s₁, hadd, hrest⟩ := bind_eq_ok.mp hok
            obtain ⟨hp₁, hroom, hl₁, hb₁⟩ := addLogic_eq_ok hadd
            by_cases hfull : s₁.lNo ≥ 8
            · rw [if_pos hfull] at hrest
              obtain rfl := Except.ok.inj hrest
              refine ⟨.last, .last ⟨hext, hpart⟩ hlba, ⟨hp₁, hl₁, fun _ => hb₁⟩,
                fun hp => hp₁.symm ▸ hp, hroom, ?_, trivial⟩
              exact iff_of_true rfl (by omega)
            · rw [if_neg hfull] at hrest
              obtain ⟨rest, hr⟩ := ihps hrest (hb₁.symm ▸ hfirst)
              have hlr := hr.scanned.lNo
              refine ⟨.logical rest, .logical ⟨hext, hpart⟩ hlba (hb₁ ▸ hr.describes),
                ⟨?_, ?_, ?_⟩, fun hp => hr.prim (hp₁.symm ▸ hp), hroom, ?_, hl₁ ▸ hr.logic⟩
              · exact hp₁ ▸ hr.scanned.pNo
              · rw [PartTree.logicals, List.length_cons]
                omega
              · exact hb₁ ▸ hr.scanned.base
              · exact iff_of_false (by decide) (by omega)
        next hempty =>
          obtain ⟨rest, hr⟩ := ihps hok hfirst
          refine ⟨.empty rest, .empty (not_not.mp hempty) hr.describes, ?_, hr.prim, hr.logic⟩
          exact ⟨hr.scanned.pNo, hr.scanned.lNo, hr.scanned.base⟩

/-- A scan that returns has found a tree. -/
theorem found_of_partitionScan (fuel : Nat) :
    ∀ lba s s', partitionScan d fuel lba s = .ok s' → (s.extLbaBase = 0 → lba = 0) →
      lba ≤ MAX_LBA ∧ ∃ t, Found d lba (tableAt d lba) s s' t := by
  induction fuel with
  | zero =>
      intro lba s s' hok
      cases hok
  | succ fuel ih =>
      intro lba s s' hok hbase
      obtain ⟨u, hcheck, hloop⟩ := bind_eq_ok.mp hok
      refine ⟨readCheck_one.mp hcheck, found_of_scanEntries ih hloop fun hz => ?_⟩
      rw [hbase hz]
      exact ⟨rfl, rfl⟩

/-- The scan of a disk returns exactly when the tables that it meets form a finite tree: no table
leads back for ever, each one is on the disk, and there is room for the partitions. -/
theorem partitionScan_returns_iff (d : Disk) (s : ScanState) :
    ScanReturns d s.reset ↔ FiniteTables d s.extLbaBase := by
  constructor
  · rintro ⟨fuel, s', hok⟩
    obtain ⟨-, t, ht⟩ := found_of_partitionScan fuel 0 _ _ hok fun _ => rfl
    have hcount : s'.pNo = 0 + t.primaries := ht.scanned.pNo
    have hprim : s'.pNo ≤ 3 := ht.prim (Nat.zero_le 3)
    exact ⟨t, ht.describes, by omega, ht.logic⟩
  · rintro ⟨t, ht, hprim, hlogic⟩
    have hprim' : 0 + t.primaries ≤ 3 := by omega
    obtain ⟨s', hok, -⟩ := ht.scanEntries (s := s.reset) rfl hprim' hlogic (Nat.le_refl _)
    refine ⟨t.depth + 1, s', ?_⟩
    rw [partitionScan_disk (Nat.zero_le _)]
    exact hok

end

/-- A disk whose first partition table has one extended entry, which starts at sector 0. -/
def loopDisk : Disk := fun _ k => if k = 450 then 0x5 else 0

/-- The static variables as the kernel finds them. -/
def bootScan : ScanState where
  extLbaBase := 0
  pNo := 0
  lNo := 0
  primParts := fun _ => ⟨0, 0, 0⟩
  logicParts := fun _ => ⟨0, 0, 0⟩
  partitionList := []

/-- The scan of this disk calls itself with the same arguments for ever: an extended entry of the
first table that leads back to sector 0, where the base is still 0. -/
theorem partitionScan_loops :
    (∀ fuel, partitionScan loopDisk fuel 0 bootScan.reset = .error .hang) ∧
      ¬ScanReturns loopDisk bootScan.reset := by
  have hloop : ∀ fuel, partitionScan loopDisk fuel 0 bootScan.reset = .error .hang := by
    intro fuel
    induction fuel with
    | zero => rfl
    | succ fuel ih =>
        have htable : tableAt loopDisk 0 = [⟨5, 0, 0⟩, ⟨0, 0, 0⟩, ⟨0, 0, 0⟩, ⟨0, 0, 0⟩] := by decide
        rw [partitionScan_disk (Nat.zero_le _), htable, scanEntries, if_pos rfl]
        -- the base is 0 as before
        show (partitionScan loopDisk fuel 0 bootScan.reset >>= _) = _
        rw [ih]
        rfl
  refine ⟨hloop, ?_⟩
  rintro ⟨fuel, s', hok⟩
  rw [hloop fuel] at hok
  cases hok

end Fizzos.Proofs
