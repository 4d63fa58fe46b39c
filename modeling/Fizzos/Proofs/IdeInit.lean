import Fizzos.Device.IdeInit
import Fizzos.Proofs.PartitionOverrun

/-!
# `Fizzos.Proofs.IdeInit`: when the scan of a disk does not depend on others

Between two disks everything that the scan works on is reset, except for `ext_lba_base`
(`forDisk_of_scanned`). A disk without extended partitions does not look at it, and a base that is
still 0 is as good as a new one. Otherwise the second disk is scanned with the base of the first one
(`scan_independent_iff`).
-/

set_option autoImplicit false

namespace Fizzos.Proofs

open Fizzos.Device
open Fizzos.Support

/-- Scan the disks one after the other, as `ide_init` scans the second device of each channel. -/
def scanDisks (fuel : Nat) : List Disk → ScanState → Except Halt ScanState
  | [], s => pure s
  | d :: rest, s => do
      let (_, s) ← initDevice d 1 fuel s
      scanDisks fuel rest s

/-- The scans of the disks return. -/
def DisksScanned (before : List Disk) : Prop :=
  ∃ fuel s, scanDisks fuel before bootScan = .ok s

/-- `r` is recorded for the disk `d` when the disks `before` were scanned in front of it. -/
def RecordedAfter (before : List Disk) (d : Disk) (r : DiskParts) : Prop :=
  ∃ fuel s s', scanDisks fuel before bootScan = .ok s ∧ initDevice d 1 fuel s = .ok (r, s')

/-- What is recorded for `d` is the same as without the other disks. -/
def Independent (before : List Disk) (d : Disk) : Prop :=
  ∀ r, RecordedAfter before d r ↔ RecordedAfter [] d r

/-- The boot sector has no extended partition. -/
def NoExtended (d : Disk) : Prop := ∀ p ∈ tableAt d 0, p.fsType ≠ 0x5

/-! ### More fuel -/

section
variable {d : Disk} {lba fuel fuel' : Nat} {ps : List PartitionTableEntry} {s s' : ScanState}

/-- When the calls for inner tables return the same, so does the loop over the entries. -/
theorem scanEntries_mono {scan scan' : Nat → ScanState → Except Halt ScanState}
    (hscan : ∀ lba s s', scan lba s = .ok s' → scan' lba s = .ok s')
    (hok : scanEntries scan lba ps s = .ok s') : scanEntries scan' lba ps s = .ok s' := by
  induction ps generalizing s with
  | nil => exact hok
  | cons p ps ih =>
      rw [scanEntries] at hok ⊢
      -- An extended entry scans its own table, and the others are stored.
      split at hok
      next hext =>
        obtain ⟨s₁, hchild, hrest⟩ := bind_eq_ok.mp hok
        rw [if_pos hext, hscan _ _ _ hchild]
        exact ih hrest
      next hext =>
        rw [if_neg hext]
        split at hok
        next hpart =>
          rw [if_pos hpart]
          split at hok
          next hlba =>
            obtain ⟨s₁, hadd, hrest⟩ := bind_eq_ok.mp hok
            rw [if_pos hlba, hadd]
            exact ih hrest
          next hlba =>
            obtain ⟨s₁, hadd, hrest⟩ := bind_eq_ok.mp hok
            rw [if_neg hlba, hadd, ok_bind]
            split at hrest
            next hfull =>
              rw [if_pos hfull]
              exact hrest
            next hmore =>
              rw [if_neg hmore]
              exact ih hrest
        next hempty =>
          rw [if_neg hempty]
          exact ih hok

/-- A scan that returns does so with more fuel. -/
theorem partitionScan_mono (hle : fuel ≤ fuel') (hok : partitionScan d fuel lba s = .ok s') :
    partitionScan d fuel' lba s = .ok s' := by
  induction fuel generalizing fuel' lba s s' with
  | zero => cases hok
  | succ fuel ih =>
      obtain ⟨fuel', rfl⟩ : ∃ n, fuel' = n + 1 := ⟨fuel' - 1, by omega⟩
      obtain ⟨u, hcheck, hloop⟩ := bind_eq_ok.mp hok
      rw [partitionScan, hcheck, ok_bind]
      exact scanEntries_mono (fun lba s s' h => ih (Nat.le_of_succ_le_succ hle) h) hloop

end

/-! ### What the scan does not look at -/

/-- The scan of a partition does not look at what `f` changes. -/
structure Apart (f : ScanState → ScanState) : Prop where
  pNo : ∀ s, (f s).pNo = s.pNo
  lNo : ∀ s, (f s).lNo = s.lNo
  put : ∀ s x, putPart (f s) x = f (putPart s x)

/-- The state with more partitions in front of `partition_list`. -/
def withList (list : List (PartitionKind × Nat)) (s : ScanState) : ScanState :=
  { s with partitionList := list ++ s.partitionList }

section
variable {d : Disk} {lba fuel : Nat} {ps : List PartitionTableEntry} {s s' : ScanState}
  {f : ScanState → ScanState}

/-- A change of the state that the rest of a call does not see. -/
theorem map_bind_except {α β : Type} {x : Except Halt α} {g : α → α} {k k' : α → Except Halt β}
    {h : β → β} (hk : ∀ a, k (g a) = (k' a).map h) : x.map g >>= k = (x >>= k').map h := by
  cases x with
  | ok a => exact hk a
  | error e => rfl

/-- A primary partition is stored without a look at it. -/
theorem Apart.addPrim (hf : Apart f) (p : PartitionTableEntry) :
    (f s).addPrim lba p = (s.addPrim lba p).map f := by
  rw [addPrim_eq, addPrim_eq, hf.pNo, hf.put]
  split
  next => rfl
  next =>
    split
    next => rfl
    next => rfl

/-- A logical partition is stored without a look at it. -/
theorem Apart.addLogic (hf : Apart f) (p : PartitionTableEntry) :
    (f s).addLogic lba p = (s.addLogic lba p).map f := by
  rw [addLogic_eq, addLogic_eq, hf.lNo, hf.put]
  split
  next => rfl
  next => rfl

/-- The list of partitions is not looked at. -/
theorem apart_withList (list : List (PartitionKind × Nat)) : Apart (withList list) where
  pNo _ := rfl
  lNo _ := rfl
  put s x := by
    rw [putPart, putPart]
    cases x.kind with
    | prim => simp [withList]
    | logic => simp [withList]

/-- The base is not looked at by the stores. -/
theorem apart_withBase (base : Nat) : Apart fun s => withBase s base where
  pNo _ := rfl
  lNo _ := rfl
  put _ _ := putPart_withBase base

/-- The loop does not look at it either, when its calls do not. -/
theorem scanEntries_apart (hf : Apart f) {scan scan' : Nat → ScanState → Except Halt ScanState}
    (hcalls : ∀ p ∈ ps, p.fsType = 0x5 → ∀ s,
      scan (extTarget (f s).extLbaBase p) (withBase (f s) (extBase (f s).extLbaBase p)) =
        (scan' (extTarget s.extLbaBase p) (withBase s (extBase s.extLbaBase p))).map f) :
    scanEntries scan lba ps (f s) = (scanEntries scan' lba ps s).map f := by
  induction ps generalizing s with
  | nil => rfl
  | cons p ps ih =>
      -- By induction on the entries, with the calls for inner tables as a hypothesis.
      have hrest := fun s => @ih s fun q hq => hcalls q (List.mem_cons_of_mem p hq)
      rw [scanEntries, scanEntries]
      split
      next hext =>
        rw [← withBase, ← withBase, hcalls p List.mem_cons_self hext s]
        exact map_bind_except hrest
      next =>
        split
        next =>
          split
          next =>
            rw [hf.addPrim p]
            exact map_bind_except hrest
          next =>
            rw [hf.addLogic p]
            refine map_bind_except fun s₁ => ?_
            rw [hf.lNo]
            split
            next => rfl
            next => exact hrest s₁
        next => exact hrest s

/-- Nothing looks at `partition_list`. -/
theorem partitionScan_withList (list : List (PartitionKind × Nat)) (fuel lba : Nat)
    (s : ScanState) :
    partitionScan d fuel lba (withList list s)
      = (partitionScan d fuel lba s).map (withList list) := by
  induction fuel generalizing lba s with
  | zero => rfl
  | succ fuel ih =>
      rw [partitionScan, partitionScan]
      cases readCheck lba 1 with
      | error e => rfl
      | ok u =>
          rw [ok_bind, ok_bind]
          exact scanEntries_apart (apart_withList list) fun p _ _ s =>
            ih _ (withBase s (extBase s.extLbaBase p))

/-- Without an extended entry in the boot sector nothing looks at the base. -/
theorem partitionScan_withBase (hno : NoExtended d) (base fuel : Nat) (s : ScanState) :
    partitionScan d fuel 0 (withBase s base) =
      (partitionScan d fuel 0 s).map fun s => withBase s base := by
  cases fuel with
  | zero => rfl
  | succ fuel =>
      rw [partitionScan, partitionScan]
      cases readCheck 0 1 with
      | error e => rfl
      | ok u =>
          rw [ok_bind, ok_bind]
          exact scanEntries_apart (apart_withBase base) fun p hp hext => absurd hext (hno p hp)

end

/-! ### From disk to disk -/

/-- `r` is recorded for `d` when the scan starts with the base `base`. -/
def RecordsFrom (d : Disk) (base : Nat) (r : DiskParts) : Prop :=
  ∃ fuel s', partitionScan d fuel 0 (withBase bootScan base) = .ok s' ∧ s'.recorded = r

section
variable {d : Disk} {fuel fuel' base : Nat} {before : List Disk} {s s' : ScanState} {r : DiskParts}

/-- The second device of a channel is scanned. -/
theorem initDevice_one : initDevice d 1 fuel s = .ok (r, s') ↔
    ∃ s₁, partitionScan d fuel 0 s.forDisk = .ok s₁ ∧ s₁.recorded = r ∧ s₁.reset = s' := by
  show (partitionScan d fuel 0 s.forDisk >>= fun s => pure (s.recorded, s.reset)) = _ ↔ _
  rw [bind_eq_ok]
  refine exists_congr fun s₁ => and_congr_right fun _ => ?_
  rw [pure_eq_ok, Except.ok.injEq, Prod.mk.injEq]

/-- One scan of a sequence. -/
theorem scanDisks_cons : scanDisks fuel (d :: before) s = .ok s' ↔
    ∃ s₁, partitionScan d fuel 0 s.forDisk = .ok s₁ ∧ scanDisks fuel before s₁.reset = .ok s' := by
  rw [scanDisks, bind_eq_ok]
  constructor
  · rintro ⟨⟨r, s₂⟩, hdev, hrest⟩
    obtain ⟨s₁, hok, -, rfl⟩ := initDevice_one.mp hdev
    exact ⟨s₁, hok, hrest⟩
  · rintro ⟨s₁, hok, hrest⟩
    exact ⟨(s₁.recorded, s₁.reset), initDevice_one.mpr ⟨s₁, hok, rfl, rfl⟩, hrest⟩

/-- More fuel does not change a scan that returns. -/
theorem scanDisks_mono (hle : fuel ≤ fuel') (hok : scanDisks fuel before s = .ok s') :
    scanDisks fuel' before s = .ok s' := by
  induction before generalizing s with
  | nil => exact hok
  | cons d before ih =>
      obtain ⟨s₁, hscan, hrest⟩ := scanDisks_cons.mp hok
      exact scanDisks_cons.mpr ⟨s₁, partitionScan_mono hle hscan, ih hrest⟩

/-- Behind each scan the counters are 0. -/
theorem scanDisks_counts (hok : scanDisks fuel before s = .ok s') (hs : s.pNo = 0 ∧ s.lNo = 0) :
    s'.pNo = 0 ∧ s'.lNo = 0 := by
  induction before generalizing s with
  | nil =>
      obtain rfl := Except.ok.inj hok
      exact hs
  | cons d before ih =>
      obtain ⟨s₁, -, hrest⟩ := scanDisks_cons.mp hok
      exact ih hrest ⟨rfl, rfl⟩

/-- Disks without extended partitions leave the base alone. -/
theorem scanDisks_base (hno : ∀ e ∈ before, NoExtended e) (hok : scanDisks fuel before s = .ok s') :
    s'.extLbaBase = s.extLbaBase := by
  induction before generalizing s with
  | nil =>
      obtain rfl := Except.ok.inj hok
      rfl
  | cons d before ih =>
      obtain ⟨s₁, hscan, hrest⟩ := scanDisks_cons.mp hok
      rw [ih (fun e he => hno e (List.mem_cons_of_mem d he)) hrest]
      -- the scan keeps whatever the base was
      have hsame := partitionScan_withBase (hno d List.mem_cons_self) s.extLbaBase fuel s.forDisk
      have hstart : withBase s.forDisk s.extLbaBase = s.forDisk := rfl
      rw [hstart, hscan] at hsame
      have hself : s₁ = withBase s₁ s.extLbaBase := Except.ok.inj hsame
      exact (congrArg ScanState.extLbaBase hself).trans rfl

/-- The next disk is scanned like the first one, except for the base and for `partition_list`. -/
theorem forDisk_of_scanned (hok : scanDisks fuel before bootScan = .ok s) :
    s.forDisk = withList s.partitionList (withBase bootScan s.extLbaBase) := by
  obtain ⟨hp, hl⟩ := scanDisks_counts hok ⟨rfl, rfl⟩
  rw [ScanState.forDisk, hp, hl, withList, withBase, bootScan, List.append_nil]

/-- So what is recorded for it depends on the base only. -/
theorem recordedAfter_iff : RecordedAfter before d r ↔
    ∃ fuel s, scanDisks fuel before bootScan = .ok s ∧ RecordsFrom d s.extLbaBase r := by
  constructor
  · rintro ⟨fuel, s, s', hbefore, hdev⟩
    obtain ⟨s₁, hscan, hrec, -⟩ := initDevice_one.mp hdev
    refine ⟨fuel, s, hbefore, fuel, ?_⟩
    rw [forDisk_of_scanned hbefore, partitionScan_withList] at hscan
    cases hfrom : partitionScan d fuel 0 (withBase bootScan s.extLbaBase) with
    | error e =>
        rw [hfrom] at hscan
        cases hscan
    | ok s₂ =>
        rw [hfrom] at hscan
        obtain rfl := Except.ok.inj hscan
        exact ⟨s₂, rfl, hrec⟩
  · rintro ⟨fuel, s, hbefore, fuel', s₂, hfrom, hrec⟩
    -- both scans return with the larger fuel
    have hbefore' := scanDisks_mono (Nat.le_max_left fuel fuel') hbefore
    have hfrom' := partitionScan_mono (Nat.le_max_right fuel fuel') hfrom
    refine ⟨max fuel fuel', s, (withList s.partitionList s₂).reset, hbefore', ?_⟩
    refine initDevice_one.mpr ⟨withList s.partitionList s₂, ?_, hrec, rfl⟩
    rw [forDisk_of_scanned hbefore, partitionScan_withList, hfrom']
    rfl

/-- The first disk is scanned with the base 0. -/
theorem recordedAfter_nil : RecordedAfter [] d r ↔ RecordsFrom d 0 r := by
  rw [recordedAfter_iff]
  constructor
  · rintro ⟨fuel, s, hok, hfrom⟩
    obtain rfl := Except.ok.inj hok
    exact hfrom
  · exact fun hfrom => ⟨0, bootScan, rfl, hfrom⟩

/-- More fuel does not change what is recorded. -/
theorem RecordsFrom.unique {r' : DiskParts} (h : RecordsFrom d base r)
    (h' : RecordsFrom d base r') : r = r' := by
  obtain ⟨fuel, s, hok, rfl⟩ := h
  obtain ⟨fuel', s', hok', rfl⟩ := h'
  have hmost := partitionScan_mono (Nat.le_max_left fuel fuel') hok
  have hmost' := partitionScan_mono (Nat.le_max_right fuel fuel') hok'
  rw [Except.ok.inj (hmost.symm.trans hmost')]

/-- A disk without extended partitions is recorded with any base alike. -/
theorem recordsFrom_iff (hno : NoExtended d) : RecordsFrom d base r ↔ RecordsFrom d 0 r := by
  have hbase : ∀ base, RecordsFrom d base r ↔
      ∃ fuel s', partitionScan d fuel 0 bootScan = .ok s' ∧ s'.recorded = r := by
    intro base
    refine exists_congr fun fuel => ?_
    rw [partitionScan_withBase hno]
    cases partitionScan d fuel 0 bootScan with
    | error e =>
        refine iff_of_false ?_ ?_
        · rintro ⟨s', hok, -⟩
          cases hok
        · rintro ⟨s', hok, -⟩
          cases hok
    | ok s₁ =>
        constructor
        · rintro ⟨s', hok, rfl⟩
          obtain rfl := Except.ok.inj hok
          exact ⟨s₁, rfl, rfl⟩
        · rintro ⟨s', hok, rfl⟩
          obtain rfl := Except.ok.inj hok
          exact ⟨_, rfl, rfl⟩
  exact (hbase base).trans (hbase 0).symm

end

/-! ### The disks of `ide_init` -/

/-- The second devices of the first `c` channels. -/
def secondDevices (devices : Nat → Nat → Disk) (c : Nat) : List Disk :=
  (List.range c).map fun k => devices k 1

section
variable {devices : Nat → Nat → Disk} {d : Disk} {fuel c n : Nat} {before : List Disk}
  {s s' : ScanState} {rs : List DiskParts}

/-- The last disk is scanned in the state that the others have left. -/
theorem scanDisks_snoc : scanDisks fuel (before ++ [d]) s = .ok s' ↔
    ∃ s₁, scanDisks fuel before s = .ok s₁ ∧
      ∃ s₂, partitionScan d fuel 0 s₁.forDisk = .ok s₂ ∧ s₂.reset = s' := by
  induction before generalizing s with
  | nil =>
      rw [List.nil_append, scanDisks_cons]
      constructor
      · rintro ⟨s₂, hscan, hrest⟩
        exact ⟨s, rfl, s₂, hscan, Except.ok.inj hrest⟩
      · rintro ⟨s₁, hok, s₂, hscan, rfl⟩
        obtain rfl := Except.ok.inj hok
        exact ⟨s₂, hscan, rfl⟩
  | cons e before ih =>
      rw [List.cons_append, scanDisks_cons]
      constructor
      · rintro ⟨s₀, hscan, hrest⟩
        obtain ⟨s₁, hok, hlast⟩ := ih.mp hrest
        exact ⟨s₁, scanDisks_cons.mpr ⟨s₀, hscan, hok⟩, hlast⟩
      · rintro ⟨s₁, hok, hlast⟩
        obtain ⟨s₀, hscan, hrest⟩ := scanDisks_cons.mp hok
        exact ⟨s₀, hscan, ih.mpr ⟨s₁, hrest, hlast⟩⟩

/-- The first device of a channel changes nothing for the second one. -/
theorem initDevice_zero {r : DiskParts} (hs : s.pNo = 0 ∧ s.lNo = 0)
    (hok : initDevice d 0 fuel s = .ok (r, s')) : s'.forDisk = s.forDisk := by
  have hreset : s.forDisk.reset = s' := congrArg Prod.snd (Except.ok.inj hok)
  rw [← hreset, ScanState.forDisk, ScanState.forDisk, ScanState.reset]
  dsimp only
  rw [hs.1, hs.2]

/-- The loop over channels scans the second device of each of them. -/
theorem initChannels_recorded (hbefore : scanDisks fuel (secondDevices devices c) bootScan = .ok s)
    (hok : initChannels devices fuel (List.range' c n) s = .ok (rs, s')) {k : Nat} (hk : k < n) :
    ∃ r, rs[2 * k + 1]? = some r ∧
      RecordedAfter (secondDevices devices (c + k)) (devices (c + k) 1) r := by
  induction n generalizing c s rs k with
  | zero => exact absurd hk (Nat.not_lt_zero k)
  | succ n ih =>
      rw [List.range'_succ, initChannels] at hok
      split at hok
      next => cases hok
      next =>
        -- the first device of the channel `c`, the second one, and the other channels
        obtain ⟨⟨r₀, s₀⟩, hfirst, hok⟩ := bind_eq_ok.mp hok
        obtain ⟨⟨r₁, s₁⟩, hsecond, hok⟩ := bind_eq_ok.mp hok
        obtain ⟨⟨others, s₂⟩, hothers, hok⟩ := bind_eq_ok.mp hok
        obtain ⟨rfl, rfl⟩ := Prod.mk.inj (Except.ok.inj hok)
        have hsame := initDevice_zero (scanDisks_counts hbefore ⟨rfl, rfl⟩) hfirst
        obtain ⟨s₃, hscan, hrec, hreset⟩ := initDevice_one.mp hsecond
        rw [hsame] at hscan
        cases k with
        | zero =>
            refine ⟨r₁, rfl, fuel, s, s₁, hbefore, ?_⟩
            exact initDevice_one.mpr ⟨s₃, hscan, hrec, hreset⟩
        | succ k =>
            have hnext : scanDisks fuel (secondDevices devices (c + 1)) bootScan = .ok s₁ := by
              rw [secondDevices, List.range_succ, List.map_append]
              exact scanDisks_snoc.mpr ⟨s, hbefore, s₃, hscan, hreset⟩
            obtain ⟨r, hr, hafter⟩ := ih hnext hothers (Nat.lt_of_succ_lt_succ hk)
            rw [show c + (k + 1) = c + 1 + k by omega]
            exact ⟨r, hr, hafter⟩

/-- What `ide_init` records for the second device of a channel is recorded behind those of the
channels in front of it. -/
theorem ideInit_recorded {hdCnt : Nat} (hok : ideInit devices hdCnt fuel bootScan = .ok (rs, s'))
    (hc : c < (hdCnt + 1) / 2) :
    ∃ r, rs[2 * c + 1]? = some r ∧ RecordedAfter (secondDevices devices c) (devices c 1) r := by
  obtain ⟨u, -, hchannels⟩ := bind_eq_ok.mp hok
  rw [List.range_eq_range'] at hchannels
  have hnone : scanDisks fuel (secondDevices devices 0) bootScan = .ok bootScan := rfl
  have hrecorded := initChannels_recorded hnone hchannels hc
  rwa [Nat.zero_add] at hrecorded

end

/-! ### A base that leads away from the disk -/

/-- A disk with an extended partition in its last sector, which has no partitions. -/
def farDisk : Disk := fun lba k =>
  if lba = 0 then if k = 450 then 0x5 else if 454 ≤ k ∧ k < 458 then byteLE MAX_LBA (k - 454) else 0
  else 0

/-- Its scan makes the base `MAX_LBA`. -/
theorem farDisk_scanned :
    ∃ s, scanDisks 2 [farDisk] bootScan = .ok s ∧ s.extLbaBase = MAX_LBA := by
  exact ⟨_, rfl, rfl⟩

section
variable {d : Disk} {base lba : Nat} {ps : List PartitionTableEntry} {t : PartTree}

/-- The tables of a boot sector begin where its first extended entry leads to. -/
theorem Describes.firstExtended {p : PartitionTableEntry} (h : Describes d base lba ps t)
    (hlba : lba = 0) (hfirst : firstExtended ps = some p) :
    extBase base p ≠ 0 ∧ extTarget base p ≤ MAX_LBA := by
  induction h with
  | done => cases hfirst
  | empty hp _ ih =>
      rw [firstExtended_cons_of_ne (by omega)] at hfirst
      exact ih hlba hfirst
  | primary hp _ ih =>
      rw [firstExtended_cons_of_ne hp.1] at hfirst
      exact ih rfl hfirst
  | logical _ hne _ _ => exact absurd hlba hne
  | last _ hne => exact absurd hlba hne
  | @extended base lba q ps child rest hq hne htarget _ _ _ _ =>
      rw [Proofs.firstExtended, List.find?_cons_of_pos (by simpa using hq)] at hfirst
      obtain rfl := Option.some.inj hfirst
      exact ⟨hne, htarget⟩

/-- A disk that is recorded has its first extended table on the disk, behind the boot sector. -/
theorem RecordsFrom.firstExtended {r : DiskParts} {p : PartitionTableEntry}
    (h : RecordsFrom d base r) (hfirst : firstExtended (tableAt d 0) = some p) :
    extBase base p ≠ 0 ∧ extTarget base p ≤ MAX_LBA := by
  obtain ⟨fuel, s', hok, -⟩ := h
  obtain ⟨-, t, ht⟩ := found_of_partitionScan fuel 0 _ _ hok fun _ => rfl
  exact Describes.firstExtended ht.describes rfl hfirst

end

/-! ### The condition -/

/-- In every sequence of disks, what is recorded for a disk depends on that disk alone when it has
no extended partition, or the disks in front of it have none. A disk that can be recorded is
recorded alike behind all sequences if and only if it has no extended partition. -/
theorem scan_independent_iff (d : Disk) :
    (∀ before, DisksScanned before → (∀ e ∈ before, NoExtended e) ∨ NoExtended d →
      Independent before d) ∧
    ((∃ r, RecordedAfter [] d r) →
      ((∀ before, DisksScanned before → Independent before d) ↔ NoExtended d)) := by
  have hsufficient : ∀ before, DisksScanned before →
      (∀ e ∈ before, NoExtended e) ∨ NoExtended d → Independent before d := by
    intro before hscanned hcond r
    obtain ⟨fuel, s, hok⟩ := hscanned
    have hsame : ∀ fuel s, scanDisks fuel before bootScan = .ok s →
        (RecordsFrom d s.extLbaBase r ↔ RecordsFrom d 0 r) := by
      intro fuel s hok
      rcases hcond with hbefore | hself
      · rw [scanDisks_base hbefore hok]
        rfl
      · exact recordsFrom_iff hself
    rw [recordedAfter_iff, recordedAfter_nil]
    constructor
    · rintro ⟨fuel, s, hok, hfrom⟩
      exact (hsame fuel s hok).mp hfrom
    · exact fun hfrom => ⟨fuel, s, hok, (hsame fuel s hok).mpr hfrom⟩
  refine ⟨hsufficient, ?_⟩
  rintro ⟨r, hrec⟩
  refine ⟨fun hall => ?_, fun hno before hscanned => hsufficient before hscanned (.inr hno)⟩
  -- behind the far disk the first extended entry leads away from the disk
  intro p hp hext
  obtain ⟨q, hfirst⟩ : ∃ q, firstExtended (tableAt d 0) = some q := by
    rw [← Option.isSome_iff_exists, firstExtended, List.find?_isSome]
    exact ⟨p, hp, by simpa using hext⟩
  obtain ⟨s₀, hfar, hbase⟩ := farDisk_scanned
  obtain ⟨fuel, s, hok, hfrom⟩ :=
    recordedAfter_iff.mp ((hall [farDisk] ⟨2, s₀, hfar⟩ r).mpr hrec)
  -- the two scans of the far disk end alike
  have hs : s = s₀ := Except.ok.inj ((scanDisks_mono (Nat.le_max_left fuel 2) hok).symm.trans
    (scanDisks_mono (Nat.le_max_right fuel 2) hfar))
  rw [hs, hbase] at hfrom
  obtain ⟨hne, hon⟩ := (recordedAfter_nil.mp hrec).firstExtended hfirst
  obtain ⟨-, hfar⟩ := hfrom.firstExtended hfirst
  have hmax : MAX_LBA = 163839 := rfl
  rw [extBase, if_neg (not_not.mpr rfl)] at hne
  rw [extTarget, if_neg (not_not.mpr rfl)] at hon
  rw [extTarget, if_pos (by omega)] at hfar
  omega

/-! ### Two disks with an extended partition -/

/-- A disk with an extended partition at the sector 100, with one logical partition of 16 sectors at
the sector 101. -/
def extendedDisk : Disk := fun lba k =>
  if lba = 0 then if k = 450 then 0x5 else if k = 454 then 100 else 0
  else if lba = 100 then if k = 450 then 0x83 else if k = 454 then 1 else if k = 458 then 16 else 0
  else 0

/-- A disk without partitions may come behind it. -/
theorem scan_independent_iff_blank : Independent [extendedDisk] fun _ _ => 0 :=
  (scan_independent_iff fun _ _ => 0).1 [extendedDisk] ⟨2, _, rfl⟩
    (.inr (show NoExtended fun _ _ => 0 from by
      rw [NoExtended]
      decide))

/-- The logical partition is not found behind another disk of the same content. `ext_lba_base` keeps
the value of the first disk, and is added once more. -/
theorem scan_depends_on_first_disk :
    RecordedAfter [] extendedDisk ⟨[], [(101, 16)]⟩ ∧
    RecordedAfter [extendedDisk] extendedDisk ⟨[], []⟩ ∧
      ¬Independent [extendedDisk] extendedDisk := by
  have halone : RecordedAfter [] extendedDisk ⟨[], [(101, 16)]⟩ := ⟨2, _, _, rfl, rfl⟩
  have hbehind : RecordedAfter [extendedDisk] extendedDisk ⟨[], []⟩ := ⟨2, _, _, rfl, rfl⟩
  refine ⟨halone, hbehind, fun hind => ?_⟩
  have hempty := recordedAfter_nil.mp ((hind _).mp hbehind)
  exact absurd ((recordedAfter_nil.mp halone).unique hempty) (by decide)

end Fizzos.Proofs
