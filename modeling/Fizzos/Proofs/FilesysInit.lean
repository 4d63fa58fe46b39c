import Fizzos.Fs.FilesysInit
import Fizzos.Proofs.Format

/-!
# `Fizzos.Proofs.FilesysInit`: which partitions get a file system

On the first channel the scan is right: it comes to each of the twelve partitions once and formats
the ones without the magic number (`ScanInv`, `scanParts_inv`). Then `part_idx` is 12, and nothing
sets it back. So the scan does nothing for the second channel (`scanChannels_skip`), and all
partitions are settled exactly when those there need no format (`filesysScan_iff`).

A format can write the super block of a partition that the scan has not read, when the two overlap.
`Settled` takes what a partition carries as a parameter, and the result is for two of them: when the
scan comes to the partition, and before the scan, if no partition is in the way of a later one
(`SuperBlocksApart`).
-/

set_option autoImplicit false

namespace Fizzos.Proofs

open Fizzos.Device
open Fizzos.Fs
open Fizzos.Support

/-- `start_lba` and `sec_cnt` with the index `i`: a primary partition, or a logical one. -/
def slotAt (hd : DiskParts) (i : Nat) : Nat × Nat :=
  if i < 4 then hd.prims.getD i (0, 0) else hd.logics.getD (i - 4) (0, 0)

/-- The partition on the disk has the magic number. -/
def HasMagic (d : Disk) (p : Nat × Nat) : Prop := readMagic d p.1 = FIZZ_FILE_SYSTEM

/-- The scan has formatted a partition. -/
def Formatted (s : FilesysScan) (channelNo i : Nat) : Prop :=
  ∃ v ∈ s.visits, v.channelNo = channelNo ∧ v.partIdx = i ∧ v.formatted = true

/-- The disk when the scan came to a partition, or at the end if it did not. -/
def diskBefore (s : FilesysScan) (channelNo i : Nat) : Disk :=
  ((s.visits.find? fun v => decide (v.channelNo = channelNo ∧ v.partIdx = i)).map Visit.disk).getD
    (s.disk channelNo 1)

/-- Each partition of a slave disk carried a file system or has been formatted, and not both. -/
def Settled (devices : List DiskParts) (channelCnt : Nat) (carried : Nat → Nat → Prop)
    (s : FilesysScan) : Prop :=
  ∀ c < channelCnt, ∀ i < 12, (slotAt (deviceAt devices c 1) i).2 ≠ 0 →
    (carried c i ∨ Formatted s c i) ∧ (carried c i → ¬Formatted s c i)

/-- Behind the first channel, all partitions have the magic number. -/
def OthersCarry (devices : List DiskParts) (channelCnt : Nat) (disk : Nat → Nat → Disk) : Prop :=
  ∀ c < channelCnt, c ≠ 0 → ∀ i < 12, (slotAt (deviceAt devices c 1) i).2 ≠ 0 →
    HasMagic (disk c 1) (slotAt (deviceAt devices c 1) i)

/-- The sectors that `partition_format` writes. -/
def formatWrites (p : Nat × Nat) : List (Nat × Nat) :=
  let sb := formatSuperBlock p.1 p.2
  [((p.1 + 1) % 2 ^ 32, 1), (sb.blockBitmapLba, sb.blockBitmapSects),
    (sb.inodeBitmapLba, sb.inodeBitmapSects), (sb.inodeTableLba, sb.inodeTableSects),
    (sb.dataStartLba, 1)]

/-- The format of a partition leaves the super blocks of the later ones alone. -/
def SuperBlocksApart (hd : DiskParts) : Prop :=
  ∀ i j, i < j → j < 12 → (slotAt hd i).2 ≠ 0 → (slotAt hd j).2 ≠ 0 →
    ∀ r ∈ formatWrites (slotAt hd i), ((slotAt hd j).1 + 1) % 2 ^ 32 ∉ sectorsOf r

/-! ### The disk -/

section
variable {d d' : Disk} {p : Nat × Nat} {pad heap : Bytes}

/-- The magic number is in the second sector. -/
theorem readMagic_congr {startLba : Nat}
    (h : d' ((startLba + 1) % 2 ^ 32) = d ((startLba + 1) % 2 ^ 32)) :
    readMagic d' startLba = readMagic d startLba := by
  refine loadLE_congr fun k _ hk => ?_
  have hsector : k < 0 + SECTOR_SIZE := by
    have hsize : SECTOR_SIZE = 512 := rfl
    omega
  rw [ideRead_one (Nat.zero_le k) hsector, ideRead_one (Nat.zero_le k) hsector, h]

/-- A write outside of its sectors. -/
theorem writeSectors_outside {lba n l : Nat} {buf : Bytes}
    (h : writeSectors d lba buf n = .ok d') (hl : l ∉ sectorsOf (lba, n)) : d' l = d l := by
  obtain ⟨-, -, rfl⟩ := writeSectors_ok h
  refine ideWrite_outside ?_
  simp only [sectorsOf, Set.mem_Ico] at hl
  omega

/-- The format outside of its sectors. -/
theorem partitionFormat_outside {l : Nat} (h : partitionFormat d p.1 p.2 pad heap = .ok d')
    (hl : ∀ r ∈ formatWrites p, l ∉ sectorsOf r) : d' l = d l := by
  simp only [formatWrites, List.forall_mem_cons] at hl
  obtain ⟨hl₁, hl₂, hl₃, hl₄, hl₅, -⟩ := hl
  simp only [partitionFormat, bind_eq_ok] at h
  obtain ⟨d₁, h₁, d₂, h₂, d₃, h₃, d₄, h₄, h₅⟩ := h
  rw [writeSectors_outside h₅ hl₅, writeSectors_outside h₄ hl₄, writeSectors_outside h₃ hl₃,
    writeSectors_outside h₂ hl₂, writeSectors_outside h₁ hl₁]

end

/-! ### The scan of a device -/

/-- Where the scan of the slave disk of `c` stands: the partitions below `i` are done. `disk` are
the disks before. -/
structure ScanInv (hd : DiskParts) (c : Nat) (disk : Nat → Nat → Disk) (i : Nat) (s : FilesysScan) :
    Prop where
  visited : ∀ v ∈ s.visits, v.channelNo = c ∧ v.partIdx < i
  formatted : ∀ v ∈ s.visits, v.formatted = true ↔ ¬HasMagic v.disk (slotAt hd v.partIdx)
  once : (s.visits.map Visit.partIdx).Nodup
  all : ∀ j < i, (slotAt hd j).2 ≠ 0 → ∃ v ∈ s.visits, v.partIdx = j
  others : ∀ c' ≠ c, s.disk c' = disk c'
  /-- The super blocks are as before, when the partitions are apart. -/
  super : SuperBlocksApart hd → ∀ j < 12, i ≤ j → (slotAt hd j).2 ≠ 0 →
    s.disk c 1 (((slotAt hd j).1 + 1) % 2 ^ 32) = disk c 1 (((slotAt hd j).1 + 1) % 2 ^ 32)
  before : SuperBlocksApart hd → ∀ v ∈ s.visits,
    (HasMagic v.disk (slotAt hd v.partIdx) ↔ HasMagic (disk c 1) (slotAt hd v.partIdx))

section
variable {hd : DiskParts} {c i : Nat} {disk : Nat → Nat → Disk} {s s' : FilesysScan}
  {pad heap : Nat → Nat → Bytes}

theorem scanInv_init : ScanInv hd c disk 0 ⟨disk, []⟩ where
  visited _ hv := absurd hv List.not_mem_nil
  formatted _ hv := absurd hv List.not_mem_nil
  once := List.nodup_nil
  all j hj := absurd hj (Nat.not_lt_zero j)
  others _ _ := rfl
  super _ _ _ _ _ := rfl
  before _ _ hv := absurd hv List.not_mem_nil

/-- The step lemma for a partition that the scan reads: `d'` is the disk behind it. -/
theorem ScanInv.visit (h : ScanInv hd c disk i s) (hi : i < 12)
    (hp : (slotAt hd i).2 ≠ 0) {b : Bool}
    (hb : b = true ↔ ¬HasMagic (s.disk c 1) (slotAt hd i)) {d' : Disk}
    (hd' : ∀ l, (∀ r ∈ formatWrites (slotAt hd i), l ∉ sectorsOf r) → d' l = s.disk c 1 l) :
    ScanInv hd c disk (i + 1)
      { disk := Function.update s.disk c (Function.update (s.disk c) 1 d')
        visits := s.visits ++ [⟨c, i, s.disk c 1, b⟩] } := by
  have hmem : ∀ v, v ∈ s.visits ++ [⟨c, i, s.disk c 1, b⟩] →
      v ∈ s.visits ∨ v = ⟨c, i, s.disk c 1, b⟩ := fun v hv => by simpa using hv
  refine ⟨fun v hv => ?_, fun v hv => ?_, ?_, fun j hj hpj => ?_, fun c' hc' => ?_,
    fun hapart j hj hij hpj => ?_, fun hapart v hv => ?_⟩
  -- each field for the earlier visits, and for this one
  · rcases hmem v hv with hv | rfl
    · exact ⟨(h.visited v hv).1, Nat.lt_succ_of_lt (h.visited v hv).2⟩
    · exact ⟨rfl, Nat.lt_succ_self i⟩
  · rcases hmem v hv with hv | rfl
    · exact h.formatted v hv
    · exact hb
  · rw [List.map_append, List.nodup_append]
    refine ⟨h.once, List.nodup_singleton _, fun a ha b' hb' => ?_⟩
    obtain ⟨v, hv, rfl⟩ := List.mem_map.mp ha
    have hlt := (h.visited v hv).2
    have hi' : b' = i := List.mem_singleton.mp hb'
    omega
  · rcases Nat.lt_succ_iff_lt_or_eq.mp hj with hj | rfl
    · obtain ⟨v, hv, hidx⟩ := h.all j hj hpj
      exact ⟨v, List.mem_append_left _ hv, hidx⟩
    · exact ⟨_, List.mem_append_right _ (List.mem_singleton_self _), rfl⟩
  · rw [← h.others c' hc']
    exact Function.update_of_ne hc' _ _
  · rw [← h.super hapart j hj (by omega) hpj]
    show Function.update s.disk c _ c 1 _ = _
    rw [Function.update_self, Function.update_self]
    -- the super block of a later partition is none of the sectors that were written
    exact hd' _ (hapart i j (by omega) hj hp hpj)
  · rcases hmem v hv with hv | rfl
    · exact h.before hapart v hv
    · show readMagic _ _ = _ ↔ readMagic _ _ = _
      rw [readMagic_congr (h.super hapart i hi (Nat.le_refl i) hp)]

/-- The step lemma for a partition that is empty. -/
theorem ScanInv.skip (h : ScanInv hd c disk i s) (hp : (slotAt hd i).2 = 0) :
    ScanInv hd c disk (i + 1) s where
  visited v hv := ⟨(h.visited v hv).1, Nat.lt_succ_of_lt (h.visited v hv).2⟩
  formatted := h.formatted
  once := h.once
  all j hj hpj := by
    rcases Nat.lt_succ_iff_lt_or_eq.mp hj with hj | rfl
    · exact h.all j hj hpj
    · exact absurd hp hpj
  others := h.others
  super hapart j hj hij := h.super hapart j hj (by omega)
  before := h.before

/-- The step lemma. -/
theorem scanPart_inv (h : ScanInv hd c disk i s) (hi : i < 12)
    (hok : scanPart pad heap c 1 i (slotAt hd i) s = .ok s') : ScanInv hd c disk (i + 1) s' := by
  unfold scanPart at hok
  by_cases hp : (slotAt hd i).2 ≠ 0
  · simp only [if_pos hp, bind_eq_ok] at hok
    obtain ⟨-, -, hok⟩ := hok
    by_cases hmagic : readMagic (s.disk c 1) (slotAt hd i).1 = FIZZ_FILE_SYSTEM
    · -- the disk stays as it is
      rw [if_pos hmagic] at hok
      cases hok
      have hvisit := h.visit hi hp (b := false) (by simpa [HasMagic] using hmagic) fun _ _ => rfl
      rwa [Function.update_eq_self, Function.update_eq_self] at hvisit
    · rw [if_neg hmagic] at hok
      obtain ⟨d', hformat, heq⟩ := bind_eq_ok.mp hok
      cases heq
      exact h.visit hi hp (by simpa [HasMagic] using hmagic)
        fun l hl => partitionFormat_outside hformat hl
  · simp only [if_neg hp] at hok
    cases hok
    exact h.skip (not_not.mp hp)

/-- Where `part` points to before the partition `i`. At `i = 4` it is set anew. -/
structure PointsTo (i : Nat) (part : PartPtr) : Prop where
  prim : i < 4 → part = (.prim, i)
  logic : 4 < i → part = (.logic, i - 4)

/-- The pointer that the loop uses. -/
theorem partAt_eq (hd : DiskParts) {part : PartPtr} (h : PointsTo i part) :
    partAt hd (if i = 4 then (.logic, 0) else part) = slotAt hd i ∧
      PointsTo (i + 1) ((if i = 4 then (.logic, 0) else part : PartPtr).1,
        (if i = 4 then (.logic, 0) else part : PartPtr).2 + 1) := by
  rcases Nat.lt_trichotomy i 4 with hlt | rfl | hgt
  · have hne : i ≠ 4 := by omega
    rw [if_neg hne, h.prim hlt]
    exact ⟨by simp [partAt, slotAt, hlt], fun _ => rfl, fun h4 => by omega⟩
  · exact ⟨rfl, fun h4 => by omega, fun _ => rfl⟩
  · have hne : i ≠ 4 := by omega
    have hge : ¬i < 4 := by omega
    rw [if_neg hne, h.logic hgt]
    exact ⟨by simp [partAt, slotAt, hge], fun h4 => by omega, fun _ => by simp; omega⟩

/-- The run lemma of the loop over the partitions: it comes to all of them. -/
theorem scanParts_inv {part : PartPtr} {n fuel : Nat} (h : ScanInv hd c disk i s) (hi : i ≤ 12)
    (hpart : PointsTo i part)
    (hok : scanParts pad heap hd c 1 fuel i part s = .ok (n, s')) :
    n = 12 ∧ ScanInv hd c disk 12 s' := by
  induction fuel generalizing i part s with
  | zero =>
      unfold scanParts at hok
      by_cases hlt : i < 12
      · rw [if_pos hlt] at hok
        cases hok
      · obtain rfl : i = 12 := by omega
        cases hok
        exact ⟨rfl, h⟩
  | succ fuel ih =>
      unfold scanParts at hok
      by_cases hlt : i < 12
      · obtain ⟨hslot, hnext⟩ := partAt_eq hd hpart
        simp only [if_pos hlt, hslot, bind_eq_ok] at hok
        obtain ⟨s₁, hstep, hok⟩ := hok
        exact ih (scanPart_inv h hlt hstep) hlt hnext hok
      · obtain rfl : i = 12 := by omega
        cases hok
        exact ⟨rfl, h⟩

/-- With `part_idx = 12` nothing is scanned. -/
theorem scanChannels_skip {devices : List DiskParts} (rest : List Nat) :
    scanChannels pad heap devices rest 12 s = .ok s := by
  induction rest with
  | nil => rfl
  | cons channelNo rest ih =>
      have hskip : ∀ devNo, scanDevice pad heap devices channelNo devNo 12 s = .ok (12, s) := by
        intro devNo
        unfold scanDevice scanParts
        by_cases hdev : devNo = 0 <;> simp [hdev]
      simp only [scanChannels, hskip, ok_bind]
      exact ih

/-- The scan is the scan of the first channel. -/
theorem filesysScan_inv {devices : List DiskParts} {channelCnt : Nat}
    (hok : filesysScan pad heap devices (channelCnt + 1) disk = .ok s) :
    ScanInv (deviceAt devices 0 1) 0 disk 12 s := by
  rw [filesysScan, List.range_succ_eq_map, scanChannels] at hok
  obtain ⟨⟨n₀, s₀⟩, hfirst, ⟨n, s₁⟩, hsecond, hrest⟩ := by simpa only [bind_eq_ok] using hok
  -- the first device of the channel is skipped, and the second one leaves `part_idx` at 12
  cases hfirst
  rw [scanDevice, if_neg one_ne_zero] at hsecond
  obtain ⟨rfl, hinv⟩ := scanParts_inv scanInv_init (Nat.zero_le 12)
    ⟨fun _ => rfl, fun h4 => absurd h4 (by decide)⟩ hsecond
  rw [scanChannels_skip] at hrest
  cases hrest
  exact hinv

end

/-! ### The whole scan -/

section
variable {devices : List DiskParts} {channelCnt : Nat} {disk : Nat → Nat → Disk}
  {s : FilesysScan} {pad heap : Nat → Nat → Bytes} {carried : Nat → Nat → Prop}

/-- Behind the scan of the first channel, its partitions are settled, and the others are not
formatted. -/
theorem settled_iff (h : ScanInv (deviceAt devices 0 1) 0 disk 12 s)
    (hfirst : ∀ v ∈ s.visits,
      (carried 0 v.partIdx ↔ HasMagic v.disk (slotAt (deviceAt devices 0 1) v.partIdx)))
    (hothers : ∀ c ≠ 0, ∀ i,
      (carried c i ↔ HasMagic (disk c 1) (slotAt (deviceAt devices c 1) i))) :
    Settled devices channelCnt carried s ↔ OthersCarry devices channelCnt disk := by
  have hnot : ∀ c ≠ 0, ∀ i, ¬Formatted s c i := by
    rintro c hc i ⟨v, hv, hchannel, -⟩
    exact hc (hchannel.symm.trans (h.visited v hv).1)
  constructor
  · intro hsettled c hlt hc i hi hp
    rcases (hsettled c hlt i hi hp).1 with hcarried | hformatted
    · exact (hothers c hc i).mp hcarried
    · exact absurd hformatted (hnot c hc i)
  · intro hcarry c hlt i hi hp
    by_cases hc : c = 0
    · subst hc
      obtain ⟨v, hv, rfl⟩ := h.all i hi hp
      -- the partition has one visit, so it was formatted exactly when this visit says so
      have hiff : Formatted s 0 v.partIdx ↔ ¬carried 0 v.partIdx := by
        rw [hfirst v hv, ← h.formatted v hv]
        constructor
        · rintro ⟨w, hw, -, hidx, hformatted⟩
          rwa [List.inj_on_of_nodup_map h.once hv hw hidx.symm]
        · intro hformatted
          exact ⟨v, hv, (h.visited v hv).1, rfl, hformatted⟩
      rw [hiff]
      exact ⟨em _, fun hcarried hnot' => hnot' hcarried⟩
    · exact ⟨.inl ((hothers c hc i).mpr (hcarry c hlt hc i hi hp)), fun _ => hnot c hc i⟩

/-- The disk that the scan has read. -/
theorem diskBefore_visit (h : ScanInv (deviceAt devices 0 1) 0 disk 12 s) {v : Visit}
    (hv : v ∈ s.visits) : diskBefore s 0 v.partIdx = v.disk := by
  unfold diskBefore
  cases hfind : s.visits.find? fun w => decide (w.channelNo = 0 ∧ w.partIdx = v.partIdx) with
  | none =>
      have hnone := List.find?_eq_none.mp hfind v hv
      exact absurd (decide_eq_true ⟨(h.visited v hv).1, rfl⟩) hnone
  | some w =>
      have hfound := List.find?_some hfind
      have hw : w.partIdx = v.partIdx := (of_decide_eq_true hfound).2
      have heq := List.inj_on_of_nodup_map h.once (List.mem_of_find?_eq_some hfind) hv hw
      rw [heq]
      rfl

/-- A disk that the scan does not read stays. -/
theorem diskBefore_others (h : ScanInv (deviceAt devices 0 1) 0 disk 12 s) {c : Nat} (hc : c ≠ 0)
    (i : Nat) : diskBefore s c i = disk c 1 := by
  have hfind : (s.visits.find? fun v => decide (v.channelNo = c ∧ v.partIdx = i)) = none := by
    refine List.find?_eq_none.mpr fun v hv hfound => ?_
    exact hc ((of_decide_eq_true hfound).1.symm.trans (h.visited v hv).1)
  rw [diskBefore, hfind, ← h.others c hc]
  rfl

/-- Behind the scan each partition had the magic number or has been formatted, exactly when no
partition behind the first channel needs a format. -/
theorem filesysScan_iff (hok : filesysScan pad heap devices channelCnt disk = .ok s) :
    (Settled devices channelCnt
        (fun c i => HasMagic (diskBefore s c i) (slotAt (deviceAt devices c 1) i)) s ↔
      OthersCarry devices channelCnt disk) ∧
    (SuperBlocksApart (deviceAt devices 0 1) →
      (Settled devices channelCnt
          (fun c i => HasMagic (disk c 1) (slotAt (deviceAt devices c 1) i)) s ↔
        OthersCarry devices channelCnt disk)) := by
  cases channelCnt with
  | zero =>
      have hnone : OthersCarry devices 0 disk := fun c hc => absurd hc (Nat.not_lt_zero c)
      have hsettled : ∀ carried, Settled devices 0 carried s :=
        fun _ c hc => absurd hc (Nat.not_lt_zero c)
      exact ⟨iff_of_true (hsettled _) hnone, fun _ => iff_of_true (hsettled _) hnone⟩
  | succ channelCnt =>
      have h := filesysScan_inv hok
      refine ⟨settled_iff h (fun v hv => ?_) fun c hc i => ?_, fun hapart => ?_⟩
      · rw [diskBefore_visit h hv]
      · rw [diskBefore_others h hc]
      · exact settled_iff h (fun v hv => (h.before hapart v hv).symm) fun _ _ _ => Iff.rfl

/-- Two channels, and a partition on each of the second disks. -/
def twoChannels : List DiskParts := [⟨[], []⟩, ⟨[(63, 600)], []⟩, ⟨[], []⟩, ⟨[(63, 600)], []⟩]

/-- The scan of two blank disks returns. -/
theorem filesysScan_blank : ∃ s, filesysScan (fun _ _ _ => 0) (fun _ _ _ => 0) twoChannels 2
    (fun _ _ _ _ => 0) = .ok s := ⟨_, rfl⟩

/-- The scan of two blank disks. -/
theorem filesysScan_iff_blank : ∃ s, filesysScan (fun _ _ _ => 0) (fun _ _ _ => 0) twoChannels 2
    (fun _ _ _ _ => 0) = .ok s ∧
    (Settled twoChannels 2
        (fun c i => HasMagic (diskBefore s c i) (slotAt (deviceAt twoChannels c 1) i)) s ↔
      OthersCarry twoChannels 2 fun _ _ _ _ => 0) := by
  obtain ⟨s, hok⟩ := filesysScan_blank
  exact ⟨s, hok, (filesysScan_iff hok).1⟩

/-- The partition on the second channel gets no file system: `part_idx` is 12 behind the first disk,
and no channel sets it back. -/
theorem second_channel_not_formatted : ∃ s,
    filesysScan (fun _ _ _ => 0) (fun _ _ _ => 0) twoChannels 2 (fun _ _ _ _ => 0) = .ok s ∧
    ¬HasMagic (s.disk 1 1) (63, 600) ∧ ¬Formatted s 1 0 ∧
    ¬Settled twoChannels 2
      (fun c i => HasMagic (diskBefore s c i) (slotAt (deviceAt twoChannels c 1) i)) s := by
  obtain ⟨s, hok⟩ := filesysScan_blank
  have h := filesysScan_inv hok
  have hblank : ¬HasMagic (fun _ _ => 0) (63, 600) := by
    unfold HasMagic
    decide
  have hdisk : s.disk 1 = fun _ _ _ => 0 := h.others 1 one_ne_zero
  have hmagic : ¬HasMagic (s.disk 1 1) (63, 600) := by
    rw [hdisk]
    exact hblank
  have hnot : ¬Formatted s 1 0 := by
    rintro ⟨v, hv, hchannel, -⟩
    exact one_ne_zero (hchannel.symm.trans (h.visited v hv).1)
  refine ⟨s, hok, hmagic, hnot, fun hsettled => ?_⟩
  rcases (hsettled 1 (by decide) 0 (by decide) (by decide)).1 with hcarried | hformatted
  · rw [diskBefore_others h one_ne_zero] at hcarried
    exact hblank hcarried
  · exact hnot hformatted

end

end Fizzos.Proofs
