import Fizzos.Proofs.FileWrite

/-!
# `Fizzos.Proofs.FileRead`: `file_read`

`ReadInv` is the state of the loop of `file_read` before the sector `sec`. The bytes in front of
`dst` are those of the file, and behind sector 12 the index block is in `io_buf`. A file has every
sector that the loop asks for, so the call returns.
-/

set_option autoImplicit false

namespace Fizzos.Proofs

open Fizzos.Device
open Fizzos.Fs
open Fizzos.Support

/-- The byte `x` of a file. -/
def contentAt (disk : Disk) (i : Inode) (x : Nat) : BitVec 8 :=
  disk (blockOf disk i (x / 512)) (x % 512)

/-- The loop of `file_read` before the sector `sec`. -/
structure ReadInv (disk : Disk) (i : Inode) (dest : Bytes) (pos total sec : Nat) (c : ReadCursor) :
    Prop where
  total : c.dst + c.count = total
  place : c.count ≠ 0 → pos + c.dst = 512 * sec + c.offset
  offset : c.offset < 512
  index : 12 < sec → ∀ k < 512, disk (i.iSectors 12) k = c.ioBuf (512 + k)
  dest : ∀ k, c.dest k = if k < c.dst then contentAt disk i (pos + k) else dest k

namespace ReadInv

variable {disk : Disk} {i : Inode} {dest : Bytes} {pos total sec : Nat} {c : ReadCursor}

/-- A round reads the next part of the file. -/
theorem step (h : ReadInv disk i dest pos total sec c) (ha : Allocated disk i)
    (hfit : ∀ j < BLOCKS, blockOf disk i j < 2 ^ 32) (hend : pos + total ≤ i.iSize)
    (hcount : c.count ≠ 0) :
    ∃ c', c.step disk i sec = .ok c' ∧ ReadInv disk i dest pos total (sec + 1) c' := by
  have hplace := h.place hcount
  have htotal := h.total
  have hoffset := h.offset
  obtain ⟨hsec, hne⟩ := (ha.sectors sec).mpr (by omega)
  have hsec' : sec < 140 := hsec
  -- Where the number of the sector is, with the index block behind it from sector 12 on.
  obtain ⟨buf, next, hchoice, hload, hindex⟩ : ∃ buf next,
      (if sec < 12 then (storeLE 4 c.ioBuf SECTOR_SIZE (i.iSectors sec), SECTOR_SIZE)
        else if sec = 12 then (ideRead disk (i.iSectors 12) c.ioBuf SECTOR_SIZE 1, SECTOR_SIZE)
        else (c.ioBuf, SECTOR_SIZE + 4 * (sec - 12))) = (buf, next) ∧
      load32 buf next = blockOf disk i sec ∧
      (12 ≤ sec → ∀ k < 512, disk (i.iSectors 12) k = buf (512 + k)) := by
    have hsize : SECTOR_SIZE = 512 := rfl
    rcases Nat.lt_trichotomy sec 12 with hlt | rfl | hgt
    · have hdirect : blockOf disk i sec = i.iSectors sec := if_pos hlt
      have hword := hfit sec (by show sec < 141; omega)
      rw [hdirect] at hword ⊢
      exact ⟨_, _, if_pos hlt, loadLE_storeLE hword, fun hge => by omega⟩
    · have hindex : blockOf disk i 12
          = if i.iSectors 12 = 0 then 0 else load32 (disk (i.iSectors 12)) (4 * (12 - 12)) := rfl
      have hthere : i.iSectors 12 ≠ 0 := by
        intro hzero
        rw [hindex, if_pos hzero] at hne
        exact hne rfl
      rw [if_neg hthere] at hindex
      refine ⟨_, _, rfl, ?_, fun _ k hk => ?_⟩
      · rw [hindex]
        exact loadLE_shift 0 fun j hj => by
          rw [ideRead_one (by omega) (by omega), Nat.add_sub_cancel_left, Nat.zero_add]
      · show _ = ideRead disk (i.iSectors 12) c.ioBuf SECTOR_SIZE 1 (SECTOR_SIZE + k)
        rw [ideRead_one (by omega) (by omega), Nat.add_sub_cancel_left]
    · have hnot : ¬sec < 12 := Nat.lt_asymm hgt
      have hindex : blockOf disk i sec
          = if i.iSectors 12 = 0 then 0 else load32 (disk (i.iSectors 12)) (4 * (sec - 12)) := by
        rw [blockOf, if_neg hnot, if_neg (Nat.ne_of_lt hsec)]
      have hthere : i.iSectors 12 ≠ 0 := by
        intro hzero
        rw [hindex, if_pos hzero] at hne
        exact hne rfl
      rw [if_neg hthere] at hindex
      refine ⟨c.ioBuf, SECTOR_SIZE + 4 * (sec - 12), ?_, ?_, fun _ => h.index hgt⟩
      · rw [if_neg hnot, if_neg (Nat.ne_of_gt hgt)]
      · rw [hindex]
        refine loadLE_shift _ fun j hj => ?_
        show c.ioBuf (512 + 4 * (sec - 12) + j) = _
        rw [Nat.add_assoc]
        exact (h.index hgt _ (by omega)).symm
  obtain ⟨m, hm⟩ : ∃ m, m = min c.count (SECTOR_SIZE - c.offset) := ⟨_, rfl⟩
  have hle : m ≤ c.count := hm ▸ Nat.min_le_left _ _
  have hroom : m ≤ 512 - c.offset := hm ▸ Nat.min_le_right _ _
  have hfull : m = c.count ∨ m = 512 - c.offset := by
    have hmin : m = min c.count (512 - c.offset) := hm
    omega
  let buf' := ideRead disk (blockOf disk i sec) buf 0 1
  have hlow : ∀ k < 512, buf' k = disk (blockOf disk i sec) k := by
    intro k hk
    have hk' : k < 0 + SECTOR_SIZE := by
      show k < 0 + 512
      omega
    exact ideRead_one (Nat.zero_le k) hk'
  have hhigh : ∀ k, 512 ≤ k → buf' k = buf k := by
    intro k hk
    have hk' : 0 + SECTOR_SIZE ≤ k := by
      show 0 + 512 ≤ k
      omega
    exact ideRead_of_ne (.inr hk')
  have hstep : c.step disk i sec = .ok
      { ioBuf := buf', dest := copyBytes c.dest c.dst buf' c.offset m, count := c.count - m
        dst := c.dst + m, offset := 0 } := by
    rw [ReadCursor.step, hchoice]
    dsimp only
    rw [hload, ASSERT_true hne, ok_bind, ← hm]
    rfl
  refine ⟨_, hstep, ?_, fun hrest => ?_, Nat.succ_pos 511, fun hgt k hk => ?_, fun k => ?_⟩
  · show c.dst + m + (c.count - m) = total
    omega
  · have hrest' : c.count - m ≠ 0 := hrest
    show pos + (c.dst + m) = 512 * (sec + 1) + 0
    omega
  · rw [hindex (Nat.le_of_lt_succ hgt) k hk]
    exact (hhigh _ (Nat.le_add_right _ _)).symm
  · show copyBytes c.dest c.dst buf' c.offset m k = if k < c.dst + m then _ else _
    by_cases hnow : c.dst ≤ k ∧ k < c.dst + m
    · have hbyte : (pos + k) / 512 = sec := by omega
      have hplace' : (pos + k) % 512 = c.offset + (k - c.dst) := by omega
      rw [copyBytes_at hnow.1 hnow.2, if_pos hnow.2, hlow _ (by omega), contentAt, hbyte, hplace']
    · rw [copyBytes_of_ne (by omega), h.dest k]
      by_cases hold : k < c.dst
      · rw [if_pos hold, if_pos (by omega)]
      · rw [if_neg hold, if_neg (by omega)]

/-- The loop reads all that is left. -/
theorem loop (ha : Allocated disk i) (hfit : ∀ j < BLOCKS, blockOf disk i j < 2 ^ 32)
    (hend : pos + total ≤ i.iSize) (n : Nat) (h : ReadInv disk i dest pos total sec c)
    (hsec : sec + n = INDEX) :
    ∃ c' last, readLoop disk i (List.range' sec n) c = .ok c' ∧ c'.count = 0 ∧
      ReadInv disk i dest pos total last c' := by
  induction n generalizing sec c with
  | zero =>
      refine ⟨c, sec, rfl, ?_, h⟩
      -- The data ends in front of sector 140.
      refine Classical.byContradiction fun hcount => ?_
      have hsize : i.iSize ≤ 512 * 140 := ha.size_le
      have hsec' : sec = 140 := hsec
      have hplace := h.place hcount
      have htotal := h.total
      omega
  | succ n ih =>
      rw [List.range'_succ, readLoop]
      by_cases hcount : c.count > 0
      · obtain ⟨c₁, hstep, hround⟩ := h.step ha hfit hend (Nat.ne_of_gt hcount)
        rw [if_pos hcount, hstep, ok_bind]
        exact ih hround (by omega)
      · rw [if_neg hcount]
        exact ⟨c, sec, rfl, by omega, h⟩

end ReadInv

/-- `file_read` returns, with the bytes from the position on up to the end of the file. -/
theorem fileRead_spec {s : FileSys} {p pos : Nat} (ha : Allocated s.disk (s.inode p))
    (hfit : ∀ j < BLOCKS, blockOf s.disk (s.inode p) j < 2 ^ 32) (hpos : pos ≤ (s.inode p).iSize)
    (dest ioBuf : Bytes) (count : Nat) :
    ∃ dest', fileRead s p dest count pos ioBuf
        = .ok (min count ((s.inode p).iSize - pos),
          pos + min count ((s.inode p).iSize - pos), dest') ∧
      ∀ k, dest' k = if k < min count ((s.inode p).iSize - pos) then
        contentAt s.disk (s.inode p) (pos + k) else dest k := by
  have hsize : (s.inode p).iSize ≤ 512 * 140 := ha.size_le
  have hn : min (s.inode p).iSize (pos + count) - pos = min count ((s.inode p).iSize - pos) := by
    omega
  obtain ⟨n, hn'⟩ : ∃ n, n = min count ((s.inode p).iSize - pos) := ⟨_, rfl⟩
  have hsectors : pos / 512 + (FILE_SECTORS - pos / 512) = INDEX := by
    show pos / 512 + (140 - pos / 512) = 140
    omega
  let buf := if pos / SECTOR_SIZE > 12 then
    ideRead s.disk ((s.inode p).iSectors 12) ioBuf SECTOR_SIZE 1 else ioBuf
  -- A read that starts behind sector 12 has the index block in its buffer already.
  have hstart : ReadInv s.disk (s.inode p) dest pos n (pos / 512)
      { ioBuf := buf, dest, count := n, dst := 0, offset := pos % SECTOR_SIZE } := by
    refine ⟨Nat.zero_add n, fun _ => ?_, Nat.mod_lt _ (by decide), fun hgt k hk => ?_, fun k => ?_⟩
    · show pos + 0 = 512 * (pos / 512) + pos % 512
      omega
    · have hbuf : buf = ideRead s.disk ((s.inode p).iSectors 12) ioBuf SECTOR_SIZE 1 := if_pos hgt
      have hsize' : SECTOR_SIZE = 512 := rfl
      show _ = buf (SECTOR_SIZE + k)
      rw [hbuf, ideRead_one (by omega) (by omega), Nat.add_sub_cancel_left]
    · rfl
  obtain ⟨c, last, hloop, hcount, hread⟩ :=
    hstart.loop ha hfit (by omega) (FILE_SECTORS - pos / 512) hsectors
  have hdst : c.dst = n := by
    have htotal := hread.total
    omega
  refine ⟨c.dest, ?_, fun k => ?_⟩
  · rw [fileRead, ASSERT_true hpos, ok_bind]
    dsimp only
    rw [hn, ← hn']
    have hloop' : readLoop s.disk (s.inode p)
        (List.range' (pos / SECTOR_SIZE) (FILE_SECTORS - pos / SECTOR_SIZE))
        { ioBuf := buf, dest, count := n, dst := 0, offset := pos % SECTOR_SIZE } = .ok c := hloop
    rw [hloop', ok_bind, ASSERT_true hcount]
    rfl
  · rw [hread.dest k, hdst, hn']

/-! ### The rest of the buffer -/

section
variable {disk : Disk} {i : Inode} {c c' : ReadCursor} {k : Nat}

theorem readStep_outside {sec : Nat} (h : c.step disk i sec = .ok c') (hk : c.dst + c.count ≤ k) :
    c'.dst + c'.count = c.dst + c.count ∧ c'.dest k = c.dest k := by
  rw [ReadCursor.step] at h
  obtain ⟨u, -, h⟩ := bind_eq_ok.mp h
  cases h
  have hle := Nat.min_le_left c.count (SECTOR_SIZE - c.offset)
  constructor
  · show c.dst + min c.count (SECTOR_SIZE - c.offset)
      + (c.count - min c.count (SECTOR_SIZE - c.offset)) = _
    omega
  · exact copyBytes_of_ne (.inr (by omega))

theorem readLoop_outside {secs : List Nat} (h : readLoop disk i secs c = .ok c')
    (hk : c.dst + c.count ≤ k) : c'.dest k = c.dest k := by
  induction secs generalizing c with
  | nil =>
      cases h
      rfl
  | cons sec rest ih =>
      rw [readLoop] at h
      by_cases hcount : c.count > 0
      · rw [if_pos hcount] at h
        obtain ⟨c₁, hstep, hrest⟩ := bind_eq_ok.mp h
        have hout := readStep_outside hstep hk
        exact (ih hrest (hout.1.trans_le hk)).trans hout.2
      · rw [if_neg hcount] at h
        cases h
        rfl

end

/-- `file_read` writes to the `count` bytes that it gets, whatever the inode looks like. -/
theorem fileRead_outside {s : FileSys} {p count pos k : Nat} {dest ioBuf : Bytes}
    {r : Nat × Nat × Bytes} (h : fileRead s p dest count pos ioBuf = .ok r) (hk : count ≤ k) :
    r.2.2 k = dest k := by
  rw [fileRead] at h
  obtain ⟨u, -, h⟩ := bind_eq_ok.mp h
  obtain ⟨c, hloop, h⟩ := bind_eq_ok.mp h
  obtain ⟨u', -, h⟩ := bind_eq_ok.mp h
  cases h
  refine readLoop_outside hloop ?_
  show 0 + (min (s.inode p).iSize (pos + count) - pos) ≤ k
  omega

end Fizzos.Proofs
