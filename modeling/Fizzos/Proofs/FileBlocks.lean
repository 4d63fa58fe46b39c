import Fizzos.Fs.File
import Fizzos.Proofs.Metadata

/-!
# `Fizzos.Proofs.FileBlocks`: the blocks of a file while it is written

A file has up to 141 blocks: its 140 sectors, and the index block, which gets the number 140 here.
`blockOf` says where they are. While `file_write` runs, some of the numbers are in `io_buf` only, so
the lemmas below are about any table `T` of block numbers.

`Progress` compares a moment of the call with its start. Blocks stay where they are, new ones come
from clear bits of the bitmap, and no sector changes but those of the file and of the bitmap.
`Written` says which bytes the file has by then.
-/

set_option autoImplicit false

namespace Fizzos.Proofs

open Fizzos.Device
open Fizzos.Fs
open Fizzos.Kernel
open Fizzos.LibKernel
open Fizzos.Support

/-- The number of the index block. -/
def INDEX : Nat := 140

/-- The number of blocks of a file. -/
def BLOCKS : Nat := 141

/-- Where the block `j` of a file is, or 0. -/
def blockOf (disk : Disk) (i : Inode) (j : Nat) : Nat :=
  if j < 12 then i.iSectors j
  else if j = INDEX then i.iSectors 12
  else if i.iSectors 12 = 0 then 0
  else load32 (disk (i.iSectors 12)) (4 * (j - 12))

/-- The areas of a mounted partition, one behind the other. -/
structure LayoutOk (part : Partition) : Prop where
  bytes : part.blockBitmap.byteSize = part.sb.blockBitmapSects * SECTOR_SIZE
  blockBitmap : part.sb.blockBitmapLba + part.sb.blockBitmapSects ≤ part.sb.inodeBitmapLba
  inodeBitmap : part.sb.inodeBitmapLba + part.sb.inodeBitmapSects ≤ part.sb.inodeTableLba
  inodeTable : part.sb.inodeTableLba + 512 ≤ part.sb.dataStartLba

/-- A block that is marked in the bitmap. -/
def Used (sb : SuperBlock) (bmap : Bitmap) (l : Nat) : Prop :=
  ∃ idx, idx < 8 * bmap.byteSize ∧ l = sb.dataStartLba + idx ∧ l < 2 ^ 32 ∧ bmap.bit idx = true

/-- A sector of the block bitmap. -/
def InBitmap (sb : SuperBlock) (l : Nat) : Prop :=
  sb.blockBitmapLba ≤ l ∧ l < sb.blockBitmapLba + sb.blockBitmapSects

/-- From the start of a call, with the disk `D₀`, the bitmap `B₀` and the blocks `L`, to a later
moment of it. -/
structure Progress (sb : SuperBlock) (D₀ : Disk) (B₀ : Bitmap) (L : Nat → Nat) (D : Disk)
    (B : Bitmap) (T : Nat → Nat) : Prop where
  byteSize : B.byteSize = B₀.byteSize
  grow : ∀ idx, B₀.bit idx = true → B.bit idx = true
  old : ∀ j < BLOCKS, L j ≠ 0 → T j = L j
  fresh : ∀ j < BLOCKS, T j ≠ 0 → L j = 0 →
    ∃ idx, T j = sb.dataStartLba + idx ∧ B₀.bit idx = false
  used : ∀ j < BLOCKS, T j ≠ 0 → Used sb B (T j)
  apart : ∀ j < BLOCKS, ∀ k < BLOCKS, T j = T k → T j ≠ 0 → j = k
  frame : ∀ l, (∀ j < BLOCKS, T j ≠ 0 → T j ≠ l) → ¬InBitmap sb l → D l = D₀ l
  onDisk : ∀ idx, idx / BITS_PER_SECTOR < sb.blockBitmapSects → B.bit idx = true →
    (B₀.bit idx = true → bitOnDisk D₀ sb.blockBitmapLba idx = true) →
    bitOnDisk D sb.blockBitmapLba idx = true

/-- What `block_bimap_alloc` needs: a clear bit stands for a sector that has a number. -/
def BitsFit (sb : SuperBlock) (B : Bitmap) : Prop :=
  ∀ idx, idx < 8 * B.byteSize → B.bit idx = false → sb.dataStartLba + idx < 2 ^ 32

/-- A later bitmap. What was marked is marked. -/
structure Grown (B B' : Bitmap) : Prop where
  byteSize : B'.byteSize = B.byteSize
  bit : ∀ idx, B.bit idx = true → B'.bit idx = true

/-- A sector of the data area that is not marked. -/
def FreeBlock (sb : SuperBlock) (B : Bitmap) (l : Nat) : Prop := sb.dataStartLba ≤ l ∧ ¬Used sb B l

section
variable {sb : SuperBlock} {D D' : Disk} {B B' B'' : Bitmap} {l lba : Nat} {current : Tid}

namespace Grown

theorem refl (B : Bitmap) : Grown B B := ⟨rfl, fun _ h => h⟩

theorem trans (h : Grown B B') (h' : Grown B' B'') : Grown B B'' :=
  ⟨h'.byteSize.trans h.byteSize, fun idx hbit => h'.bit idx (h.bit idx hbit)⟩

/-- A block that was in use is in use. -/
theorem used (h : Grown B B') (hused : Used sb B l) : Used sb B' l := by
  obtain ⟨idx, hlt, hidx, hrange, hset⟩ := hused
  exact ⟨idx, h.byteSize ▸ hlt, hidx, hrange, h.bit idx hset⟩

/-- A block that is free was free. -/
theorem free (h : Grown B B') (hfree : FreeBlock sb B' l) : FreeBlock sb B l :=
  ⟨hfree.1, fun hused => hfree.2 (h.used hused)⟩

/-- A bit that is clear was clear. -/
theorem clear (h : Grown B B') {idx : Nat} (hclear : B'.bit idx = false) : B.bit idx = false := by
  cases hset : B.bit idx with
  | false => rfl
  | true =>
      rw [h.bit idx hset] at hclear
      cases hclear

/-- So the clear bits are sectors of the partition. -/
theorem bitsFit (h : Grown B B') (hfit : BitsFit sb B) : BitsFit sb B' := fun idx hlt hclear =>
  hfit idx (h.byteSize ▸ hlt) (h.clear hclear)

end Grown

/-- `block_bimap_alloc` returns a block that was free. -/
theorem blockBimapAlloc_free (hfit : BitsFit sb B)
    (hok : blockBimapAlloc D sb B current = .ok (lba, D', B')) :
    FreeBlock sb B lba ∧ Used sb B' lba ∧ Grown B B' ∧ ∀ l, ¬InBitmap sb l → D' l = D l := by
  obtain ⟨idx, hlt, hclear, hsects, hlba, hsize, hbits, hframe, -⟩ := blockBimapAlloc_ok hok
  have hrange : sb.dataStartLba + idx < 2 ^ 32 := hfit idx hlt hclear
  rw [Nat.mod_eq_of_lt hrange] at hlba
  refine ⟨⟨by omega, ?_⟩, ⟨idx, hsize ▸ hlt, hlba, by omega, ?_⟩, ⟨hsize, fun i hi => ?_⟩,
    fun l hl => hframe l fun heq => hl ?_⟩
  · rintro ⟨i, -, hi, -, hset⟩
    obtain rfl : i = idx := by omega
    rw [hclear] at hset
    cases hset
  · rw [hbits, if_pos rfl]
  · rw [hbits]
    split
    · rfl
    · exact hi
  · have hsects' : idx / 512 < sb.blockBitmapSects := hsects
    have hsector : l = sb.blockBitmapLba + idx / 4096 := heq
    exact ⟨by omega, by omega⟩

end

namespace Progress

variable {sb : SuperBlock} {D₀ D D' : Disk} {B₀ B B' : Bitmap} {L T : Nat → Nat} {j lba : Nat}
  {current : Tid}

/-- The start. -/
theorem start (hused : ∀ j < BLOCKS, L j ≠ 0 → Used sb B₀ (L j))
    (hapart : ∀ j < BLOCKS, ∀ k < BLOCKS, L j = L k → L j ≠ 0 → j = k) :
    Progress sb D₀ B₀ L D₀ B₀ L where
  byteSize := rfl
  grow := fun _ h => h
  old := fun _ _ _ => rfl
  fresh := fun _ _ hne hzero => absurd hzero hne
  used := hused
  apart := hapart
  frame := fun _ _ _ => rfl
  onDisk := fun _ _ hbit hold => hold hbit

/-- The table counts for the blocks of a file only. -/
theorem congr (h : Progress sb D₀ B₀ L D B T) {T' : Nat → Nat} (hT : ∀ j < BLOCKS, T' j = T j) :
    Progress sb D₀ B₀ L D B T' where
  byteSize := h.byteSize
  grow := h.grow
  old := fun j hj hne => (hT j hj).trans (h.old j hj hne)
  fresh := fun j hj hne hzero => by
    rw [hT j hj] at hne ⊢
    exact h.fresh j hj hne hzero
  used := fun j hj hne => by
    rw [hT j hj] at hne ⊢
    exact h.used j hj hne
  apart := fun j hj k hk heq hne => by
    rw [hT j hj] at hne
    rw [hT j hj, hT k hk] at heq
    exact h.apart j hj k hk heq hne
  frame := fun l hl hbitmap => h.frame l (fun j hj => by rw [← hT j hj]; exact hl j hj) hbitmap
  onDisk := h.onDisk

/-- A block is behind the start of the data. -/
theorem le_block (h : Progress sb D₀ B₀ L D B T) (hj : j < BLOCKS) (hne : T j ≠ 0) :
    sb.dataStartLba ≤ T j := by
  obtain ⟨idx, -, heq, -, -⟩ := h.used j hj hne
  omega

/-- A write only takes blocks. -/
theorem grown (h : Progress sb D₀ B₀ L D B T) : Grown B₀ B := ⟨h.byteSize, h.grow⟩

/-- A new block in a free place of the table. -/
theorem alloc (h : Progress sb D₀ B₀ L D B T) (hfit : BitsFit sb B₀) (hpos : 0 < sb.dataStartLba)
    (hj : j < BLOCKS) (hzero : T j = 0) (hok : blockBimapAlloc D sb B current = .ok (lba, D', B')) :
    lba ≠ 0 ∧ lba < 2 ^ 32 ∧ (∀ l, ¬InBitmap sb l → D' l = D l) ∧
      Progress sb D₀ B₀ L D' B' (Function.update T j lba) := by
  obtain ⟨hfree, hused, hgrown, hframe⟩ := blockBimapAlloc_free (h.grown.bitsFit hfit) hok
  obtain ⟨idx, -, -, -, -, -, hbits, -, hdisk⟩ := blockBimapAlloc_ok hok
  have hle : sb.dataStartLba ≤ lba := hfree.1
  obtain ⟨new, hnew, hlba, hrange, -⟩ := id hused
  -- The block is not marked, so no block of the table is the new one.
  have hother : ∀ k < BLOCKS, T k ≠ lba := by
    rintro k hk rfl
    exact hfree.2 (h.used k hk (by omega))
  have hkeep : ∀ k, k ≠ j → Function.update T j lba k = T k := fun k hk =>
    Function.update_of_ne hk _ _
  refine ⟨by omega, hrange, hframe, ?_⟩
  exact
    { byteSize := (h.grown.trans hgrown).byteSize
      grow := (h.grown.trans hgrown).bit
      old := fun k hk hne => by
        have hkj : k ≠ j := by
          rintro rfl
          exact hne ((h.old k hk hne).symm.trans hzero)
        rw [hkeep k hkj]
        exact h.old k hk hne
      fresh := fun k hk hne hnone => by
        by_cases hkj : k = j
        · subst hkj
          rw [Function.update_self]
          refine ⟨new, hlba, ?_⟩
          cases hset : B₀.bit new with
          | false => rfl
          | true =>
              have hmarked : Used sb B lba :=
                ⟨new, hgrown.byteSize ▸ hnew, hlba, hrange, h.grow new hset⟩
              exact absurd hmarked hfree.2
        · rw [hkeep k hkj] at hne ⊢
          exact h.fresh k hk hne hnone
      used := fun k hk hne => by
        by_cases hkj : k = j
        · subst hkj
          rw [Function.update_self]
          exact hused
        · rw [hkeep k hkj] at hne ⊢
          exact hgrown.used (h.used k hk hne)
      apart := fun k hk k' hk' heq hne => by
        by_cases hkj : k = j
        · by_cases hkj' : k' = j
          · exact hkj.trans hkj'.symm
          · subst hkj
            rw [Function.update_self, hkeep k' hkj'] at heq
            exact absurd heq.symm (hother k' hk')
        · rw [hkeep k hkj] at heq hne
          by_cases hkj' : k' = j
          · subst hkj'
            rw [Function.update_self] at heq
            exact absurd heq (hother k hk)
          · rw [hkeep k' hkj'] at heq
            exact h.apart k hk k' hk' heq hne
      frame := fun l hl hbitmap => by
        rw [hframe l hbitmap]
        refine h.frame l (fun k hk hne => ?_) hbitmap
        have hkj : k ≠ j := by
          rintro rfl
          exact hne hzero
        have hother := hl k hk
        rw [hkeep k hkj] at hother
        exact hother hne
      onDisk := fun i hi hset hold => by
        rw [hdisk]
        split
        · exact hset
        · -- Another sector of the bitmap has the bit, so it is not the new one.
          rename_i hother
          rw [hbits, if_neg fun heq => hother (by rw [heq])] at hset
          exact h.onDisk i hi hset hold }

/-- A sector of the file is written. -/
theorem write (h : Progress sb D₀ B₀ L D B T)
    (hlayout : sb.blockBitmapLba + sb.blockBitmapSects ≤ sb.dataStartLba) (hj : j < BLOCKS)
    (hne : T j ≠ 0) (buf : Bytes) (off : Nat) :
    Progress sb D₀ B₀ L (ideWrite D (T j) buf off 1) B T where
  byteSize := h.byteSize
  grow := h.grow
  old := h.old
  fresh := h.fresh
  used := h.used
  apart := h.apart
  frame := fun l hl hbitmap => by
    rw [ideWrite_of_ne fun heq => hl j hj hne heq.symm]
    exact h.frame l hl hbitmap
  onDisk := fun i hi hset hold => by
    have hle := h.le_block hj hne
    rw [bitOnDisk_congr (ideWrite_of_ne (by omega))]
    exact h.onDisk i hi hset hold

end Progress

/-- `n` bytes from `src` have been written at `pos`. The other bytes of the blocks that the file had
at the start are as they were. -/
structure Written (D₀ : Disk) (L : Nat → Nat) (D : Disk) (T : Nat → Nat) (pos n : Nat)
    (src : Bytes) : Prop where
  new : ∀ x < 512 * INDEX, pos ≤ x ∧ x < pos + n →
    T (x / 512) ≠ 0 ∧ D (T (x / 512)) (x % 512) = src (x - pos)
  old : ∀ x < 512 * INDEX, ¬(pos ≤ x ∧ x < pos + n) → L (x / 512) ≠ 0 →
    D (T (x / 512)) (x % 512) = D₀ (L (x / 512)) (x % 512)

/-- The block that a byte is in. -/
theorem div_lt_index {x : Nat} (hx : x < 512 * INDEX) : x / 512 < INDEX := by
  have hx' : x < 512 * 140 := hx
  show x / 512 < 140
  omega

/-- A byte of a file is in one of its sectors. -/
theorem div_lt_blocks {x : Nat} (hx : x < 512 * INDEX) : x / 512 < BLOCKS :=
  Nat.lt_succ_of_lt (div_lt_index hx)

namespace Written

variable {sb : SuperBlock} {D₀ D D' : Disk} {B₀ B : Bitmap} {L T : Nat → Nat}
  {j lba pos n m off : Nat} {src buf : Bytes}

theorem start (pos : Nat) (src : Bytes) : Written D₀ L D₀ L pos 0 src where
  new := fun x _ h => by omega
  old := fun _ _ _ _ => rfl

/-- The table counts for the blocks of a file only. -/
theorem congr (h : Written D₀ L D T pos n src) {T' : Nat → Nat} (hT : ∀ j < BLOCKS, T' j = T j) :
    Written D₀ L D T' pos n src where
  new := fun x hx hin => by
    rw [hT _ (div_lt_blocks hx)]
    exact h.new x hx hin
  old := fun x hx hout hne => by
    rw [hT _ (div_lt_blocks hx)]
    exact h.old x hx hout hne

/-- The disk changes outside of the blocks. -/
theorem frame (h : Written D₀ L D T pos n src) (hP : Progress sb D₀ B₀ L D B T)
    (hD : ∀ j < INDEX, T j ≠ 0 → D' (T j) = D (T j)) : Written D₀ L D' T pos n src where
  new := fun x hx hin => by
    obtain ⟨hne, heq⟩ := h.new x hx hin
    exact ⟨hne, by rw [hD _ (div_lt_index hx) hne, heq]⟩
  old := fun x hx hout hne => by
    have hT : T (x / 512) ≠ 0 := by
      rw [hP.old _ (div_lt_blocks hx) hne]
      exact hne
    rw [hD _ (div_lt_index hx) hT]
    exact h.old x hx hout hne

/-- A new block has no bytes of the file yet. -/
theorem alloc (h : Written D₀ L D T pos n src) (hold : ∀ j < BLOCKS, L j ≠ 0 → T j = L j)
    (hzero : T j = 0) :
    Written D₀ L D (Function.update T j lba) pos n src where
  new := fun x hx hin => by
    obtain ⟨hne, heq⟩ := h.new x hx hin
    have hj : x / 512 ≠ j := by
      rintro rfl
      exact hne hzero
    rw [Function.update_of_ne hj]
    exact ⟨hne, heq⟩
  old := fun x hx hout hne => by
    have hj : x / 512 ≠ j := by
      rintro rfl
      exact hne ((hold _ (div_lt_blocks hx) hne).symm.trans hzero)
    rw [Function.update_of_ne hj]
    exact h.old x hx hout hne

/-- The next `m` bytes go to the block `j`. -/
theorem write (h : Written D₀ L D T pos n src) (hP : Progress sb D₀ B₀ L D B T) (hj : j < INDEX)
    (hne : T j ≠ 0) (hplace : pos + n = 512 * j + off) (hle : off + m ≤ 512)
    (hbuf : ∀ k < 512, buf k = if off ≤ k ∧ k < off + m then src (n + (k - off)) else D (T j) k) :
    Written D₀ L (ideWrite D (T j) buf 0 1) T pos (n + m) src := by
  have hj' : j < 140 := hj
  -- A byte of another block.
  have hother : ∀ x < 512 * INDEX, x / 512 ≠ j → T (x / 512) ≠ 0 →
      ideWrite D (T j) buf 0 1 (T (x / 512)) = D (T (x / 512)) := by
    intro x hx hxj hT
    refine ideWrite_of_ne fun heq => hxj ?_
    exact hP.apart _ (div_lt_blocks hx) j (Nat.lt_trans hj (Nat.lt_succ_self _)) heq hT
  -- A byte of the block.
  have hthis : ∀ x, x / 512 = j → ideWrite D (T j) buf 0 1 (T (x / 512)) (x % 512)
      = if off ≤ x % 512 ∧ x % 512 < off + m then src (n + (x % 512 - off))
        else D (T j) (x % 512) := by
    rintro x rfl
    have hmod : x % 512 < 512 := Nat.mod_lt x (by decide)
    rw [ideWrite_one hmod, Nat.zero_add, hbuf _ hmod]
  constructor
  · intro x hx hin
    by_cases hxj : x / 512 = j
    · refine ⟨hxj ▸ hne, ?_⟩
      rw [hthis x hxj]
      by_cases hnow : off ≤ x % 512 ∧ x % 512 < off + m
      · rw [if_pos hnow]
        congr 1
        omega
      · rw [if_neg hnow, ← hxj]
        exact (h.new x hx (by omega)).2
    · obtain ⟨hT, heq⟩ := h.new x hx (by omega)
      exact ⟨hT, by rw [hother x hx hxj hT, heq]⟩
  · intro x hx hout hL
    by_cases hxj : x / 512 = j
    · rw [hthis x hxj, if_neg (by omega), ← hxj]
      exact h.old x hx (by omega) hL
    · have hT : T (x / 512) ≠ 0 := by
        rw [hP.old _ (div_lt_blocks hx) hL]
        exact hL
      rw [hother x hx hxj hT]
      exact h.old x hx (by omega) hL

end Written

end Fizzos.Proofs
