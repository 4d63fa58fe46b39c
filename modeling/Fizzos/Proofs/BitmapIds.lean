import Fizzos.Proofs.Bitmap

/-!
# `Fizzos.Proofs.BitmapIds`: a bitmap gives out each index once

`IdInvariant` is the state of a bitmap between two calls: a set bit is an outstanding index or a
bit behind the size, and the lock is free. With the lock free, `bitmap_scan_set` and
`bitmap_reset` are a search and a write of one bit (`bitmapScanSet_eq`, `bitmapReset_eq`): the
nested locks of the functions that they call are all released again.
-/

set_option autoImplicit false

namespace Fizzos.Proofs

open Fizzos.Kernel
open Fizzos.LibKernel
open Fizzos.Support

/-! ### Calls with a free lock -/

/-- `bitmap_set` inside of a call that has the lock. -/
theorem bitmapSet_held {b : Bitmap} {idx : Nat} {current : Tid}
    (hlock : b.lock = heldLock current 1) (hbit : b.bit idx = false) :
    bitmapSet b idx current = .ok (Bitmap.set b idx true) := by
  obtain ⟨addr, bytes, byteSize, lock⟩ := b
  simp only at hlock
  subst hlock
  have hzero : bytes (idx / 8) &&& (1#8 <<< (idx % 8)) = 0 :=
    (and_shift_eq_zero _ (Nat.mod_lt _ (by decide))).mpr hbit
  simp only [bitmapSet, acquire_held, ok_bind, ASSERT_true hzero, Bitmap.store, release_two]
  rfl

/-- `bitmap_scan` inside of a call that has the lock. -/
theorem bitmapScan_held {b : Bitmap} {current : Tid} (hlock : b.lock = heldLock current 1) :
    bitmapScan b current
      = match bitmapScanIndex b with
        | some idx => .ok (idx, b)
        | none => .error .panic := by
  obtain ⟨addr, bytes, byteSize, lock⟩ := b
  simp only at hlock
  subst hlock
  have hsame : bitmapScanIndex ⟨addr, bytes, byteSize, heldLock current (1 + 1)⟩
      = bitmapScanIndex ⟨addr, bytes, byteSize, heldLock current 1⟩ := rfl
  simp only [bitmapScan, acquire_held, ok_bind, hsame]
  cases bitmapScanIndex ⟨addr, bytes, byteSize, heldLock current 1⟩ with
  | some idx => simp only [release_two, ok_bind, pure_eq_ok]
  | none => simp only [release_two, ok_bind, PANIC]

/-- `bitmap_scan_set` of a bitmap with a free lock sets the least clear bit, and leaves the lock
free. -/
theorem bitmapScanSet_eq {b : Bitmap} (hlock : b.lock = mutexLockInit) (current : Tid) :
    bitmapScanSet b current
      = match bitmapScanIndex b with
        | some idx => .ok (idx, Bitmap.set b idx true)
        | none => .error .panic := by
  obtain ⟨addr, bytes, byteSize, lock⟩ := b
  simp only at hlock
  subst hlock
  have hsame : bitmapScanIndex ⟨addr, bytes, byteSize, heldLock current 1⟩
      = bitmapScanIndex ⟨addr, bytes, byteSize, mutexLockInit⟩ := rfl
  rw [bitmapScanSet, acquire_free, ok_bind, bitmapScan_held rfl, hsame]
  cases hidx : bitmapScanIndex ⟨addr, bytes, byteSize, mutexLockInit⟩ with
  | none => rfl
  | some idx =>
      have hbit : Bitmap.bit ⟨addr, bytes, byteSize, heldLock current 1⟩ idx = false :=
        (bitmapScanIndex_eq_some hidx).2.1
      simp only [ok_bind]
      rw [bitmapSet_held rfl hbit, ok_bind]
      simp only [Bitmap.set, Bitmap.store, release_one, ok_bind, pure_eq_ok]

/-- `bitmap_reset` of a set bit clears it, and leaves the lock free. -/
theorem bitmapReset_eq {b : Bitmap} {idx : Nat} (hlock : b.lock = mutexLockInit)
    (hbit : b.bit idx = true) (current : Tid) :
    bitmapReset b idx current = .ok (Bitmap.set b idx false) := by
  have hset := bitmapIsSet_eq b idx
  rw [hbit] at hset
  obtain ⟨addr, bytes, byteSize, lock⟩ := b
  simp only at hlock
  subst hlock
  have hne : bytes (idx / 8) &&& (1#8 <<< (idx % 8)) ≠ 0 := of_decide_eq_true hset
  simp only [bitmapReset, acquire_free, ok_bind, ASSERT_true hne, Bitmap.store, release_one]
  rfl

/-! ### `bitmap_init` -/

/-- The bits of the last byte that are not in use are set. -/
theorem getLsbD_bitmapLastByte_of_lt {size i : Nat} (hi : (size + 7) % 8 < i) (hlt : i < 8) :
    (bitmapLastByte size).getLsbD i = true := by
  have hall : ∀ r < 8, ∀ i < 8, r < i → (((List.range 8).foldr
      (fun i b => if i > r then b ||| (1#8 <<< i) else b) 0#8).getLsbD i) = true := by
    decide
  exact hall _ (Nat.mod_lt _ (by decide)) i hlt hi

/-- `bitmap_init` sets the bits behind the size. -/
theorem bitmapInit_padding {b b' : Bitmap} {size i : Nat} (hinit : bitmapInit b size = .ok b')
    (hlo : size ≤ i) (hhi : i < 8 * b'.byteSize) : b'.bit i = true := by
  simp only [bitmapInit, bind_eq_ok, ASSERT_eq_ok, pure_eq_ok, Except.ok.injEq] at hinit
  obtain ⟨_, hsize, rfl⟩ := hinit
  have hdiv : DIV_ROUND_UP size 8 = (size + 7) / 8 := rfl
  simp only [hdiv] at hhi
  have hlast : i / 8 = DIV_ROUND_UP size 8 - 1 := by omega
  simp only [Bitmap.bit]
  rw [if_neg (by omega), if_pos hlast]
  exact getLsbD_bitmapLastByte_of_lt (by omega) (Nat.mod_lt _ (by decide))

/-! ### Runs -/

/-- A bitmap between two calls. -/
structure IdInvariant (size : Nat) (s : IdState) : Prop where
  lock : s.bmap.lock = mutexLockInit
  byteSize : s.bmap.byteSize = DIV_ROUND_UP size 8
  padding : ∀ i, size ≤ i → i < 8 * s.bmap.byteSize → s.bmap.bit i = true
  bits : ∀ i < size, s.bmap.bit i = true ↔ i ∈ s.outstanding
  range : ∀ i ∈ s.outstanding, i < size
  nodup : s.outstanding.Nodup

namespace IdInvariant

variable {size : Nat} {s s' : IdState}

theorem init (hinit : (idSystem size).init s) (hsize : 0 < size) : IdInvariant size s := by
  obtain ⟨⟨b, hb⟩, hnone⟩ := hinit
  obtain ⟨b', hb', -, hlock, hbyte, hclear⟩ := bitmapInit_spec b hsize
  obtain rfl : b' = s.bmap := Except.ok.inj (hb'.symm.trans hb)
  exact
    { lock := hlock
      byteSize := hbyte
      padding := fun i => bitmapInit_padding hb
      bits := fun i hi => by simp [hclear i hi, hnone]
      range := fun i hi => by simp [hnone] at hi
      nodup := by simp [hnone] }

/-- `bitmap_scan_set` finds the least index that is not outstanding. -/
theorem scanIndex (h : IdInvariant size s) {idx : Nat} (hidx : bitmapScanIndex s.bmap = some idx) :
    idx < size ∧ idx ∉ s.outstanding ∧ ∀ j < idx, j ∈ s.outstanding := by
  obtain ⟨hlt, hclear, hbelow⟩ := bitmapScanIndex_eq_some hidx
  have hsize : idx < size := by
    by_contra hge
    rw [h.padding idx (by omega) hlt] at hclear
    cases hclear
  refine ⟨hsize, fun hmem => ?_, fun j hj => (h.bits j (by omega)).mp (hbelow j hj)⟩
  rw [(h.bits idx hsize).mpr hmem] at hclear
  cases hclear

/-- It gives up only when all indices are outstanding. -/
theorem scanIndex_none (h : IdInvariant size s) (hnone : bitmapScanIndex s.bmap = none) :
    ∀ i < size, i ∈ s.outstanding := by
  intro i hi
  have hdiv : DIV_ROUND_UP size 8 = (size + 7) / 8 := rfl
  have hbyte := h.byteSize
  exact (h.bits i hi).mp (bitmapScanIndex_eq_none hnone i (by omega))

/-- An index goes out. -/
theorem set (h : IdInvariant size s) {idx : Nat} (hlt : idx < size) (hnot : idx ∉ s.outstanding) :
    IdInvariant size ⟨Bitmap.set s.bmap idx true, idx :: s.outstanding⟩ where
  lock := h.lock
  byteSize := h.byteSize
  padding i hi hhi := by
    rw [Bitmap.bit_set, if_neg (by omega)]
    exact h.padding i hi hhi
  bits i hi := by
    rw [Bitmap.bit_set]
    by_cases heq : i = idx <;> simp [heq, h.bits i hi]
  range i hi := by
    rcases List.mem_cons.mp hi with rfl | hi
    · exact hlt
    · exact h.range i hi
  nodup := List.nodup_cons.mpr ⟨hnot, h.nodup⟩

/-- An index comes back. -/
theorem reset (h : IdInvariant size s) {idx : Nat} (hmem : idx ∈ s.outstanding) :
    IdInvariant size ⟨Bitmap.set s.bmap idx false, s.outstanding.erase idx⟩ where
  lock := h.lock
  byteSize := h.byteSize
  padding i hi hhi := by
    have hlt := h.range idx hmem
    rw [Bitmap.bit_set, if_neg (by omega)]
    exact h.padding i hi hhi
  bits i hi := by
    rw [Bitmap.bit_set, h.nodup.mem_erase_iff]
    by_cases heq : i = idx <;> simp [heq, h.bits i hi]
  range i hi := h.range i (List.mem_of_mem_erase hi)
  nodup := h.nodup.erase idx

/-- Every call keeps the invariant. -/
theorem next (h : IdInvariant size s) {a : IdAct} (henabled : s.Enabled a)
    (hnext : s.next a = .ok s') : IdInvariant size s' := by
  cases a with
  | scanSet current =>
      simp only [IdState.next, bitmapScanSet_eq h.lock] at hnext
      cases hidx : bitmapScanIndex s.bmap with
      | none =>
          rw [hidx] at hnext
          cases hnext
      | some idx =>
          rw [hidx] at hnext
          cases hnext
          obtain ⟨hlt, hnot, -⟩ := h.scanIndex hidx
          exact h.set hlt hnot
  | reset idx current =>
      have hbit := (h.bits idx (h.range idx henabled)).mpr henabled
      simp only [IdState.next, bitmapReset_eq h.lock hbit, ok_bind] at hnext
      cases hnext
      exact h.reset henabled

end IdInvariant

theorem idSystem_inductive {size : Nat} (hsize : 0 < size) :
    (idSystem size).Inductive (IdInvariant size) where
  init hinit := IdInvariant.init hinit hsize
  step h henabled hnext := h.next henabled hnext

/-- A bitmap gives out indices, for every size and every run. `bitmap_is_set` tells the
outstanding indices, and the lock is as free as `bitmap_init` left it. `bitmap_scan_set` returns
the least index that is not outstanding and changes no other bit. It reaches its `PANIC` only
when all indices are outstanding, and an outstanding index can be given back. -/
theorem idSystem_allocates {size : Nat} (hsize : 1 ≤ size) {s : IdState}
    (hs : (idSystem size).Reachable s) :
    (∀ i < size, bitmapIsSet s.bmap i = true ↔ i ∈ s.outstanding) ∧
    s.bmap.lock = mutexLockInit ∧
    (∀ current idx bmap, bitmapScanSet s.bmap current = .ok (idx, bmap) →
      idx < size ∧ idx ∉ s.outstanding ∧ (∀ j < idx, j ∈ s.outstanding) ∧
      ∀ i, bmap.bit i = if i = idx then true else s.bmap.bit i) ∧
    (∀ current e, bitmapScanSet s.bmap current = .error e →
      e = .panic ∧ ∀ i < size, i ∈ s.outstanding) ∧
    ∀ current, ∀ idx ∈ s.outstanding, ∃ bmap, bitmapReset s.bmap idx current = .ok bmap ∧
      ∀ i, bmap.bit i = if i = idx then false else s.bmap.bit i := by
  have h := (idSystem_inductive hsize).reachable hs
  refine ⟨fun i hi => ?_, h.lock, fun current idx bmap hok => ?_, fun current e herror => ?_,
    fun current idx hmem => ?_⟩
  · rw [bitmapIsSet_eq]
    exact h.bits i hi
  · rw [bitmapScanSet_eq h.lock] at hok
    -- The scan and the set are one step, with the lock taken.
    cases hidx : bitmapScanIndex s.bmap with
    | none =>
        rw [hidx] at hok
        cases hok
    | some i =>
        rw [hidx] at hok
        obtain ⟨rfl, rfl⟩ := Prod.mk.inj (Except.ok.inj hok)
        obtain ⟨hlt, hnot, hbelow⟩ := h.scanIndex hidx
        exact ⟨hlt, hnot, hbelow, fun j => Bitmap.bit_set _ _ _ j⟩
  · rw [bitmapScanSet_eq h.lock] at herror
    cases hidx : bitmapScanIndex s.bmap with
    | none =>
        rw [hidx] at herror
        exact ⟨(Except.error.inj herror).symm, h.scanIndex_none hidx⟩
    | some i =>
        rw [hidx] at herror
        cases herror
  · have hbit := (h.bits idx (h.range idx hmem)).mpr hmem
    exact ⟨_, bitmapReset_eq h.lock hbit current, fun i => Bitmap.bit_set _ _ _ i⟩

/-- A bitmap with 11 bits gives out the index 0 first. -/
theorem idSystem_allocates_11 : ∃ s, (idSystem 11).Reachable s ∧ s.outstanding = [0] ∧
    ∀ i < 11, bitmapIsSet s.bmap i = true ↔ i ∈ [0] := by
  obtain ⟨b, hb, -⟩ := bitmapInit_spec ⟨0, fun _ => 0xff#8, 0, mutexLockInit⟩
    (show 0 < 11 by decide)
  have hinit : (idSystem 11).init ⟨b, []⟩ := ⟨⟨_, hb⟩, rfl⟩
  have h := IdInvariant.init hinit (by decide)
  cases hidx : bitmapScanIndex b with
  | none => exact absurd (h.scanIndex_none hidx 0 (by decide)) (by simp)
  | some idx =>
      obtain ⟨-, -, hbelow⟩ := h.scanIndex hidx
      have hzero : idx = 0 := by
        by_contra hne
        exact absurd (hbelow 0 (by omega)) (by simp)
      subst hzero
      have hnext : (idSystem 11).next ⟨b, []⟩ (.scanSet 0) = .ok ⟨Bitmap.set b 0 true, [0]⟩ := by
        have hlock : b.lock = mutexLockInit := h.lock
        simp only [idSystem, IdState.next, bitmapScanSet_eq hlock, hidx]
        rfl
      have henabled : (idSystem 11).enabled ⟨b, []⟩ (.scanSet 0) := trivial
      have hs := System.Reachable.step (.init hinit) henabled hnext
      exact ⟨_, hs, rfl, (idSystem_allocates (by decide) hs).1⟩

end Fizzos.Proofs
