import Fizzos.LibKernel.Bitmap

/-!
# `Fizzos.Proofs.Bitmap`: the bitmap as a set of indices

The proofs below talk about `Bitmap.bit`, and `Bitmap.set` is the write of one bit. Every
bitmap function that returns is a `Bitmap.set` or leaves the bits alone, whatever state the
lock is in (`bitmapSet_ok`, `bitmapReset_ok`, `bitmapScanSet_ok`). With a free lock the calls
do return, and they leave the lock free (`bitmapReverse_eq`).

`bitmapScanIndex_eq_some` and `bitmapScanIndex_eq_none` say that the word loop and the rest
loop of `bitmap_scan` together find the least clear index.
-/

set_option autoImplicit false

namespace Fizzos.Proofs

open Fizzos.Kernel
open Fizzos.LibKernel

/-! ### Bits of bytes and words -/

/-- A mask test reads one bit. -/
theorem and_shift_eq_zero {w : Nat} (b : BitVec w) {i : Nat} (hi : i < w) :
    b &&& (1#w <<< i) = 0#w ↔ b.getLsbD i = false := by
  rw [← BitVec.twoPow_eq, BitVec.and_twoPow]
  cases hb : b.getLsbD i with
  | false => simp
  | true =>
      simp only [if_true, Bool.true_eq_false, iff_false]
      intro h
      have hbit := congrArg (fun v => v.getLsbD i) h
      simp [hi] at hbit

/-- `bitmap_is_set` reads the bit. -/
theorem bitmapIsSet_eq (b : Bitmap) (idx : Nat) : bitmapIsSet b idx = b.bit idx := by
  unfold bitmapIsSet Bitmap.bit
  have h := and_shift_eq_zero (b.bytes (idx / 8)) (i := idx % 8) (by omega)
  cases hb : (b.bytes (idx / 8)).getLsbD (idx % 8) with
  | false => simpa using h.mpr hb
  | true =>
      rw [decide_eq_true_iff]
      intro hzero
      rw [h.mp hzero] at hb
      cases hb

namespace Bitmap

/-- The bitmap with bit `idx` written to `v`. -/
def set (b : Bitmap) (idx : Nat) (v : Bool) : Bitmap :=
  b.store (idx / 8)
    (if v then b.bytes (idx / 8) ||| (1#8 <<< (idx % 8))
      else b.bytes (idx / 8) &&& ~~~(1#8 <<< (idx % 8)))

/-- A write changes its own bit and no other. -/
theorem bit_set (b : Bitmap) (idx : Nat) (v : Bool) (i : Nat) :
    (set b idx v).bit i = if i = idx then v else b.bit i := by
  simp only [set, Bitmap.store, Bitmap.bit]
  by_cases hbyte : i / 8 = idx / 8
  · rw [hbyte, Function.update_self]
    have hi : i % 8 < 8 := Nat.mod_lt _ (by decide)
    have hidx : idx % 8 < 8 := Nat.mod_lt _ (by decide)
    have hsame : idx % 8 = i % 8 ↔ i = idx := by omega
    cases v with
    | false =>
        by_cases heq : i = idx
        · simp [← BitVec.twoPow_eq, heq, hidx]
        · have hne : ¬i % 8 = idx % 8 := fun h => heq (hsame.mp h.symm)
          simp [← BitVec.twoPow_eq, heq, hi, hne]
    | true =>
        by_cases heq : i = idx
        · simp [← BitVec.twoPow_eq, heq, hidx]
        · simp [← BitVec.twoPow_eq, BitVec.getLsbD_twoPow, hsame, heq]
  · rw [Function.update_of_ne hbyte, if_neg]
    intro heq
    exact hbyte (by rw [heq])

/-- The bits determine the bytes. -/
theorem bytes_eq_of_bit {b b' : Bitmap} (h : ∀ i, b.bit i = b'.bit i) : b.bytes = b'.bytes := by
  funext k
  apply BitVec.eq_of_getLsbD_eq
  intro j hj
  have hbit := h (8 * k + j)
  have hdiv : (8 * k + j) / 8 = k := by omega
  have hmod : (8 * k + j) % 8 = j := by omega
  rwa [Bitmap.bit, Bitmap.bit, hdiv, hmod] at hbit

/-- A clear bit that is set and cleared again. -/
theorem set_set {b : Bitmap} {idx : Nat} (h : b.bit idx = false) :
    set (set b idx true) idx false = b := by
  have hbytes : (set (set b idx true) idx false).bytes = b.bytes := by
    refine bytes_eq_of_bit fun i => ?_
    rw [bit_set, bit_set]
    by_cases hi : i = idx <;> simp [hi, h]
  calc set (set b idx true) idx false
      = { b with bytes := (set (set b idx true) idx false).bytes } := rfl
    _ = b := by rw [hbytes]

@[simp] theorem set_byteSize (b : Bitmap) (idx : Nat) (v : Bool) :
    (set b idx v).byteSize = b.byteSize := rfl

@[simp] theorem set_lock (b : Bitmap) (idx : Nat) (v : Bool) :
    (set b idx v).lock = b.lock := rfl

@[simp] theorem set_addr (b : Bitmap) (idx : Nat) (v : Bool) :
    (set b idx v).addr = b.addr := rfl

/-- Bit `i % 32` of word `i / 32` is bit `i`. -/
theorem getLsbD_word (b : Bitmap) (k : Nat) {i : Nat} (hi : i < 32) :
    (b.word k).getLsbD i = b.bit (32 * k + i) := by
  unfold Bitmap.word Bitmap.bit
  simp only [BitVec.getLsbD_append]
  rcases (by omega : i < 8 ∨ (8 ≤ i ∧ i < 16) ∨ (16 ≤ i ∧ i < 24) ∨ 24 ≤ i) with h | h | h | h
  · rw [if_pos h, show (32 * k + i) / 8 = 4 * k by omega, show (32 * k + i) % 8 = i by omega]
  · rw [if_neg (by omega), if_pos (by omega), show (32 * k + i) / 8 = 4 * k + 1 by omega,
      show (32 * k + i) % 8 = i - 8 by omega]
  · rw [if_neg (by omega), if_neg (by omega), if_pos (by omega),
      show (32 * k + i) / 8 = 4 * k + 2 by omega, show (32 * k + i) % 8 = i - 8 - 8 by omega]
  · rw [if_neg (by omega), if_neg (by omega), if_neg (by omega),
      show (32 * k + i) / 8 = 4 * k + 3 by omega,
      show (32 * k + i) % 8 = i - 8 - 8 - 8 by omega]

end Bitmap

/-! ### The lock of the bitmap -/

/-- The mutex when the thread `current` holds it `n` times and nobody waits. -/
def heldLock (current : Tid) (n : UInt32) : MutexLock :=
  { isLock := true, waitList := [], holder := some current, «repeat» := n }

@[simp] theorem mutexAcquire_init (current : Tid) :
    mutexAcquire mutexLockInit current = .ok (heldLock current 1) := rfl

@[simp] theorem mutexAcquire_held (current : Tid) (n : UInt32) :
    mutexAcquire (heldLock current n) current = .ok (heldLock current (n + 1)) := by
  simp [mutexAcquire, heldLock]

@[simp] theorem mutexRelease_one (current : Tid) :
    mutexRelease (heldLock current 1) current = .ok (mutexLockInit, none) := by
  simp [mutexRelease, heldLock, mutexUnlock, mutexLockInit]

@[simp] theorem mutexRelease_two (current : Tid) :
    mutexRelease (heldLock current (1 + 1)) current = .ok (heldLock current 1, none) := by
  simp [mutexRelease, heldLock]

/-- A free lock is taken once. -/
theorem acquire_free (addr : Nat) (bytes : Nat → BitVec 8) (byteSize : Nat) (current : Tid) :
    Bitmap.acquire ⟨addr, bytes, byteSize, mutexLockInit⟩ current
      = .ok ⟨addr, bytes, byteSize, heldLock current 1⟩ := rfl

/-- A bitmap that is locked by the caller is locked once more. -/
theorem acquire_held (addr : Nat) (bytes : Nat → BitVec 8) (byteSize : Nat) (current : Tid)
    (n : UInt32) :
    Bitmap.acquire ⟨addr, bytes, byteSize, heldLock current n⟩ current
      = .ok ⟨addr, bytes, byteSize, heldLock current (n + 1)⟩ := by
  simp [Bitmap.acquire]

/-- It is unlocked once, and is still locked. -/
theorem release_two (addr : Nat) (bytes : Nat → BitVec 8) (byteSize : Nat) (current : Tid) :
    Bitmap.release ⟨addr, bytes, byteSize, heldLock current (1 + 1)⟩ current
      = .ok ⟨addr, bytes, byteSize, heldLock current 1⟩ := by
  simp only [Bitmap.release, mutexRelease_two, ok_bind, pure_eq_ok]

/-- Unlocked once more, it is free. -/
theorem release_one (addr : Nat) (bytes : Nat → BitVec 8) (byteSize : Nat) (current : Tid) :
    Bitmap.release ⟨addr, bytes, byteSize, heldLock current 1⟩ current
      = .ok ⟨addr, bytes, byteSize, mutexLockInit⟩ := by
  simp [Bitmap.release]

/-- Locking changes the lock only. -/
theorem acquire_ok {b b' : Bitmap} {current : Tid} (h : b.acquire current = .ok b') :
    ∃ lock, b' = { b with lock } := by
  simp only [Bitmap.acquire, bind_eq_ok] at h
  obtain ⟨lock, _, h⟩ := h
  cases h
  exact ⟨lock, rfl⟩

/-- Unlocking changes the lock only. -/
theorem release_ok {b b' : Bitmap} {current : Tid} (h : b.release current = .ok b') :
    ∃ lock, b' = { b with lock } := by
  simp only [Bitmap.release, bind_eq_ok] at h
  obtain ⟨⟨lock, _⟩, _, h⟩ := h
  cases h
  exact ⟨lock, rfl⟩

/-! ### What a call that returns has done -/

/-- `bitmap_set` that returns found the bit clear and has set it. -/
theorem bitmapSet_ok {b b' : Bitmap} {idx : Nat} {current : Tid}
    (h : bitmapSet b idx current = .ok b') :
    b.bit idx = false ∧ ∃ lock, b' = { Bitmap.set b idx true with lock } := by
  simp only [bitmapSet, bind_eq_ok, ASSERT_eq_ok] at h
  obtain ⟨b₁, hacq, _, hclear, hrel⟩ := h
  obtain ⟨lock₁, rfl⟩ := acquire_ok hacq
  obtain ⟨lock₂, rfl⟩ := release_ok hrel
  refine ⟨(and_shift_eq_zero _ (Nat.mod_lt _ (by decide))).mp hclear, lock₂, ?_⟩
  simp [Bitmap.set, Bitmap.store]

/-- The bits of the last byte that are in use are clear. -/
theorem getLsbD_bitmapLastByte {size i : Nat} (hi : i ≤ (size + 7) % 8) :
    (bitmapLastByte size).getLsbD i = false := by
  have hall : ∀ r < 8, ∀ i ≤ r, (((List.range 8).foldr
      (fun i b => if i > r then b ||| (1#8 <<< i) else b) 0#8).getLsbD i) = false := by
    decide
  exact hall _ (Nat.mod_lt _ (by decide)) i hi

/-- `bitmap_init` clears the bits of the indices below the size and frees the lock. -/
theorem bitmapInit_spec (b : Bitmap) {size : Nat} (hsize : 0 < size) :
    ∃ b', bitmapInit b size = .ok b' ∧ b'.addr = b.addr ∧ b'.lock = mutexLockInit ∧
      b'.byteSize = DIV_ROUND_UP size 8 ∧ ∀ i < size, b'.bit i = false := by
  simp only [bitmapInit, ASSERT_true hsize, ok_bind, pure_eq_ok]
  refine ⟨_, rfl, rfl, rfl, rfl, fun i hi => ?_⟩
  have hdiv : DIV_ROUND_UP size 8 = (size + 7) / 8 := rfl
  simp only [Bitmap.bit]
  by_cases hlast : i / 8 < DIV_ROUND_UP size 8 - 1
  · simp [hlast]
  · have heq : i / 8 = DIV_ROUND_UP size 8 - 1 := by omega
    rw [if_neg hlast, if_pos heq]
    exact getLsbD_bitmapLastByte (by omega)

/-- `bitmap_reverse` of a bitmap with a free lock flips the bit, returns its new value, and
leaves the lock free. -/
theorem bitmapReverse_eq {b : Bitmap} (hlock : b.lock = mutexLockInit) (idx : Nat)
    (current : Tid) :
    bitmapReverse b idx current
      = .ok (if b.bit idx then 0 else 1, Bitmap.set b idx (!b.bit idx)) := by
  have hbit := bitmapIsSet_eq b idx
  have hmask := and_shift_eq_zero (b.bytes (idx / 8)) (i := idx % 8) (Nat.mod_lt _ (by decide))
  obtain ⟨addr, bytes, byteSize, lock⟩ := b
  simp only at hlock
  subst hlock
  -- The lock is taken a second time by `bitmap_set` or `bitmap_reset`, and given back twice.
  cases hb : Bitmap.bit ⟨addr, bytes, byteSize, mutexLockInit⟩ idx with
  | true =>
      have hset : bitmapIsSet ⟨addr, bytes, byteSize, heldLock current 1⟩ idx = true :=
        hbit.trans hb
      have hne : bytes (idx / 8) &&& (1#8 <<< (idx % 8)) ≠ 0 := by
        intro hzero
        have := hmask.mp hzero
        rw [show (bytes (idx / 8)).getLsbD (idx % 8) = true from hb] at this
        cases this
      simp only [bitmapReverse, acquire_free, ok_bind, hset, if_true, bitmapReset,
        acquire_held, pure_eq_ok, ASSERT_true hne, Bitmap.store, release_two, release_one]
      rfl
  | false =>
      have hset : bitmapIsSet ⟨addr, bytes, byteSize, heldLock current 1⟩ idx = false :=
        hbit.trans hb
      have hzero : bytes (idx / 8) &&& (1#8 <<< (idx % 8)) = 0 := hmask.mpr hb
      simp only [bitmapReverse, acquire_free, ok_bind, hset, Bool.false_eq_true, if_false,
        bitmapSet, acquire_held, pure_eq_ok, ASSERT_true hzero, Bitmap.store, release_two,
        release_one]
      rfl

/-! ### The scan -/

/-- The bits of a word below its first clear bit are set. -/
theorem findClear_eq_some {w : BitVec 32} {n i : Nat} (hn : n ≤ 32)
    (h : findClear w n = some i) :
    i < n ∧ w.getLsbD i = false ∧ ∀ j, j < i → w.getLsbD j = true := by
  simp only [findClear, List.find?_range_eq_some, decide_eq_true_eq, List.mem_range,
    Bool.not_eq_true', decide_eq_false_iff_not] at h
  obtain ⟨hclear, hi, hbelow⟩ := h
  refine ⟨hi, (and_shift_eq_zero w (by omega)).mp hclear, ?_⟩
  intro j hj
  have hset := mt (and_shift_eq_zero w (by omega)).mpr (hbelow j hj)
  simpa using hset

/-- Without a clear bit all the bits are set. -/
theorem findClear_eq_none {w : BitVec 32} {n : Nat} (hn : n ≤ 32)
    (h : findClear w n = none) : ∀ j, j < n → w.getLsbD j = true := by
  simp only [findClear, List.find?_range_eq_none, Bool.not_eq_true',
    decide_eq_false_iff_not] at h
  intro j hj
  have hset := mt (and_shift_eq_zero w (by omega)).mpr (h j hj)
  simpa using hset

/-- A search over a range returns the value at the least index that has one. -/
theorem findSome?_range {β : Type} {f : Nat → Option β} {n : Nat} {y : β}
    (h : (List.range n).findSome? f = some y) :
    ∃ k, k < n ∧ f k = some y ∧ ∀ j, j < k → f j = none := by
  induction n with
  | zero => simp at h
  | succ n ih =>
      rw [List.range_succ, List.findSome?_append, Option.or_eq_some_iff] at h
      rcases h with h | ⟨hnone, h⟩
      · obtain ⟨k, hk, hfk, hbelow⟩ := ih h
        exact ⟨k, by omega, hfk, hbelow⟩
      · refine ⟨n, by omega, by simpa using h, ?_⟩
        intro j hj
        exact List.findSome?_eq_none_iff.mp hnone j (List.mem_range.mpr hj)

/-- A word in which the first loop of `bitmap_scan` finds nothing has all bits set. -/
private theorem word_full {b : Bitmap} {k : Nat}
    (h : (if b.word k ≠ BitVec.allOnes 32 then
        (findClear (b.word k) 32).map (k * 32 + ·) else none) = none) :
    ∀ i, i < 32 → b.bit (32 * k + i) = true := by
  intro i hi
  rw [← Bitmap.getLsbD_word b k hi]
  by_cases hall : b.word k = BitVec.allOnes 32
  · rw [hall, BitVec.getLsbD_allOnes]
    exact decide_eq_true hi
  · rw [if_pos hall, Option.map_eq_none_iff] at h
    exact findClear_eq_none (Nat.le_refl 32) h i hi

/-- When the first loop of `bitmap_scan` ends, all whole words are full. -/
private theorem words_full {b : Bitmap} {n : Nat}
    (h : ∀ k, k < n → (if b.word k ≠ BitVec.allOnes 32 then
        (findClear (b.word k) 32).map (k * 32 + ·) else none) = none) :
    ∀ i, i < 32 * n → b.bit i = true := by
  intro i hi
  have hfull := word_full (h (i / 32) (by omega)) (i % 32) (by omega)
  rwa [show 32 * (i / 32) + i % 32 = i by omega] at hfull

/-- The index that `bitmap_scan` returns is inside the bitmap, clear, and the least such. -/
theorem bitmapScanIndex_eq_some {b : Bitmap} {i : Nat} (h : bitmapScanIndex b = some i) :
    i < 8 * b.byteSize ∧ b.bit i = false ∧ ∀ j, j < i → b.bit j = true := by
  unfold bitmapScanIndex at h
  rw [Option.or_eq_some_iff] at h
  -- A whole word with a clear bit, or the bits of the tail word below the end.
  rcases h with h | ⟨hnone, h⟩
  · obtain ⟨k, hk, hfk, hbelow⟩ := findSome?_range h
    by_cases hall : b.word k ≠ BitVec.allOnes 32
    · rw [if_pos hall, Option.map_eq_some_iff] at hfk
      obtain ⟨r, hr, rfl⟩ := hfk
      obtain ⟨hr32, hclear, hset⟩ := findClear_eq_some (Nat.le_refl 32) hr
      rw [show k * 32 + r = 32 * k + r by omega]
      refine ⟨by omega, ?_, ?_⟩
      · rw [← Bitmap.getLsbD_word b k hr32]
        exact hclear
      · intro j hj
        by_cases hjk : j < 32 * k
        · exact words_full hbelow j hjk
        · have hjr := hset (j - 32 * k) (by omega)
          rw [Bitmap.getLsbD_word b k (by omega)] at hjr
          rwa [show 32 * k + (j - 32 * k) = j by omega] at hjr
    · rw [if_neg hall] at hfk
      cases hfk
  · have hwords : ∀ k, k < b.byteSize / 4 → _ := fun k hk =>
      List.findSome?_eq_none_iff.mp hnone k (List.mem_range.mpr hk)
    rw [Option.map_eq_some_iff] at h
    obtain ⟨r, hr, rfl⟩ := h
    obtain ⟨hrn, hclear, hset⟩ := findClear_eq_some (by omega) hr
    have hr32 : r < 32 := by omega
    rw [show b.byteSize / 4 * 32 + r = 32 * (b.byteSize / 4) + r by omega]
    refine ⟨by omega, ?_, ?_⟩
    · rw [← Bitmap.getLsbD_word b _ hr32]
      exact hclear
    · intro j hj
      by_cases hjk : j < 32 * (b.byteSize / 4)
      · exact words_full hwords j hjk
      · have hjr := hset (j - 32 * (b.byteSize / 4)) (by omega)
        rw [Bitmap.getLsbD_word b _ (by omega)] at hjr
        rwa [show 32 * (b.byteSize / 4) + (j - 32 * (b.byteSize / 4)) = j by omega] at hjr

/-- `bitmap_scan` gives up only when every bit inside the bitmap is set. -/
theorem bitmapScanIndex_eq_none {b : Bitmap} (h : bitmapScanIndex b = none) :
    ∀ i, i < 8 * b.byteSize → b.bit i = true := by
  unfold bitmapScanIndex at h
  rw [Option.or_eq_none_iff, Option.map_eq_none_iff] at h
  obtain ⟨hnone, hrest⟩ := h
  have hwords : ∀ k, k < b.byteSize / 4 → _ := fun k hk =>
    List.findSome?_eq_none_iff.mp hnone k (List.mem_range.mpr hk)
  intro i hi
  by_cases hik : i < 32 * (b.byteSize / 4)
  · exact words_full hwords i hik
  · have hfull := findClear_eq_none (by omega) hrest (i - 32 * (b.byteSize / 4)) (by omega)
    rw [Bitmap.getLsbD_word b _ (by omega)] at hfull
    rwa [show 32 * (b.byteSize / 4) + (i - 32 * (b.byteSize / 4)) = i by omega] at hfull

/-- `bitmap_scan` that returns changed the lock only. -/
theorem bitmapScan_ok {b b' : Bitmap} {current : Tid} {idx : Nat}
    (h : bitmapScan b current = .ok (idx, b')) :
    bitmapScanIndex b = some idx ∧ ∃ lock, b' = { b with lock } := by
  simp only [bitmapScan, bind_eq_ok] at h
  obtain ⟨b₁, hacq, h⟩ := h
  obtain ⟨lock₁, rfl⟩ := acquire_ok hacq
  have hsame : bitmapScanIndex { b with lock := lock₁ } = bitmapScanIndex b := rfl
  rw [hsame] at h
  cases hidx : bitmapScanIndex b with
  | none =>
      rw [hidx] at h
      simp only [bind_eq_ok] at h
      obtain ⟨_, _, h⟩ := h
      cases h
  | some i =>
      rw [hidx] at h
      simp only [bind_eq_ok] at h
      obtain ⟨b₂, hrel, h⟩ := h
      obtain ⟨lock₂, rfl⟩ := release_ok hrel
      cases h
      exact ⟨rfl, lock₂, rfl⟩

/-- `bitmap_scan_set` that returns gives the least clear index and has set it. -/
theorem bitmapScanSet_ok {b b' : Bitmap} {current : Tid} {idx : Nat}
    (h : bitmapScanSet b current = .ok (idx, b')) :
    idx < 8 * b.byteSize ∧ b.bit idx = false ∧ (∀ j, j < idx → b.bit j = true) ∧
      ∃ lock, b' = { Bitmap.set b idx true with lock } := by
  simp only [bitmapScanSet, bind_eq_ok] at h
  obtain ⟨b₁, hacq, ⟨i, b₂⟩, hscan, b₃, hset, b₄, hrel, h⟩ := h
  obtain ⟨lock₁, rfl⟩ := acquire_ok hacq
  obtain ⟨hidx, lock₂, rfl⟩ := bitmapScan_ok hscan
  obtain ⟨_, lock₃, rfl⟩ := bitmapSet_ok hset
  obtain ⟨lock₄, rfl⟩ := release_ok hrel
  cases h
  obtain ⟨hlt, hclear, hbelow⟩ := bitmapScanIndex_eq_some hidx
  exact ⟨hlt, hclear, hbelow, lock₄, rfl⟩

end Fizzos.Proofs
