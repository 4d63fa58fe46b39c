import Fizzos.LibKernel.BitmapSeries
import Fizzos.Proofs.Bitmap
import Fizzos.Support.RunSearch

/-!
# `Fizzos.Proofs.BitmapSeries`: the search for a run of clear bits

The loops of `bitmap_scan_series` search for the first run of clear bits in the order in which they
read the bits (`readOrder`, `seriesLoops_eq`). Each run of neighbours inside the bitmap is in this
order (`FreeRun.in_readOrder`), so none is missed. But there are others: a word that is full is left
out, so the bits in front of it and behind it come together; and the word behind the last whole one
is read to its end, and then again.

With one bit to find, the function forgets to release the lock.
-/

set_option autoImplicit false

namespace Fizzos.Proofs

open Fizzos.Kernel
open Fizzos.LibKernel
open Fizzos.Support

/-- The word of bit `i` has a clear bit. -/
def notFull (b : Bitmap) (i : Nat) : Bool := decide (b.word (i / 32) ≠ BitVec.allOnes 32)

/-- The indices of the bits that the loops read, in this order. -/
def readOrder (b : Bitmap) : List Nat :=
  (List.range (32 * (b.byteSize / 4))).filter (notFull b) ++
    (List.replicate (b.byteSize % 4 * 8) (List.range' (32 * (b.byteSize / 4)) 32)).flatten

/-- One turn, for the bit at an index. -/
def seriesStep (b : Bitmap) (cnt : Nat) : Nat → Nat → Except Int Nat :=
  runStep (fun i => !b.bit i) cnt fun i => wrap32 (i - cnt + 1)

/-! ### The loops -/

section
variable {b : Bitmap} {cnt : Nat}

theorem seriesBit_eq (k count : Nat) {i : Nat} (hi : i < 32) :
    seriesBit (b.word k) k cnt count i = seriesStep b cnt count (32 * k + i) := by
  have hbit := and_shift_eq_zero (b.word k) hi
  rw [Bitmap.getLsbD_word b k hi] at hbit
  have hindex : ((k * 32 + i - cnt + 1 : Int)) = ((32 * k + i : Nat) : Int) - cnt + 1 := by omega
  rw [seriesBit, seriesStep, runStep, hindex]
  cases hclear : b.bit (32 * k + i) with
  | false => exact (if_pos (hbit.mpr hclear)).trans (if_pos rfl).symm
  | true =>
      have hset : ¬b.word k &&& (1#32 <<< i) = 0 := fun hzero => by
        rw [hbit.mp hzero] at hclear
        cases hclear
      exact (if_neg hset).trans (if_neg (by decide)).symm

/-- The indices below `n`, and the next `m`. -/
theorem range_add_range' (n m : Nat) : List.range (n + m) = List.range n ++ List.range' n m := by
  rw [List.range_eq_range', List.range_eq_range']
  simpa using (List.range'_append_1 (s := 0) (m := n) (n := m)).symm

/-- Two folds are equal when their turns are. -/
theorem foldlM_range_congr {ε : Type} {f g : Nat → Nat → Except ε Nat} {n : Nat}
    (h : ∀ count, ∀ i < n, f count i = g count i) (count : Nat) :
    (List.range n).foldlM f count = (List.range n).foldlM g count := by
  induction n with
  | zero => rfl
  | succ n ih =>
      rw [List.range_succ, List.foldlM_append, List.foldlM_append,
        ih fun count i hi => h count i (Nat.lt_succ_of_lt hi)]
      refine bind_congr fun count' => ?_
      rw [List.foldlM_cons, List.foldlM_cons, h count' n (Nat.lt_succ_self n)]
      rfl

theorem seriesWord_eq (k count : Nat) : seriesWord (b.word k) k cnt count
    = (List.range' (32 * k) 32).foldlM (seriesStep b cnt) count := by
  rw [List.range'_eq_map_range, List.foldlM_map]
  exact foldlM_range_congr (fun count i hi => seriesBit_eq k count hi) count

/-- The words that are read, up to `w` words. -/
theorem seriesWords_range (w : Nat) :
    (List.range w).foldlM
      (fun count idx =>
        if b.word idx ≠ BitVec.allOnes 32 then seriesWord (b.word idx) idx cnt count else .ok count)
      cnt
      = ((List.range (32 * w)).filter (notFull b)).foldlM (seriesStep b cnt) cnt := by
  induction w with
  | zero => rfl
  | succ w ih =>
      have hsplit : List.range (32 * (w + 1)) = List.range (32 * w) ++ List.range' (32 * w) 32 :=
        range_add_range' (32 * w) 32
      have hword : ∀ i ∈ List.range' (32 * w) 32, i / 32 = w := by
        intro i hi
        have hi' := List.mem_range'_1.mp hi
        omega
      rw [List.range_succ, List.foldlM_append, ih, hsplit, List.filter_append, List.foldlM_append]
      refine bind_congr fun count => ?_
      rw [List.foldlM_cons]
      -- A full word has none of its 32 bits on the list, and another word has all of them.
      by_cases hfull : b.word w = BitVec.allOnes 32
      · have hnone : (List.range' (32 * w) 32).filter (notFull b) = [] := by
          refine List.filter_eq_nil_iff.mpr fun i hi => ?_
          rw [notFull, hword i hi]
          simp [hfull]
        rw [hnone, if_neg (not_not.mpr hfull)]
        rfl
      · have hall : (List.range' (32 * w) 32).filter (notFull b) = List.range' (32 * w) 32 := by
          refine List.filter_eq_self.mpr fun i hi => ?_
          rw [notFull, hword i hi]
          exact decide_eq_true hfull
        rw [hall, if_pos hfull, seriesWord_eq]
        exact bind_pure _

theorem seriesRest_eq (count : Nat) : seriesRest b cnt count =
    ((List.replicate (b.byteSize % 4 * 8) (List.range' (32 * (b.byteSize / 4)) 32)).flatten).foldlM
      (seriesStep b cnt) count := by
  unfold seriesRest
  induction b.byteSize % 4 * 8 with
  | zero => rfl
  | succ n ih =>
      rw [List.range_succ, List.foldlM_append, ih, List.replicate_succ', List.flatten_append,
        List.foldlM_append]
      refine bind_congr fun count' => ?_
      rw [List.foldlM_cons, seriesWord_eq, List.flatten_singleton]
      exact bind_pure _

/-- The loops search through the bits in the order in which they read them. -/
theorem seriesLoops_eq (b : Bitmap) (cnt : Nat) :
    seriesWords b cnt >>= seriesRest b cnt = (readOrder b).foldlM (seriesStep b cnt) cnt := by
  rw [readOrder, List.foldlM_append, ← seriesWords_range]
  exact bind_congr fun count => seriesRest_eq count

end

/-! ### Runs inside the bitmap -/

/-- `cnt` bits from `start` on are inside the bitmap and clear. -/
def FreeRun (b : Bitmap) (cnt start : Nat) : Prop :=
  start + cnt ≤ 8 * b.byteSize ∧ ∀ i, start ≤ i → i < start + cnt → b.bit i = false

section
variable {b : Bitmap} {cnt start : Nat}

/-- A clear bit is read. -/
theorem notFull_of_clear {i : Nat} (hclear : b.bit i = false) : notFull b i = true := by
  rw [notFull, decide_eq_true_eq]
  intro hfull
  have hbit := Bitmap.getLsbD_word b (i / 32) (Nat.mod_lt i (by decide : 0 < 32))
  rw [Nat.div_add_mod, hclear, hfull, BitVec.getLsbD_allOnes] at hbit
  exact absurd hbit (by simp [Nat.mod_lt])

/-- The read order starts with the bits inside the bitmap, without those of the full words. -/
theorem readOrder_split (b : Bitmap) : ∃ n rest, 8 * b.byteSize ≤ n ∧ readOrder b =
    (List.range n).filter (fun i => notFull b i || decide (32 * (b.byteSize / 4) ≤ i)) ++ rest := by
  have hwords : (List.range (32 * (b.byteSize / 4))).filter (notFull b)
      = (List.range (32 * (b.byteSize / 4))).filter
          (fun i => notFull b i || decide (32 * (b.byteSize / 4) ≤ i)) := by
    refine List.filter_congr fun i hi => ?_
    have hi' := List.mem_range.mp hi
    rw [decide_eq_false (by omega), Bool.or_false]
  by_cases hrest : b.byteSize % 4 = 0
  · refine ⟨32 * (b.byteSize / 4), [], by omega, ?_⟩
    rw [readOrder, hrest, hwords]
    rfl
  · -- the first turn of the last loop
    obtain ⟨m, hm⟩ : ∃ m, b.byteSize % 4 * 8 = m + 1 := ⟨b.byteSize % 4 * 8 - 1, by omega⟩
    refine ⟨32 * (b.byteSize / 4) + 32,
      (List.replicate m (List.range' (32 * (b.byteSize / 4)) 32)).flatten, by omega, ?_⟩
    have hlast : (List.range' (32 * (b.byteSize / 4)) 32).filter
        (fun i => notFull b i || decide (32 * (b.byteSize / 4) ≤ i))
          = List.range' (32 * (b.byteSize / 4)) 32 := by
      refine List.filter_eq_self.mpr fun i hi => ?_
      rw [decide_eq_true (List.mem_range'_1.mp hi).1, Bool.or_true]
    rw [readOrder, hm, List.replicate_succ, List.flatten_cons, hwords, range_add_range',
      List.filter_append, hlast, List.append_assoc]

/-- A run of neighbours inside the bitmap is a run of the read order, behind smaller indices. -/
theorem FreeRun.in_readOrder (h : FreeRun b cnt start) : ∃ l,
    Run (fun i => !b.bit i) cnt (readOrder b) l (List.range' start cnt) ∧ ∀ i ∈ l, i < start := by
  obtain ⟨n, rest, hn, hread⟩ := readOrder_split b
  have hfree := h.1
  let q : Nat → Bool := fun i => notFull b i || decide (32 * (b.byteSize / 4) ≤ i)
  have hsplit : List.range n = List.range start ++ List.range' start cnt ++
      List.range' (start + cnt) (n - (start + cnt)) := by
    rw [← range_add_range', ← range_add_range', Nat.add_sub_cancel' (by omega)]
  have hrun : (List.range' start cnt).filter q = List.range' start cnt := by
    refine List.filter_eq_self.mpr fun i hi => ?_
    obtain ⟨hlo, hhi⟩ := List.mem_range'_1.mp hi
    show (notFull b i || _) = true
    rw [notFull_of_clear (h.2 i hlo hhi), Bool.true_or]
  let behind := (List.range' (start + cnt) (n - (start + cnt))).filter q ++ rest
  refine ⟨(List.range start).filter q, ⟨⟨behind, ?_⟩, List.length_range', fun i hi => ?_⟩,
    fun i hi => ?_⟩
  · show readOrder b = (List.range start).filter q ++ List.range' start cnt ++ behind
    rw [hread, hsplit, List.filter_append, List.filter_append, hrun, List.append_assoc]
  · obtain ⟨hlo, hhi⟩ := List.mem_range'_1.mp hi
    rw [h.2 i hlo hhi]
    rfl
  · exact List.mem_range.mp (List.mem_filter.mp hi).1

end

/-! ### The lock -/

/-- How deep a thread holds a lock. -/
def holdDepth (l : MutexLock) (current : Tid) : Nat :=
  if l.holder = some current then l.repeat.toNat else 0

/-- The lock is free, or the thread holds it. Otherwise the call waits until the lock is free. -/
def Available (l : MutexLock) (current : Tid) : Prop :=
  l.isLock = false ∧ l.holder = none ∨
    l.isLock = true ∧ l.holder = some current ∧ l.repeat ≠ 0

section
variable {l : MutexLock} {current : Tid}

/-- The last release, or another one. -/
theorem mutexRelease_held (hlock : l.isLock = true) (hholder : l.holder = some current) :
    ∃ l' popped, mutexRelease l current = .ok (l', popped) ∧
      holdDepth l' current = (l.repeat - 1).toNat := by
  by_cases hlast : l.repeat - 1 = 0
  · let l' : MutexLock := { l with
      isLock := false
      holder := none
      «repeat» := l.repeat - 1
      waitList := l.waitList.tail }
    refine ⟨l', l.waitList.head?, ?_, ?_⟩
    · simp only [mutexRelease, ASSERT_true hholder, ok_bind, if_pos hlast, mutexUnlock,
        ASSERT_true hlock, pure_eq_ok, l']
    · rw [holdDepth, if_neg (by simp [l']), hlast]
      rfl
  · refine ⟨{ l with «repeat» := l.repeat - 1 }, none, ?_, ?_⟩
    · simp only [mutexRelease, ASSERT_true hholder, ok_bind, if_neg hlast, pure_eq_ok]
    · rw [holdDepth, if_pos hholder]

/-- Behind an acquire the thread holds the lock once more. -/
theorem mutexAcquire_available (h : Available l current) : ∃ l', mutexAcquire l current = .ok l' ∧
    l'.isLock = true ∧ l'.holder = some current ∧ (l'.repeat - 1).toNat = holdDepth l current ∧
      l'.repeat.toNat ≠ holdDepth l current := by
  rcases h with ⟨hlock, hholder⟩ | ⟨hlock, hholder, -⟩
  · refine ⟨{ l with isLock := true, holder := some current, «repeat» := 1 }, ?_, rfl, rfl, ?_, ?_⟩
    · simp [mutexAcquire, mutexTry, hlock, hholder]
    · simp [holdDepth, hholder]
    · simp [holdDepth, hholder]
  · refine ⟨{ l with «repeat» := l.repeat + 1 }, ?_, hlock, hholder, ?_, ?_⟩
    · rw [mutexAcquire, if_pos hholder]
    · rw [holdDepth, if_pos hholder]
      exact congrArg UInt32.toNat (UInt32.add_sub_cancel _ _)
    · rw [holdDepth, if_pos hholder]
      intro heq
      exact absurd (UInt32.toNat_inj.mp heq) (by simp)

end

/-! ### The whole call -/

section
variable {b : Bitmap} {cnt : Nat} {current : Tid}

/-- With one bit to find, the lock is deeper behind the call. -/
theorem scanSeries_one (hlock : Available b.lock current) :
    (∃ i b', bitmapScanIndex b = some i ∧
      bitmapScanSeries b (1 : Nat) current = .ok (wrap32 i, b') ∧
      holdDepth b'.lock current ≠ holdDepth b.lock current) ∨
    bitmapScanIndex b = none ∧ ∀ r, bitmapScanSeries b (1 : Nat) current ≠ .ok r := by
  obtain ⟨l₁, hacquire, hlock₁, hholder₁, -, hdepth⟩ := mutexAcquire_available hlock
  -- the acquire of `bitmap_scan`, and its release
  let l₂ : MutexLock := { l₁ with «repeat» := l₁.repeat + 1 }
  have hacquire₂ : mutexAcquire l₁ current = .ok l₂ := if_pos hholder₁
  obtain ⟨l₃, popped, hrelease, hdepth₃⟩ := mutexRelease_held (l := l₂) hlock₁ hholder₁
  have hsame : bitmapScanIndex { b with lock := l₂ } = bitmapScanIndex b := rfl
  cases hidx : bitmapScanIndex b with
  | some i =>
      refine .inl ⟨i, { b with lock := l₃ }, rfl, ?_, ?_⟩
      · simp [bitmapScanSeries, Bitmap.acquire, hacquire, bitmapScan, hacquire₂, hsame, hidx,
          Bitmap.release, hrelease]
      · rw [hdepth₃]
        exact fun heq => hdepth ((congrArg UInt32.toNat (UInt32.add_sub_cancel _ _)).symm.trans heq)
  | none =>
      refine .inr ⟨rfl, fun r => ?_⟩
      simp [bitmapScanSeries, Bitmap.acquire, hacquire, bitmapScan, hacquire₂, hsame, hidx,
        Bitmap.release, hrelease, PANIC]

/-- With more bits to find, the call returns what the search stops with. -/
theorem scanSeries_many (hlock : Available b.lock current) (hcnt : 1 < cnt) :
    (∀ idx, (readOrder b).foldlM (seriesStep b cnt) cnt = .error idx →
      ∃ b', bitmapScanSeries b cnt current = .ok (idx, b') ∧
        holdDepth b'.lock current = holdDepth b.lock current) ∧
    ∀ count, (readOrder b).foldlM (seriesStep b cnt) cnt = .ok count →
      ∀ r, bitmapScanSeries b cnt current ≠ .ok r := by
  obtain ⟨l₁, hacquire, hlock₁, hholder₁, hdepth, -⟩ := mutexAcquire_available hlock
  obtain ⟨l₂, popped, hrelease, hdepth₂⟩ := mutexRelease_held hlock₁ hholder₁
  have hloops : seriesWords { b with lock := l₁ } cnt >>= seriesRest { b with lock := l₁ } cnt
      = (readOrder b).foldlM (seriesStep b cnt) cnt := seriesLoops_eq { b with lock := l₁ } cnt
  have hpos : (cnt : Int) > 0 := by omega
  have hone : ¬(cnt : Int) = 1 := by omega
  constructor
  · intro idx hfold
    refine ⟨{ b with lock := l₂ }, ?_, hdepth₂.trans hdepth⟩
    simp only [bitmapScanSeries, Bitmap.acquire, hacquire, ok_bind, pure_eq_ok, ASSERT_true hpos,
      if_neg hone, Int.toNat_natCast, hloops, hfold, Bitmap.release, hrelease]
  · intro count hfold r hret
    simp only [bitmapScanSeries, Bitmap.acquire, hacquire, ok_bind, pure_eq_ok, ASSERT_true hpos,
      if_neg hone, Int.toNat_natCast, hloops, hfold] at hret
    cases hret

end

/-! ### What the function is for -/

/-- `bitmap_scan_series` returns the first of the runs of clear bits, if there is one, and the
caller holds the lock as before. -/
structure SeriesRight (b : Bitmap) (cnt : Nat) (current : Tid) : Prop where
  found : ∀ idx b', bitmapScanSeries b cnt current = .ok (idx, b') →
    (∃ start : Nat, idx = start ∧ FreeRun b cnt start ∧ ∀ j < start, ¬FreeRun b cnt j) ∧
      holdDepth b'.lock current = holdDepth b.lock current
  fails : (∀ r, bitmapScanSeries b cnt current ≠ .ok r) → ∀ j, ¬FreeRun b cnt j

/-- Clear bits that are read in a row. -/
abbrev ReadRun (b : Bitmap) (cnt : Nat) (l w : List Nat) : Prop :=
  Run (fun i => !b.bit i) cnt (readOrder b) l w

/-- The bits of a run are neighbours inside the bitmap, and an `int32_t` can hold their index. -/
def RealRun (b : Bitmap) (cnt : Nat) (w : List Nat) : Prop :=
  ∃ start < 2 ^ 31, w = List.range' start cnt ∧ FreeRun b cnt start

/-- Among the runs of clear bits that are read in a row, each one is real or comes behind a real
one. -/
def RealRunFirst (b : Bitmap) (cnt : Nat) : Prop :=
  ∀ l w, ReadRun b cnt l w → RealRun b cnt w ∨
    ∃ l' w', ReadRun b cnt l' w' ∧ l'.length < l.length ∧ RealRun b cnt w'

section
variable {b : Bitmap} {cnt : Nat} {current : Tid} {l w : List Nat} {e start : Nat}

/-- The run that the search stops at, when it is a real one. -/
theorem readRun_found (hrun : ReadRun b cnt l w)
    (hfirst : ∀ l' w', ReadRun b cnt l' w' → l.length ≤ l'.length) (hlast : w.getLast? = some e)
    (hcnt : 0 < cnt) (hreal : RealRun b cnt w) :
    ∃ start : Nat, wrap32 (e - cnt + 1) = start ∧ FreeRun b cnt start ∧
      ∀ j < start, ¬FreeRun b cnt j := by
  obtain ⟨start, hlt, rfl, hfree⟩ := hreal
  refine ⟨start, ?_, hfree, fun j hj hfree' => ?_⟩
  · have he : e = start + (cnt - 1) := by
      rw [List.getLast?_range', if_neg (by omega)] at hlast
      have := Option.some.inj hlast
      omega
    rw [he, wrap32_eq (by omega) (by omega)]
    omega
  · -- a smaller run would be read earlier
    obtain ⟨l', hrun', hl'⟩ := hfree'.in_readOrder
    have hstart : (readOrder b)[l.length]? = some start := by
      have hget := hrun.getElem? hcnt
      rwa [Nat.add_zero, List.getElem?_range' hcnt, Nat.mul_zero, Nat.add_zero] at hget
    rcases Nat.lt_or_eq_of_le (hfirst l' _ hrun') with hlen | hlen
    · rw [hrun'.getElem?_lt hlen] at hstart
      have := hl' start (List.mem_of_getElem? hstart)
      omega
    · have hget := hrun'.getElem? hcnt
      rw [Nat.add_zero, ← hlen, hstart, List.getElem?_range' hcnt] at hget
      have := Option.some.inj hget
      omega

/-- The run that the search stops at is real, when the result is the index of a free run. -/
theorem readRun_real (hrun : ReadRun b cnt l w)
    (hfirst : ∀ l' w', ReadRun b cnt l' w' → l.length ≤ l'.length) (hlast : w.getLast? = some e)
    (hcnt : 0 < cnt) (hmax : cnt < 2 ^ 31) (hfree : FreeRun b cnt start)
    (hidx : wrap32 (e - cnt + 1) = start) : RealRun b cnt w := by
  have hfits : start < 2 ^ 31 := by
    have := wrap32_lt (e - cnt + 1)
    omega
  obtain ⟨l', hrun', hl'⟩ := hfree.in_readOrder
  rcases Nat.lt_or_eq_of_le (hfirst l' _ hrun') with hlen | hlen
  · -- `e` is read in front of the last bit of the free run, so it is smaller than this one
    have he : (readOrder b)[l.length + (cnt - 1)]? = some e := by
      rw [hrun.getElem? (by omega), ← hlast, List.getLast?_eq_getElem?, hrun.length]
    have hsmall : e < start + (cnt - 1) := by
      by_cases hin : l.length + (cnt - 1) < l'.length
      · rw [hrun'.getElem?_lt hin] at he
        have := hl' e (List.mem_of_getElem? he)
        omega
      · obtain ⟨i, hi⟩ : ∃ i, l.length + (cnt - 1) = l'.length + i :=
          ⟨l.length + (cnt - 1) - l'.length, by omega⟩
        rw [hi, hrun'.getElem? (by omega), List.getElem?_range' (by omega)] at he
        have := Option.some.inj he
        omega
    rw [wrap32_eq (by omega) (by omega)] at hidx
    omega
  · obtain ⟨-, rfl⟩ := hrun.unique hrun' hlen
    exact ⟨start, hfits, rfl, hfree⟩

end

/-- For one bit the call fails its purpose when there is a clear bit: it does not release the
lock. -/
theorem scanSeries_one_iff (b : Bitmap) (current : Tid) (hlock : Available b.lock current) :
    SeriesRight b 1 current ↔ ∀ i < 8 * b.byteSize, b.bit i = true := by
  rcases scanSeries_one hlock with ⟨i, b', hidx, hret, hdepth⟩ | ⟨hidx, hnone⟩
  · obtain ⟨hi, hclear, -⟩ := bitmapScanIndex_eq_some hidx
    constructor
    · exact fun hright => absurd (hright.found _ _ hret).2 hdepth
    · intro hfull
      rw [hfull i hi] at hclear
      cases hclear
  · have hfull := bitmapScanIndex_eq_none hidx
    refine iff_of_true ⟨fun idx b' hret => absurd hret (hnone _), fun _ j hfree => ?_⟩ hfull
    have hj := hfull j (Nat.lt_of_succ_le hfree.1)
    rw [hfree.2 j (Nat.le_refl j) (Nat.lt_succ_self j)] at hj
    cases hj

/-- For more bits the call is right when a real run is read first. -/
theorem scanSeries_many_iff (b : Bitmap) {cnt : Nat} (current : Tid)
    (hlock : Available b.lock current) (hcnt : 1 < cnt) (hmax : cnt < 2 ^ 31) :
    SeriesRight b cnt current ↔ RealRunFirst b cnt := by
  obtain ⟨hstops, hends⟩ := scanSeries_many hlock hcnt
  have hpos : 0 < cnt := Nat.lt_of_succ_lt hcnt
  rcases foldlM_runStep hpos (readOrder b) with ⟨l, w, e, hrun, hfirst, hlast, hfold⟩ |
    ⟨count, hsearched, hfold⟩
  · obtain ⟨b', hret, hdepth⟩ := hstops _ hfold
    constructor
    · intro hright
      obtain ⟨start, hidx, hfree, -⟩ := (hright.found _ _ hret).1
      have hreal := readRun_real hrun hfirst hlast hpos hmax hfree hidx
      -- The run that the call returned is real, and every other one comes behind it.
      intro l' w' hrun'
      rcases Nat.lt_or_eq_of_le (hfirst l' w' hrun') with hlen | hlen
      · exact .inr ⟨l, w, hrun, hlen, hreal⟩
      · obtain ⟨-, rfl⟩ := hrun.unique hrun' hlen
        exact .inl hreal
    · intro hreal
      -- No run is read in front of the one that the search found, so this one is real.
      have hw : RealRun b cnt w := by
        rcases hreal l w hrun with hw | ⟨l', w', hrun', hlen, -⟩
        · exact hw
        · exact absurd (hfirst l' w' hrun') (Nat.not_le_of_gt hlen)
      refine ⟨fun idx b'' hret' => ?_, fun hnone => absurd hret (hnone _)⟩
      obtain ⟨rfl, rfl⟩ := Prod.mk.inj (Except.ok.inj (hret.symm.trans hret'))
      exact ⟨readRun_found hrun hfirst hlast hpos hw, hdepth⟩
  · -- The search found no run. A free run would have been read, so there is none.
    have hnone := hends _ hfold
    refine iff_of_true ⟨fun idx b' hret => absurd hret (hnone _), fun _ j hfree => ?_⟩ ?_
    · obtain ⟨l, hrun, -⟩ := hfree.in_readOrder
      exact hsearched.none _ _ hrun
    · intro l w hrun
      exact absurd hrun (hsearched.none l w)

/-- A bitmap of whole words, none of which is full, is read from its first bit to its last one. Then
all runs are real. -/
theorem realRunFirst_of_whole {b : Bitmap} {cnt : Nat} (hwhole : b.byteSize % 4 = 0)
    (hfull : ∀ k < b.byteSize / 4, b.word k ≠ BitVec.allOnes 32) (hsize : 8 * b.byteSize ≤ 2 ^ 31)
    (hcnt : 0 < cnt) : RealRunFirst b cnt := by
  have hread : readOrder b = List.range (8 * b.byteSize) := by
    rw [readOrder, hwhole, show 8 * b.byteSize = 32 * (b.byteSize / 4) by omega,
      List.filter_eq_self.mpr fun i hi => ?_]
    · exact List.append_nil _
    · have hi' := List.mem_range.mp hi
      exact decide_eq_true (hfull (i / 32) (by omega))
  intro l w hrun
  have hlen : l.length + cnt ≤ 8 * b.byteSize := by
    obtain ⟨r, hr⟩ := hrun.split
    have := congrArg List.length hr
    rw [hread, List.length_range, List.length_append, List.length_append, hrun.length] at this
    omega
  -- What is read from the index of the run on are neighbours.
  have hw : w = List.range' l.length cnt := by
    refine List.ext_getElem (by rw [hrun.length, List.length_range']) fun i hi _ => ?_
    have hget := hrun.getElem? (hrun.length ▸ hi)
    rw [hread, List.getElem?_range (by rw [hrun.length] at hi; omega),
      List.getElem?_eq_getElem hi] at hget
    rw [List.getElem_range', Nat.one_mul]
    exact (Option.some.inj hget).symm
  refine .inl ⟨l.length, by omega, hw, hlen, fun i hlo hhi => ?_⟩
  have hclear := hrun.all i (hw ▸ List.mem_range'_1.mpr ⟨hlo, hhi⟩)
  simpa using hclear

/-- `bitmap_scan_series` is right when it has one bit to find and there is none, or when it has more
and reads a real run first. -/
theorem scanSeries_right_iff (b : Bitmap) (cnt : Nat) (current : Tid)
    (hlock : Available b.lock current) (hpos : 1 ≤ cnt) (hmax : cnt < 2 ^ 31) :
    SeriesRight b cnt current ↔
      cnt = 1 ∧ (∀ i < 8 * b.byteSize, b.bit i = true) ∨ cnt ≠ 1 ∧ RealRunFirst b cnt := by
  by_cases hone : cnt = 1
  · subst hone
    simpa using scanSeries_one_iff b current hlock
  · simpa [hone] using scanSeries_many_iff b current hlock (by omega) hmax

/-- A word of clear bits, with a free lock. -/
def clearWord : Bitmap := ⟨0, fun _ => 0, 4, mutexLockInit⟩

theorem clearWord_first : RealRunFirst clearWord 2 :=
  realRunFirst_of_whole (by decide) (by decide) (by decide) (by decide)

theorem scanSeries_right_iff_clear : SeriesRight clearWord 2 7 :=
  (scanSeries_right_iff clearWord 2 7 (.inl ⟨rfl, rfl⟩) (by decide) (by decide)).mpr
    (.inr ⟨by decide, clearWord_first⟩)

/-- Three words with a free lock: the last bit of the first one is clear, the second one is full,
and the first bit of the third one is clear. -/
def straddled : Bitmap where
  addr := 0
  bytes k := if k = 3 then 0x7f else if k = 8 then 0xfe else 0xff
  byteSize := 12
  lock := mutexLockInit

/-- The bits 31 and 64 are taken for neighbours: the result is 63, where the bit is set. A word
without a clear bit is skipped, and the count goes on behind it. -/
theorem full_word_is_skipped : (∃ b', bitmapScanSeries straddled 2 7 = .ok (63, b')) ∧
    straddled.bit 63 = true ∧ ¬SeriesRight straddled 2 7 := by
  have hret : ∃ b', bitmapScanSeries straddled 2 7 = .ok (63, b') := ⟨_, rfl⟩
  have hset : straddled.bit 63 = true := by decide
  refine ⟨hret, hset, fun hright => ?_⟩
  obtain ⟨b', hret⟩ := hret
  obtain ⟨⟨start, hidx, hfree, -⟩, -⟩ := hright.found 63 b' hret
  obtain rfl : 63 = start := by omega
  have hclear := hfree.2 63 (Nat.le_refl _) (by decide)
  rw [hset] at hclear
  cases hclear

end Fizzos.Proofs
