import Fizzos.LibKernel.Bitmap

/-!
# `Fizzos.LibKernel.BitmapSeries`: `bitmap_scan_series` of `lib/kernel/bitmap.c`

`count` is the number of clear bits that are missing. A turn that counts the last one returns: the
loops are `Except Int Nat`, with the index that is returned as the error, and `count` behind the
loop otherwise.

The loop behind the whole words has the same variable as the loop in it. So each of its turns reads
all 32 bits of the word that starts behind the last whole one.

A bitmap may have any byte length: an index that is too large for `int32_t` wraps around.
-/

set_option autoImplicit false

namespace Fizzos.LibKernel

open Fizzos.Kernel
open Fizzos.Support

/-- The `if` for bit `i` of the word `w`, that is `bits[idx]`. -/
def seriesBit (w : BitVec 32) (idx cnt count i : Nat) : Except Int Nat :=
  if w &&& (1#32 <<< i) = 0 then
    if count - 1 = 0 then .error (wrap32 (idx * 32 + i - cnt + 1)) else .ok (count - 1)
  else .ok cnt

/-- `for (int i = 0; i < 32; i++)`. -/
def seriesWord (w : BitVec 32) (idx cnt count : Nat) : Except Int Nat :=
  (List.range 32).foldlM (seriesBit w idx cnt) count

/-- The loops over the whole words. The outer one skips a word that is full, and `count` stays. -/
def seriesWords (b : Bitmap) (cnt : Nat) : Except Int Nat :=
  (List.range (b.byteSize / 4)).foldlM
    (fun count idx =>
      if b.word idx ≠ BitVec.allOnes 32 then seriesWord (b.word idx) idx cnt count else .ok count)
    cnt

/-- The loop over the bytes that are left. -/
def seriesRest (b : Bitmap) (cnt count : Nat) : Except Int Nat :=
  (List.range (b.byteSize % 4 * 8)).foldlM
    -- the turn reads all 32 bits, also those behind the bitmap
    (fun count _ => seriesWord (b.word (b.byteSize / 4)) (b.byteSize / 4) cnt count) count

/-- `bitmap_scan_series`. -/
def bitmapScanSeries (b : Bitmap) (cnt : Int) (current : Tid) : Except Halt (Int × Bitmap) := do
  let b ← b.acquire current
  ASSERT (cnt > 0)
  if cnt = 1 then do
    -- the lock is not released
    let (idx, b) ← bitmapScan b current
    pure (wrap32 idx, b)
  else
    match seriesWords b cnt.toNat >>= seriesRest b cnt.toNat with
    | .error idx => do
        let b ← b.release current
        pure (idx, b)
    | .ok _ => PANIC

end Fizzos.LibKernel
