import Fizzos.Kernel.Sync
import Fizzos.Support.System

/-!
# `Fizzos.LibKernel.Bitmap`: the bitmap of `lib/kernel/bitmap.c`

A `struct bitmap` is a pointer to bytes, their number and a recursive lock. The model holds
the address and the bytes behind it: `bytes k` is `*(bmap->bits + k)`. Every function locks
the bitmap for the calling thread `current` and unlocks it again. A call that finds the lock
taken by another thread stops with `Halt.blocked`. The waiter that an unlock pops is the
scheduler's business and is dropped here.

A loop with an early return is a `find?` over its index range. Bitmaps have less than `2 ^ 31`
bits, so the `int` arithmetic of the loops is that of natural numbers.
-/

set_option autoImplicit false

namespace Fizzos.LibKernel

open Fizzos.Kernel
open Fizzos.Support

/-- `struct bitmap`. -/
structure Bitmap where
  /-- The address `bits`. -/
  addr : Nat
  bytes : Nat → BitVec 8
  byteSize : Nat
  lock : MutexLock

namespace Bitmap

/-- The bit at index `i`: bit `i % 8` of byte `i / 8`. -/
def bit (b : Bitmap) (i : Nat) : Bool := (b.bytes (i / 8)).getLsbD (i % 8)

/-- `mutex_acquire(&bmap->lock)`. -/
def acquire (b : Bitmap) (current : Tid) : Except Halt Bitmap := do
  let lock ← mutexAcquire b.lock current
  pure { b with lock }

/-- `mutex_release(&bmap->lock)`. -/
def release (b : Bitmap) (current : Tid) : Except Halt Bitmap := do
  let (lock, _) ← mutexRelease b.lock current
  pure { b with lock }

/-- `*(bmap->bits + k) = v`. -/
def store (b : Bitmap) (k : Nat) (v : BitVec 8) : Bitmap :=
  { b with bytes := Function.update b.bytes k v }

/-- The 32-bit word `((uint32_t*)bmap->bits)[k]`, least significant byte first. -/
def word (b : Bitmap) (k : Nat) : BitVec 32 :=
  b.bytes (4 * k + 3) ++ b.bytes (4 * k + 2) ++ b.bytes (4 * k + 1) ++ b.bytes (4 * k)

end Bitmap

open Bitmap

/-- The last byte that `bitmap_init` writes: the bits behind the last index are set. The loop
counts `i` down from 7 while `i > (size + 7) % 8`. -/
def bitmapLastByte (size : Nat) : BitVec 8 :=
  (List.range 8).foldr
    (fun i b => if i > (size + 7) % 8 then b ||| (1#8 <<< i) else b) 0#8

/-- `bitmap_init`. -/
def bitmapInit (b : Bitmap) (size : Nat) : Except Halt Bitmap := do
  ASSERT (size > 0)
  let byteSize := DIV_ROUND_UP size 8
  pure { b with
    byteSize
    bytes := fun k =>
      if k < byteSize - 1 then 0#8
      else if k = byteSize - 1 then bitmapLastByte size else b.bytes k
    lock := mutexLockInit }

/-- `bitmap_set`. -/
def bitmapSet (b : Bitmap) (idx : Nat) (current : Tid) : Except Halt Bitmap := do
  let b ← b.acquire current
  ASSERT (b.bytes (idx / 8) &&& (1#8 <<< (idx % 8)) = 0)
  let b := b.store (idx / 8) (b.bytes (idx / 8) ||| (1#8 <<< (idx % 8)))
  b.release current

/-- `bitmap_reset`. -/
def bitmapReset (b : Bitmap) (idx : Nat) (current : Tid) : Except Halt Bitmap := do
  let b ← b.acquire current
  ASSERT (b.bytes (idx / 8) &&& (1#8 <<< (idx % 8)) ≠ 0)
  let b := b.store (idx / 8) (b.bytes (idx / 8) &&& ~~~(1#8 <<< (idx % 8)))
  b.release current

/-- `bitmap_is_set`. -/
def bitmapIsSet (b : Bitmap) (idx : Nat) : Bool :=
  decide (b.bytes (idx / 8) &&& (1#8 <<< (idx % 8)) ≠ 0)

/-- `bitmap_reverse`: flip a bit and return its new value. -/
def bitmapReverse (b : Bitmap) (idx : Nat) (current : Tid) : Except Halt (Nat × Bitmap) := do
  let b ← b.acquire current
  if bitmapIsSet b idx then do
    let b ← bitmapReset b idx current
    let b ← b.release current
    pure (0, b)
  else do
    let b ← bitmapSet b idx current
    let b ← b.release current
    pure (1, b)

/-- The first clear bit among the bits `0 .. n - 1` of a word. -/
def findClear (w : BitVec 32) (n : Nat) : Option Nat :=
  (List.range n).find? fun i => decide (w &&& (1#32 <<< i) = 0)

/-- The index that the loops of `bitmap_scan` return, if they return. The first loop reads
whole words, the second the bytes behind the last whole word. -/
def bitmapScanIndex (b : Bitmap) : Option Nat :=
  ((List.range (b.byteSize / 4)).findSome? fun idx =>
      if b.word idx ≠ BitVec.allOnes 32 then
        (findClear (b.word idx) 32).map (idx * 32 + ·)
      else none).or
    ((findClear (b.word (b.byteSize / 4)) (b.byteSize % 4 * 8)).map
      (b.byteSize / 4 * 32 + ·))

/-- `bitmap_scan`: the first clear bit, or `PANIC`. -/
def bitmapScan (b : Bitmap) (current : Tid) : Except Halt (Nat × Bitmap) := do
  let b ← b.acquire current
  match bitmapScanIndex b with
  | some idx => do
      let b ← b.release current
      pure (idx, b)
  | none => do
      let _ ← b.release current
      PANIC

/-- `bitmap_scan_set`: find the first clear bit and set it. -/
def bitmapScanSet (b : Bitmap) (current : Tid) : Except Halt (Nat × Bitmap) := do
  let b ← b.acquire current
  let (idx, b) ← bitmapScan b current
  let b ← bitmapSet b idx current
  let b ← b.release current
  pure (idx, b)

/-! ### A bitmap that gives out indices -/

/-- A bitmap, and the indices that its users have. -/
structure IdState where
  bmap : Bitmap
  outstanding : List Nat

/-- The calls of the users. `current` is the caller. -/
inductive IdAct where
  | scanSet (current : Tid)
  | reset (idx : Nat) (current : Tid)

namespace IdState

/-- Only an outstanding index is given back. -/
def Enabled (s : IdState) : IdAct → Prop
  | .scanSet _ => True
  | .reset idx _ => idx ∈ s.outstanding

def next (s : IdState) : IdAct → Except Halt IdState
  | .scanSet current => do
      let (idx, bmap) ← bitmapScanSet s.bmap current
      pure { bmap, outstanding := idx :: s.outstanding }
  | .reset idx current => do
      let bmap ← bitmapReset s.bmap idx current
      pure { bmap, outstanding := s.outstanding.erase idx }

end IdState

/-- Any run of calls on a bitmap behind `bitmap_init` with `size` bits. -/
def idSystem (size : Nat) : System IdState IdAct Halt where
  init s := (∃ b, bitmapInit b size = .ok s.bmap) ∧ s.outstanding = []
  enabled := IdState.Enabled
  next := IdState.next

end Fizzos.LibKernel
