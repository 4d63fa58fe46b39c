import Fizzos.Device.Ioqueue

/-!
# `Fizzos.Device.IoqueueBytes`: the bytes of the keyboard queue that a call touches

The offsets into `q->buf` at which `ioqueue_init` and the calls read or write, in their order. Each
list follows the function of the same name in `Fizzos.Device.Ioqueue`.

A call that waits in `cond_wait` leaves the queue as it is, and is made again later.
-/

set_option autoImplicit false

namespace Fizzos.Device

open Fizzos.Kernel
open Fizzos.Support

/-- The bytes that `ioqueue_init` asks `kmalloc` for. -/
def requested (bufSize : Int) : Nat := (bufSize % 2 ^ 32).toNat

/-- `memset` of `ioqueue_init` writes the byte `k`. -/
def InitWrites (bufSize k : Int) : Prop := 0 ≤ k ∧ k < (bufSize + 1) % 2 ^ 32

instance (bufSize k : Int) : Decidable (InitWrites bufSize k) := inferInstanceAs (Decidable (_ ∧ _))

/-- The reads of the first loop of `ioqueue_getline`. -/
def scanOffsets (buf : Int → Byte) (tail size : Int) : Nat → Int → List Int
  | 0, _ => []
  | n + 1, i =>
      if i = tail then []
      else if buf i = NEWLINE then [i]
      else i :: scanOffsets buf tail size n (advance i size)

/-- The reads of the second loop. It does not read when the buffer of the caller is full. -/
def copyOffsets (buf : Int → Byte) (size count : Int) : Nat → Int → Int → List Int
  | 0, _, _ => []
  | n + 1, head, c =>
      if count = -1 ∨ c < count then
        if buf head = NEWLINE then [head]
        else head :: copyOffsets buf size count n (advance head size) (wrap32 (c + 1))
      else []

/-- The reads of the third loop. -/
def skipOffsets (buf : Int → Byte) (size : Int) : Nat → Int → List Int
  | 0, _ => []
  | n + 1, head =>
      if buf head = NEWLINE then [head] else head :: skipOffsets buf size n (advance head size)

/-- The reads of `ioqueue_getline`. -/
def getlineOffsets (q : Ioqueue) (count : Int) : List Int :=
  let fuel := q.bufSize.toNat + 1
  let head := advance q.head q.bufSize
  let scanned := scanOffsets q.buf q.tail q.bufSize fuel head
  match scanLine q.buf q.tail q.bufSize fuel head with
  | .ok true =>
      let copied := copyOffsets q.buf q.bufSize count fuel head 0
      match copyLine q.buf q.tail q.bufSize count fuel head 0 [] with
      | .ok (head, _, _) => scanned ++ copied ++ skipOffsets q.buf q.bufSize fuel head
      | .error _ => scanned ++ copied
  | _ => scanned

/-- The offsets of a call. -/
def ioqueueOffsets (q : Ioqueue) : IoqueueAct → List Int
  | .putchar _ _ => if distance q.tail q.bufSize q.head
      < wrap32 (q.bufSize - 1) then [q.tail] else []
  | .popBackChar _ => []
  | .getchar _ =>
      if distance q.tail q.bufSize q.head = 0 then [] else [advance q.head q.bufSize]
  | .getline count _ => getlineOffsets q count

/-- The offsets of one call after the other. -/
def runOffsets (n : Nat) : KeyboardState → List IoqueueAct → List Int
  | _, [] => []
  | s, a :: acts => ioqueueOffsets s.queue a ++ runOffsets n ((ioqueueSystem n).after s a) acts

/-- `ioqueue_init` and the calls stay inside the bytes from `kmalloc`. -/
structure StaysInside (n : Nat) (s : KeyboardState) (acts : List IoqueueAct) : Prop where
  init : ∀ k, InitWrites n k → 0 ≤ k ∧ k < requested n
  calls : ∀ k ∈ runOffsets n s acts, 0 ≤ k ∧ k < requested n

end Fizzos.Device
