import Fizzos.Kernel.Kmalloc
import Fizzos.Support.Ring

/-!
# `Fizzos.Device.Ioqueue`: the keyboard queue of `device/ioqueue.c`

A ring of `buf_size` bytes. `head` is one cell before the first byte, `tail` one behind the last,
and one cell stays free. `buf k` is `*(q->buf + k)`, and `addr` is the pointer.

Every function locks the queue for the calling thread `current` and unlocks it again. A call that
would go to sleep in `cond_wait` stops with `Halt.blocked`. The thread that `cond_signal` pops is
the scheduler's business and is dropped here.

`ioqueue_init` leaves `line_cond` alone: the keyboard queue is in static storage.
-/

set_option autoImplicit false

namespace Fizzos.Device

open Fizzos.Kernel
open Fizzos.Support

/-- A `char`. -/
abbrev Byte := BitVec 8

/-- `'\n'`. -/
def NEWLINE : Byte := 10

/-- `struct ioqueue`. -/
structure Ioqueue where
  lock : MutexLock
  charCond : Cond
  lineCond : Cond
  /-- The pointer `buf`. -/
  addr : Nat
  buf : Int → Byte
  bufSize : Int
  head : Int
  tail : Int

/-- `(tail + size - head - 1) % size`. -/
def distance (tail size head : Int) : Int := (wrap32 (tail + size - head - 1)).tmod size

/-- `(i + 1) % size`. -/
def advance (i size : Int) : Int := (wrap32 (i + 1)).tmod size

/-- `cond_init`. -/
def condInit : Cond := { waitList := [] }

/-- `cond_signal`: pop a waiter. -/
def condSignal (c : Cond) : Cond := { waitList := c.waitList.tail }

namespace Ioqueue

/-- `mutex_acquire(&q->lock)`. -/
def acquire (q : Ioqueue) (current : Tid) : Except Halt Ioqueue := do
  let lock ← mutexAcquire q.lock current
  pure { q with lock }

/-- `mutex_release(&q->lock)`. -/
def release (q : Ioqueue) (current : Tid) : Except Halt Ioqueue := do
  let (lock, _) ← mutexRelease q.lock current
  pure { q with lock }

/-- The bytes from `head + 1` up to `tail`, in ring order. -/
def content (q : Ioqueue) : List Byte :=
  ring (fun k => q.buf k) q.bufSize.toNat (q.head + 1).toNat
    ((q.tail - (q.head + 1)) % q.bufSize).toNat

end Ioqueue

open Ioqueue

/-- `ioqueue_init`, with the memory that `kmalloc` takes `buf` from. -/
def ioqueueInit (q : Ioqueue) (b : Buddy) (m : KMem) (bufSize : Int) (current : Tid) :
    Except Halt (Ioqueue × Buddy × KMem) := do
  let (p, b, m) ← kmalloc b m (bufSize % 2 ^ 32).toNat current
  let addr ← deref p
  let q := { q with
    addr
    bufSize := wrap32 (bufSize + 1)
    lock := mutexLockInit
    charCond := condInit
    head := bufSize
    tail := 0
    buf := fun k => if 0 ≤ k ∧ k < (bufSize + 1) % 2 ^ 32 then 0 else q.buf k }
  pure (q, b, m)

/-- `ioqueue_getchar`. -/
def ioqueueGetchar (q : Ioqueue) (current : Tid) : Except Halt (Byte × Ioqueue) := do
  let q ← q.acquire current
  ASSERT (q.head ≥ 0)
  if distance q.tail q.bufSize q.head = 0 then .error .blocked
  else do
    let q := { q with head := advance q.head q.bufSize }
    let c := q.buf q.head
    let q ← q.release current
    pure (c, q)

/-- `ioqueue_putchar`. A full queue drops the byte. -/
def ioqueuePutchar (q : Ioqueue) (c : Byte) (current : Tid) : Except Halt Ioqueue := do
  let q ← q.acquire current
  ASSERT (q.tail ≥ 0)
  let q :=
    if distance q.tail q.bufSize q.head < wrap32 (q.bufSize - 1) then
      { q with buf := Function.update q.buf q.tail c, tail := advance q.tail q.bufSize }
    else q
  let q := if c = NEWLINE then { q with lineCond := condSignal q.lineCond } else q
  let q := { q with charCond := condSignal q.charCond }
  q.release current

/-- `ioqueue_pop_back_char`. -/
def ioqueuePopBackChar (q : Ioqueue) (current : Tid) : Except Halt Ioqueue := do
  let q ← q.acquire current
  let q :=
    if distance q.tail q.bufSize q.head > 0 then
      { q with tail := (wrap32 (q.tail + q.bufSize - 1)).tmod q.bufSize }
    else q
  q.release current

/-- The first loop of `ioqueue_getline`: is there a newline from cell `i` up to `tail`? -/
def scanLine (buf : Int → Byte) (tail size : Int) : Nat → Int → Except Halt Bool
  | 0, _ => .error .hang
  | n + 1, i =>
      if i = tail then pure false
      else if buf i = NEWLINE then pure true
      else scanLine buf tail size n (advance i size)

/-- The second loop copies to `dest`. The results are `head`, `c` and the bytes written. The
byte is written before it is compared with the newline. -/
def copyLine (buf : Int → Byte) (tail size count : Int) :
    Nat → Int → Int → List Byte → Except Halt (Int × Int × List Byte)
  | 0, _, _, _ => .error .hang
  | n + 1, head, c, dest =>
      if count = -1 ∨ c < count then
        if buf head = NEWLINE then pure (head, c, dest ++ [buf head])
        else do
          ASSERT (distance tail size head > 0)
          copyLine buf tail size count n (advance head size) (wrap32 (c + 1))
            (dest ++ [buf head])
      else pure (head, c, dest)

/-- The third loop drops the rest of the line. -/
def skipLine (buf : Int → Byte) (tail size : Int) : Nat → Int → Except Halt Int
  | 0, _ => .error .hang
  | n + 1, head =>
      if buf head = NEWLINE then pure head
      else do
        ASSERT (distance tail size head > 0)
        skipLine buf tail size n (advance head size)

/-- `ioqueue_getline`: the result, the bytes written to `dest`, and the queue. No loop passes a
cell twice before it ends. -/
def ioqueueGetline (q : Ioqueue) (count : Int) (current : Tid) :
    Except Halt (Int × List Byte × Ioqueue) := do
  let q ← q.acquire current
  let fuel := q.bufSize.toNat + 1
  let head := advance q.head q.bufSize
  let found ← scanLine q.buf q.tail q.bufSize fuel head
  if found = false then .error .blocked
  else do
    let (head, c, dest) ← copyLine q.buf q.tail q.bufSize count fuel head 0 []
    let head ← skipLine q.buf q.tail q.bufSize fuel head
    let q ← { q with head }.release current
    pure (wrap32 (c + 1), dest, q)

/-! ### The queue and a line of bytes -/

/-- The queue, and the line that it stands for. -/
structure KeyboardState where
  queue : Ioqueue
  line : List Byte

/-- The calls. `current` is the caller. -/
inductive IoqueueAct where
  | putchar (c : Byte) (current : Tid)
  | popBackChar (current : Tid)
  | getchar (current : Tid)
  | getline (count : Int) (current : Tid)

/-- What a call does to the line. -/
def lineAfter (n : Nat) (line : List Byte) : IoqueueAct → List Byte
  | .putchar c _ => if line.length < n then line ++ [c] else line
  | .popBackChar _ => line.dropLast
  | .getchar _ => line.tail
  | .getline _ _ => (line.dropWhile fun c => decide (c ≠ NEWLINE)).tail

namespace KeyboardState

/-- The calls that do not wait. -/
def Enabled (s : KeyboardState) : IoqueueAct → Prop
  | .putchar _ _ => True
  | .popBackChar _ => True
  | .getchar _ => s.line ≠ []
  | .getline _ _ => NEWLINE ∈ s.line

/-- A call on the queue. -/
def queueAfter (s : KeyboardState) : IoqueueAct → Except Halt Ioqueue
  | .putchar c current => ioqueuePutchar s.queue c current
  | .popBackChar current => ioqueuePopBackChar s.queue current
  | .getchar current => do
      let (_, q) ← ioqueueGetchar s.queue current
      pure q
  | .getline count current => do
      let (_, _, q) ← ioqueueGetline s.queue count current
      pure q

/-- A call on both. -/
def next (n : Nat) (s : KeyboardState) (a : IoqueueAct) : Except Halt KeyboardState := do
  let queue ← s.queueAfter a
  pure { queue, line := lineAfter n s.line a }

/-- A queue in static storage after `ioqueue_init`. -/
def Init (n : Nat) (s : KeyboardState) : Prop :=
  (∃ q b m current b' m', q.lineCond = condInit ∧
    ioqueueInit q b m n current = .ok (s.queue, b', m')) ∧ s.line = []

end KeyboardState

/-- Any run of calls on a queue with room for `n` bytes. -/
def ioqueueSystem (n : Nat) : System KeyboardState IoqueueAct Halt where
  init := KeyboardState.Init n
  enabled := KeyboardState.Enabled
  next := KeyboardState.next n

end Fizzos.Device
