import Fizzos.Proofs.Bitmap
import Fizzos.Device.Ioqueue

/-!
# `Fizzos.Proofs.Ioqueue`: the keyboard queue is a bounded line

`Spans` says which bytes lie in the ring from a cell up to `tail`. Every function of the queue
walks or moves an end of such a span: `Spans.uncons` drops the first byte, `Spans.push` adds one
at `tail`, `Spans.dropLast` gives the last one back. The expression that the source tests for
emptiness and fullness is the length of the span behind `head` (`Spans.distance_eq`).

The ring has a free cell, so a span never reaches around to its own start, and a walk that has
not seen its newline yet has bytes left. That is what the assertions in `ioqueue_getline` ask.

`kmalloc` has no block of `2 ^ 23` bytes or more, so the `int` sums do not overflow.
-/

set_option autoImplicit false

namespace Fizzos.Proofs

open Fizzos.Device
open Fizzos.Kernel
open Fizzos.LibKernel
open Fizzos.Support

/-! ### Sizes -/

/-- The order for a number of pages is at most one too small, so a size that has an order fits in 32
bits. -/
theorem lt_two_pow_pageOrder (cnt : Nat) : cnt < 2 ^ (pageOrder cnt + 1) := by
  induction cnt using pageOrder.induct with
  | case1 cnt hcnt ih =>
      rw [pageOrder, if_pos hcnt, Nat.pow_succ]
      omega
  | case2 cnt hcnt =>
      rw [pageOrder, if_neg hcnt]
      omega

/-- What `kmalloc` returns for the size of an `int` has less than `2 ^ 23` bytes: `alloc_pages`
refuses larger blocks. -/
theorem kmalloc_size_lt {b : Buddy} {m : KMem} {size : Nat} {current : Tid}
    {r : Option Nat × Buddy × KMem} (hsize : size < 2 ^ 31)
    (h : kmalloc b m size current = .ok r) : size < 2 ^ 23 := by
  unfold kmalloc at h
  split at h
  · simp only [Buddy.getFreePages, Buddy.allocPages, bind_eq_ok, ASSERT_eq_ok] at h
    obtain ⟨_, ⟨_, ⟨_, horder, _⟩, _⟩, _⟩ := h
    obtain ⟨cnt, hcnt⟩ : ∃ cnt, cnt = (size + 32 + 4096 - 1) % 2 ^ 32 / 4096 := ⟨_, rfl⟩
    have horder' : pageOrder cnt ≤ 10 := hcnt ▸ horder
    have hlt := lt_two_pow_pageOrder cnt
    have hpow : 2 ^ (pageOrder cnt + 1) ≤ 2 ^ 11 :=
      Nat.pow_le_pow_right (by decide) (Nat.succ_le_succ horder')
    omega
  · rename_i hle
    have hmax : MAX_BLOCK_SIZE < 2 ^ 23 := by decide
    omega

/-! ### Spans -/

/-- The cells of the ring with `n + 1` cells, from `i` up to `tail`, hold `l`. -/
structure Spans (n : Nat) (buf : Int → Byte) (tail : Int) (i : Nat) (l : List Byte) : Prop where
  bound : n < 2 ^ 30
  le : i ≤ n
  length : l.length ≤ n
  tail : tail = ((i + l.length) % (n + 1) : Nat)
  cells : l = ring (fun k : Nat => buf k) (n + 1) i l.length

/-- `(i + 1) % size` stays in the ring. -/
theorem advance_eq {n i : Nat} (hn : n < 2 ^ 30) (hi : i ≤ n) :
    advance i (n + 1 : Nat) = ((i + 1) % (n + 1) : Nat) := by
  rw [advance, wrap32_eq (by omega) (by omega), Int.tmod_eq_emod_of_nonneg (by omega)]
  rfl

namespace Spans

variable {n i h : Nat} {buf : Int → Byte} {tail : Int} {c : Byte} {l : List Byte}

/-- A remainder below two rounds. -/
theorem mod_ring {k : Nat} (hk : k < 2 * (n + 1)) :
    k % (n + 1) = if k < n + 1 then k else k - (n + 1) := by
  split
  · exact Nat.mod_eq_of_lt ‹_›
  · rw [Nat.mod_eq_sub_mod (by omega), Nat.mod_eq_of_lt (by omega)]

/-- The walk has reached `tail` exactly when nothing is left. -/
theorem eq_tail_iff (hs : Spans n buf tail i l) : (i : Int) = tail ↔ l = [] := by
  have hlen := hs.length
  have hle := hs.le
  have htail := hs.tail
  rw [mod_ring (by omega)] at htail
  rw [← List.length_eq_zero_iff]
  split at htail <;> omega

/-- The first byte, and the span behind it. -/
theorem uncons (hs : Spans n buf tail i (c :: l)) :
    buf i = c ∧ Spans n buf tail ((i + 1) % (n + 1)) l := by
  have hcells := hs.cells
  rw [List.length_cons, ring_cons, Nat.mod_eq_of_lt (Nat.lt_succ_of_le hs.le)] at hcells
  obtain ⟨hc, hl⟩ := List.cons.inj hcells
  have hlen : l.length + 1 ≤ n := hs.length
  refine ⟨hc.symm, hs.bound, Nat.lt_succ_iff.mp (Nat.mod_lt _ (Nat.succ_pos n)), by omega, ?_, ?_⟩
  · have htail := hs.tail
    rw [List.length_cons] at htail
    rw [htail, Nat.mod_add_mod, Nat.add_assoc, Nat.add_comm 1]
  · rw [ring_mod]
    exact hl

/-- The expression that the source takes for the length. -/
theorem distance_eq (hh : h ≤ n) (hs : Spans n buf tail ((h + 1) % (n + 1)) l) :
    distance tail (n + 1 : Nat) h = l.length := by
  have hlen := hs.length
  have htail := hs.tail
  have hbound := hs.bound
  rw [Nat.mod_add_mod, mod_ring (by omega)] at htail
  split at htail
  · rw [distance, wrap32_eq (by omega) (by omega), Int.tmod_eq_emod_of_nonneg (by omega)]
    have hsum : tail + (n + 1 : Nat) - h - 1 = l.length + (n + 1 : Nat) := by omega
    rw [hsum, Int.add_emod_right, Int.emod_eq_of_lt (by omega) (by omega)]
  · rw [distance, wrap32_eq (by omega) (by omega), Int.tmod_eq_emod_of_nonneg (by omega)]
    have hsum : tail + (n + 1 : Nat) - h - 1 = l.length := by omega
    rw [hsum, Int.emod_eq_of_lt (by omega) (by omega)]

/-- A byte at `tail`, when a second cell is free. -/
theorem push (hs : Spans n buf tail i l) (hlen : l.length < n) (x : Byte) :
    Spans n (Function.update buf tail x) (advance tail (n + 1 : Nat)) i (l ++ [x]) := by
  have hlt : (i + l.length) % (n + 1) < n + 1 := Nat.mod_lt _ (Nat.succ_pos n)
  have hcast : (fun k : Nat => Function.update buf tail x k)
      = Function.update (fun k : Nat => buf k) ((i + l.length) % (n + 1)) x := by
    funext k
    simp only [Function.update_apply, hs.tail, Int.natCast_inj]
  refine ⟨hs.bound, hs.le, by simpa using Nat.succ_le_of_lt hlen, ?_, ?_⟩
  · rw [hs.tail, advance_eq hs.bound (by omega), List.length_append, List.length_singleton,
      Nat.mod_add_mod, Nat.add_assoc]
  · rw [List.length_append, List.length_singleton, hcast, ring_push _ _ _ _ (by omega), ← hs.cells]

/-- The byte before `tail` is given back. -/
theorem dropLast (hs : Spans n buf tail i l) (hl : l ≠ []) :
    Spans n buf ((wrap32 (tail + (n + 1 : Nat) - 1)).tmod (n + 1 : Nat)) i l.dropLast := by
  have hpos : l.length = l.dropLast.length + 1 := by
    rw [List.length_dropLast]
    have := List.length_pos_iff.mpr hl
    omega
  have hlen := hs.length
  have hle := hs.le
  have hbound := hs.bound
  have htail := hs.tail
  have hcells := hs.cells
  rw [hpos] at htail hlen
  refine ⟨hbound, hle, by omega, ?_, ?_⟩
  · -- The cells of the line go round the end of the ring or not.
    rw [mod_ring (by omega)] at htail ⊢
    split at htail
    · rw [if_pos (by omega), wrap32_eq (by omega) (by omega), Int.tmod_eq_emod_of_nonneg (by omega)]
      have hsum : tail + (n + 1 : Nat) - 1 = (i + l.dropLast.length : Nat) + (n + 1 : Nat) := by
        omega
      rw [hsum, Int.add_emod_right, Int.emod_eq_of_lt (by omega) (by omega)]
    · rw [wrap32_eq (by omega) (by omega), Int.tmod_eq_emod_of_nonneg (by omega)]
      split
      · -- `tail` was the cell 0
        rw [Int.emod_eq_of_lt (by omega) (by omega)]
        omega
      · have hsum : tail + (n + 1 : Nat) - 1
            = (i + l.dropLast.length - (n + 1) : Nat) + (n + 1 : Nat) := by omega
        rw [hsum, Int.add_emod_right, Int.emod_eq_of_lt (by omega) (by omega)]
  · rw [hpos, ring_concat] at hcells
    have hdrop := congrArg List.dropLast hcells
    rwa [List.dropLast_concat] at hdrop

end Spans

/-! ### The loops of `ioqueue_getline` -/

section
variable {n i fuel : Nat} {buf : Int → Byte} {tail : Int} {l : List Byte}

/-- What is left of a line: the newline, and the bytes behind it. -/
def fromNewline (l : List Byte) : List Byte := l.dropWhile fun c => decide (c ≠ NEWLINE)

theorem fromNewline_newline : fromNewline (NEWLINE :: l) = NEWLINE :: l := rfl

theorem fromNewline_of_ne {c : Byte} (hnl : c ≠ NEWLINE) :
    fromNewline (c :: l) = fromNewline l := by
  simp [fromNewline, hnl]

/-- The bytes in front of the first newline. -/
def beforeNewline (l : List Byte) : List Byte := l.takeWhile fun c => decide (c ≠ NEWLINE)

theorem beforeNewline_newline : beforeNewline (NEWLINE :: l) = [] := rfl

theorem beforeNewline_of_ne {c : Byte} (hnl : c ≠ NEWLINE) :
    beforeNewline (c :: l) = c :: beforeNewline l := by
  rw [beforeNewline, List.takeWhile_cons, if_pos (decide_eq_true hnl)]
  rfl

/-- The first line, with its newline. -/
def firstLine (l : List Byte) : List Byte := beforeNewline l ++ [NEWLINE]

/-- The bytes that fit in a buffer of `count` bytes behind `c` others. For -1 there is no limit. -/
def fitting (count : Int) (c : Nat) (l : List Byte) : List Byte :=
  if count = -1 then l else l.take (count - c).toNat

/-- Of nothing, nothing fits. -/
theorem fitting_nil (count : Int) (c : Nat) : fitting count c [] = [] := by
  rw [fitting, List.take_nil, ite_self]

/-- A character fits when there is room, or no limit. -/
theorem fitting_cons {count : Int} {c : Nat} {b : Byte} (hmore : count = -1 ∨ c < count) :
    fitting count c (b :: l) = b :: fitting count (c + 1) l := by
  rw [fitting, fitting]
  by_cases hlim : count = -1
  · rw [if_pos hlim, if_pos hlim]
  · have hroom : (count - c).toNat = (count - (c + 1 : Nat)).toNat + 1 := by omega
    rw [if_neg hlim, if_neg hlim, hroom, List.take_succ_cons]

/-- What fits of the line is no longer than the line. -/
theorem fitting_length_le {count : Int} {c : Nat} :
    (fitting count c (beforeNewline l)).length ≤ l.length := by
  have hle : (beforeNewline l).length ≤ l.length := (List.takeWhile_sublist _).length_le
  rw [fitting]
  split
  · exact hle
  · exact Nat.le_trans (List.length_take_le' _ _) hle

/-- Nothing fits when the reader is full. -/
theorem fitting_full {count : Int} {c : Nat} (hfull : ¬(count = -1 ∨ c < count)) :
    fitting count c l = [] := by
  have hroom : (count - c).toNat = 0 := by omega
  rw [fitting, if_neg fun h => hfull (.inl h), hroom, List.take_zero]


/-- The first loop sees the newline. -/
theorem scanLine_true (hs : Spans n buf tail i l) (hmem : NEWLINE ∈ l) (hfuel : l.length < fuel) :
    scanLine buf tail (n + 1 : Nat) fuel i = .ok true := by
  induction l generalizing i fuel with
  | nil => exact absurd hmem List.not_mem_nil
  | cons c l ih =>
      obtain ⟨hc, hrest⟩ := hs.uncons
      have hne : (i : Int) ≠ tail := fun heq => List.cons_ne_nil c l (hs.eq_tail_iff.mp heq)
      cases fuel with
      | zero => exact absurd hfuel (Nat.not_lt_zero _)
      | succ fuel =>
          rw [scanLine, if_neg hne, hc]
          by_cases hnl : c = NEWLINE
          · rw [if_pos hnl, pure_eq_ok]
          · have hmem := (List.mem_cons.mp hmem).resolve_left (Ne.symm hnl)
            rw [if_neg hnl, advance_eq hs.bound hs.le]
            exact ih hrest hmem (Nat.lt_of_succ_lt_succ hfuel)

/-- Without a newline the first loop comes to the end. -/
theorem scanLine_false (hs : Spans n buf tail i l) (hmem : NEWLINE ∉ l) (hfuel : l.length < fuel) :
    scanLine buf tail (n + 1 : Nat) fuel i = .ok false := by
  induction l generalizing i fuel with
  | nil =>
      obtain ⟨fuel, rfl⟩ : ∃ k, fuel = k + 1 := ⟨fuel - 1, by omega⟩
      rw [scanLine, if_pos (hs.eq_tail_iff.mpr rfl), pure_eq_ok]
  | cons c l ih =>
      obtain ⟨hc, hrest⟩ := hs.uncons
      obtain ⟨fuel, rfl⟩ : ∃ k, fuel = k + 1 := ⟨fuel - 1, by omega⟩
      have hne : (i : Int) ≠ tail := fun heq => List.cons_ne_nil c l (hs.eq_tail_iff.mp heq)
      rw [List.mem_cons, not_or] at hmem
      rw [scanLine, if_neg hne, hc, if_neg (Ne.symm hmem.1), advance_eq hs.bound hs.le]
      exact ih hrest hmem.2 (Nat.lt_of_succ_lt_succ hfuel)

/-- Before the newline, the assertion of the other two loops holds. -/
theorem distance_pos {c : Byte} (hs : Spans n buf tail i (c :: l)) (hmem : NEWLINE ∈ c :: l)
    (hnl : c ≠ NEWLINE) : distance tail (n + 1 : Nat) i > 0 := by
  have hrest := (List.mem_cons.mp hmem).resolve_left (Ne.symm hnl)
  have hpos := List.length_pos_of_mem hrest
  rw [Spans.distance_eq hs.le hs.uncons.2]
  omega

/-- The second loop copies the line up to its newline, or as much of it as fits. -/
theorem copyLine_ok (hs : Spans n buf tail i l) (hmem : NEWLINE ∈ l) (hfuel : l.length < fuel)
    (count : Int) {c : Nat} (hbound : c + l.length < 2 ^ 31) (dest : List Byte) :
    ∃ j l', copyLine buf tail (n + 1 : Nat) count fuel i c dest
        = .ok ((j : Nat), (c + (fitting count c (beforeNewline l)).length : Nat),
            dest ++ fitting count c (firstLine l)) ∧
      Spans n buf tail j l' ∧ NEWLINE ∈ l' ∧ fromNewline l' = fromNewline l := by
  induction l generalizing i fuel c dest with
  | nil => exact absurd hmem List.not_mem_nil
  | cons b l ih =>
      obtain ⟨hb, hrest⟩ := hs.uncons
      rw [List.length_cons] at hbound
      cases fuel with
      | zero => exact absurd hfuel (Nat.not_lt_zero _)
      | succ fuel =>
          rw [copyLine, hb]
          split
          next hmore =>
            -- The loop stops in front of the newline and copies it without counting it.
            by_cases hnl : b = NEWLINE
            · subst hnl
              rw [if_pos rfl, firstLine, beforeNewline_newline, List.nil_append, fitting_cons hmore,
                fitting_nil, fitting_nil]
              exact ⟨i, NEWLINE :: l, rfl, hs, hmem, rfl⟩
            · have hmem' := (List.mem_cons.mp hmem).resolve_left (Ne.symm hnl)
              have hnext : wrap32 ((c : Int) + 1) = (c + 1 : Nat) := wrap32_eq (by omega) (by omega)
              rw [if_neg hnl, ASSERT_true (distance_pos hs hmem hnl), ok_bind,
                advance_eq hs.bound hs.le, hnext]
              obtain ⟨j, l', hcopy, hspan, hnewline, heq⟩ :=
                @ih _ _ hrest hmem' (Nat.lt_of_succ_lt_succ hfuel) (c + 1) (by omega) (dest ++ [b])
              refine ⟨j, l', ?_, hspan, hnewline, heq.trans (fromNewline_of_ne hnl).symm⟩
              rw [hcopy, firstLine, firstLine, beforeNewline_of_ne hnl, List.cons_append,
                fitting_cons hmore, fitting_cons hmore, List.length_cons, List.append_assoc,
                List.singleton_append, Nat.add_assoc, Nat.add_comm 1]
          next hfull =>
            rw [fitting_full hfull, fitting_full hfull, List.append_nil]
            exact ⟨i, b :: l, rfl, hs, hmem, rfl⟩

/-- The third loop stops at the newline. -/
theorem skipLine_ok (hs : Spans n buf tail i l) (hmem : NEWLINE ∈ l) (hfuel : l.length < fuel) :
    ∃ j, skipLine buf tail (n + 1 : Nat) fuel i = .ok (j : Nat) ∧
      Spans n buf tail j (fromNewline l) ∧ fromNewline l ≠ [] := by
  induction l generalizing i fuel with
  | nil => exact absurd hmem List.not_mem_nil
  | cons b l ih =>
      obtain ⟨hb, hrest⟩ := hs.uncons
      cases fuel with
      | zero => exact absurd hfuel (Nat.not_lt_zero _)
      | succ fuel =>
          rw [skipLine, hb]
          by_cases hnl : b = NEWLINE
          · subst hnl
            rw [if_pos rfl, fromNewline_newline]
            exact ⟨i, rfl, hs, List.cons_ne_nil _ l⟩
          · have hmem' := (List.mem_cons.mp hmem).resolve_left (Ne.symm hnl)
            rw [if_neg hnl, ASSERT_true (distance_pos hs hmem hnl), ok_bind,
              advance_eq hs.bound hs.le, fromNewline_of_ne hnl]
            exact ih hrest hmem' (Nat.lt_of_succ_lt_succ hfuel)

end

/-! ### Calls -/

/-- A free lock is taken. -/
theorem queue_acquire {q : Ioqueue} (hlock : q.lock = mutexLockInit) (current : Tid) :
    q.acquire current = .ok { q with lock := heldLock current 1 } := by
  rw [Ioqueue.acquire, hlock, mutexAcquire_init, ok_bind, pure_eq_ok]

/-- It is given back. -/
theorem queue_release (charCond lineCond : Cond) (addr : Nat) (buf : Int → Byte)
    (bufSize head tail : Int) (current : Tid) :
    Ioqueue.release ⟨heldLock current 1, charCond, lineCond, addr, buf, bufSize, head, tail⟩
        current
      = .ok ⟨mutexLockInit, charCond, lineCond, addr, buf, bufSize, head, tail⟩ := by
  simp only [Ioqueue.release, mutexRelease_one, ok_bind, pure_eq_ok]

/-- A queue between two calls. `head` is the cell `h`, and the bytes behind it are the line. -/
structure QueueOk (n h : Nat) (q : Ioqueue) (line : List Byte) : Prop where
  lock : q.lock = mutexLockInit
  size : q.bufSize = (n + 1 : Nat)
  head : q.head = h
  le : h ≤ n
  spans : Spans n q.buf q.tail ((h + 1) % (n + 1)) line

namespace QueueOk

variable {n h : Nat} {q : Ioqueue} {line : List Byte}

/-- The bytes of the ring are the line. -/
theorem content (hq : QueueOk n h q line) : q.content = line := by
  have hs := hq.spans
  have hle := hq.le
  have hlen := hs.length
  have htail := hs.tail
  rw [Nat.mod_add_mod, Spans.mod_ring (by omega)] at htail
  have hcount : ((q.tail - (q.head + 1)) % q.bufSize).toNat = line.length := by
    rw [hq.size, hq.head]
    split at htail
    · have hsum : q.tail - ((h : Int) + 1) = line.length := by omega
      rw [hsum, Int.emod_eq_of_lt (by omega) (by omega), Int.toNat_natCast]
    · have hsum : q.tail - ((h : Int) + 1) = line.length + (n + 1 : Nat) * (-1) := by omega
      rw [hsum, Int.add_mul_emod_self_left, Int.emod_eq_of_lt (by omega) (by omega),
        Int.toNat_natCast]
  have hstart : (q.head + 1).toNat = h + 1 := by rw [hq.head]; rfl
  rw [Ioqueue.content, hcount, hstart, hq.size, Int.toNat_natCast, ← ring_mod]
  exact hs.cells.symm

/-- `ioqueue_init` makes an empty queue. -/
theorem init {q₀ : Ioqueue} {b b' : Buddy} {m m' : KMem} {current : Tid} (hn : n < 2 ^ 31)
    (hinit : ioqueueInit q₀ b m n current = .ok (q, b', m')) : QueueOk n n q [] := by
  simp only [ioqueueInit, bind_eq_ok, pure_eq_ok, Except.ok.injEq] at hinit
  obtain ⟨⟨p, b₁, m₁⟩, hkmalloc, addr, -, hq⟩ := hinit
  have hsize := kmalloc_size_lt (by omega) hkmalloc
  have hbound : n < 2 ^ 23 := by omega
  have hwrap : wrap32 ((n : Int) + 1) = (n + 1 : Nat) := wrap32_eq (by omega) (by omega)
  rw [hwrap] at hq
  obtain ⟨rfl, -⟩ := Prod.mk.inj hq
  have hspans : ∀ buf, Spans n buf 0 0 [] := fun buf =>
    ⟨by omega, Nat.zero_le n, Nat.zero_le n, by simp, rfl⟩
  rw [← Nat.mod_self (n + 1)] at hspans
  exact ⟨rfl, rfl, rfl, Nat.le_refl n, hspans _⟩

/-- `ioqueue_getchar` takes the first byte. -/
theorem getchar {c : Byte} (hq : QueueOk n h q (c :: line)) (current : Tid) :
    ∃ q', ioqueueGetchar q current = .ok (c, q') ∧ QueueOk n ((h + 1) % (n + 1)) q' line := by
  obtain ⟨hc, hrest⟩ := hq.spans.uncons
  have hdist := Spans.distance_eq hq.le hq.spans
  have hpos : (0 : Int) ≤ h := Int.natCast_nonneg h
  have hne : ((c :: line).length : Int) ≠ 0 := by
    rw [List.length_cons]
    omega
  simp only [ioqueueGetchar, queue_acquire hq.lock, ok_bind, hq.head, hq.size, ge_iff_le,
    ASSERT_true hpos, hdist, if_neg hne, queue_release, advance_eq hrest.bound hq.le, pure_eq_ok,
    hc]
  exact ⟨_, rfl, rfl, rfl, rfl, hq.spans.le, hrest⟩

/-- `ioqueue_putchar` appends a byte, if the line has room for it. -/
theorem putchar (hq : QueueOk n h q line) (c : Byte) (current : Tid) :
    ∃ q', ioqueuePutchar q c current = .ok q' ∧
      QueueOk n h q' (if line.length < n then line ++ [c] else line) := by
  have hdist := Spans.distance_eq hq.le hq.spans
  have hbound := hq.spans.bound
  have hpos : 0 ≤ q.tail := by
    rw [hq.spans.tail]
    exact Int.natCast_nonneg _
  have hfree : wrap32 ((n + 1 : Nat) - 1) = n := by
    rw [wrap32_eq (by omega) (by omega)]
    omega
  simp only [ioqueuePutchar, queue_acquire hq.lock, ok_bind, ge_iff_le, ASSERT_true hpos, hq.head,
    hq.size, hdist, hfree, Int.ofNat_lt]
  -- the waiters that are popped do not count
  by_cases hroom : line.length < n
  · simp only [if_pos hroom]
    split <;> simp only [queue_release]
    · exact ⟨_, rfl, rfl, rfl, rfl, hq.le, hq.spans.push hroom c⟩
    · exact ⟨_, rfl, rfl, rfl, rfl, hq.le, hq.spans.push hroom c⟩
  · simp only [if_neg hroom]
    split <;> simp only [queue_release]
    · exact ⟨_, rfl, rfl, rfl, rfl, hq.le, hq.spans⟩
    · exact ⟨_, rfl, rfl, rfl, rfl, hq.le, hq.spans⟩

/-- `ioqueue_pop_back_char` drops the last byte. -/
theorem popBackChar (hq : QueueOk n h q line) (current : Tid) :
    ∃ q', ioqueuePopBackChar q current = .ok q' ∧ QueueOk n h q' line.dropLast := by
  have hdist := Spans.distance_eq hq.le hq.spans
  simp only [ioqueuePopBackChar, queue_acquire hq.lock, ok_bind, hq.head, hq.size, hdist]
  cases line with
  | nil =>
      simp only [List.length_nil, Int.natCast_zero, gt_iff_lt, lt_self_iff_false, if_false,
        queue_release]
      exact ⟨_, rfl, rfl, rfl, rfl, hq.le, hq.spans⟩
  | cons c line =>
      have hpos : ((c :: line).length : Int) > 0 := by
        rw [List.length_cons]
        omega
      simp only [if_pos hpos, queue_release]
      exact ⟨_, rfl, rfl, rfl, rfl, hq.le, hq.spans.dropLast (List.cons_ne_nil c line)⟩

/-- `ioqueue_getline` copies what fits of the first line and drops the line. The result counts the
newline. -/
theorem getline (hq : QueueOk n h q line) (hmem : NEWLINE ∈ line) (count : Int) (current : Tid) :
    ∃ q' h', ioqueueGetline q count current
        = .ok (((fitting count 0 (beforeNewline line)).length + 1 : Nat),
            fitting count 0 (firstLine line), q') ∧
      QueueOk n h' q' (fromNewline line).tail := by
  have hs := hq.spans
  have hlen := hs.length
  have hbound := hs.bound
  have hfuel : line.length < (n + 1 : Nat) + 1 := by omega
  -- The first loop stops where the reader is full or the line ends, the second one at the newline.
  obtain ⟨j, l', hcopy, hspan, hmem', hsame⟩ :=
    copyLine_ok hs hmem hfuel count (c := 0) (by omega) []
  have hfuel' : l'.length < n + 1 + 1 := by
    have hlen := hspan.length
    omega
  obtain ⟨k, hskip, hend, hne⟩ := skipLine_ok hspan hmem' hfuel'
  have hscan := scanLine_true hs hmem hfuel
  have hhead := advance_eq hs.bound hq.le
  have hcopied : (fitting count 0 (beforeNewline line)).length ≤ line.length := fitting_length_le
  have hret : wrap32 ((0 + (fitting count 0 (beforeNewline line)).length : Nat) + 1)
      = ((fitting count 0 (beforeNewline line)).length + 1 : Nat) := by
    rw [wrap32_eq (by omega) (by omega)]
    omega
  obtain ⟨lock, charCond, lineCond, addr, buf, bufSize, head, tail⟩ := q
  obtain ⟨hlock, hsize, hcell, -, -⟩ := hq
  subst hlock hsize hcell
  rw [ioqueueGetline, queue_acquire rfl, ok_bind]
  simp only [Int.toNat_natCast]
  rw [hhead, hscan, ok_bind, if_neg Bool.true_eq_false_eq_False]
  rw [Int.natCast_zero] at hcopy
  rw [hcopy, ok_bind]
  simp only [hskip, ok_bind, queue_release, pure_eq_ok, hret]
  rw [← hsame]
  cases hrest : fromNewline l' with
  | nil => exact absurd hrest hne
  | cons b rest =>
      rw [hrest] at hend
      exact ⟨_, k, rfl, rfl, rfl, rfl, hend.le, hend.uncons.2⟩

/-- Every call that does not wait returns, and does the same to the line. -/
theorem next {line : List Byte} (hq : QueueOk n h q line) {a : IoqueueAct}
    (henabled : KeyboardState.Enabled ⟨q, line⟩ a) :
    ∃ q' h', KeyboardState.next n ⟨q, line⟩ a = .ok ⟨q', lineAfter n line a⟩ ∧
      QueueOk n h' q' (lineAfter n line a) := by
  cases a with
  | putchar c current =>
      obtain ⟨q', hput, hok⟩ := hq.putchar c current
      simp only [KeyboardState.next, KeyboardState.queueAfter, hput, ok_bind, pure_eq_ok]
      exact ⟨q', h, rfl, hok⟩
  | popBackChar current =>
      obtain ⟨q', hpop, hok⟩ := hq.popBackChar current
      simp only [KeyboardState.next, KeyboardState.queueAfter, hpop, ok_bind, pure_eq_ok]
      exact ⟨q', h, rfl, hok⟩
  | getchar current =>
      cases line with
      | nil => exact absurd rfl henabled
      | cons c line =>
          obtain ⟨q', hget, hok⟩ := hq.getchar current
          simp only [KeyboardState.next, KeyboardState.queueAfter, hget, ok_bind, pure_eq_ok]
          exact ⟨q', _, rfl, hok⟩
  | getline count current =>
      obtain ⟨q', h', hget, hok⟩ := hq.getline henabled count current
      simp only [KeyboardState.next, KeyboardState.queueAfter, hget, ok_bind, pure_eq_ok]
      exact ⟨q', h', rfl, hok⟩

end QueueOk

/-! ### Runs -/

/-- The ring holds the line in every run. -/
theorem ioqueueSystem_inductive {n : Nat} (hn : n < 2 ^ 31) :
    (ioqueueSystem n).Inductive fun s => ∃ h, QueueOk n h s.queue s.line where
  init hinit := by
    obtain ⟨⟨q₀, b, m, current, b', m', -, hq⟩, hline⟩ := hinit
    rw [hline]
    exact ⟨n, QueueOk.init hn hq⟩
  step := by
    rintro s s' a ⟨h, hq⟩ henabled hnext
    obtain ⟨q', h', hok, hq'⟩ := hq.next henabled
    obtain rfl := Except.ok.inj (hok.symm.trans hnext)
    exact ⟨h', hq'⟩

/-- The keyboard queue is a bounded line, for every size and every run of calls that do not wait.
Its bytes from `head + 1` up to `tail` are the line. Every such call returns, so no assertion
fails, and does to the bytes what it does to the line. `ioqueue_getchar` returns the first
byte. -/
theorem ioqueueSystem_refines {n : Nat} (hn : n < 2 ^ 31) {s : KeyboardState}
    (hs : (ioqueueSystem n).Reachable s) :
    s.queue.content = s.line ∧ s.line.length ≤ n ∧
    (∀ a, s.Enabled a → ∃ q', s.next n a = .ok ⟨q', lineAfter n s.line a⟩ ∧
      q'.content = lineAfter n s.line a) ∧
    ∀ c line current, s.line = c :: line → ∃ q', ioqueueGetchar s.queue current = .ok (c, q') := by
  obtain ⟨h, hq⟩ := (ioqueueSystem_inductive hn).reachable hs
  refine ⟨hq.content, hq.spans.length, fun a henabled => ?_, fun c line current hline => ?_⟩
  · obtain ⟨q', h', hok, hq'⟩ := hq.next henabled
    exact ⟨q', hok, hq'.content⟩
  · rw [hline] at hq
    obtain ⟨q', hget, -⟩ := hq.getchar current
    exact ⟨q', hget⟩

/-- The queue of the keyboard driver can be made: `kmalloc` has a page with two free blocks of 116
bytes. -/
theorem exists_keyboard : ∃ q, (ioqueueSystem 100).init ⟨q, []⟩ := by
  let q : Ioqueue := ⟨mutexLockInit, condInit, condInit, 0, fun _ => 0, 0, 0, 0⟩
  let b : Buddy := ⟨0, 0, 0, fun _ => ⟨0, 0⟩, fun _ => ⟨none, none⟩,
    fun _ _ => ⟨0, ⟨0, fun _ => 0, 0, mutexLockInit⟩, listInit⟩⟩
  let m : KMem :=
    { list := fun l =>
        if l = .part 2 then ⟨some 0xc0001000, some 0xc0001000⟩
        else if l = .block 0xc0001000 then ⟨some 0xc0001020, some 0xc0001020⟩ else listInit
      desc := fun _ => ⟨35, 2, 2, false⟩
      links := fun _ => ⟨none, none⟩ }
  obtain ⟨q', b', m', hinit⟩ : ∃ q' b' m', ioqueueInit q b m 100 0 = .ok (q', b', m') :=
    ⟨_, _, _, rfl⟩
  exact ⟨q', ⟨q, b, m, 0, b', m', rfl, hinit⟩, rfl⟩

/-- The queue of the keyboard driver, after the first key. -/
theorem ioqueueSystem_refines_100 : ∃ s, (ioqueueSystem 100).Reachable s ∧
    s.queue.content = [0x61] ∧ s.line = [0x61] := by
  obtain ⟨q', hstart⟩ := exists_keyboard
  have henabled : (ioqueueSystem 100).enabled ⟨q', []⟩ (.putchar 0x61 0) := trivial
  obtain ⟨q₁, hnext, -⟩ :=
    (ioqueueSystem_refines (by decide) (.init hstart)).2.2.1 (.putchar 0x61 0) henabled
  have hs := System.Reachable.step (.init hstart) henabled hnext
  exact ⟨_, hs, (ioqueueSystem_refines (by decide) hs).1, rfl⟩

end Fizzos.Proofs
