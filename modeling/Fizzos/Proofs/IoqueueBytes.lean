import Fizzos.Device.IoqueueBytes
import Fizzos.Proofs.Ioqueue

/-!
# `Fizzos.Proofs.IoqueueBytes`: one byte more than there is

A ring for `buf_size` bytes has `buf_size + 1` cells, and `ioqueue_init` asks `kmalloc` for
`buf_size` bytes. It clears all the cells at once, so the last one is written behind the allocation
before any byte is in the queue (`ring_overruns`). The calls stay in the cells (`QueueOk.offsets`).

The lists of offsets are all that a call reads: with the same bytes there, it has the same result
(`getline_stable`).
-/

set_option autoImplicit false

namespace Fizzos.Proofs

open Fizzos.Device
open Fizzos.Kernel
open Fizzos.Support

/-! ### The offsets are all that is read -/

section
variable {buf buf' : Int → Byte} {tail size count : Int}

/-- The search for the end of the line reads the cells of `scanOffsets` and no others. -/
theorem scanLine_stable {n : Nat} {i : Int}
    (h : ∀ k ∈ scanOffsets buf tail size n i, buf' k = buf k) :
    scanLine buf' tail size n i = scanLine buf tail size n i := by
  induction n generalizing i with
  | zero => rfl
  | succ n ih =>
      rw [scanOffsets] at h
      rw [scanLine, scanLine]
      by_cases htail : i = tail
      · rw [if_pos htail, if_pos htail]
      · rw [if_neg htail] at h
        rw [if_neg htail, if_neg htail]
        by_cases hnl : buf i = NEWLINE
        · rw [if_pos hnl] at h
          rw [h i List.mem_cons_self]
          simp only [if_pos hnl]
        · rw [if_neg hnl] at h
          rw [h i List.mem_cons_self, if_neg hnl, if_neg hnl]
          exact ih fun k hk => h k (List.mem_cons_of_mem _ hk)

/-- The loop that copies the line reads the cells of `copyOffsets`, whatever else the buffer
holds. -/
theorem copyLine_stable {n : Nat} {head c : Int} {dest : List Byte}
    (h : ∀ k ∈ copyOffsets buf size count n head c, buf' k = buf k) :
    copyLine buf' tail size count n head c dest = copyLine buf tail size count n head c dest := by
  induction n generalizing head c dest with
  | zero => rfl
  | succ n ih =>
      rw [copyOffsets] at h
      rw [copyLine, copyLine]
      by_cases hmore : count = -1 ∨ c < count
      · rw [if_pos hmore] at h
        rw [if_pos hmore, if_pos hmore]
        by_cases hnl : buf head = NEWLINE
        · rw [if_pos hnl] at h
          rw [h head List.mem_cons_self]
          simp only [if_pos hnl]
        · rw [if_neg hnl] at h
          rw [h head List.mem_cons_self, if_neg hnl, if_neg hnl,
            ih fun k hk => h k (List.mem_cons_of_mem _ hk)]
      · rw [if_neg hmore, if_neg hmore]

/-- The loop that drops the rest of the line, in the same way. -/
theorem skipLine_stable {n : Nat} {head : Int}
    (h : ∀ k ∈ skipOffsets buf size n head, buf' k = buf k) :
    skipLine buf' tail size n head = skipLine buf tail size n head := by
  induction n generalizing head with
  | zero => rfl
  | succ n ih =>
      rw [skipOffsets] at h
      rw [skipLine, skipLine]
      by_cases hnl : buf head = NEWLINE
      · rw [if_pos hnl] at h
        rw [h head List.mem_cons_self]
        simp only [if_pos hnl]
      · rw [if_neg hnl] at h
        rw [h head List.mem_cons_self, if_neg hnl, if_neg hnl,
          ih fun k hk => h k (List.mem_cons_of_mem _ hk)]

end

/-- What `ioqueue_getline` gives to its caller, and where it leaves `head`. -/
def getlineAnswer (q : Ioqueue) (count : Int) (current : Tid) :
    Except Halt (Int × List Byte × Int) := do
  let (ret, dest, q) ← ioqueueGetline q count current
  pure (ret, dest, q.head)

/-- `ioqueue_getline` depends on the bytes at its offsets only. -/
theorem getline_stable {q : Ioqueue} (hlock : q.lock = mutexLockInit) {buf' : Int → Byte}
    {count : Int} (h : ∀ k ∈ getlineOffsets q count, buf' k = q.buf k) (current : Tid) :
    getlineAnswer { q with buf := buf' } count current = getlineAnswer q count current := by
  obtain ⟨lock, charCond, lineCond, addr, buf, bufSize, head, tail⟩ := q
  subst hlock
  simp only [getlineAnswer, ioqueueGetline, queue_acquire, ok_bind]
  simp only [getlineOffsets] at h
  -- the first loop reads a part of the offsets in each case
  have hscan : scanLine buf' tail bufSize (bufSize.toNat + 1) (advance head bufSize)
      = scanLine buf tail bufSize (bufSize.toNat + 1) (advance head bufSize) := by
    refine scanLine_stable fun k hk => h k ?_
    split
    · split
      · exact List.mem_append_left _ (List.mem_append_left _ hk)
      · exact List.mem_append_left _ hk
    · exact hk
  rw [hscan]
  cases hfound : scanLine buf tail bufSize (bufSize.toNat + 1) (advance head bufSize) with
  | error e => rfl
  | ok found =>
      cases found with
      | false => rfl
      | true =>
          rw [hfound] at h
          dsimp only at h
          have hcopy : copyLine buf' tail bufSize count (bufSize.toNat + 1)
              (advance head bufSize) 0 []
              = copyLine buf tail bufSize count (bufSize.toNat + 1)
                (advance head bufSize) 0 [] := by
            refine copyLine_stable fun k hk => h k ?_
            split
            · exact List.mem_append_left _ (List.mem_append_right _ hk)
            · exact List.mem_append_right _ hk
          rw [ok_bind, ok_bind, if_neg Bool.true_eq_false_eq_False,
            if_neg Bool.true_eq_false_eq_False, hcopy]
          cases hcopied : copyLine buf tail bufSize count (bufSize.toNat + 1)
              (advance head bufSize) 0 [] with
          | error e => rfl
          | ok r =>
              obtain ⟨next, c, dest⟩ := r
              rw [hcopied] at h
              have hskip : skipLine buf' tail bufSize (bufSize.toNat + 1) next
                  = skipLine buf tail bufSize (bufSize.toNat + 1) next :=
                skipLine_stable fun k hk => h k (List.mem_append_right _ hk)
              simp only [ok_bind, hskip]
              cases skipLine buf tail bufSize (bufSize.toNat + 1) next with
              | error e => rfl
              | ok last => simp only [ok_bind, queue_release, pure_eq_ok]

/-! ### The offsets are cells -/

/-- The offset of a cell in a ring of `n + 1`. -/
def IsCell (n : Nat) (k : Int) : Prop := 0 ≤ k ∧ k ≤ n

section
variable {n i : Nat} {buf : Int → Byte} {tail count k : Int}

/-- An index up to `n` is a cell of a buffer with `n + 1` of them. -/
theorem isCell_nat (hi : i ≤ n) : IsCell n i := ⟨Int.natCast_nonneg i, Int.ofNat_le.mpr hi⟩

/-- An index that goes round stays in the buffer. -/
theorem mod_le (i n : Nat) : (i + 1) % (n + 1) ≤ n :=
  Nat.lt_succ_iff.mp (Nat.mod_lt _ (Nat.succ_pos n))

/-- The search goes round the buffer, and stays inside. -/
theorem scanOffsets_cells (hn : n < 2 ^ 30) {fuel : Nat} (hi : i ≤ n)
    (hk : k ∈ scanOffsets buf tail (n + 1 : Nat) fuel i) : IsCell n k := by
  induction fuel generalizing i with
  | zero => exact absurd hk List.not_mem_nil
  | succ fuel ih =>
      rw [scanOffsets, advance_eq hn hi] at hk
      split at hk
      · exact absurd hk List.not_mem_nil
      split at hk
      · exact List.mem_singleton.mp hk ▸ isCell_nat hi
      · rcases List.mem_cons.mp hk with rfl | hk
        · exact isCell_nat hi
        · exact ih (mod_le i n) hk

/-- The copy starts at the head, which is in the buffer, and stays inside. -/
theorem copyOffsets_cells (hn : n < 2 ^ 30) {fuel : Nat} {c : Int} (hi : i ≤ n)
    (hk : k ∈ copyOffsets buf (n + 1 : Nat) count fuel i c) : IsCell n k := by
  induction fuel generalizing i c with
  | zero => exact absurd hk List.not_mem_nil
  | succ fuel ih =>
      rw [copyOffsets, advance_eq hn hi] at hk
      split at hk
      · split at hk
        · exact List.mem_singleton.mp hk ▸ isCell_nat hi
        · rcases List.mem_cons.mp hk with rfl | hk
          · exact isCell_nat hi
          · exact ih (mod_le i n) hk
      · exact absurd hk List.not_mem_nil

/-- So does the loop behind it. -/
theorem skipOffsets_cells (hn : n < 2 ^ 30) {fuel : Nat} (hi : i ≤ n)
    (hk : k ∈ skipOffsets buf (n + 1 : Nat) fuel i) : IsCell n k := by
  induction fuel generalizing i with
  | zero => exact absurd hk List.not_mem_nil
  | succ fuel ih =>
      rw [skipOffsets, advance_eq hn hi] at hk
      split at hk
      · exact List.mem_singleton.mp hk ▸ isCell_nat hi
      · rcases List.mem_cons.mp hk with rfl | hk
        · exact isCell_nat hi
        · exact ih (mod_le i n) hk

/-- The second loop stops at a cell. -/
theorem copyLine_cell (hn : n < 2 ^ 30) {fuel : Nat} {head c c' : Int} {dest dest' : List Byte}
    (hi : i ≤ n)
    (hok : copyLine buf tail (n + 1 : Nat) count fuel i c dest = .ok (head, c', dest')) :
    ∃ j ≤ n, head = (j : Nat) := by
  induction fuel generalizing i c dest with
  | zero => cases hok
  | succ fuel ih =>
      rw [copyLine, advance_eq hn hi] at hok
      split at hok
      · split at hok
        · cases hok
          exact ⟨i, hi, rfl⟩
        · obtain ⟨u, -, hok⟩ := bind_eq_ok.mp hok
          exact ih (mod_le i n) hok
      · cases hok
        exact ⟨i, hi, rfl⟩

end

namespace QueueOk

variable {n h : Nat} {q : Ioqueue} {line : List Byte}

/-- A call touches cells of the ring only. -/
theorem offsets (hq : QueueOk n h q line) (a : IoqueueAct) {k : Int}
    (hk : k ∈ ioqueueOffsets q a) : IsCell n k := by
  have hn := hq.spans.bound
  have hfirst := mod_le h n
  have hhead : advance q.head (n + 1 : Nat) = ((h + 1) % (n + 1) : Nat) := by
    rw [hq.head, advance_eq hn hq.le]
  cases a with
  | putchar c current =>
      rw [ioqueueOffsets] at hk
      split at hk
      · rw [List.mem_singleton.mp hk, hq.spans.tail]
        exact isCell_nat (Nat.lt_succ_iff.mp (Nat.mod_lt _ (Nat.succ_pos n)))
      · exact absurd hk List.not_mem_nil
  | popBackChar current => exact absurd hk List.not_mem_nil
  | getchar current =>
      rw [ioqueueOffsets, hq.size, hhead] at hk
      split at hk
      · exact absurd hk List.not_mem_nil
      · exact List.mem_singleton.mp hk ▸ isCell_nat hfirst
  | getline count current =>
      have hscanned : ∀ {fuel}, k ∈ scanOffsets q.buf q.tail (n + 1 : Nat) fuel
          ((h + 1) % (n + 1) : Nat) → IsCell n k := scanOffsets_cells hn hfirst
      have hcopied : ∀ {fuel}, k ∈ copyOffsets q.buf (n + 1 : Nat) count fuel
          ((h + 1) % (n + 1) : Nat) 0 → IsCell n k := copyOffsets_cells hn hfirst
      simp only [ioqueueOffsets, getlineOffsets, hq.size, hhead] at hk
      split at hk
      · split at hk
        next hcopy =>
          -- The rest of the line is dropped from the cell on at which the copy stops.
          obtain ⟨j, hj, rfl⟩ := copyLine_cell hn hfirst hcopy
          rcases List.mem_append.mp hk with hk | hk
          · exact (List.mem_append.mp hk).elim hscanned hcopied
          · exact skipOffsets_cells hn hj hk
        next => exact (List.mem_append.mp hk).elim hscanned hcopied
      · exact hscanned hk

/-- Any call leaves a queue in order, also one that waits. -/
theorem after (hq : QueueOk n h q line) (a : IoqueueAct) :
    ∃ h' q' line', (ioqueueSystem n).after ⟨q, line⟩ a = ⟨q', line'⟩ ∧ QueueOk n h' q' line' := by
  by_cases henabled : KeyboardState.Enabled ⟨q, line⟩ a
  · obtain ⟨q', h', hnext, hok⟩ := hq.next henabled
    refine ⟨h', q', _, ?_, hok⟩
    show (KeyboardState.next n ⟨q, line⟩ a).toOption.getD _ = _
    rw [hnext]
    rfl
  · -- the call waits, and nothing has changed
    refine ⟨h, q, line, ?_, hq⟩
    show (KeyboardState.next n ⟨q, line⟩ a).toOption.getD _ = _
    cases a with
    | putchar c current => exact absurd trivial henabled
    | popBackChar current => exact absurd trivial henabled
    | getchar current =>
        -- the queue is empty: the call waits behind its first test
        obtain rfl : line = [] := not_not.mp henabled
        have hdist : distance q.tail q.bufSize q.head = 0 := by
          rw [hq.size, hq.head, Spans.distance_eq hq.le hq.spans]
          rfl
        have hpos : q.head ≥ 0 := by
          rw [hq.head]
          exact Int.natCast_nonneg h
        simp only [KeyboardState.next, KeyboardState.queueAfter, ioqueueGetchar,
          queue_acquire hq.lock, ok_bind, ASSERT_true hpos, if_pos hdist]
        rfl
    | getline count current =>
        -- no newline in the queue: the first loop comes to the tail
        have hfuel : line.length < q.bufSize.toNat + 1 := by
          have hlen := hq.spans.length
          rw [hq.size]
          omega
        have hscan := scanLine_false hq.spans henabled hfuel
        have hhead := advance_eq hq.spans.bound hq.le
        rw [← hq.size, ← hq.head] at hhead
        rw [← hhead, ← hq.size] at hscan
        simp only [KeyboardState.next, KeyboardState.queueAfter, ioqueueGetline,
          queue_acquire hq.lock, ok_bind, hscan, if_true]
        rfl

/-- A run of calls touches cells only. -/
theorem runOffsets {acts : List IoqueueAct} (hq : QueueOk n h q line) {k : Int}
    (hk : k ∈ Device.runOffsets n ⟨q, line⟩ acts) : IsCell n k := by
  induction acts generalizing h q line with
  | nil => exact absurd hk List.not_mem_nil
  | cons a acts ih =>
      rw [Device.runOffsets] at hk
      rcases List.mem_append.mp hk with hk | hk
      · exact hq.offsets a hk
      · obtain ⟨h', q', line', hafter, hok⟩ := hq.after a
        rw [hafter] at hk
        exact ih hok hk

end QueueOk

/-- For every size and every run of calls: `ioqueue_init` writes behind the bytes that it has asked
for. The run stays in one byte more than that. -/
theorem ring_overruns {n : Nat} (hpos : 1 ≤ n) (hn : n < 2 ^ 31) {s : KeyboardState}
    (hinit : KeyboardState.Init n s) (acts : List IoqueueAct) :
    ¬StaysInside n s acts ∧ InitWrites n n ∧ (∀ k, InitWrites n k → 0 ≤ k ∧ k < requested n + 1) ∧
      ∀ k ∈ runOffsets n s acts, 0 ≤ k ∧ k < requested n + 1 := by
  have hrequested : (requested n : Int) = n := by
    rw [requested]
    omega
  -- the cell `n` is the last of `n + 1`, and the first byte behind the allocation
  have hlast : InitWrites n n := by
    rw [InitWrites]
    omega
  refine ⟨fun h => ?_, hlast, fun k hk => ?_, fun k hk => ?_⟩
  · have hlt := (h.init n hlast).2
    omega
  · rw [InitWrites] at hk
    omega
  · obtain ⟨⟨q₀, b, m, current, b', m', -, hq⟩, hline⟩ := hinit
    obtain ⟨q, line⟩ := s
    obtain rfl : line = [] := hline
    obtain ⟨hlo, hhi⟩ := (QueueOk.init hn hq).runOffsets hk
    omega

/-- The queue of the keyboard driver with any run of calls. -/
theorem ring_overruns_keyboard : ∃ s, KeyboardState.Init 100 s ∧
    ∀ acts, ¬StaysInside 100 s acts := by
  obtain ⟨q, hinit⟩ := exists_keyboard
  exact ⟨⟨q, []⟩, hinit, fun acts => (ring_overruns (by decide) (by decide) hinit acts).1⟩

/-- `ioqueue_init` of the keyboard driver asks for 100 bytes and writes the byte at 100, the one
that tells a full ring from an empty one. -/
theorem ring_writes_101 : requested 100 = 100 ∧ InitWrites 100 100 ∧
    ∃ s, KeyboardState.Init 100 s ∧ ¬StaysInside 100 s [] := by
  obtain ⟨q, hinit⟩ := exists_keyboard
  refine ⟨rfl, by decide, ⟨q, []⟩, hinit, fun h => ?_⟩
  exact absurd (h.init 100 (by decide)).2 (by decide)

end Fizzos.Proofs
