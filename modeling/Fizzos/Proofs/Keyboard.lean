import Fizzos.Device.Keyboard
import Fizzos.Proofs.Console
import Fizzos.Proofs.Ioqueue
import Fizzos.Proofs.PutChar

/-!
# `Fizzos.Proofs.Keyboard`: what is typed is what is read

The state of the keyboard is a function of what happened: the modifier keys are up or down by their
last scan codes, and the queue has the text that has been typed and not been read
(`keyboard_refines`).

The handler gives a backspace to the screen also when the queue is empty. At the first cell this is
the backspace that `put_char` does not return from (`handler_first`).
-/

set_option autoImplicit false

namespace Fizzos.Proofs

open Fizzos.Device
open Fizzos.Kernel
open Fizzos.LibKernel
open Fizzos.Support

/-! ### The echo -/

/-- A character on the screen. A `'\0'` ends the string of `put_str`. -/
def echo (s : Screen) (c : Byte) : Except Halt Screen := if c = 0 then pure s else putChar s c

/-- `"%c"` stores the character and a `'\0'`. -/
theorem vsnprint_char (m : Lib.CharMem) (c : Byte) :
    vsnprint m (2 ^ 32 - 1) [PERCENT, ascii 'c'] (Keyboard.charArg c)
      = .ok (1, (m.store 0 c).store 1 0) := by
  have harg : ∀ d : Byte, (d.signExtend 32).setWidth 8 = d := by decide +kernel
  have hbelow : below 0 (2 ^ 32 - 1) := by decide
  have hletter : ascii 'c' ≠ PERCENT := by decide
  have hconvert (s : PrintState) (hs : s.destIdx = 0) : convert (Keyboard.charArg c) (ascii 'c') s
      = .ok { s with dest := s.dest.store 0 c, destIdx := 1, ap := s.ap + 1 } := by
    rw [convert, if_neg (by decide), if_neg (by decide), if_pos (by decide), hs]
    show Except.ok
      { s with dest := s.dest.store 0 ((c.signExtend 32).setWidth 8), destIdx := _, ap := _ } = _
    rw [harg]
    rfl
  rw [vsnprint, vsnprintLoop, if_pos hbelow, if_neg (fun h => h.1 rfl), if_pos rfl, vsnprintLoop,
    if_pos hbelow, if_neg (fun h => Bool.noConfusion h.2), if_neg hletter, ASSERT_true rfl, ok_bind,
    hconvert _ rfl, ok_bind]
  rfl

/-- `printk("%c")` prints its character, and nothing for the character 0. -/
theorem vprintk_char (buf : Int → Byte) (c : Byte) : ∃ buf',
    vprintk buf [PERCENT, ascii 'c'] (Keyboard.charArg c)
      = .ok (if c = 0 then [] else [c], buf') := by
  obtain ⟨m, hm⟩ : ∃ m : Lib.CharMem, m = (Stored.store ⟨buf, []⟩ 0 c).store 1 0 := ⟨_, rfl⟩
  have hfirst : m.mem 0 = c := by rw [hm]; rfl
  have hend : m.mem 1 = 0 := by rw [hm]; rfl
  have hput : putStr m.mem (2 ^ 32) 0 = .ok (if c = 0 then [] else [c]) := by
    by_cases hzero : c = 0
    · rw [if_pos hzero]
      exact putStr_eq (by simp) (by simp) (hfirst.trans hzero) (Nat.zero_le _)
    · rw [if_neg hzero]
      exact putStr_eq (by simpa using hfirst) (by simpa using hzero) hend Nat.one_le_two_pow
  refine ⟨m, ?_⟩
  rw [vprintk, vsnprint_char, ok_bind, ← hm]
  simp only [hput, ok_bind]
  rfl

/-- `console_printk` of a character. -/
theorem printk_char {s : ConsoleState} (hlock : s.lock = mutexLockInit) (c : Byte) (current : Tid) :
    ∃ buf, s.printk [PERCENT, ascii 'c'] (Keyboard.charArg c) current
      = (echo s.screen c).map fun screen => ⟨mutexLockInit, buf, screen⟩ := by
  obtain ⟨buf, hshown⟩ := vprintk_char s.buf c
  refine ⟨buf.mem, ?_⟩
  have hecho : (if c = 0 then [] else [c]).foldlM putChar s.screen = echo s.screen c := by
    unfold echo
    split
    · rfl
    · rw [List.foldlM_cons]
      exact bind_pure _
  simp only [ConsoleState.printk, ConsoleState.acquire, ConsoleState.release, hlock,
    mutexAcquire_init, ok_bind, pure_eq_ok, hshown, hecho]
  cases echo s.screen c with
  | error e => rfl
  | ok screen => simp only [ok_bind, mutexRelease_one, Except.map]

/-- The echo of a character. -/
theorem echo_step {s : Screen} {c : Byte} (h : s.cursor.toNat < 2000)
    (hback : ¬(c = BACKSPACE ∧ s.cursor.toNat = 0)) :
    ∃ s', echo s c = .ok s' ∧ s'.cursor.toNat < 2000 := by
  unfold echo
  split
  · exact ⟨s, rfl, h⟩
  · obtain ⟨s', hput, hpos, -⟩ := putChar_step h hback
    exact ⟨s', hput, by rw [hpos]; exact nextPos_lt h c⟩

/-! ### The handler -/

/-- The keyboard between two steps. `line` is what the queue has. -/
structure KeyboardOk (k : Keyboard) (line : List Byte) : Prop where
  queue : ∃ h, QueueOk 100 h k.queue line
  lock : k.console.lock = mutexLockInit
  cursor : k.console.screen.cursor.toNat < 2000

/-- A key is down or up by its last scan code. -/
theorem held_cons (makes breaks codes : List Byte) (code : Byte) :
    held makes breaks (code :: codes) = afterKey makes breaks (held makes breaks codes) code := by
  unfold held afterKey
  by_cases hmake : code ∈ makes
  · simp [hmake]
  · by_cases hbreak : code ∈ breaks
    · simp [hmake, hbreak]
    · simp [hmake, hbreak]

/-- Caps changes with each make code of its key. -/
theorem capsOn_cons (codes : List Byte) (code : Byte) :
    capsOn (code :: codes) = if code = CAPS_MAKE then !capsOn codes else capsOn codes := by
  unfold capsOn
  by_cases hcaps : code = CAPS_MAKE
  · have hodd (n : Nat) : (n + 1) % 2 = 1 ↔ ¬n % 2 = 1 := by omega
    rw [if_pos hcaps, hcaps, List.count_cons_self, decide_eq_decide.mpr (hodd _), decide_not]
  · rw [if_neg hcaps, List.count_cons_of_ne hcaps]

/-- Which branches of the handler a key with a character does not take. -/
theorem isChar_spec : ∀ code : Byte, IsChar code → code ≠ 0xE0 ∧ ¬code &&& 0x80 ≠ 0 ∧ code ≤ 0x3a ∧
    code ≠ L_SHFT_MAKE ∧ code ≠ R_SHFT_MAKE ∧ code ≠ L_CTRL_MAKE ∧ code ≠ L_ALT_MAKE ∧
    code ≠ CAPS_MAKE := by
  decide +kernel

/-- The codes that `ASSERT(code <= 0x3a)` stops at. -/
def Beyond (code : Byte) : Prop := 0x3a < code ∧ code < 0x80

instance (code : Byte) : Decidable (Beyond code) := inferInstanceAs (Decidable (_ ∧ _))

/-- The codes that fail the assertion are no codes of the other keys. -/
theorem beyond_spec : ∀ code : Byte, Beyond code → code ≠ 0xE0 ∧ ¬code &&& 0x80 ≠ 0 ∧ ¬code ≤ 0x3a ∧
    code ≠ L_SHFT_MAKE ∧ code ≠ R_SHFT_MAKE ∧ code ≠ L_CTRL_MAKE ∧ code ≠ L_ALT_MAKE ∧
    code ≠ CAPS_MAKE := by
  decide +kernel

/-- A code that is left is a break code. -/
theorem high_of_not : ∀ code : Byte, ¬IsChar code → ¬Beyond code →
    code ∉ [L_SHFT_MAKE, R_SHFT_MAKE, L_CTRL_MAKE, L_ALT_MAKE, CAPS_MAKE] → code &&& 0x80 ≠ 0 := by
  decide +kernel

section
variable {k : Keyboard} {line : List Byte} {code : Byte}

/-- `keyboard_handler` stops the kernel. -/
theorem handler_beyond (h : Beyond code) (current : Tid) :
    k.keyboardHandler code current = .error .assertFailed := by
  obtain ⟨he, hhigh, hle, hls, hrs, hctrl, halt, hcaps⟩ := beyond_spec code h
  rw [Keyboard.keyboardHandler, if_neg he, if_neg hhigh, if_neg hls, if_neg hrs, if_neg hctrl,
    if_neg halt,
    if_neg hcaps, ASSERT_false hle]
  rfl

/-- The key of backspace types it, whatever shift and caps are. -/
theorem keyChar_backspace : ∀ code : Byte, IsChar code → ∀ shift caps : Bool,
    (if caps then swapCase (keymapAt code shift) else keymapAt code shift) = BACKSPACE ↔
      code = 0x0e := by
  decide +kernel

/-- A key with a character changes the queue, and gives the character to the screen. -/
theorem handler_char (h : KeyboardOk k line) (hchar : IsChar code) (current : Tid) : ∃ q buf i,
    QueueOk 100 i q (typeChar line (k.keyChar code)) ∧
      k.keyboardHandler code current = (echo k.console.screen (k.keyChar code)).map fun screen =>
        { k with queue := q, console := ⟨mutexLockInit, buf, screen⟩ } := by
  obtain ⟨⟨i, hq⟩, hlock, -⟩ := h
  obtain ⟨buf, hprintk⟩ := printk_char hlock (k.keyChar code) current
  have hqueue : ∃ q, (if k.keyChar code = BACKSPACE then ioqueuePopBackChar k.queue current
      else ioqueuePutchar k.queue (k.keyChar code) current) = .ok q ∧
      QueueOk 100 i q (typeChar line (k.keyChar code)) := by
    unfold typeChar
    split
    · exact hq.popBackChar current
    · exact hq.putchar _ current
  obtain ⟨q, hok, hq'⟩ := hqueue
  obtain ⟨he, hhigh, hle, hls, hrs, hctrl, halt, hcaps⟩ := isChar_spec code hchar
  refine ⟨q, buf, i, hq', ?_⟩
  rw [Keyboard.keyboardHandler, if_neg he, if_neg hhigh, if_neg hls, if_neg hrs, if_neg hctrl,
    if_neg halt, if_neg hcaps, ASSERT_true hle, ok_bind]
  simp only [hok, hprintk, ok_bind, pure_eq_ok]
  cases echo k.console.screen (k.keyChar code) with
  | error e => rfl
  | ok screen => rfl

/-- Backspace at the first cell: the echo does not return. -/
theorem handler_first (h : KeyboardOk k line) (hzero : k.console.screen.cursor.toNat = 0)
    (current : Tid) : k.keyboardHandler 0x0e current = .error .hang := by
  have hchar : IsChar 0x0e := by decide
  obtain ⟨q, buf, i, -, hret⟩ := handler_char h hchar current
  have hback : k.keyChar 0x0e = BACKSPACE := (keyChar_backspace _ hchar _ _).mpr rfl
  have hecho : echo k.console.screen BACKSPACE = .error .hang := putChar_first hzero
  rw [hret, hback, hecho]
  rfl

/-- Any other key with a character. -/
theorem handler_echo (h : KeyboardOk k line) (hchar : IsChar code)
    (hfirst : ¬(code = 0x0e ∧ k.console.screen.cursor.toNat = 0)) (current : Tid) : ∃ k',
    k.keyboardHandler code current = .ok k' ∧ KeyboardOk k' (typeChar line (k.keyChar code)) ∧
      k'.shiftStatus = k.shiftStatus ∧ k'.ctrlStatus = k.ctrlStatus ∧ k'.altStatus = k.altStatus ∧
      k'.capsStatus = k.capsStatus ∧
      echo k.console.screen (k.keyChar code) = .ok k'.console.screen := by
  obtain ⟨q, buf, i, hq, hret⟩ := handler_char h hchar current
  obtain ⟨screen, hecho, hcursor⟩ := echo_step (c := k.keyChar code) h.cursor
    fun hback => hfirst ⟨(keyChar_backspace code hchar _ _).mp hback.1, hback.2⟩
  rw [hecho] at hret
  exact ⟨_, hret, ⟨⟨i, hq⟩, rfl, hcursor⟩, rfl, rfl, rfl, rfl, hecho⟩

/-- A key without one. -/
theorem handler_other (hchar : ¬IsChar code) (hin : ¬Beyond code) (current : Tid) :
    k.keyboardHandler code current = .ok { k with
      shiftStatus := afterKey [L_SHFT_MAKE, R_SHFT_MAKE] [L_SHFT_BREAK,
        R_SHFT_BREAK] k.shiftStatus code
      ctrlStatus := afterKey [L_CTRL_MAKE] [L_CTRL_BREAK] k.ctrlStatus code
      altStatus := afterKey [L_ALT_MAKE] [L_ALT_BREAK] k.altStatus code
      capsStatus := if code = CAPS_MAKE then !k.capsStatus else k.capsStatus } := by
  by_cases hspecial : code ∈ [L_SHFT_MAKE, R_SHFT_MAKE, L_CTRL_MAKE, L_ALT_MAKE, CAPS_MAKE,
      L_SHFT_BREAK, R_SHFT_BREAK, L_CTRL_BREAK, L_ALT_BREAK]
  · simp only [List.mem_cons, List.not_mem_nil, or_false] at hspecial
    obtain rfl | rfl | rfl | rfl | rfl | rfl | rfl | rfl | rfl := hspecial <;> rfl
  · simp only [List.mem_cons, List.not_mem_nil, or_false, not_or] at hspecial
    obtain ⟨hls, hrs, hctrl, halt, hcaps, hlsb, hrsb, hctrlb, haltb⟩ := hspecial
    have hhigh := high_of_not code hchar hin (by simp [hls, hrs, hctrl, halt, hcaps])
    have hkeep : k.keyboardHandler code current = .ok k := by
      rw [Keyboard.keyboardHandler, if_pos hhigh, if_neg hlsb, if_neg hrsb,
        if_neg hctrlb, if_neg haltb]
      exact ite_self _
    rw [hkeep]
    simp [afterKey, hls, hrs, hctrl, halt, hcaps, hlsb, hrsb, hctrlb, haltb]

end

/-! ### Runs -/

/-- The state of the keyboard is a function of what happened. -/
structure KeyInv (s : KeyRun) : Prop where
  ok : KeyboardOk s.kbd (typedLine s.log)
  shift : s.kbd.shiftStatus = shiftHeld (codes s.log)
  ctrl : s.kbd.ctrlStatus = held [L_CTRL_MAKE] [L_CTRL_BREAK] (codes s.log)
  alt : s.kbd.altStatus = held [L_ALT_MAKE] [L_ALT_BREAK] (codes s.log)
  caps : s.kbd.capsStatus = capsOn (codes s.log)

/-- A key with a character is none of the others. -/
theorem afterKey_char : ∀ code : Byte, IsChar code → ∀ old,
    afterKey [L_SHFT_MAKE, R_SHFT_MAKE] [L_SHFT_BREAK, R_SHFT_BREAK] old code = old ∧
    afterKey [L_CTRL_MAKE] [L_CTRL_BREAK] old code = old ∧
    afterKey [L_ALT_MAKE] [L_ALT_BREAK] old code = old := by
  decide +kernel

namespace KeyInv

variable {s : KeyRun} {code : Byte}

/-- The queue has the line that was typed. -/
theorem content (h : KeyInv s) : s.kbd.queue.content = typedLine s.log := by
  obtain ⟨i, hq⟩ := h.ok.queue
  exact hq.content

/-- The next character depends on the keys that are down. -/
theorem keyChar (h : KeyInv s) (code : Byte) : s.kbd.keyChar code = typed (codes s.log) code := by
  rw [Keyboard.keyChar, h.shift, h.caps, typed]

/-- A scan code, but for backspace at the first cell. -/
theorem key (h : KeyInv s) (hin : ¬Beyond code) (hfirst : ¬(code = 0x0e ∧ s.cursor = 0))
    (current : Tid) : ∃ k,
    s.kbd.keyboardHandler code current = .ok k ∧ KeyInv ⟨k, .key code current :: s.log⟩ := by
  have hcodes : codes (.key code current :: s.log) = code :: codes s.log := rfl
  by_cases hchar : IsChar code
  · obtain ⟨k, hok, hk, hshift, hctrl, halt, hcaps, -⟩ := handler_echo h.ok hchar hfirst current
    have hne : code ≠ CAPS_MAKE := (isChar_spec code hchar).2.2.2.2.2.2.2
    refine ⟨k, hok, ?_, ?_, ?_, ?_, ?_⟩
    · rw [typedLine, if_pos hchar, ← h.keyChar]
      exact hk
    · rw [hshift, hcodes, shiftHeld, held_cons, (afterKey_char code hchar _).1, h.shift]
      rfl
    · rw [hctrl, hcodes, held_cons, (afterKey_char code hchar _).2.1, h.ctrl]
    · rw [halt, hcodes, held_cons, (afterKey_char code hchar _).2.2, h.alt]
    · rw [hcaps, hcodes, capsOn_cons, if_neg hne, h.caps]
  · refine ⟨_, handler_other hchar hin current, ?_, ?_, ?_, ?_, ?_⟩
    · rw [typedLine, if_neg hchar]
      exact ⟨h.ok.queue, h.ok.lock, h.ok.cursor⟩
    · rw [hcodes, shiftHeld, held_cons, h.shift]
      rfl
    · rw [hcodes, held_cons, h.ctrl]
    · rw [hcodes, held_cons, h.alt]
    · rw [hcodes, capsOn_cons, h.caps]

/-- The scan codes for which the handler returns. -/
theorem of_returns (h : KeyInv s) {current : Tid} {k : Keyboard}
    (hok : s.kbd.keyboardHandler code current = .ok k) :
    ¬Beyond code ∧ ¬(code = 0x0e ∧ s.cursor = 0) := by
  constructor
  · intro hin
    rw [handler_beyond hin current] at hok
    cases hok
  · rintro ⟨rfl, hzero⟩
    rw [handler_first h.ok hzero current] at hok
    cases hok

/-- `keyboard_read` takes the first character. -/
theorem read {c : Byte} {line : List Byte} (h : KeyInv s) (hline : typedLine s.log = c :: line)
    (current : Tid) : ∃ k, s.kbd.keyboardRead current = .ok (c, k) ∧
      KeyInv ⟨k, .read current :: s.log⟩ := by
  obtain ⟨i, hq⟩ := h.ok.queue
  rw [hline] at hq
  obtain ⟨q, hget, hq'⟩ := hq.getchar current
  refine ⟨{ s.kbd with queue := q }, ?_,
    ⟨⟨(i + 1) % (100 + 1), ?_⟩, h.ok.lock, h.ok.cursor⟩, h.shift, h.ctrl, h.alt, h.caps⟩
  · rw [Keyboard.keyboardRead, hget]
    rfl
  · rw [typedLine, hline]
    exact hq'

/-- `keyboard_readline` takes the first line. -/
theorem readline (h : KeyInv s) (hmem : NEWLINE ∈ typedLine s.log) (count : Int)
    (current : Tid) : ∃ k, s.kbd.keyboardReadline count current
      = .ok (((fitting count 0 (beforeNewline (typedLine s.log))).length + 1 : Nat),
          fitting count 0 (firstLine (typedLine s.log)), k) ∧
      KeyInv ⟨k, .readline count current :: s.log⟩ := by
  obtain ⟨i, hq⟩ := h.ok.queue
  obtain ⟨q, i', hget, hq'⟩ := hq.getline hmem count current
  refine ⟨{ s.kbd with queue := q }, ?_, ⟨⟨i', hq'⟩, h.ok.lock, h.ok.cursor⟩, h.shift,
    h.ctrl, h.alt, h.caps⟩
  rw [Keyboard.keyboardReadline, hget]
  rfl

end KeyInv

/-- The invariant holds in every run of scan codes and of calls that read. -/
theorem keyboardSystem_inductive : keyboardSystem.Inductive KeyInv where
  init := by
    rintro s ⟨hlog, hcursor, q, b, m, console, current, -, hinit⟩
    obtain ⟨⟨queue, b', m'⟩, hqueue, hret⟩ := bind_eq_ok.mp hinit
    obtain ⟨kbd, log⟩ := s
    obtain rfl : log = [] := hlog
    obtain rfl := Except.ok.inj hret
    exact ⟨⟨⟨100, QueueOk.init (by decide) hqueue⟩, rfl, hcursor⟩, rfl, rfl, rfl, rfl⟩
  step := by
    rintro s s' a h ha (hok : s.next a = .ok s')
    obtain ⟨k, hk, hret⟩ := bind_eq_ok.mp hok
    obtain rfl := Except.ok.inj hret
    cases a with
    | key code current =>
        have hreturns : s.kbd.keyboardHandler code current = .ok k := hk
        obtain ⟨hin, hfirst⟩ := h.of_returns hreturns
        -- An action is one step of the system only when the handler returns.
        obtain ⟨k', hok', h'⟩ := h.key hin hfirst current
        obtain rfl := Except.ok.inj (hok'.symm.trans hk)
        exact h'
    | read current =>
        have hne : s.kbd.queue.content ≠ [] := ha
        rw [h.content] at hne
        obtain ⟨c, line, hline⟩ := List.exists_cons_of_ne_nil hne
        obtain ⟨k', hread, h'⟩ := h.read hline current
        rw [KeyRun.kbdAfter, hread] at hk
        obtain rfl := Except.ok.inj hk
        exact h'
    | readline count current =>
        have hmem : NEWLINE ∈ s.kbd.queue.content := ha
        rw [h.content] at hmem
        obtain ⟨k', hread, h'⟩ := h.readline hmem count current
        rw [KeyRun.kbdAfter, hread] at hk
        obtain rfl := Except.ok.inj hk
        exact h'

/-- Scan codes that the handler accepts, one after the other. -/
theorem runs_keys {s : KeyRun} {current : Tid} (h : KeyInv s) (cs : List Byte)
    (hin : ∀ code ∈ cs, ¬Beyond code ∧ code ≠ 0x0e) :
    keyboardSystem.Runs s (cs.map (.key · current)) ∧
      KeyInv ((cs.map (.key · current)).foldl keyboardSystem.after s) ∧
      ((cs.map (.key · current)).foldl keyboardSystem.after s).log
        = (cs.map (.key · current)).reverse ++ s.log := by
  induction cs generalizing s with
  | nil => exact ⟨trivial, h, rfl⟩
  | cons code cs ih =>
      obtain ⟨hcode, hne⟩ := hin code List.mem_cons_self
      obtain ⟨k, hok, hk⟩ := h.key hcode (fun hfirst => hne hfirst.1) current
      have hnext : keyboardSystem.next s (.key code current)
          = .ok ⟨k, .key code current :: s.log⟩ := by
        show KeyRun.next s _ = _
        rw [KeyRun.next, KeyRun.kbdAfter, hok]
        rfl
      have hafter : keyboardSystem.after s (.key code current)
          = ⟨k, .key code current :: s.log⟩ := by
        rw [System.after, hnext]
        rfl
      obtain ⟨hruns, hinv, hlog⟩ := ih hk fun c hc => hin c (List.mem_cons_of_mem _ hc)
      rw [List.map_cons, List.foldl_cons, hafter]
      refine ⟨⟨⟨trivial, by rw [hnext]; rfl⟩, ?_⟩, hinv, ?_⟩
      · rw [hafter]
        exact hruns
      · rw [hlog, List.reverse_cons, List.append_assoc]
        rfl

/-- The keyboard is what its log says, in every run of scan codes and of calls that read. Shift,
ctrl and alt are down when their last scan code was a make code, and caps is on when its key went
down an odd number of times. The queue has the text that was typed and not read: `keyboard_read`
takes its first character, and `keyboard_readline` its first line. The handler fails its assertion
for the codes from `0x3b` to `0x7f`. It hangs for backspace at the first cell of the screen, where
the echo faults, and returns for everything else. -/
theorem keyboard_refines {s : KeyRun} (hs : keyboardSystem.Reachable s) :
    s.kbd.shiftStatus = shiftHeld (codes s.log) ∧
    s.kbd.ctrlStatus = held [L_CTRL_MAKE] [L_CTRL_BREAK] (codes s.log) ∧
    s.kbd.altStatus = held [L_ALT_MAKE] [L_ALT_BREAK] (codes s.log) ∧
    s.kbd.capsStatus = capsOn (codes s.log) ∧
    s.kbd.queue.content = typedLine s.log ∧
    (∀ code current, (∃ k, s.kbd.keyboardHandler code current = .ok k) ↔
      (code ≤ 0x3a ∨ 0x80 ≤ code) ∧ ¬(code = 0x0e ∧ s.cursor = 0)) ∧
    (∀ code current, s.kbd.keyboardHandler code current = .error .assertFailed ↔
      0x3a < code ∧ code < 0x80) ∧
    (∀ code current, s.kbd.keyboardHandler code current = .error .hang ↔
      code = 0x0e ∧ s.cursor = 0) ∧
    (∀ c line current, typedLine s.log = c :: line → ∃ k, s.kbd.keyboardRead current = .ok (c, k)) ∧
    ∀ count current, NEWLINE ∈ typedLine s.log → ∃ k, s.kbd.keyboardReadline count current
      = .ok (((fitting count 0 (beforeNewline (typedLine s.log))).length + 1 : Nat),
          fitting count 0 (firstLine (typedLine s.log)), k) := by
  have h := keyboardSystem_inductive.reachable hs
  have hbeyond : ∀ code : Byte, Beyond code ↔ ¬(code ≤ 0x3a ∨ 0x80 ≤ code) := by decide +kernel
  refine ⟨h.shift, h.ctrl, h.alt, h.caps, h.content, fun code current => ⟨?_, ?_⟩,
    fun code current => ⟨fun hfail => ?_, fun hin => handler_beyond hin current⟩,
    fun code current => ⟨fun hhang => ?_, ?_⟩, fun c line current hline => ?_,
    fun count current hmem => ?_⟩
  · rintro ⟨k, hok⟩
    obtain ⟨hin, hfirst⟩ := h.of_returns hok
    exact ⟨by_contra fun hnot => hin ((hbeyond code).mpr hnot), hfirst⟩
  · rintro ⟨hin, hfirst⟩
    obtain ⟨k, hok, -⟩ := h.key (fun hb => (hbeyond code).mp hb hin) hfirst current
    exact ⟨k, hok⟩
  · by_contra hin
    -- Backspace at the first cell does not return, but it fails no assertion either.
    by_cases hfirst : code = 0x0e ∧ s.cursor = 0
    · obtain ⟨rfl, hzero⟩ := hfirst
      rw [handler_first h.ok hzero current] at hfail
      cases hfail
    · obtain ⟨k, hok, -⟩ := h.key hin hfirst current
      rw [hok] at hfail
      cases hfail
  · by_contra hfirst
    by_cases hin : Beyond code
    · rw [handler_beyond hin current] at hhang
      cases hhang
    · obtain ⟨k, hok, -⟩ := h.key hin hfirst current
      rw [hok] at hhang
      cases hhang
  · rintro ⟨rfl, hzero⟩
    exact handler_first h.ok hzero current
  · obtain ⟨k, hread, -⟩ := h.read hline current
    exact ⟨k, hread⟩
  · obtain ⟨k, hread, -⟩ := h.readline hmem count current
    exact ⟨k, hread⟩

/-- The keyboard behind boot. -/
theorem exists_keyRun : ∃ s, keyboardSystem.init s ∧ s.cursor = 0 := by
  obtain ⟨q, ⟨q₀, b, m, current, b', m', hcond, hqueue⟩, -⟩ := exists_keyboard
  let console : ConsoleState := ⟨mutexLockInit, fun _ => 0, ⟨0, ⟨fun _ => 0, []⟩⟩⟩
  refine ⟨⟨⟨q, false, false, false, false, console⟩, []⟩,
    ⟨rfl, show 0 < 2000 by decide, q₀, b, m, console, current, hcond, ?_⟩, rfl⟩
  have hqueue : ioqueueInit q₀ b m 100 current = .ok (q, b', m') := hqueue
  rw [keyboardInit, hqueue]
  rfl

/-- Shift and `a`, and `b` behind them. -/
theorem keyboard_refines_shift : ∃ s, keyboardSystem.Reachable s ∧
    s.kbd.queue.content = [ascii 'A', ascii 'b'] ∧ s.kbd.shiftStatus = false := by
  obtain ⟨s, hinit, -⟩ := exists_keyRun
  obtain ⟨hruns, -, hlog⟩ := @runs_keys s 0 (keyboardSystem_inductive.init hinit)
    [L_SHFT_MAKE, 0x1E, L_SHFT_BREAK, 0x30] (by decide)
  have hs := System.Reachable.runs (.init hinit) hruns
  obtain ⟨hshift, -, -, -, hcontent, -⟩ := keyboard_refines hs
  rw [hlog, hinit.1] at hshift hcontent
  exact ⟨_, hs, hcontent.trans (by decide), hshift.trans (by decide)⟩

end Fizzos.Proofs
