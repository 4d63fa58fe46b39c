import Fizzos.Device.Console
import Fizzos.Device.Ioqueue

/-!
# `Fizzos.Device.Keyboard`: scan codes, lines of text, and their echo

`device/keyboard.c`, with `console_printk` of `device/console.c`. The handler reads one scan code,
keeps track of the shift, ctrl, alt and caps keys, and gives a character to the queue and to the
screen.

A run is any order of scan codes and of the calls that read (`keyboardSystem`). Each call and each
interrupt is one step.

Left out: the ports of the keyboard, and the lines of `keyboard_init` on the screen.
-/

set_option autoImplicit false

namespace Fizzos.Device

open Fizzos.Kernel
open Fizzos.LibKernel
open Fizzos.Support

/-! ### `console_printk` -/

/-- `console_lock`, `console_buf` and the screen. -/
structure ConsoleState where
  lock : MutexLock
  buf : Int → BitVec 8
  screen : Screen

/-- `vprintk`: the characters that `put_str` gets, and `console_buf`. `vsprint` is `vsnprint` with
the size `-1`. -/
def vprintk (buf : Int → BitVec 8) (format : List (BitVec 8)) (va : VaList) :
    Except Halt (List (BitVec 8) × Lib.CharMem) := do
  let (_, buf) ← vsnprint ⟨buf, []⟩ (2 ^ 32 - 1) format va
  let shown ← putStr buf.mem (2 ^ 32) 0
  pure (shown, buf)

namespace ConsoleState

/-- `console_init` -/
def init (s : ConsoleState) : ConsoleState := { s with lock := mutexLockInit }

/-- `console_acquire` -/
def acquire (s : ConsoleState) (current : Tid) : Except Halt ConsoleState := do
  let lock ← mutexAcquire s.lock current
  pure { s with lock }

/-- `console_release` -/
def release (s : ConsoleState) (current : Tid) : Except Halt ConsoleState := do
  let (lock, _) ← mutexRelease s.lock current
  pure { s with lock }

/-- `console_printk` -/
def printk (s : ConsoleState) (format : List (BitVec 8)) (va : VaList) (current : Tid) :
    Except Halt ConsoleState := do
  let s ← s.acquire current
  let (shown, buf) ← vprintk s.buf format va
  let screen ← shown.foldlM putChar s.screen
  { s with buf := buf.mem, screen }.release current

end ConsoleState

/-! ### Keys -/

/-- A character. -/
def ascii (c : Char) : Byte := BitVec.ofNat 8 c.toNat

def ESC : Byte := 27
def ENTER : Byte := 0x0A
def BACKSPACE : Byte := 8
def TAB : Byte := 9
def L_CTRL_MAKE : Byte := 0x1D
def L_CTRL_BREAK : Byte := 0x9D
def L_SHFT_MAKE : Byte := 0x2A
def L_SHFT_BREAK : Byte := 0xAA
def R_SHFT_MAKE : Byte := 0x36
def R_SHFT_BREAK : Byte := 0xB6
def L_ALT_MAKE : Byte := 0x38
def L_ALT_BREAK : Byte := 0xB8
def CAPS_MAKE : Byte := 0x3A

/-- A row of `keymap`. -/
def row (c shifted : Char) : Byte × Byte := (ascii c, ascii shifted)

/-- `keymap`. The rows behind the last one are `0`. -/
def keymap : List (Byte × Byte) :=
  [(0, 0), (ESC, ESC), row '1' '!', row '2' '@', row '3' '#',
    row '4' '$', row '5' '%', row '6' '^', row '7' '&', row '8' '*',
    row '9' '(', row '0' ')', row '-' '_', row '=' '+', (BACKSPACE, BACKSPACE),
    (TAB, TAB), row 'q' 'Q', row 'w' 'W', row 'e' 'E', row 'r' 'R',
    row 't' 'T', row 'y' 'Y', row 'u' 'U', row 'i' 'I', row 'o' 'O',
    row 'p' 'P', row '[' '{', row ']' '}', (ENTER, ENTER), (L_CTRL_MAKE, L_CTRL_MAKE),
    row 'a' 'A', row 's' 'S', row 'd' 'D', row 'f' 'F', row 'g' 'G',
    row 'h' 'H', row 'j' 'J', row 'k' 'K', row 'l' 'L', row ';' ':',
    -- the quotes, and the backtick
    (0x27, 0x22), (0x60, 0x7e), (L_SHFT_MAKE, L_SHFT_MAKE), (0x5c, 0x7c), row 'z' 'Z',
    row 'x' 'X', row 'c' 'C', row 'v' 'V', row 'b' 'B', row 'n' 'N',
    row 'm' 'M', row ',' '<', row '.' '>', row '/' '?', (R_SHFT_MAKE, R_SHFT_MAKE),
    row '*' '*', (L_ALT_MAKE, L_ALT_MAKE), row ' ' ' ', (CAPS_MAKE, CAPS_MAKE)]

/-- `keymap[code][shift_status]` -/
def keymapAt (code : Byte) (shift : Bool) : Byte :=
  let row := keymap.getD code.toNat (0, 0)
  if shift then row.2 else row.1

/-- The other case of a letter. -/
def swapCase (c : Byte) : Byte :=
  if ascii 'A' ≤ c ∧ c ≤ ascii 'Z' then c + (ascii 'a' - ascii 'A')
  else if ascii 'a' ≤ c ∧ c ≤ ascii 'z' then c - (ascii 'a' - ascii 'A')
  else c

/-- `keyboard_buf`, the state of the keys, and the console. -/
structure Keyboard where
  queue : Ioqueue
  shiftStatus : Bool
  ctrlStatus : Bool
  altStatus : Bool
  capsStatus : Bool
  console : ConsoleState

namespace Keyboard

/-- The character of a key. -/
def keyChar (k : Keyboard) (code : Byte) : Byte :=
  let c := keymapAt code k.shiftStatus
  if k.capsStatus then swapCase c else c

/-- The arguments of `console_printk("%c", c)`. -/
def charArg (c : Byte) : VaList := ⟨fun _ => c.signExtend 32, fun _ => ⟨[], by simp⟩⟩

/-- `keyboard_handler`, with the scan code of the port. -/
def keyboardHandler (k : Keyboard) (code : Byte) (current : Tid) : Except Halt Keyboard :=
  if code = 0xE0 then pure k
  else if code &&& 0x80 ≠ 0 then
    if code = L_SHFT_BREAK then pure { k with shiftStatus := false }
    else if code = R_SHFT_BREAK then pure { k with shiftStatus := false }
    else if code = L_CTRL_BREAK then pure { k with ctrlStatus := false }
    else if code = L_ALT_BREAK then pure { k with altStatus := false }
    else pure k
  else if code = L_SHFT_MAKE then pure { k with shiftStatus := true }
  else if code = R_SHFT_MAKE then pure { k with shiftStatus := true }
  else if code = L_CTRL_MAKE then pure { k with ctrlStatus := true }
  else if code = L_ALT_MAKE then pure { k with altStatus := true }
  else if code = CAPS_MAKE then pure { k with capsStatus := !k.capsStatus }
  else do
    ASSERT (code ≤ 0x3a)
    let c := k.keyChar code
    let queue ← (if c = BACKSPACE then ioqueuePopBackChar k.queue current
      else ioqueuePutchar k.queue c current)
    let console ← k.console.printk [PERCENT, ascii 'c'] (charArg c) current
    pure { k with queue, console }

/-- `keyboard_read` -/
def keyboardRead (k : Keyboard) (current : Tid) : Except Halt (Byte × Keyboard) := do
  let (c, queue) ← ioqueueGetchar k.queue current
  pure (c, { k with queue })

/-- `keyboard_readline` -/
def keyboardReadline (k : Keyboard) (count : Int) (current : Tid) :
    Except Halt (Int × List Byte × Keyboard) := do
  let (ret, dest, queue) ← ioqueueGetline k.queue count current
  pure (ret, dest, { k with queue })

end Keyboard

/-- `keyboard_init`, behind `console_init`. -/
def keyboardInit (q : Ioqueue) (b : Buddy) (m : KMem) (console : ConsoleState) (current : Tid) :
    Except Halt Keyboard := do
  let (queue, _, _) ← ioqueueInit q b m 100 current
  pure ⟨queue, false, false, false, false, console.init⟩

/-! ### Runs -/

inductive KeyAct where
  /-- The keyboard interrupts, with a scan code. -/
  | key (code : Byte) (current : Tid)
  | read (current : Tid)
  | readline (count : Int) (current : Tid)

/-- The keyboard, and what happened so far, the newest first. -/
structure KeyRun where
  kbd : Keyboard
  log : List KeyAct

namespace KeyRun

/-- The cell of the cursor. -/
def cursor (s : KeyRun) : Nat := s.kbd.console.screen.cursor.toNat

/-- The calls that do not wait. -/
def Enabled (s : KeyRun) : KeyAct → Prop
  | .key _ _ => True
  | .read _ => s.kbd.queue.content ≠ []
  | .readline _ _ => NEWLINE ∈ s.kbd.queue.content

/-- The keyboard after a step. -/
def kbdAfter (k : Keyboard) : KeyAct → Except Halt Keyboard
  | .key code current => k.keyboardHandler code current
  | .read current => do
      let (_, k) ← k.keyboardRead current
      pure k
  | .readline count current => do
      let (_, _, k) ← k.keyboardReadline count current
      pure k

def next (s : KeyRun) (a : KeyAct) : Except Halt KeyRun := do
  let kbd ← kbdAfter s.kbd a
  pure ⟨kbd, a :: s.log⟩

/-- Behind `keyboard_init`, with the cursor on the screen. -/
def Init (s : KeyRun) : Prop :=
  s.log = [] ∧ s.cursor < 2000 ∧
    ∃ q b m console current, q.lineCond = condInit ∧
      keyboardInit q b m console current = .ok s.kbd

end KeyRun

/-- Any run of the keyboard behind `keyboard_init`. -/
def keyboardSystem : System KeyRun KeyAct Halt where
  init := KeyRun.Init
  enabled := KeyRun.Enabled
  next := KeyRun.next

/-! ### What a typist does -/

/-- The scan codes of a log. -/
def codes (log : List KeyAct) : List Byte :=
  log.filterMap fun a => match a with
    | .key code _ => some code
    | _ => none

/-- A key of `makes` went down last, and no key of `breaks` came up since. -/
def held (makes breaks : List Byte) (codes : List Byte) : Bool :=
  (codes.find? fun c => c ∈ makes ++ breaks).any fun c => c ∈ makes

/-- A key of `makes` or `breaks`, when the state of the keys was `old`. -/
def afterKey (makes breaks : List Byte) (old : Bool) (code : Byte) : Bool :=
  if code ∈ makes then true else if code ∈ breaks then false else old

/-- The shift keys. Which one comes up does not matter. -/
def shiftHeld (codes : List Byte) : Bool :=
  held [L_SHFT_MAKE, R_SHFT_MAKE] [L_SHFT_BREAK, R_SHFT_BREAK] codes

/-- The caps key went down an odd number of times. -/
def capsOn (codes : List Byte) : Bool := decide (codes.count CAPS_MAKE % 2 = 1)

/-- A key with a character. -/
def IsChar (code : Byte) : Prop :=
  code < CAPS_MAKE ∧ code ∉ [L_SHFT_MAKE, R_SHFT_MAKE, L_CTRL_MAKE, L_ALT_MAKE]

instance (code : Byte) : Decidable (IsChar code) := inferInstanceAs (Decidable (_ ∧ _))

/-- The character that a key types behind the scan codes `codes`. -/
def typed (codes : List Byte) (code : Byte) : Byte :=
  let c := keymapAt code (shiftHeld codes)
  if capsOn codes then swapCase c else c

/-- A character on a line with room for 100. -/
def typeChar (line : List Byte) (c : Byte) : List Byte :=
  if c = BACKSPACE then line.dropLast else if line.length < 100 then line ++ [c] else line

/-- The text that has been typed and not been read. -/
def typedLine : List KeyAct → List Byte
  | [] => []
  | .key code _ :: log =>
      if IsChar code then typeChar (typedLine log) (typed (codes log) code) else typedLine log
  | .read _ :: log => (typedLine log).tail
  | .readline _ _ :: log => ((typedLine log).dropWhile fun c => decide (c ≠ NEWLINE)).tail

/-! ### Text -/

/-- The keys with a character. -/
def charCodes : List Byte :=
  ((List.range 0x3a).map (BitVec.ofNat 8)).filter fun code => decide (IsChar code)

/-- A key goes down and up. -/
def press (code : Byte) : List Byte := [code, code ||| 0x80]

/-- The scan codes for a character, with the left shift key if it is in the second column. -/
def strokes (c : Byte) : List Byte :=
  match charCodes.find? fun code => keymapAt code false = c with
  | some code => press code
  | none =>
      match charCodes.find? fun code => keymapAt code true = c with
      | some code => L_SHFT_MAKE :: press code ++ [L_SHFT_BREAK]
      | none => []

/-- ASCII text. -/
def Printable (c : Byte) : Prop := 0x20 ≤ c ∧ c ≤ 0x7e ∨ c = NEWLINE ∨ c = TAB

instance (c : Byte) : Decidable (Printable c) := inferInstanceAs (Decidable (_ ∨ _))

/-- The keyboard interrupts for a text. -/
def typeText (text : List Byte) (current : Tid) : List KeyAct :=
  (text.flatMap strokes).map fun code => .key code current

/-! ### Edits of one line -/

/-- The keys that edit a line which starts at the cell `p`: a character while the queue and the
screen have room, and backspace while there is something to delete. -/
def Edits (p : Nat) (s : KeyRun) : KeyAct → Prop
  | .key code _ =>
      let c := s.kbd.keyChar code
      let line := s.kbd.queue.content
      IsChar code → if c = BACKSPACE then line ≠ []
        else c ≠ 0 ∧ c ≠ NEWLINE ∧ line.length < 100 ∧ p + line.length + 1 < 2000
  | _ => False

/-- Runs that edit a line, from the state `s₀` on. -/
def editSystem (s₀ : KeyRun) : System KeyRun KeyAct Halt where
  init s := s = s₀
  enabled := Edits s₀.cursor
  next := KeyRun.next

end Fizzos.Device
