import Fizzos.Kernel.DescTables
import Fizzos.Support.Pic
import Fizzos.Support.System

/-!
# `Fizzos.Kernel.Interrupt`: interrupts of devices

`pic_init` programs the two controllers, and `register_handler` puts the drivers into `idt_table`.
The entry of an interrupt sends an end of interrupt to both controllers (`eoi`) before it calls the
handler.

An action is a device that raises or withdraws a request, the processor that accepts an interrupt,
and the bytes of an entry. The processor does not accept another one in front of them, since the
gate clears `IF`. An exception has an entry with the same bytes, and no line in service. `delivered`
has each vector with its line.
-/

set_option autoImplicit false

namespace Fizzos.Kernel

open Fizzos.Support

def PIC_M_CTRL : BitVec 16 := 0x20
def PIC_M_DATA : BitVec 16 := 0x21
def PIC_S_CTRL : BitVec 16 := 0xa0
def PIC_S_DATA : BitVec 16 := 0xa1

/-- The bytes of `pic_init`. -/
def picInit : List (BitVec 16 × BitVec 8) :=
  [(PIC_M_CTRL, 0x11), (PIC_M_DATA, 0x20), (PIC_M_DATA, 0x04), (PIC_M_DATA, 0x01),
    (PIC_S_CTRL, 0x11), (PIC_S_DATA, 0x28), (PIC_S_DATA, 0x02), (PIC_S_DATA, 0x01),
    (PIC_M_DATA, 0xf8), (PIC_S_DATA, 0xbf)]

/-- The bytes of `eoi`. -/
def eoiBytes : List (BitVec 16 × BitVec 8) := [(0xa0, 0x20), (0x20, 0x20)]

/-! ### Handlers -/

/-- The functions in `idt_table`. -/
inductive IntrHandler where
  | general_intr_handler
  | intr_timer_handler
  | keyboard_handler
  | intr_hd_handler
  deriving DecidableEq, Repr

/-- `general_intr_handler`: it prints a message and does not return, but for the spurious
interrupts. -/
def generalIntrHandler (vecNr : BitVec 8) : Except Halt Unit :=
  if vecNr = 0x27 ∨ vecNr = 0x2f then pure () else .error .hang

/-- `exception_init`, without the names. -/
def exceptionInit (table : Nat → IntrHandler) : Nat → IntrHandler :=
  (List.range IDT_DESC_CNT).foldl
    (fun table i => Function.update table i .general_intr_handler) table

/-- `register_handler` -/
def registerHandler (table : Nat → IntrHandler) (vectorNo : BitVec 8) (function : IntrHandler) :
    Nat → IntrHandler :=
  Function.update table vectorNo.toNat function

/-- `idt_table` behind `init_all`: `timer_init`, `keyboard_init`, and `ide_init`, which stops when
there are more than two channels. -/
def initHandlers (channelCnt : Nat) (table : Nat → IntrHandler) : Nat → IntrHandler :=
  let table := registerHandler (exceptionInit table) 0x20 .intr_timer_handler
  let table := registerHandler table 0x21 .keyboard_handler
  (List.range channelCnt).foldl
    (fun table n => registerHandler table
    (0x20 + (if n = 0 then 14 else 15)) .intr_hd_handler) table

/-! ### Runs -/

structure PicState where
  pics : Pics
  /-- The processor has accepted an interrupt, and its entry has not sent the bytes. -/
  entering : Bool
  delivered : List (BitVec 8 × Option Nat)

inductive PicAct where
  | raise (line : Nat)
  | withdraw (line : Nat)
  | accept
  /-- The entry of an interrupt or of an exception. -/
  | eoi

namespace PicState

/-- No device is at line 2. -/
def Enabled (s : PicState) : PicAct → Prop
  | .raise line => line < 16 ∧ line ≠ 2
  | .withdraw line => line < 16
  | .accept => s.entering = false
  | .eoi => True

instance (s : PicState) (a : PicAct) : Decidable (s.Enabled a) := by
  cases a <;> unfold Enabled <;> infer_instance

def next (s : PicState) : PicAct → Except Halt PicState
  | .raise line => pure { s with pics := s.pics.raise line }
  | .withdraw line => pure { s with pics := s.pics.withdraw line }
  | .accept =>
      let (v, line, pics) := s.pics.ack
      pure ⟨pics, true, s.delivered ++ [(v, line)]⟩
  | .eoi => pure { s with pics := s.pics.outs eoiBytes, entering := false }

/-- Behind `pic_init`, whatever the controllers did before. -/
def Init (s : PicState) : Prop :=
  (∃ c : Pics, s.pics = c.outs picInit) ∧ s.entering = false ∧ s.delivered = []

end PicState

/-- Any order of requests and interrupts. -/
def picSystem : System PicState PicAct Halt where
  init := PicState.Init
  enabled := PicState.Enabled
  next := PicState.next

instance (s : PicState) (a : PicAct) : Decidable (picSystem.enabled s a) :=
  inferInstanceAs (Decidable (s.Enabled a))

end Fizzos.Kernel
