import Mathlib.Init

/-!
# `Fizzos.Support.Pic`: two interrupt controllers

A pair of 8259A controllers as a PC has them. The output of the second one is line 2 of the first
one. A controller takes four initialization words, and then a mask. It remembers requests (`irr`)
and the lines that the processor has accepted (`isr`). An accepted line blocks itself and all lines
of lower priority until the processor sends an end of interrupt.

A request may go away before the processor accepts it. Then the controller answers with its line 7
and remembers nothing.

Left out: level-triggered lines, rotating priorities, polling, and the specific end of interrupt.
-/

set_option autoImplicit false

namespace Fizzos.Support

/-- The initialization words of the data port. -/
inductive Icw where
  | icw2 | icw3 | icw4
  deriving DecidableEq, Repr

structure Pic where
  base : BitVec 8
  imr : BitVec 8
  isr : BitVec 8
  irr : BitVec 8
  /-- The lines with another controller, from `ICW3`. -/
  cascade : BitVec 8
  aeoi : Bool
  /-- The words that the data port waits for. -/
  expects : List Icw
  deriving DecidableEq

namespace Pic

/-- A bit for a line. -/
def line (i : Nat) : BitVec 8 := 1 <<< i

/-- A write to the command port: `ICW1`, or the end of the interrupt in service. -/
def command (p : Pic) (b : BitVec 8) : Pic :=
  if b.getLsbD 4 then
    { p with
      imr := 0, isr := 0, irr := 0, cascade := 0, aeoi := false
      expects := .icw2 :: ((if b.getLsbD 1 then [] else [.icw3])
        ++ if b.getLsbD 0 then [.icw4] else []) }
  else if b &&& 0xf8 = 0x20 then { p with isr := p.isr &&& (p.isr - 1) }
  else p

/-- A write to the data port. -/
def data (p : Pic) (b : BitVec 8) : Pic :=
  match p.expects with
  | .icw2 :: rest => { p with base := b &&& 0xf8, expects := rest }
  | .icw3 :: rest => { p with cascade := b, expects := rest }
  | .icw4 :: rest => { p with aeoi := b.getLsbD 1, expects := rest }
  | [] => { p with imr := b }

/-- The line to serve: a request that is not masked, before every line in service. -/
def pending (irr imr isr : BitVec 8) : Option Nat :=
  (List.range 8).find? fun i =>
    irr.getLsbD i && !imr.getLsbD i && (List.range (i + 1)).all fun j => !isr.getLsbD j

def request (p : Pic) : Option Nat := pending p.irr p.imr p.isr

/-- The processor accepts a line. -/
def accepted (p : Pic) (i : Nat) : Pic :=
  { p with
    irr := p.irr &&& ~~~line i
    isr := if p.aeoi then p.isr else p.isr ||| line i }

end Pic

/-- The two controllers of a PC. -/
structure Pics where
  master : Pic
  slave : Pic

namespace Pics

/-- The second controller raises line 2 of the first one. -/
def linked (c : Pics) : Pics :=
  if c.slave.request.isSome then
    { c with master := { c.master with irr := c.master.irr ||| Pic.line 2 } }
  else c

/-- A byte goes to a port. -/
def out (c : Pics) (o : BitVec 16 × BitVec 8) : Pics :=
  linked <|
    if o.1 = 0x20 then { c with master := c.master.command o.2 }
    else if o.1 = 0x21 then { c with master := c.master.data o.2 }
    else if o.1 = 0xa0 then { c with slave := c.slave.command o.2 }
    else if o.1 = 0xa1 then { c with slave := c.slave.data o.2 }
    else c

def outs (c : Pics) (os : List (BitVec 16 × BitVec 8)) : Pics := os.foldl out c

theorem outs_nil (c : Pics) : c.outs [] = c := rfl

theorem outs_cons (c : Pics) (o : BitVec 16 × BitVec 8) (os : List (BitVec 16 × BitVec 8)) :
    c.outs (o :: os) = (c.out o).outs os := rfl

/-- A device raises its line, one of 16. -/
def raise (c : Pics) (i : Nat) : Pics :=
  linked <|
    if i < 8 then { c with master := { c.master with irr := c.master.irr ||| Pic.line i } }
    else { c with slave := { c.slave with irr := c.slave.irr ||| Pic.line (i - 8) } }

/-- A request goes away. -/
def withdraw (c : Pics) (i : Nat) : Pics :=
  linked <|
    if i < 8 then { c with master := { c.master with irr := c.master.irr &&& ~~~Pic.line i } }
    else { c with slave := { c.slave with irr := c.slave.irr &&& ~~~Pic.line (i - 8) } }

/-- A line has a request. -/
def requested (c : Pics) (i : Nat) : Bool :=
  if i < 8 then c.master.irr.getLsbD i else c.slave.irr.getLsbD (i - 8)

/-- The processor acknowledges an interrupt: the vector, the line if it is not spurious, and the
controllers. -/
def ack (c : Pics) : BitVec 8 × Option Nat × Pics :=
  match c.master.request with
  | none => (c.master.base + 7, none, c)
  | some i =>
      if c.master.cascade.getLsbD i then
        match c.slave.request with
        | none => (c.slave.base + 7, none, { c with master := c.master.accepted i })
        | some j =>
            (c.slave.base + BitVec.ofNat 8 j, some (8 + j),
              ⟨c.master.accepted i, c.slave.accepted j⟩)
      else (c.master.base + BitVec.ofNat 8 i, some i, { c with master := c.master.accepted i })

end Pics

end Fizzos.Support
