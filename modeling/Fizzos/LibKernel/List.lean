import Fizzos.Machine
import Fizzos.Support.Links
import Fizzos.Support.System

/-!
# `Fizzos.LibKernel.List`: the intrusive list of `lib/kernel/list.c`

A `struct list` is a head and a tail pointer, and the links live in the elements
(`struct list_elem`). The model keeps both: a function takes the list header and the heap of
links, and returns the new ones. `addr` gives the address of an element, which
`list_push_back` and `list_pop_front` compare with the start of kernel memory.

The interrupt flag that every function saves and restores is left out: each function is one
step of the caller.
-/

set_option autoImplicit false

namespace Fizzos.LibKernel

open Fizzos.Support

/-- `struct list`. -/
structure KList (α : Type) where
  head : Option α
  tail : Option α
  deriving DecidableEq, Repr

/-- `struct list_elem`, one for each element. -/
abbrev Links (α : Type) := LinkHeap α

/-- `list_init`. A list in zeroed memory is in the same state. -/
def listInit {α : Type} : KList α := { head := none, tail := none }

/-- `p >= 0xc0000000`. -/
def isKernelPtr {α : Type} (addr : α → Nat) : Option α → Bool
  | none => false
  | some x => decide (KERNEL_VADDR_START ≤ addr x)

/-- No list walk is longer: the nodes of a walk that ends lie at distinct 32-bit
addresses. -/
def LIST_WALK : Nat := 2 ^ 32

section
variable {α : Type} [DecidableEq α] (addr : α → Nat)

/-- `list_push_back`. -/
def listPushBack (list : KList α) (elem : α) (h : Links α) :
    Except Halt (KList α × Links α) := do
  let (list, h) ←
    match list.tail with
    | none => do
        ASSERT (list.head = none)
        pure (({ head := some elem, tail := some elem } : KList α),
          (h.setPrev elem none).setNext elem none)
    | some tail =>
        pure ({ list with tail := some elem },
          ((h.setNext tail (some elem)).setPrev elem (some tail)).setNext elem none)
  ASSERT (isKernelPtr addr list.tail ∧ isKernelPtr addr list.head)
  pure (list, h)

/-- `list_push_front`. -/
def listPushFront (list : KList α) (elem : α) (h : Links α) :
    Except Halt (KList α × Links α) :=
  if list.head = none ∧ list.tail = none then
    pure ({ head := some elem, tail := some elem }, (h.setPrev elem none).setNext elem none)
  else do
    let h := (h.setPrev elem none).setNext elem list.head
    let head ← deref list.head
    pure ({ list with head := some elem }, h.setPrev head (some elem))

/-- `list_pop_front`: the first element, or `NULL` when there is none. -/
def listPopFront (list : KList α) (h : Links α) :
    Except Halt (Option α × KList α × Links α) :=
  match list.head with
  | none => do
      ASSERT (list.tail = none)
      pure (none, list, h)
  | some elem => do
      let (list, h) :=
        if list.head = list.tail then (listInit, h)
        else ({ list with head := (h elem).next }, h.setNext elem none)
      ASSERT (list.tail = none ∧ list.head = none ∨
        isKernelPtr addr list.tail ∧ isKernelPtr addr list.head)
      pure (some elem, list, h)

/-- `list_empty`. -/
def listEmpty (list : KList α) : Bool := decide (list.head = none)

/-- `list_front`. -/
def listFront (list : KList α) : Except Halt α :=
  if list.head = none ∨ list.tail = none then PANIC else deref list.head

/-- The loop of `list_find`, from the node `e` on. -/
def listFindFrom (elem : α) (h : Links α) : Nat → Option α → Except Halt Bool
  | _, none => .ok false
  | 0, some _ => .error .hang
  | n + 1, some e => if e = elem then .ok true else listFindFrom elem h n (h e).next

/-- `list_find`. -/
def listFind (list : KList α) (elem : α) (h : Links α) : Except Halt Bool :=
  listFindFrom elem h LIST_WALK list.head

/-- `list_delete`. -/
def listDelete (list : KList α) (elem : α) (h : Links α) :
    Except Halt (KList α × Links α) := do
  let found ← listFind list elem h
  ASSERT (found = true)
  if list.head = list.tail then do
    ASSERT (list.head = some elem)
    pure (listInit, h)
  else if list.head = some elem then do
    let head ← deref (h elem).next
    pure ({ list with head := some head }, h.setPrev head none)
  else if list.tail = some elem then do
    let tail ← deref (h elem).prev
    pure ({ list with tail := some tail }, h.setNext tail none)
  else do
    let prev ← deref (h elem).prev
    let h := h.setNext prev (h elem).next
    let next ← deref (h elem).next
    let h := h.setPrev next (h elem).prev
    pure (list, (h.setPrev elem none).setNext elem none)

/-- The `if` of `list_forward` and `list_backward` around the tail: `elem` comes to where `last`
is. -/
def relinkTail (list : KList α) (last elem : α) (h : Links α) : Except Halt (KList α × Links α) :=
  if list.tail = some last then pure ({ list with tail := some elem }, h)
  else do
    let next ← deref (h last).next
    pure (list, h.setPrev next (some elem))

/-- The `if` of `list_forward` and `list_backward` around the head: `elem` comes to where `first`
is. -/
def relinkHead (list : KList α) (first elem : α) (h : Links α) : Except Halt (KList α × Links α) :=
  if list.head = some first then pure ({ list with head := some elem }, h)
  else do
    let prev ← deref (h first).prev
    pure (list, h.setNext prev (some elem))

/-- `list_forward`. -/
def listForward (list : KList α) (elem : α) (h : Links α) : Except Halt (KList α × Links α) := do
  ASSERT (list.head ≠ none ∧ list.tail ≠ none ∧ list.head ≠ some elem ∧ (h elem).prev ≠ none)
  let elemPrev ← deref (h elem).prev
  let (list, h) ← relinkTail list elem elemPrev h
  let (list, h) ← relinkHead list elemPrev elem h
  let h := h.setPrev elem (h elemPrev).prev
  let h := h.setNext elemPrev (h elem).next
  let h := h.setNext elem (some elemPrev)
  pure (list, h.setPrev elemPrev (some elem))

/-- `list_backward`. -/
def listBackward (list : KList α) (elem : α) (h : Links α) : Except Halt (KList α × Links α) := do
  ASSERT (list.head ≠ none ∧ list.tail ≠ none ∧ list.tail ≠ some elem ∧ (h elem).next ≠ none)
  let elemNext ← deref (h elem).next
  let (list, h) ← relinkTail list elemNext elem h
  let (list, h) ← relinkHead list elem elemNext h
  let h := h.setPrev elem (h elemNext).prev
  let h := h.setNext elemNext (h elem).next
  let h := h.setNext elem (some elemNext)
  pure (list, h.setPrev elemNext (some elem))

/-- The nodes that a walk along `next` visits, as in `list_traversal`. -/
def nodesFrom (h : Links α) : Nat → Option α → Except Halt (List α)
  | _, none => .ok []
  | 0, some _ => .error .hang
  | n + 1, some e => do
      let rest ← nodesFrom h n (h e).next
      pure (e :: rest)

end

/-! ### A list and its users -/

/-- A list of elements, named by their addresses, and the sequence that it stands for. -/
structure ListState where
  list : KList Nat
  links : Links Nat
  seq : List Nat

/-- The calls. -/
inductive ListAct where
  | init
  | pushBack (elem : Nat)
  | pushFront (elem : Nat)
  | popFront
  | delete (elem : Nat)

/-- What a call does to the sequence. -/
def seqAfter (seq : List Nat) : ListAct → List Nat
  | .init => []
  | .pushBack elem => seq ++ [elem]
  | .pushFront elem => elem :: seq
  | .popFront => seq.tail
  | .delete elem => seq.erase elem

namespace ListState

/-- An element is pushed when it is not on the list, and deleted when it is. -/
def Enabled (s : ListState) : ListAct → Prop
  | .init => True
  | .pushBack elem => KERNEL_VADDR_START ≤ elem ∧ elem < 2 ^ 32 ∧ elem ∉ s.seq
  | .pushFront elem => KERNEL_VADDR_START ≤ elem ∧ elem < 2 ^ 32 ∧ elem ∉ s.seq
  | .popFront => True
  | .delete elem => elem ∈ s.seq

/-- A call on the list. -/
def listAfter (s : ListState) : ListAct → Except Halt (KList Nat × Links Nat)
  | .init => pure (listInit, s.links)
  | .pushBack elem => listPushBack id s.list elem s.links
  | .pushFront elem => listPushFront s.list elem s.links
  | .popFront => do
      let (_, list, links) ← listPopFront id s.list s.links
      pure (list, links)
  | .delete elem => listDelete s.list elem s.links

/-- A call on both. -/
def next (s : ListState) (a : ListAct) : Except Halt ListState := do
  let (list, links) ← s.listAfter a
  pure { list, links, seq := seqAfter s.seq a }

end ListState

/-- Any run of calls on a list after `list_init`. The elements hold any links before they are
pushed. -/
def listSystem : System ListState ListAct Halt where
  init s := s.list = listInit ∧ s.seq = []
  enabled := ListState.Enabled
  next := ListState.next

end Fizzos.LibKernel
