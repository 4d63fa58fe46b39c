import Fizzos.LibKernel.List

/-!
# `Fizzos.LibKernel.OrderedList`: `insert_in_order` of `lib/kernel/list.c`

The key of an element is the `uint32_t` at a fixed offset from it. `insert_in_order` walks over the
elements that the new one is not in front of, and puts it in front of the first one that is left,
with `list_insert_front`, or at the end.

`list_insert_front` takes the `prev` link of the element for the place of the new one, and changes
the header when this link is `NULL` only. `list_pop_back` changes the header and no link.
-/

set_option autoImplicit false

namespace Fizzos.LibKernel

open Fizzos.Support

section
variable {α : Type} [DecidableEq α] (addr : α → Nat) (key : α → BitVec 32) (flag : Bool)

/-- `list_insert_front`: `elem` in front of `back`. -/
def listInsertFront (list : KList α) (back elem : α) (h : Links α) :
    Except Halt (KList α × Links α) :=
  let h := h.setPrev elem (h back).prev
  let h := h.setNext elem (some back)
  let h := h.setPrev back (some elem)
  match (h elem).prev with
  | some prev => pure (list, h.setNext prev (some elem))
  | none => do
      ASSERT (list.head = some back)
      pure ({ list with head := some elem }, h)

/-- `list_pop_back`. -/
def listPopBack (list : KList α) (h : Links α) : Except Halt (α × KList α × Links α) := do
  ASSERT (list.tail ≠ none)
  let elem ← deref list.tail
  if list.tail = list.head then pure (elem, listInit, h)
  -- the new last element keeps its `next` link to `elem`
  else pure (elem, { list with tail := (h elem).prev }, h)

/-- The comparison of `insert_in_order`: the key of `elem` goes past the key of `head`. -/
def goesPast (elem head : BitVec 32) : Bool :=
  if flag then decide (elem ≥ head) else decide (elem ≤ head)

/-- The loops of `insert_in_order`, from the node `head` on. -/
def insertWalk (elem : α) (h : Links α) : Nat → Option α → Except Halt (Option α)
  | _, none => .ok none
  | 0, some _ => .error .hang
  | n + 1, some head =>
      if goesPast flag (key elem) (key head) then insertWalk elem h n (h head).next
      else .ok (some head)

/-- `insert_in_order`. -/
def insertInOrder (list : KList α) (elem : α) (h : Links α) : Except Halt (KList α × Links α) := do
  match ← insertWalk key flag elem h LIST_WALK list.head with
  | none => listPushBack addr list elem h
  | some head => listInsertFront list head elem h

end

/-! ### An ordered list and its users -/

/-- An ordered list of elements, named by their addresses, with the keys in memory. `live` are the
elements that have been inserted and not popped, in the order of the insertions. -/
structure QueueState where
  list : KList Nat
  links : Links Nat
  key : Nat → BitVec 32
  live : List Nat

/-- The calls. The caller sets the key of an element before it inserts it. -/
inductive QueueAct where
  | insert (elem : Nat) (key : BitVec 32)
  | popFront
  | popBack

namespace QueueState

/-- An element is inserted when it is not on the list, and `list_pop_back` is called when there is
one. -/
def Enabled (s : QueueState) : QueueAct → Prop
  | .insert elem _ => KERNEL_VADDR_START ≤ elem ∧ elem < 2 ^ 32 ∧ elem ∉ s.live
  | .popFront => True
  | .popBack => s.live ≠ []

/-- A call. -/
def next (flag : Bool) (s : QueueState) : QueueAct → Except Halt QueueState
  | .insert elem key => do
      let keys := Function.update s.key elem key
      let (list, links) ← insertInOrder id keys flag s.list elem s.links
      pure { list, links, key := keys, live := s.live ++ [elem] }
  | .popFront => do
      let (elem, list, links) ← listPopFront id s.list s.links
      pure { s with list, links, live := elem.elim s.live s.live.erase }
  | .popBack => do
      let (elem, list, links) ← listPopBack s.list s.links
      pure { s with list, links, live := s.live.erase elem }

end QueueState

/-- Any run of calls on a list after `list_init`, with one flag. -/
def queueSystem (flag : Bool) : System QueueState QueueAct Halt where
  init s := s.list = listInit ∧ s.live = []
  enabled := QueueState.Enabled
  next := QueueState.next flag

end Fizzos.LibKernel
