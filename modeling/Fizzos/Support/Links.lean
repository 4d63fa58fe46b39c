import Mathlib.Data.List.Chain
import Mathlib.Data.List.Nodup
import Mathlib.Logic.Function.Basic

/-!
# `Fizzos.Support.Links`: doubly linked nodes in a heap of links

A heap gives every node of a type `α` a `Link`: the node before it and the node after it.
`Linked h xs` says that the nodes `xs` are chained in this order in the heap `h`. The
`prev` link of the first node is free. Many list implementations leave it stale when they
drop the node before it, and no rule below reads it.

`Linked` has one rule per way to change a list: append a node at the back, add one at the
front, drop the first, the last or an inner node. Each rule says which links the heap must
hold after the change. `Linked.congr` is the frame rule.

A `Family` is a set of lists that share one heap, one sequence per list name. Its lists have
no node in common, and `Family.update` replaces one of them.
-/

set_option autoImplicit false

namespace Fizzos.Support

universe u v

variable {α : Type u}

/-- The two links of a node. -/
structure Link (α : Type u) where
  prev : Option α
  next : Option α
  deriving DecidableEq, Repr

/-- A heap of links. -/
abbrev LinkHeap (α : Type u) := α → Link α

namespace LinkHeap

variable [DecidableEq α]

/-- Write the `prev` link of the node `x`. -/
def setPrev (h : LinkHeap α) (x : α) (p : Option α) : LinkHeap α :=
  Function.update h x { h x with prev := p }

/-- Write the `next` link of the node `x`. -/
def setNext (h : LinkHeap α) (x : α) (n : Option α) : LinkHeap α :=
  Function.update h x { h x with next := n }

@[simp] theorem setPrev_next (h : LinkHeap α) (x y : α) (p : Option α) :
    (h.setPrev x p y).next = (h y).next := by
  unfold setPrev
  by_cases hy : y = x
  · subst hy; simp
  · simp [hy]

@[simp] theorem setNext_prev (h : LinkHeap α) (x y : α) (n : Option α) :
    (h.setNext x n y).prev = (h y).prev := by
  unfold setNext
  by_cases hy : y = x
  · subst hy; simp
  · simp [hy]

theorem setPrev_prev (h : LinkHeap α) (x y : α) (p : Option α) :
    (h.setPrev x p y).prev = if y = x then p else (h y).prev := by
  unfold setPrev
  by_cases hy : y = x
  · subst hy; simp
  · simp [hy]

theorem setNext_next (h : LinkHeap α) (x y : α) (n : Option α) :
    (h.setNext x n y).next = if y = x then n else (h y).next := by
  unfold setNext
  by_cases hy : y = x
  · subst hy; simp
  · simp [hy]

/-- A `prev` write leaves every other node alone. -/
theorem setPrev_of_ne (h : LinkHeap α) {x y : α} (p : Option α) (hy : y ≠ x) :
    h.setPrev x p y = h y := Function.update_of_ne hy _ _

/-- A `next` write leaves every other node alone. -/
theorem setNext_of_ne (h : LinkHeap α) {x y : α} (n : Option α) (hy : y ≠ x) :
    h.setNext x n y = h y := Function.update_of_ne hy _ _

end LinkHeap

/-- The nodes `xs` are chained in this order in `h`: no node occurs twice, neighbours point
at each other, and the last node has no successor. Nothing is said about the `prev` link of
the first node. -/
structure Linked (h : LinkHeap α) (xs : List α) : Prop where
  nodup : xs.Nodup
  chain : xs.IsChain fun x y => (h x).next = some y ∧ (h y).prev = some x
  last : ∀ x, xs.getLast? = some x → (h x).next = none

namespace Linked

variable {h h' : LinkHeap α} {xs ys : List α} {x y : α}

theorem nil (h : LinkHeap α) : Linked h [] := by
  refine ⟨List.nodup_nil, List.IsChain.nil, ?_⟩
  intro x hx
  simp at hx

/-- A node without a successor is a list of its own. -/
theorem singleton (hx : (h x).next = none) : Linked h [x] := by
  refine ⟨List.nodup_singleton x, List.IsChain.singleton x, ?_⟩
  intro y hy
  simp only [List.getLast?_singleton, Option.some.injEq] at hy
  rw [← hy]
  exact hx

/-- The frame rule: the list stays linked when no `next` link of its nodes changes, and no
`prev` link of a node behind the first. -/
theorem congr (hl : Linked h xs) (hnext : ∀ x ∈ xs, (h' x).next = (h x).next)
    (hprev : ∀ x ∈ xs.tail, (h' x).prev = (h x).prev) : Linked h' xs := by
  refine ⟨hl.nodup, ?_, ?_⟩
  · have hchain := hl.chain
    rw [List.isChain_iff_forall_rel_of_append_cons_cons] at hchain ⊢
    intro a b l₁ l₂ heq
    have ha : a ∈ xs := by simp [heq]
    have hb : b ∈ xs.tail := by
      rw [heq]
      cases l₁ with
      | nil => simp
      | cons c l₁ => simp
    rw [hnext a ha, hprev b hb]
    exact hchain heq
  · intro x hx
    rw [hnext x (List.mem_of_getLast? hx)]
    exact hl.last x hx

/-- A heap that agrees on all nodes of the list keeps it linked. -/
theorem congr_of_eq (hl : Linked h xs) (heq : ∀ x ∈ xs, h' x = h x) : Linked h' xs :=
  hl.congr (fun x hx => by rw [heq x hx])
    (fun x hx => by rw [heq x (List.mem_of_mem_tail hx)])

/-- Dropping the first node keeps the rest linked. -/
theorem tail (hl : Linked h (x :: xs)) : Linked h xs := by
  refine ⟨(List.nodup_cons.mp hl.nodup).2, hl.chain.tail, ?_⟩
  intro y hy
  apply hl.last
  rw [List.getLast?_cons, hy]
  rfl

/-- The nodes behind a part of the list are linked. -/
theorem behind {l : List α} (hl : Linked h (l ++ xs)) : Linked h xs := by
  induction l with
  | nil => exact hl
  | cons y l ih => exact ih hl.tail

/-- The first node points at the head of the rest. -/
theorem next_head (hl : Linked h (x :: xs)) : (h x).next = xs.head? := by
  cases xs with
  | nil => exact hl.last x rfl
  | cons y ys => exact (List.isChain_cons_cons.mp hl.chain).1.1

/-- A node behind the first points back at the node before it. -/
theorem prev_eq {l₁ l₂ : List α} {a b : α} (hl : Linked h (l₁ ++ a :: b :: l₂)) :
    (h b).prev = some a :=
  ((List.isChain_append_cons_cons.mp hl.chain).2.1).2

/-- An inner node points at the node after it. -/
theorem next_eq {l₁ l₂ : List α} {a : α} (hl : Linked h (l₁ ++ a :: l₂)) :
    (h a).next = l₂.head? := by
  cases l₂ with
  | nil => exact hl.last a (by simp)
  | cons b l₂ => exact ((List.isChain_append_cons_cons.mp hl.chain).2.1).1

/-- A new first node: it points at the old head, and the old head points back. -/
theorem cons (hl : Linked h xs) (hx : x ∉ xs) (hnext : (h x).next = xs.head?)
    (hprev : ∀ y, xs.head? = some y → (h y).prev = some x) : Linked h (x :: xs) := by
  refine ⟨List.nodup_cons.mpr ⟨hx, hl.nodup⟩, ?_, ?_⟩
  · rw [List.isChain_cons]
    refine ⟨?_, hl.chain⟩
    intro y hy
    exact ⟨hnext.trans hy, hprev y hy⟩
  · intro y hy
    cases xs with
    | nil =>
        simp only [List.getLast?_singleton, Option.some.injEq] at hy
        rw [← hy]
        exact hnext
    | cons z zs => exact hl.last y (by rwa [List.getLast?_cons_cons] at hy)

/-- Two linked parts form one list when the last node of the first part and the first node
of the second point at each other. -/
theorem append (hnodup : (xs ++ ys).Nodup)
    (hxs : xs.IsChain fun x y => (h x).next = some y ∧ (h y).prev = some x)
    (hys : Linked h ys) (hne : ys ≠ [])
    (hjoin : ∀ x, xs.getLast? = some x → ∀ y, ys.head? = some y →
      (h x).next = some y ∧ (h y).prev = some x) : Linked h (xs ++ ys) := by
  refine ⟨hnodup, List.isChain_append.mpr ⟨hxs, hys.chain, hjoin⟩, ?_⟩
  intro x hx
  apply hys.last
  rw [List.getLast?_append] at hx
  cases hlast : ys.getLast? with
  | none => exact absurd (List.getLast?_eq_none_iff.mp hlast) hne
  | some z => rw [hlast] at hx; exact hx

/-- The nodes behind `l` are replaced by `ys`. Of the links in `l` only the `next` link of the last
node changes. -/
theorem replaceBehind {l : List α} (hl : Linked h (l ++ xs)) (hys : Linked h' ys) (hne : ys ≠ [])
    (hnodup : (l ++ ys).Nodup) (hnext : ∀ x ∈ l.dropLast, (h' x).next = (h x).next)
    (hprev : ∀ x ∈ l.tail, (h' x).prev = (h x).prev)
    (hjoin : ∀ x, l.getLast? = some x → ∀ y, ys.head? = some y →
      (h' x).next = some y ∧ (h' y).prev = some x) : Linked h' (l ++ ys) := by
  refine append hnodup ?_ hys hne hjoin
  have hchain := hl.chain.left_of_append
  rw [List.isChain_iff_forall_rel_of_append_cons_cons] at hchain ⊢
  intro a b m₁ m₂ heq
  have ha : a ∈ l.dropLast := by
    rw [heq, List.dropLast_append_of_ne_nil (List.cons_ne_nil _ _), List.dropLast_cons_cons]
    exact List.mem_append_right _ List.mem_cons_self
  have hb : b ∈ l.tail := by
    rw [heq]
    cases m₁ with
    | nil => exact List.mem_cons_self
    | cons c m₁ => exact List.mem_append_right _ (List.mem_cons_of_mem _ List.mem_cons_self)
  rw [hnext a ha, hprev b hb]
  exact hchain heq

/-- Two neighbours change places. -/
theorem swap {l r : List α} {a b : α} (hl : Linked h (l ++ a :: b :: r))
    (hb : (h' b).next = some a) (ha : (h' a).prev = some b) (hanext : (h' a).next = r.head?)
    (hlast : ∀ x, l.getLast? = some x → (h' x).next = some b ∧ (h' b).prev = some x)
    (hhead : ∀ x, r.head? = some x → (h' x).prev = some a)
    (hnextl : ∀ x ∈ l.dropLast, (h' x).next = (h x).next)
    (hprevl : ∀ x ∈ l.tail, (h' x).prev = (h x).prev)
    (hnextr : ∀ x ∈ r, (h' x).next = (h x).next)
    (hprevr : ∀ x ∈ r.tail, (h' x).prev = (h x).prev) : Linked h' (l ++ b :: a :: r) := by
  obtain ⟨hna, hnodupb⟩ := List.nodup_cons.mp hl.behind.nodup
  have hnb := (List.nodup_cons.mp hnodupb).1
  have hab : a ≠ b := fun heq => hna (heq ▸ List.mem_cons_self)
  have har : a ∉ r := fun hmem => hna (List.mem_cons_of_mem _ hmem)
  have hr : Linked h' r := hl.behind.tail.tail.congr hnextr hprevr
  have hbar : Linked h' (b :: a :: r) := by
    refine (hr.cons har hanext hhead).cons ?_ hb fun x hx => ?_
    · rw [List.mem_cons, not_or]
      exact ⟨hab.symm, hnb⟩
    · obtain rfl : a = x := Option.some.inj hx
      exact ha
  have hnodup : (l ++ b :: a :: r).Nodup :=
    (List.Perm.append_left l (List.Perm.swap a b r)).nodup_iff.mpr hl.nodup
  refine hl.replaceBehind hbar (List.cons_ne_nil _ _) hnodup hnextl hprevl fun x hx y hy => ?_
  obtain rfl : b = y := Option.some.inj hy
  exact hlast x hx

/-- The list `l₁ ++ x :: l₂` without `x`, when neither end moves: the two neighbours of `x`
point at each other. -/
theorem unlink {l₁ l₂ : List α} {a b : α}
    (hl : Linked h (l₁ ++ a :: x :: b :: l₂))
    (hnext : ∀ y ∈ l₁ ++ a :: b :: l₂, y ≠ a → (h' y).next = (h y).next)
    (hprev : ∀ y ∈ l₁ ++ a :: b :: l₂, y ≠ b → (h' y).prev = (h y).prev)
    (ha : (h' a).next = some b) (hb : (h' b).prev = some a) :
    Linked h' (l₁ ++ a :: b :: l₂) := by
  have hsplit : l₁ ++ a :: x :: b :: l₂ = (l₁ ++ [a]) ++ x :: b :: l₂ := by simp
  have hsplit' : l₁ ++ a :: b :: l₂ = (l₁ ++ [a]) ++ b :: l₂ := by simp
  rw [hsplit] at hl
  rw [hsplit'] at hnext hprev ⊢
  have hnd : ((l₁ ++ [a]) ++ b :: l₂).Nodup :=
    hl.nodup.sublist ((List.Sublist.refl _).append (List.sublist_cons_self x _))
  obtain ⟨hndl, hndr, hdisj⟩ := List.nodup_append.mp hnd
  -- Behind `a` nothing but the link of `b` to the front has changed.
  have hright : Linked h' (b :: l₂) := by
    refine hl.behind.tail.congr ?_ ?_
    · intro y hy
      exact hnext y (List.mem_append_right _ hy) (hdisj a (by simp) y hy).symm
    · intro y hy
      have hyb : y ≠ b := fun heq => (List.nodup_cons.mp hndr).1 (heq ▸ hy)
      exact hprev y (List.mem_append_right _ (List.mem_of_mem_tail hy)) hyb
  refine hl.replaceBehind hright (List.cons_ne_nil _ _) hnd ?_ ?_ ?_
  · intro y hy
    rw [List.dropLast_concat] at hy
    have hya : y ≠ a := fun heq => (List.nodup_append.mp hndl).2.2 y hy a (by simp) heq
    exact hnext y (List.mem_append_left _ (List.mem_append_left _ hy)) hya
  · intro y hy
    have hmem := List.mem_of_mem_tail hy
    exact hprev y (List.mem_append_left _ hmem) (hdisj y hmem b List.mem_cons_self)
  · intro c hc d hd
    simp only [List.getLast?_concat, Option.some.injEq, List.head?_cons] at hc hd
    subst hc hd
    exact ⟨ha, hb⟩

end Linked

/-- Lists that share one heap: the list named `i` holds the nodes `S i`, and no node is on
two of them. -/
structure Family {ι : Type v} (h : LinkHeap α) (S : ι → List α) : Prop where
  linked : ∀ i, Linked h (S i)
  apart : ∀ i j x, x ∈ S i → x ∈ S j → i = j

namespace Family

variable {ι : Type v} {h h' : LinkHeap α} {S : ι → List α}

/-- Replace one list of the family. The new heap may differ from the old one on nodes of the
old list and on nodes of no list. -/
theorem update [DecidableEq ι] (hS : Family h S) (i : ι) (xs : List α) (hxs : Linked h' xs)
    (hframe : ∀ j, j ≠ i → ∀ x ∈ S j, h' x = h x)
    (hnew : ∀ j, j ≠ i → ∀ x ∈ S j, x ∉ xs) : Family h' (Function.update S i xs) := by
  constructor
  · intro j
    by_cases hj : j = i
    · subst hj; rw [Function.update_self]; exact hxs
    · rw [Function.update_of_ne hj]
      exact (hS.linked j).congr_of_eq (hframe j hj)
  · intro j k x hj hk
    by_cases hji : j = i <;> by_cases hki : k = i
    · rw [hji, hki]
    · subst hji
      rw [Function.update_self] at hj
      rw [Function.update_of_ne hki] at hk
      exact absurd hj (hnew k hki x hk)
    · subst hki
      rw [Function.update_self] at hk
      rw [Function.update_of_ne hji] at hj
      exact absurd hk (hnew j hji x hj)
    · rw [Function.update_of_ne hji] at hj
      rw [Function.update_of_ne hki] at hk
      exact hS.apart j k x hj hk

/-- Links of nodes on no list are free. -/
theorem congr (hS : Family h S) (hframe : ∀ j, ∀ x ∈ S j, h' x = h x) : Family h' S :=
  ⟨fun i => (hS.linked i).congr_of_eq (hframe i), hS.apart⟩

end Family

end Fizzos.Support
