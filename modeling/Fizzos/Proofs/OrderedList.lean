import Fizzos.LibKernel.OrderedList
import Fizzos.Proofs.List
import Fizzos.Support.StableOrder

/-!
# `Fizzos.Proofs.OrderedList`: `insert_in_order` and the two pops

`insert_in_order` puts an element behind the ones that it goes past, as long as the first element
has no element in front of it in its own link (`insertInOrder_spec`). `list_insert_front` takes an
element whose `prev` link is `NULL` for the first one; `list_pop_front` leaves the link of the new
first element to the old one, and an element that is put in front of it is lost then.

`list_pop_back` leaves the link of the new last element to the old one, so the old one is still on
the list for a traversal. It is right for a list with one element.
-/

set_option autoImplicit false

namespace Fizzos.Proofs

open Fizzos.LibKernel
open Fizzos.Support

section
variable {α : Type} [DecidableEq α] {addr : α → Nat} {key : α → BitVec 32} {flag : Bool}
  {h : Links α} {list : KList α} {l r xs : List α} {a b e : α} {n : Nat}

/-! ### The functions -/

omit [DecidableEq α] in
/-- The walk stops at the first element that the new one does not go past. -/
theorem insertWalk_spec (hl : Linked h xs) (hn : xs.length ≤ n) :
    insertWalk key flag e h n xs.head?
      = .ok (xs.dropWhile fun x => goesPast flag (key e) (key x)).head? := by
  induction xs generalizing n with
  | nil => cases n <;> rfl
  | cons x xs ih =>
      cases n with
      | zero => exact absurd hn (Nat.not_succ_le_zero _)
      | succ n =>
          rw [List.head?_cons, insertWalk, List.dropWhile_cons]
          split
          · rw [hl.next_head]
            exact ih hl.tail (Nat.le_of_succ_le_succ hn)
          · rfl

/-- The links behind the first three assignments of `list_insert_front`. -/
def besideLinks (h : Links α) (b e : α) : Links α :=
  ((h.setPrev e (h b).prev).setNext e (some b)).setPrev b (some e)

theorem besideLinks_prev (h : Links α) (b e y : α) : (besideLinks h b e y).prev
    = if y = b then some e else if y = e then (h b).prev else (h y).prev := by
  simp only [besideLinks, LinkHeap.setPrev_prev, LinkHeap.setNext_prev]

theorem besideLinks_next (h : Links α) (b e y : α) :
    (besideLinks h b e y).next = if y = e then some b else (h y).next := by
  simp only [besideLinks, LinkHeap.setPrev_next, LinkHeap.setNext_next]

/-- The new element takes the `prev` link of `b`. -/
theorem besideLinks_self (heb : e ≠ b) : (besideLinks h b e e).prev = (h b).prev := by
  rw [besideLinks_prev, if_neg heb, if_pos rfl]

/-- Without a `prev` link of `b` the new element is the head. -/
theorem listInsertFront_none (hhead : list.head = some b) (heb : e ≠ b)
    (hnone : (h b).prev = none) :
    listInsertFront list b e h = .ok ({ list with head := some e }, besideLinks h b e) := by
  have hself := (besideLinks_self heb).trans hnone
  unfold listInsertFront
  simp only [besideLinks] at hself ⊢
  simp only [hself, ASSERT_true hhead, ok_bind, pure_eq_ok]

/-- With one, the element there gets the new one behind it. -/
theorem listInsertFront_some (heb : e ≠ b) (hprev : (h b).prev = some a) :
    listInsertFront list b e h = .ok (list, (besideLinks h b e).setNext a (some e)) := by
  have hself := (besideLinks_self heb).trans hprev
  unfold listInsertFront
  simp only [besideLinks] at hself ⊢
  simp only [hself, pure_eq_ok]

/-- The new element and the ones behind it, in any heap that has the links of `besideLinks`
there. -/
theorem linked_beside {h' : Links α} (hl : Linked h (b :: r)) (he : e ∉ b :: r)
    (hnext : ∀ y ∈ e :: b :: r, (h' y).next = (besideLinks h b e y).next)
    (hprev : ∀ y ∈ b :: r, (h' y).prev = (besideLinks h b e y).prev) : Linked h' (e :: b :: r) := by
  have hne : ∀ y ∈ b :: r, y ≠ e := fun y hy heq => he (heq ▸ hy)
  have hbr : b ∉ r := (List.nodup_cons.mp hl.nodup).1
  -- Behind `b` no link has changed.
  have hold : Linked h' (b :: r) := by
    refine hl.congr (fun y hy => ?_) fun y hy => ?_
    · rw [hnext y (List.mem_cons_of_mem e hy), besideLinks_next, if_neg (hne y hy)]
    · have hy' := List.mem_cons_of_mem b hy
      have hyb : y ≠ b := fun heq => hbr (heq ▸ hy)
      rw [hprev y hy', besideLinks_prev, if_neg hyb, if_neg (hne y hy')]
  refine hold.cons he ?_ fun y hy => ?_
  · rw [hnext e List.mem_cons_self, besideLinks_next, if_pos rfl]
    rfl
  · obtain rfl : b = y := Option.some.inj hy
    rw [hprev b List.mem_cons_self, besideLinks_prev, if_pos rfl]

/-- `list_insert_front` in front of the first element, when this one has no `prev` link. -/
theorem listInsertFront_head (hl : IsList h list (b :: r)) (he : e ∉ b :: r)
    (hnone : (h b).prev = none) : ∃ list' h',
    listInsertFront list b e h = .ok (list', h') ∧ IsList h' list' (e :: b :: r) := by
  have heb : e ≠ b := fun heq => he (heq ▸ List.mem_cons_self)
  refine ⟨_, _, listInsertFront_none hl.head heb hnone, rfl, ?_, ?_⟩
  · exact hl.tail.trans List.getLast?_cons_cons.symm
  · exact linked_beside hl.linked he (fun _ _ => rfl) fun _ _ => rfl

/-- `list_insert_front` between two elements. -/
theorem listInsertFront_between (hl : IsList h list (l ++ a :: b :: r))
    (he : e ∉ l ++ a :: b :: r) : ∃ list' h',
    listInsertFront list b e h = .ok (list', h') ∧ IsList h' list' (l ++ a :: e :: b :: r) := by
  have hsplit (xs : List α) : l ++ a :: xs = l ++ [a] ++ xs := List.append_cons l a xs
  have hlinked : Linked h (l ++ [a] ++ b :: r) := hsplit (b :: r) ▸ hl.linked
  obtain ⟨hnodupl, -, hdisj⟩ := List.nodup_append.mp hlinked.nodup
  rw [hsplit] at he
  have hebr : e ∉ b :: r := fun hmem => he (List.mem_append_right _ hmem)
  have heb : e ≠ b := fun heq => hebr (heq ▸ List.mem_cons_self)
  have hnot : ∀ y ∈ l ++ [a], y ≠ e ∧ y ≠ b := fun y hy =>
    ⟨fun heq => he (heq ▸ List.mem_append_left _ hy), hdisj y hy b List.mem_cons_self⟩
  -- only `a` has another `next` link than in `besideLinks`
  let h' := (besideLinks h b e).setNext a (some e)
  have hnext (y : α) : (h' y).next = if y = a then some e else (besideLinks h b e y).next :=
    LinkHeap.setNext_next _ _ _ _
  have hprev (y : α) : (h' y).prev = (besideLinks h b e y).prev := LinkHeap.setNext_prev _ _ _ _
  have hbehind : Linked h' (e :: b :: r) := by
    refine linked_beside hlinked.behind hebr (fun y hy => ?_) fun y _ => hprev y
    have hya : y ≠ a := by
      rcases List.mem_cons.mp hy with rfl | hy
      · exact (hnot a (by simp)).1.symm
      · exact (hdisj a (by simp) y hy).symm
    rw [hnext, if_neg hya]
  refine ⟨list, h', listInsertFront_some heb hl.linked.prev_eq, ?_, ?_, ?_⟩
  · rw [hl.head]
    cases l <;> rfl
  · rw [hl.tail]
    simp
  · have hnodup : (l ++ [a] ++ e :: b :: r).Nodup :=
      List.perm_middle.nodup_iff.mpr (List.nodup_cons.mpr ⟨he, hlinked.nodup⟩)
    rw [hsplit]
    refine hlinked.replaceBehind hbehind (List.cons_ne_nil _ _) hnodup (fun y hy => ?_)
      (fun y hy => ?_) fun x hx y hy => ?_
    · rw [List.dropLast_concat] at hy
      have hya : y ≠ a := (List.nodup_append.mp hnodupl).2.2 y hy a List.mem_cons_self
      rw [hnext, if_neg hya, besideLinks_next, if_neg (hnot y (List.mem_append_left _ hy)).1]
    · obtain ⟨hye, hyb⟩ := hnot y (List.mem_of_mem_tail hy)
      rw [hprev, besideLinks_prev, if_neg hyb, if_neg hye]
    · -- `a` and the new element point at each other
      obtain rfl : a = x := by simpa using hx
      obtain rfl : e = y := Option.some.inj hy
      exact ⟨by rw [hnext, if_pos rfl],
        by rw [hprev, besideLinks_self heb, hl.linked.prev_eq]⟩

/-- `list_insert_front` puts the element in front of `b`. When `b` is the first element, its `prev`
link has to say so. -/
theorem listInsertFront_spec (hl : IsList h list (l ++ b :: r)) (he : e ∉ l ++ b :: r)
    (hfront : l = [] → (h b).prev = none) : ∃ list' h',
    listInsertFront list b e h = .ok (list', h') ∧ IsList h' list' (l ++ e :: b :: r) := by
  rcases List.eq_nil_or_concat l with rfl | ⟨l, a, rfl⟩
  · exact listInsertFront_head hl he (hfront rfl)
  · rw [List.concat_eq_append, ← List.append_cons] at hl he ⊢
    exact listInsertFront_between hl he

/-- `insert_in_order` puts the element behind the ones that it goes past. -/
theorem insertInOrder_spec (hl : IsList h list xs) (he : e ∉ xs) (haddr : InKernel addr (xs ++ [e]))
    (hlen : xs.length ≤ LIST_WALK)
    (hfront : ∀ b, list.head = some b → goesPast flag (key e) (key b) = true ∨ (h b).prev = none) :
    ∃ list' h', insertInOrder addr key flag list e h = .ok (list', h') ∧
      IsList h' list' ((xs.takeWhile fun x => goesPast flag (key e) (key x)) ++
        e :: xs.dropWhile fun x => goesPast flag (key e) (key x)) := by
  let p : α → Bool := fun x => goesPast flag (key e) (key x)
  show ∃ list' h', _ ∧ IsList h' list' (xs.takeWhile p ++ e :: xs.dropWhile p)
  have hsplit : xs.takeWhile p ++ xs.dropWhile p = xs := List.takeWhile_append_dropWhile
  have hwalk : insertWalk key flag e h LIST_WALK list.head = .ok (xs.dropWhile p).head? :=
    hl.head ▸ insertWalk_spec hl.linked hlen
  rw [insertInOrder, hwalk, ok_bind]
  cases hdrop : xs.dropWhile p with
  | nil =>
      have htake : xs.takeWhile p = xs := by rwa [hdrop, List.append_nil] at hsplit
      obtain ⟨list', h', hret, hlist, -⟩ := listPushBack_spec hl he haddr
      exact ⟨list', h', hret, htake.symm ▸ hlist⟩
  | cons b r =>
      rw [hdrop] at hsplit
      refine listInsertFront_spec (hsplit.symm ▸ hl) (hsplit.symm ▸ he) fun htake => ?_
      -- the walk has stopped at the first element
      rw [htake, List.nil_append] at hsplit
      have hhead : list.head = some b := hl.head.trans (hsplit ▸ rfl)
      have hstop : ¬ p b = true := by
        have hnot := List.head?_dropWhile_not p xs
        rw [hdrop] at hnot
        simpa using hnot
      exact (hfront b hhead).resolve_left hstop

/-- `list_pop_back` of a list with one element. -/
theorem listPopBack_single (hl : IsList h list [e]) :
    listPopBack list h = .ok (e, listInit, h) := by
  have hhead : list.head = some e := hl.head
  have htail : list.tail = some e := hl.tail
  simp [listPopBack, hhead, htail]

end

end Fizzos.Proofs
