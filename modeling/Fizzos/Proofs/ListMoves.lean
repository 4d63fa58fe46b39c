import Fizzos.Proofs.List

/-!
# `Fizzos.Proofs.ListMoves`: `list_forward` and `list_backward`

`list_forward` swaps an element with the one before it (`listForward_spec`). `list_backward` has the
same assignments in the same order, where the old values are needed in another one: it reads
`elem_next->prev` and `elem->next` for the new links when they still point at `elem` and at
`elem_next`. So `elem` becomes its own predecessor and `elem_next` its own successor
(`listBackward_links`), and no list with two elements survives (`moves_iff`).
-/

set_option autoImplicit false

namespace Fizzos.Proofs

open Fizzos.Support
open Fizzos.LibKernel

variable {α : Type}

/-- The links are inverse to each other, also at the ends, and the header is right. -/
structure WellFormed (h : Links α) (list : KList α) (xs : List α) : Prop extends
    IsList h list xs where
  first : ∀ x, xs.head? = some x → (h x).prev = none

section
variable [DecidableEq α] {h h' : Links α} {list list' : KList α} {l r xs : List α} {p e n : α}

/-- `relinkTail` writes the tail, or the `prev` link of the node behind `e`. -/
theorem relinkTail_spec (hl : IsList h list (l ++ e :: r)) (x : α) : ∃ list' h',
    relinkTail list e x h = .ok (list', h') ∧ list'.head = list.head ∧
      list'.tail = (x :: r).getLast? ∧ (∀ y, (h' y).next = (h y).next) ∧
      ∀ y, (h' y).prev = if r.head? = some y then some x else (h y).prev := by
  have hlast : list.tail = (e :: r).getLast? := by
    rw [hl.tail, List.getLast?_append_of_ne_nil _ (List.cons_ne_nil _ _)]
  have hnext : (h e).next = r.head? := hl.linked.next_eq
  cases r with
  | nil =>
      have htail : list.tail = some e := hlast
      refine ⟨{ list with tail := some x }, h, if_pos htail, rfl, rfl, fun _ => rfl, fun y => ?_⟩
      exact (if_neg (Option.some_ne_none y).symm).symm
  | cons n r =>
      have he : e ∉ n :: r := (List.nodup_cons.mp (List.nodup_append.mp hl.linked.nodup).2.1).1
      have htail : ¬list.tail = some e := by
        intro heq
        rw [hlast, List.getLast?_cons_cons] at heq
        exact he (List.mem_of_getLast? heq)
      refine ⟨list, h.setPrev n (some x), ?_, rfl, ?_, fun y => LinkHeap.setPrev_next _ _ _ _,
        fun y => ?_⟩
      · rw [relinkTail, if_neg htail, hnext]
        rfl
      · rw [hlast, List.getLast?_cons_cons, List.getLast?_cons_cons]
      · rw [LinkHeap.setPrev_prev, List.head?_cons]
        simp only [Option.some.injEq, eq_comm]

/-- `relinkHead` writes the head, or the `next` link of the node before `e`. -/
theorem relinkHead_spec (hl : IsList h list (l ++ e :: r)) (hhead : list'.head = list.head)
    (hprev : (h' e).prev = (h e).prev) (x : α) : ∃ list'' h'',
    relinkHead list' e x h' = .ok (list'', h'') ∧ list''.head = (l ++ [x]).head? ∧
      list''.tail = list'.tail ∧ (∀ y, (h'' y).prev = (h' y).prev) ∧
      ∀ y, (h'' y).next = if l.getLast? = some y then some x else (h' y).next := by
  rcases List.eq_nil_or_concat' l with rfl | ⟨l, q, rfl⟩
  · have hfirst : list'.head = some e := hhead.trans hl.head
    refine ⟨{ list' with head := some x }, h', if_pos hfirst, rfl, rfl, fun _ => rfl, fun y => ?_⟩
    exact (if_neg (Option.some_ne_none y).symm).symm
  · have hne : l ++ [q] ≠ [] := List.append_ne_nil_of_right_ne_nil l (List.cons_ne_nil q [])
    have hfront : list'.head = (l ++ [q]).head? := by
      rw [hhead, hl.head, List.head?_append_of_ne_nil _ hne]
    have hfirst : ¬list'.head = some e := by
      intro heq
      have hmem : e ∈ l ++ [q] := List.mem_of_head? (hfront.symm.trans heq)
      exact (List.nodup_append.mp hl.linked.nodup).2.2 e hmem e List.mem_cons_self rfl
    have hq : (h' e).prev = some q := by
      have hsplit : l ++ [q] ++ e :: r = l ++ q :: e :: r := by simp
      rw [hprev]
      exact (hsplit ▸ hl.linked).prev_eq
    refine ⟨list', h'.setNext q (some x), ?_, ?_, rfl, fun y => LinkHeap.setNext_prev _ _ _ _,
      fun y => ?_⟩
    · rw [relinkHead, if_neg hfirst, hq]
      rfl
    · rw [hfront, List.head?_append_of_ne_nil _ hne]
    · rw [LinkHeap.setNext_next, List.getLast?_concat]
      simp only [Option.some.injEq, eq_comm]

end

/-- Without repetition the last element is not among the others. -/
theorem getLast?_ne_of_mem_dropLast {xs : List α} {x : α} (hnodup : xs.Nodup)
    (hx : x ∈ xs.dropLast) : xs.getLast? ≠ some x := by
  intro heq
  obtain ⟨l, rfl⟩ := List.getLast?_eq_some_iff.mp heq
  rw [List.dropLast_concat] at hx
  exact (List.nodup_append.mp hnodup).2.2 x hx x List.mem_cons_self rfl

/-- Without repetition the first element is not among the others. -/
theorem head?_ne_of_mem_tail {xs : List α} {x : α} (hnodup : xs.Nodup) (hx : x ∈ xs.tail) :
    xs.head? ≠ some x := by
  intro heq
  obtain ⟨l, rfl⟩ := List.head?_eq_some_iff.mp heq
  exact (List.nodup_cons.mp hnodup).1 hx

section
variable [DecidableEq α] {h h' : Links α} {list list' : KList α} {l r xs : List α} {p e n : α}

/-- The header and the links behind `list_forward`. -/
theorem listForward_links (hl : IsList h list (l ++ p :: e :: r)) : ∃ list' h',
    listForward list e h = .ok (list', h') ∧ list'.head = (l ++ [e]).head? ∧
      list'.tail = (p :: r).getLast? ∧
      (∀ y, (h' y).next = if y = e then some p else if y = p then r.head?
        else if l.getLast? = some y then some e else (h y).next) ∧
      ∀ y, (h' y).prev = if y = p then some e else if y = e then (h p).prev
        else if r.head? = some y then some p else (h y).prev := by
  have hsplit : l ++ p :: e :: r = (l ++ [p]) ++ e :: r := by simp
  have hle : IsList h list ((l ++ [p]) ++ e :: r) := hsplit ▸ hl
  have hprev : (h e).prev = some p := hl.linked.prev_eq
  have hnext : (h e).next = r.head? := hle.linked.next_eq
  have hel : e ∉ l ++ [p] := fun hmem =>
    (List.nodup_append.mp hle.linked.nodup).2.2 e hmem e List.mem_cons_self rfl
  have hpr : p ∉ r := fun hmem =>
    (List.nodup_cons.mp hl.linked.behind.nodup).1 (List.mem_cons_of_mem _ hmem)
  have hassert : list.head ≠ none ∧ list.tail ≠ none ∧ list.head ≠ some e ∧ (h e).prev ≠ none := by
    have hne : l ++ [p] ≠ [] := List.append_ne_nil_of_right_ne_nil l (List.cons_ne_nil p [])
    refine ⟨by simp [hl.head], by simp [hl.tail], fun heq => ?_, by simp [hprev]⟩
    rw [hle.head, List.head?_append_of_ne_nil _ hne] at heq
    exact hel (List.mem_of_head? heq)
  obtain ⟨list₁, h₁, hret₁, hhead₁, htail₁, hnext₁, hprev₁⟩ := relinkTail_spec hle p
  have hp₁ : (h₁ p).prev = (h p).prev := by
    rw [hprev₁, if_neg fun heq => hpr (List.mem_of_head? heq)]
  obtain ⟨list₂, h₂, hret₂, hhead₂, htail₂, hprev₂, hnext₂⟩ := relinkHead_spec hl hhead₁ hp₁ e
  -- `elem->next` is read behind the store to `elem->prev`
  let h₃ := h₂.setPrev e (h₂ p).prev
  have hself : (h₃ e).next = r.head? := by
    have hlast : l.getLast? ≠ some e := fun heq =>
      hel (List.mem_append_left _ (List.mem_of_getLast? heq))
    rw [LinkHeap.setPrev_next, hnext₂, if_neg hlast, hnext₁, hnext]
  refine ⟨list₂, ((h₃.setNext p (h₃ e).next).setNext e (some p)).setPrev p (some e), ?_, hhead₂,
    htail₂.trans htail₁, fun y => ?_, fun y => ?_⟩
  · rw [listForward, ASSERT_true hassert, ok_bind, hprev, deref_some, ok_bind, hret₁, ok_bind]
    dsimp only
    rw [hret₂]
    rfl
  · rw [LinkHeap.setPrev_next, LinkHeap.setNext_next, LinkHeap.setNext_next, hself,
      LinkHeap.setPrev_next, hnext₂, hnext₁]
  · rw [LinkHeap.setPrev_prev, LinkHeap.setNext_prev, LinkHeap.setNext_prev, LinkHeap.setPrev_prev,
      hprev₂, hp₁, hprev₂, hprev₁]

/-- `list_forward` swaps the element with the one before it. -/
theorem listForward_spec (hwf : WellFormed h list (l ++ p :: e :: r)) : ∃ list' h',
    listForward list e h = .ok (list', h') ∧ WellFormed h' list' (l ++ e :: p :: r) := by
  obtain ⟨list', h', hret, hhead, htail, hnext, hprev⟩ := listForward_links hwf.toIsList
  obtain ⟨hnodupl, hnodup, hdisj⟩ := List.nodup_append.mp hwf.linked.nodup
  obtain ⟨hp, hnodupe⟩ := List.nodup_cons.mp hnodup
  obtain ⟨he, hnodupr⟩ := List.nodup_cons.mp hnodupe
  have hep : e ≠ p := fun heq => hp (heq ▸ List.mem_cons_self)
  -- the nodes before and behind the two are none of them
  have hl : ∀ y ∈ l, y ≠ e ∧ y ≠ p ∧ r.head? ≠ some y := fun y hy =>
    ⟨hdisj y hy e (by simp), hdisj y hy p (by simp), fun heq =>
      hdisj y hy y (by simp [List.mem_of_head? heq]) rfl⟩
  have hr : ∀ y ∈ r, y ≠ e ∧ y ≠ p ∧ l.getLast? ≠ some y := fun y hy =>
    ⟨fun heq => he (heq ▸ hy), fun heq => hp (List.mem_cons_of_mem _ (heq ▸ hy)), fun heq =>
      hdisj y (List.mem_of_getLast? heq) y (by simp [hy]) rfl⟩
  have hprevl : ∀ y ∈ l, (h' y).prev = (h y).prev := by
    intro y hy
    obtain ⟨hye, hyp, hyr⟩ := hl y hy
    rw [hprev, if_neg hyp, if_neg hye, if_neg hyr]
  have heprev : (h' e).prev = (h p).prev := by rw [hprev, if_neg hep, if_pos rfl]
  -- each link of the new list is a case of the two equations
  have hlinked : Linked h' (l ++ e :: p :: r) := by
    refine hwf.linked.swap ?_ ?_ ?_ (fun y hy => ⟨?_, ?_⟩) (fun y hy => ?_) (fun y hy => ?_)
      (fun y hy => hprevl y (List.mem_of_mem_tail hy)) (fun y hy => ?_) fun y hy => ?_
    · rw [hnext, if_pos rfl]
    · rw [hprev, if_pos rfl]
    · rw [hnext, if_neg hep.symm, if_pos rfl]
    · obtain ⟨hye, hyp, -⟩ := hl y (List.mem_of_getLast? hy)
      rw [hnext, if_neg hye, if_neg hyp, if_pos hy]
    · obtain ⟨l₀, rfl⟩ := List.getLast?_eq_some_iff.mp hy
      have hsplit : l₀ ++ [y] ++ p :: e :: r = l₀ ++ y :: p :: e :: r := by simp
      rw [heprev]
      exact (hsplit ▸ hwf.linked).prev_eq
    · obtain ⟨hye, hyp, -⟩ := hr y (List.mem_of_head? hy)
      rw [hprev, if_neg hyp, if_neg hye, if_pos hy]
    · obtain ⟨hye, hyp, -⟩ := hl y ((List.dropLast_sublist l).mem hy)
      rw [hnext, if_neg hye, if_neg hyp, if_neg (getLast?_ne_of_mem_dropLast hnodupl hy)]
    · obtain ⟨hye, hyp, hyl⟩ := hr y hy
      rw [hnext, if_neg hye, if_neg hyp, if_neg hyl]
    · obtain ⟨hye, hyp, -⟩ := hr y (List.mem_of_mem_tail hy)
      rw [hprev, if_neg hyp, if_neg hye, if_neg (head?_ne_of_mem_tail hnodupr hy)]
  refine ⟨list', h', hret, ⟨?_, ?_, hlinked⟩, fun y hy => ?_⟩
  · rw [hhead]
    cases l <;> rfl
  · rw [htail, List.getLast?_append_of_ne_nil _ (List.cons_ne_nil _ _), List.getLast?_cons_cons]
  · cases l with
    | nil =>
        obtain rfl : e = y := Option.some.inj hy
        rw [heprev]
        exact hwf.first p rfl
    | cons x l =>
        obtain rfl : x = y := Option.some.inj hy
        rw [hprevl x List.mem_cons_self]
        exact hwf.first x rfl

/-- Behind `list_backward` the element is its own predecessor, and the next one its own
successor. -/
theorem listBackward_links (hl : IsList h list (l ++ e :: n :: r))
    (hok : listBackward list e h = .ok (list', h')) :
    (h' e).prev = some e ∧ (h' n).next = some n ∧ (h' e).next = some n ∧ (h' n).prev = some e := by
  have hsplit : l ++ e :: n :: r = (l ++ [e]) ++ n :: r := by simp
  have hln : IsList h list ((l ++ [e]) ++ n :: r) := hsplit ▸ hl
  have hprev : (h n).prev = some e := hl.linked.prev_eq
  have hnext : (h e).next = some n := hl.linked.next_eq
  have hne : n ∉ l ++ [e] := fun hmem =>
    (List.nodup_append.mp hln.linked.nodup).2.2 n hmem n List.mem_cons_self rfl
  have hen : e ≠ n := fun heq => hne (by simp [heq])
  have hnr : n ∉ r := (List.nodup_cons.mp hln.linked.behind.nodup).1
  have her : e ∉ n :: r := (List.nodup_cons.mp hl.linked.behind.nodup).1
  obtain ⟨list₁, h₁, hret₁, hhead₁, htail₁, hnext₁, hprev₁⟩ := relinkTail_spec hln e
  have he₁ : (h₁ e).prev = (h e).prev := by
    rw [hprev₁, if_neg fun heq => her (List.mem_cons_of_mem _ (List.mem_of_head? heq))]
  obtain ⟨list₂, h₂, hret₂, hhead₂, htail₂, hprev₂, hnext₂⟩ := relinkHead_spec hl hhead₁ he₁ n
  obtain ⟨u, -, hok⟩ := bind_eq_ok.mp hok
  rw [hnext, deref_some, ok_bind, hret₁, ok_bind] at hok
  dsimp only at hok
  rw [hret₂] at hok
  have hlast : l.getLast? ≠ some e := fun heq =>
    (List.nodup_append.mp hl.linked.nodup).2.2 e (List.mem_of_getLast? heq) e (by simp) rfl
  -- the two values that are read when they point at the elements themselves
  have hn₂ : (h₂ n).prev = some e := by
    rw [hprev₂, hprev₁, if_neg fun heq => hnr (List.mem_of_head? heq), hprev]
  have he₂ : (h₂ e).next = some n := by rw [hnext₂, if_neg hlast, hnext₁, hnext]
  obtain rfl := congrArg Prod.snd (Except.ok.inj hok)
  refine ⟨?_, ?_, ?_, ?_⟩
  · rw [LinkHeap.setPrev_prev, if_neg hen, LinkHeap.setNext_prev, LinkHeap.setNext_prev,
      LinkHeap.setPrev_prev, if_pos rfl, hn₂]
  · rw [LinkHeap.setPrev_next, LinkHeap.setNext_next, if_neg hen.symm, LinkHeap.setNext_next,
      if_pos rfl, LinkHeap.setPrev_next, he₂]
  · rw [LinkHeap.setPrev_next, LinkHeap.setNext_next, if_pos rfl]
  · rw [LinkHeap.setPrev_prev, if_pos rfl]

/-! ### What the two functions are for -/

/-- `list_forward` swaps any element but the first with the one before it. -/
def ForwardMoves (h : Links α) (list : KList α) (xs : List α) : Prop :=
  ∀ l p e r, xs = l ++ p :: e :: r → ∃ list' h',
    listForward list e h = .ok (list', h') ∧ WellFormed h' list' (l ++ e :: p :: r)

/-- `list_backward` swaps any element but the last with the one behind it. -/
def BackwardMoves (h : Links α) (list : KList α) (xs : List α) : Prop :=
  ∀ l e n r, xs = l ++ e :: n :: r → ∃ list' h',
    listBackward list e h = .ok (list', h') ∧ WellFormed h' list' (l ++ n :: e :: r)

/-- Each of the two undoes the other. -/
def UndoEachOther (h : Links α) (list : KList α) (xs : List α) : Prop :=
  (∀ l p e r, xs = l ++ p :: e :: r →
    ∃ list' h' list'' h'', listForward list e h = .ok (list', h') ∧
    listBackward list' e h' = .ok (list'', h'') ∧ WellFormed h'' list'' xs) ∧
  ∀ l e n r, xs = l ++ e :: n :: r →
    ∃ list' h' list'' h'', listBackward list e h = .ok (list', h') ∧
    listForward list' e h' = .ok (list'', h'') ∧ WellFormed h'' list'' xs

/-- Both move elements, and undo each other. -/
structure MovesElements (h : Links α) (list : KList α) (xs : List α) : Prop where
  forward : ForwardMoves h list xs
  backward : BackwardMoves h list xs
  undo : UndoEachOther h list xs

/-- No list is as it should be behind `list_backward`. -/
theorem not_wellFormed_backward (hl : IsList h list (l ++ e :: n :: r))
    (hok : listBackward list e h = .ok (list', h')) :
    ¬WellFormed h' list' (l ++ n :: e :: r) := by
  intro hwf
  -- `e` would have to come behind itself
  have hself := (listBackward_links hl hok).1
  rw [hwf.linked.prev_eq] at hself
  obtain rfl := Option.some.inj hself
  exact (List.nodup_cons.mp hwf.linked.behind.nodup).1 List.mem_cons_self

omit [DecidableEq α] in
/-- A list with at most one element has no neighbours. -/
theorem append_cons_cons_length (l r : List α) (x y : α) : ¬(l ++ x :: y :: r).length ≤ 1 := by
  rw [List.length_append, List.length_cons, List.length_cons]
  omega

end

/-- For every list: `list_forward` swaps each element with the one before it. Together the two
functions move elements exactly in the lists with at most one element. -/
theorem moves_iff [DecidableEq α] {h : Links α} {list : KList α} {xs : List α}
    (hwf : WellFormed h list xs) :
    ForwardMoves h list xs ∧ (MovesElements h list xs ↔ xs.length ≤ 1) := by
  have hforward : ForwardMoves h list xs := by
    rintro l p e r rfl
    exact listForward_spec hwf
  refine ⟨hforward, fun hmoves => ?_, fun hlen => ⟨hforward, ?_, ?_, ?_⟩⟩
  · match xs, hwf, hmoves with
    | [], _, _ => exact Nat.zero_le 1
    | [x], _, _ => exact Nat.le_refl 1
    | e :: n :: r, hwf, hmoves =>
        obtain ⟨list', h', hok, hwf'⟩ := hmoves.backward [] e n r rfl
        exact absurd hwf' (not_wellFormed_backward (l := []) hwf.toIsList hok)
  · rintro l e n r rfl
    exact absurd hlen (append_cons_cons_length l r e n)
  · rintro l p e r rfl
    exact absurd hlen (append_cons_cons_length l r p e)
  · rintro l e n r rfl
    exact absurd hlen (append_cons_cons_length l r e n)

/-- The links of a list with the elements 0 and 1. -/
def twoLinks : Links Nat := fun x => if x = 0 then ⟨none, some 1⟩ else ⟨some 0, none⟩

theorem twoLinks_wellFormed : WellFormed twoLinks ⟨some 0, some 1⟩ [0, 1] where
  head := rfl
  tail := rfl
  linked := ⟨by decide, List.isChain_pair.mpr ⟨rfl, rfl⟩, fun x hx => by
    obtain rfl : 1 = x := Option.some.inj hx
    rfl⟩
  first x hx := by
    obtain rfl : 0 = x := Option.some.inj hx
    rfl

/-- The second element moves to the front. -/
theorem moves_iff_two : ∃ list' h', listForward ⟨some 0, some 1⟩ 1 twoLinks = .ok (list', h') ∧
    WellFormed h' list' [1, 0] := (moves_iff twoLinks_wellFormed).1 [] 0 1 [] rfl

/-- `list_backward` of the first element leaves a list that no traversal comes to the end of. Its
last two statements read links that the ones before have written. -/
theorem backward_makes_cycle : ∃ list' h',
    listBackward ⟨some 0, some 1⟩ 0 twoLinks = .ok (list', h') ∧
    (∀ n, nodesFrom h' n list'.head = .error .hang) ∧
    ¬MovesElements twoLinks ⟨some 0, some 1⟩ [0, 1] := by
  obtain ⟨list', h', hok⟩ : ∃ list' h',
    listBackward ⟨some 0, some 1⟩ 0 twoLinks = .ok (list', h') := ⟨_, _, rfl⟩
  refine ⟨list', h', hok, fun n => ?_, fun hmoves => ?_⟩
  · have hhead : list'.head = some 1 := by
      cases hok
      rfl
    have hself : (h' 1).next = some 1 :=
      (listBackward_links (l := []) twoLinks_wellFormed.toIsList hok).2.1
    rw [hhead]
    induction n with
    | zero => rfl
    | succ n ih => rw [nodesFrom, hself, ih, error_bind]
  · obtain ⟨list'', h'', hok', hwf'⟩ := hmoves.backward [] 0 1 [] rfl
    exact not_wellFormed_backward (l := []) twoLinks_wellFormed.toIsList hok' hwf'

end Fizzos.Proofs
