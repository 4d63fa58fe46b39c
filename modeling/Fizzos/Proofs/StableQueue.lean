import Fizzos.Proofs.OrderedList
import Mathlib.Data.List.TakeWhile

/-!
# `Fizzos.Proofs.StableQueue`: ordered insertion over a whole run

Between two calls the list holds the live elements in a stable order (`OrderOk`). Two calls break
this: `list_pop_back` when there is more than one element, and an insertion in front of a first
element whose `prev` link is stale (`KeepsOrder`). In a run without them every call keeps the order,
and each of them breaks it at once (`queue_stable`).
-/

set_option autoImplicit false

namespace Fizzos.Proofs

open Fizzos.LibKernel
open Fizzos.Support

/-- The rank of a key. Smaller ranks come first. -/
def rank (flag : Bool) (key : BitVec 32) : Int := if flag then key.toNat else -key.toNat

/-- A traversal visits the live elements in a stable order, and `list_find` knows them. -/
def StableQueue (flag : Bool) (s : QueueState) : Prop :=
  ∃ xs, nodesFrom s.links LIST_WALK s.list.head = .ok xs ∧
    StableOrder (fun x => rank flag (s.key x)) s.live xs ∧
    ∀ x, listFind s.list x s.links = .ok (decide (x ∈ s.live))

/-- `list_pop_back` is called for a list with one element. An element is put in front of the first
one when this one has no `prev` link. -/
def KeepsOrder (flag : Bool) (s : QueueState) : QueueAct → Prop
  | .insert _ key => ∀ head, s.list.head = some head →
      goesPast flag key (s.key head) = true ∨ (s.links head).prev = none
  | .popFront => True
  | .popBack => s.list.head = s.list.tail

/-- The list between two calls. -/
structure OrderOk (flag : Bool) (s : QueueState) (xs : List Nat) : Prop where
  isList : IsList s.links s.list xs
  order : StableOrder (fun x => rank flag (s.key x)) s.live xs
  kernel : InKernel id xs
  pointer : ∀ x ∈ xs, x < 2 ^ 32

theorem goesPast_iff {flag : Bool} {elem head : BitVec 32} :
    goesPast flag elem head = true ↔ rank flag head ≤ rank flag elem := by
  cases flag <;> simp [goesPast, rank, BitVec.le_def]

namespace OrderOk

variable {flag : Bool} {s s' : QueueState} {xs : List Nat} {e : Nat} {key : BitVec 32}

theorem length_le (hs : OrderOk flag s xs) : xs.length ≤ LIST_WALK :=
  length_le_listWalk hs.isList.linked hs.pointer

theorem mem_iff (hs : OrderOk flag s xs) (x : Nat) : x ∈ xs ↔ x ∈ s.live := hs.order.perm.mem_iff

/-- What the users of the list see. -/
theorem stable (hs : OrderOk flag s xs) : StableQueue flag s := by
  refine ⟨xs, ?_, hs.order, fun x => ?_⟩
  · rw [hs.isList.head]
    exact nodesFrom_eq hs.isList.linked hs.length_le
  · rw [listFind_spec hs.isList hs.length_le]
    exact congrArg _ (decide_eq_decide.mpr (hs.mem_iff x))

/-- The first element is gone, also when it is the last one. -/
theorem dropHead {x : Nat} {list : KList Nat} {links : Links Nat} (hs : OrderOk flag s (x :: xs))
    (hl : IsList links list xs) :
    OrderOk flag { s with list, links, live := s.live.erase x } xs where
  isList := hl
  order := hs.order.erase_head hs.isList.linked.nodup
  kernel y hy := hs.kernel y (List.mem_cons_of_mem x hy)
  pointer y hy := hs.pointer y (List.mem_cons_of_mem x hy)

/-- An insertion. -/
theorem insert (hs : OrderOk flag s xs) (henabled : s.Enabled (.insert e key))
    (hkeeps : KeepsOrder flag s (.insert e key)) :
    ∃ s' xs', s.next flag (.insert e key) = .ok s' ∧ OrderOk flag s' xs' := by
  obtain ⟨hkernel, hpointer, hlive⟩ := henabled
  have he : e ∉ xs := mt (hs.mem_iff e).mp hlive
  let keys := Function.update s.key e key
  -- The key of `e` is written before the walk. No element of the list is `e`.
  have hkeys : ∀ x ∈ xs, keys x = s.key x := by
    intro x hx
    have hxe : x ≠ e := fun heq => he (heq ▸ hx)
    exact Function.update_of_ne hxe _ _
  have hself : keys e = key := Function.update_self _ _ _
  have hk : InKernel id (xs ++ [e]) := List.forall_mem_append.mpr
    ⟨hs.kernel, List.forall_mem_singleton.mpr hkernel⟩
  have hfront : ∀ b, s.list.head = some b →
      goesPast flag (keys e) (keys b) = true ∨ (s.links b).prev = none := by
    intro b hb
    rw [hself, hkeys b (List.mem_of_head? (hs.isList.head.symm.trans hb))]
    exact hkeeps b hb
  obtain ⟨list, links, hret, hlist⟩ := insertInOrder_spec hs.isList he hk hs.length_le hfront
  -- The walk goes past the elements in front of which `e` must not stand.
  let p : Nat → Bool := fun x => goesPast flag (keys e) (keys x)
  have hsplit : xs.takeWhile p ++ xs.dropWhile p = xs := List.takeWhile_append_dropWhile
  have hmem : ∀ x, x ∈ xs.takeWhile p ++ e :: xs.dropWhile p ↔ x ∈ xs ++ [e] := by
    intro x
    rw [List.perm_middle.mem_iff, hsplit, (List.perm_append_singleton e xs).mem_iff]
  have horder :
      StableOrder (fun x => rank flag (keys x)) s.live (xs.takeWhile p ++ xs.dropWhile p) :=
    hsplit.symm ▸ hs.order.congr fun x hx => congrArg (rank flag) (hkeys x hx)
  refine ⟨⟨list, links, keys, s.live ++ [e]⟩, xs.takeWhile p ++ e :: xs.dropWhile p, ?_, hlist, ?_,
    ?_, ?_⟩
  · simp only [QueueState.next, hret, ok_bind, pure_eq_ok, keys]
  · refine horder.insert (fun a ha => ?_) fun b hb => ?_
    · have hpast : p a = true := List.mem_takeWhile_imp ha
      exact goesPast_iff.mp hpast
    · have hnot := List.head?_dropWhile_not p xs
      rw [hb] at hnot
      exact lt_of_not_ge fun hle => absurd (goesPast_iff.mpr hle) (by simpa using hnot)
  · exact fun x hx => hk x ((hmem x).mp hx)
  · intro x hx
    rcases List.mem_append.mp ((hmem x).mp hx) with hx | hx
    · exact hs.pointer x hx
    · rw [List.mem_singleton.mp hx]
      exact hpointer

/-- Every call that keeps the order returns, and keeps the order. -/
theorem next {a : QueueAct} (hs : OrderOk flag s xs) (henabled : s.Enabled a)
    (hkeeps : KeepsOrder flag s a) :
    ∃ s' xs', s.next flag a = .ok s' ∧ OrderOk flag s' xs' := by
  cases a with
  | insert e key => exact hs.insert henabled hkeeps
  | popFront =>
      cases xs with
      | nil =>
          refine ⟨s, [], ?_, hs⟩
          simp only [QueueState.next, listPopFront_nil hs.isList, ok_bind, pure_eq_ok,
            Option.elim_none]
      | cons x xs =>
          obtain ⟨list, links, hret, hlist, -⟩ := listPopFront_spec hs.isList hs.kernel
          refine ⟨_, xs, ?_, hs.dropHead hlist⟩
          simp only [QueueState.next, hret, ok_bind, pure_eq_ok, Option.elim_some]
  | popBack =>
      have hne : xs ≠ [] := by
        rintro rfl
        exact henabled (List.perm_nil.mp hs.order.perm.symm)
      obtain ⟨x, rfl⟩ := (hs.isList.head_eq_tail hne).mp hkeeps
      refine ⟨_, [], ?_, hs.dropHead (IsList.init s.links)⟩
      simp only [QueueState.next, listPopBack_single hs.isList, ok_bind, pure_eq_ok]

/-- Behind `list_pop_back` a traversal still visits all elements. -/
theorem popBack_keeps (hs : OrderOk flag s xs) (henabled : s.live ≠ [])
    (hnext : s.next flag .popBack = .ok s') (hstable : StableQueue flag s') :
    s.list.head = s.list.tail := by
  by_contra hne
  obtain ⟨u, e, hlast⟩ : ∃ u e, xs = u ++ [e] := by
    rcases List.eq_nil_or_concat xs with rfl | ⟨u, e, rfl⟩
    · exact absurd (List.perm_nil.mp hs.order.perm.symm) henabled
    · exact ⟨u, e, List.concat_eq_append⟩
  have htail : s.list.tail = some e := by rw [hs.isList.tail, hlast, List.getLast?_concat]
  have hpop : listPopBack s.list s.links
      = .ok (e, { s.list with tail := (s.links e).prev }, s.links) := by
    have htail' : ¬ some e = s.list.head := fun heq => hne (heq.symm.trans htail.symm)
    simp [listPopBack, htail, htail']
  simp only [QueueState.next, hpop, ok_bind, pure_eq_ok] at hnext
  obtain rfl := Except.ok.inj hnext
  obtain ⟨ys, hwalk, horder, -⟩ := hstable
  -- the head and all links are as before
  have hwalk' : nodesFrom s.links LIST_WALK s.list.head = .ok xs := by
    rw [hs.isList.head]
    exact nodesFrom_eq hs.isList.linked hs.length_le
  obtain rfl := Except.ok.inj (hwalk'.symm.trans hwalk)
  -- The same elements are visited, but one of them is popped.
  have hlive : e ∈ s.live := (hs.mem_iff e).mp (hlast ▸ List.mem_append_right u List.mem_cons_self)
  have hlen := horder.perm.length_eq.symm.trans (hs.order.perm.length_eq)
  rw [List.length_erase_of_mem hlive] at hlen
  have hpos := List.length_pos_of_mem hlive
  omega

end OrderOk

/-- A traversal visits the first node first. -/
theorem nodesFrom_head? {h : Links Nat} {n : Nat} {p : Option Nat} {zs : List Nat}
    (hwalk : nodesFrom h n p = .ok zs) : zs.head? = p := by
  cases p with
  | none =>
      cases n <;> obtain rfl := Except.ok.inj hwalk <;> rfl
  | some e =>
      cases n with
      | zero => cases hwalk
      | succ n =>
          rw [nodesFrom] at hwalk
          obtain ⟨rest, -, hzs⟩ := bind_eq_ok.mp hwalk
          exact Except.ok.inj hzs ▸ rfl

/-- A traversal visits a node and then the one behind it. -/
theorem nodesFrom_next {h : Links Nat} {n : Nat} {p : Option Nat} {zs : List Nat} {a c : Nat}
    (hwalk : nodesFrom h n p = .ok zs) (ha : a ∈ zs) (hnext : (h a).next = some c) :
    ∃ l r, zs = l ++ a :: c :: r := by
  induction n generalizing p zs with
  | zero =>
      cases p with
      | none => exact absurd (Except.ok.inj hwalk ▸ ha) List.not_mem_nil
      | some e => cases hwalk
  | succ n ih =>
      cases p with
      | none => exact absurd (Except.ok.inj hwalk ▸ ha) List.not_mem_nil
      | some e =>
          rw [nodesFrom] at hwalk
          obtain ⟨rest, hrest, hzs⟩ := bind_eq_ok.mp hwalk
          obtain rfl := Except.ok.inj hzs
          rcases List.mem_cons.mp ha with rfl | ha
          · obtain ⟨r, rfl⟩ := List.head?_eq_some_iff.mp ((nodesFrom_head? hrest).trans hnext)
            exact ⟨[], r, rfl⟩
          · obtain ⟨l, r, rfl⟩ := ih hrest ha
            exact ⟨e :: l, r, rfl⟩

/-- An element that is put in front of the first one, when this one has a `prev` link, is not on a
traversal that visits nothing twice. -/
theorem not_mem_of_stale {list list' : KList Nat} {h h' : Links Nat} {b e p n : Nat} {zs : List Nat}
    (hhead : list.head = some b) (heb : e ≠ b) (hstale : (h b).prev = some p)
    (hret : listInsertFront list b e h = .ok (list', h'))
    (hwalk : nodesFrom h' n list'.head = .ok zs) (hnodup : zs.Nodup) : e ∉ zs := by
  intro hmem
  rw [listInsertFront_some heb hstale] at hret
  obtain ⟨rfl, rfl⟩ := Prod.mk.inj (Except.ok.inj hret)
  rw [hhead] at hwalk
  obtain ⟨c, hc, hnext⟩ : ∃ c, (c = b ∨ c = e) ∧
      ((besideLinks h b e).setNext p (some e) e).next = some c := by
    rw [LinkHeap.setNext_next, besideLinks_next, if_pos rfl]
    by_cases hpe : e = p
    · exact ⟨e, .inr rfl, if_pos hpe⟩
    · exact ⟨b, .inl rfl, if_neg hpe⟩
  obtain ⟨l, r, rfl⟩ := nodesFrom_next hwalk hmem hnext
  obtain ⟨-, hnodup', hdisj⟩ := List.nodup_append.mp hnodup
  rcases hc with rfl | rfl
  · -- the first element would be visited a second time, behind the new one
    cases l with
    | nil => exact heb (Option.some.inj (nodesFrom_head? hwalk))
    | cons x l =>
        obtain rfl : x = c := Option.some.inj (nodesFrom_head? hwalk)
        exact hdisj x List.mem_cons_self x (by simp) rfl
  · exact (List.nodup_cons.mp hnodup').1 List.mem_cons_self

namespace OrderOk

variable {flag : Bool} {s s' : QueueState} {xs : List Nat} {e : Nat} {key : BitVec 32}

/-- When an element is put in front of a first one with a `prev` link, it is lost. -/
theorem insert_keeps (hs : OrderOk flag s xs) (henabled : s.Enabled (.insert e key))
    (hnext : s.next flag (.insert e key) = .ok s') (hstable : StableQueue flag s') :
    KeepsOrder flag s (.insert e key) := by
  intro b hb
  by_contra hstale
  obtain ⟨hpast, hprev⟩ := not_or.mp hstale
  obtain ⟨p, hp⟩ := Option.ne_none_iff_exists'.mp hprev
  obtain ⟨-, -, hlive⟩ := henabled
  have hb' : b ∈ xs := List.mem_of_head? (hs.isList.head.symm.trans hb)
  have heb : e ≠ b := fun heq => hlive (heq ▸ (hs.mem_iff b).mp hb')
  let keys := Function.update s.key e key
  -- The walk stops at the first element, so `list_insert_front` gets it.
  have hwalk : insertWalk keys flag e s.links LIST_WALK s.list.head = .ok (some b) := by
    have hkeys : keys e = key ∧ keys b = s.key b :=
      ⟨Function.update_self _ _ _, Function.update_of_ne heb.symm _ _⟩
    rw [hb, show LIST_WALK = 2 ^ 32 - 1 + 1 from rfl, insertWalk, hkeys.1, hkeys.2, if_neg hpast]
  obtain ⟨⟨list, links⟩, hinsert, hok⟩ := bind_eq_ok.mp hnext
  rw [insertInOrder, hwalk, ok_bind] at hinsert
  obtain rfl := Except.ok.inj hok
  obtain ⟨zs, hvisit, horder, -⟩ := hstable
  have hnodup : zs.Nodup := by
    have hlive' : s.live.Nodup := hs.order.perm.nodup_iff.mp hs.isList.linked.nodup
    refine horder.perm.nodup_iff.mpr (List.nodup_append.mpr ⟨hlive', List.nodup_singleton e, ?_⟩)
    intro x hx y hy heq
    exact hlive (List.mem_singleton.mp hy ▸ heq ▸ hx)
  refine not_mem_of_stale hb heb hp hinsert hvisit hnodup ?_
  exact horder.perm.mem_iff.mpr (List.mem_append_right _ List.mem_cons_self)

/-- A call keeps the order exactly when it is one that `KeepsOrder` allows. -/
theorem next_iff {a : QueueAct} (hs : OrderOk flag s xs) (henabled : s.Enabled a) :
    KeepsOrder flag s a ↔ ∃ s', s.next flag a = .ok s' ∧ StableQueue flag s' := by
  constructor
  · intro hkeeps
    obtain ⟨s', xs', hnext, hs'⟩ := hs.next henabled hkeeps
    exact ⟨s', hnext, hs'.stable⟩
  · rintro ⟨s', hnext, hstable⟩
    cases a with
    | insert e key => exact hs.insert_keeps henabled hnext hstable
    | popFront => trivial
    | popBack => exact hs.popBack_keeps henabled hnext hstable

end OrderOk

theorem queueSystem_inductive (flag : Bool) :
    ((queueSystem flag).restrict (KeepsOrder flag)).Inductive fun s => ∃ xs, OrderOk flag s xs where
  init := by
    rintro ⟨list, links, key, live⟩ ⟨rfl, rfl⟩
    exact ⟨[], IsList.init links, .nil _, by simp [InKernel], by simp⟩
  step := by
    rintro s s' a ⟨xs, hs⟩ ⟨henabled, hkeeps⟩ hnext
    obtain ⟨s'', xs', hok, hs'⟩ := hs.next henabled hkeeps
    obtain rfl := Except.ok.inj (hok.symm.trans hnext)
    exact ⟨xs', hs'⟩

/-- In a run whose calls all meet the condition the list is a stable queue, and the next call keeps
it one exactly when it meets the condition, too. -/
theorem queue_stable {flag : Bool} {s : QueueState}
    (hs : ((queueSystem flag).restrict (KeepsOrder flag)).Reachable s) :
    StableQueue flag s ∧ ∀ a, s.Enabled a →
      (KeepsOrder flag s a ↔ ∃ s', s.next flag a = .ok s' ∧ StableQueue flag s') := by
  obtain ⟨xs, hok⟩ := (queueSystem_inductive flag).reachable hs
  exact ⟨hok.stable, fun a henabled => hok.next_iff henabled⟩

/-! ### Two elements -/

/-- The links of one element that is on the list alone. -/
def oneLink : Links Nat :=
  LinkHeap.setNext (LinkHeap.setPrev (fun _ => ⟨none, none⟩) 0xc0000010 none) 0xc0000010 none

/-- An element with the key 1 is on the list. -/
def oneQueued : QueueState where
  list := ⟨some 0xc0000010, some 0xc0000010⟩
  links := oneLink
  key := Function.update (fun _ => 0) 0xc0000010 1
  live := [0xc0000010]

/-- Another one with the key 2 is behind it. -/
def twoQueued : QueueState where
  list := ⟨some 0xc0000010, some 0xc0000020⟩
  links := ((oneLink.setNext 0xc0000010 (some 0xc0000020)).setPrev 0xc0000020
    (some 0xc0000010)).setNext 0xc0000020 none
  key := Function.update oneQueued.key 0xc0000020 2
  live := [0xc0000010, 0xc0000020]

theorem twoQueued_reachable :
    ((queueSystem true).restrict (KeepsOrder true)).Reachable twoQueued := by
  have hs₀ : ((queueSystem true).restrict (KeepsOrder true)).Reachable
      ⟨listInit, fun _ => ⟨none, none⟩, fun _ => 0, []⟩ := .init ⟨rfl, rfl⟩
  have hs₁ : ((queueSystem true).restrict (KeepsOrder true)).Reachable oneQueued := by
    refine hs₀.step (a := .insert 0xc0000010 1) ⟨⟨by decide, by decide, List.not_mem_nil⟩, ?_⟩ rfl
    intro head hhead
    cases hhead
  refine hs₁.step (a := .insert 0xc0000020 2) ⟨⟨by decide, by decide, by decide⟩, ?_⟩ rfl
  -- the new key goes past the first one
  intro head hhead
  obtain rfl := Option.some.inj hhead
  exact .inl rfl

theorem queue_stable_two : StableQueue true twoQueued ∧ ∀ a, twoQueued.Enabled a →
    (KeepsOrder true twoQueued a ↔ ∃ s', twoQueued.next true a = .ok s' ∧ StableQueue true s') :=
  queue_stable twoQueued_reachable

/-- Two elements are inserted and the last one is popped: it is still on the list, since the link to
it is not cleared. -/
theorem popped_back_is_visited : ∃ s, (queueSystem true).Reachable s ∧ s.live = [0xc0000010] ∧
    nodesFrom s.links LIST_WALK s.list.head = .ok [0xc0000010, 0xc0000020] ∧
    ¬StableQueue true s := by
  obtain ⟨xs, hok⟩ := (queueSystem_inductive true).reachable twoQueued_reachable
  obtain ⟨s', hnext⟩ : ∃ s', twoQueued.next true .popBack = .ok s' := ⟨_, rfl⟩
  have henabled : twoQueued.live ≠ [] := List.cons_ne_nil _ _
  have hreach : (queueSystem true).Reachable s' :=
    twoQueued_reachable.of_restrict.step (a := .popBack) henabled hnext
  refine ⟨s', hreach, ?_, ?_, fun hstable => ?_⟩
  · obtain rfl := Except.ok.inj hnext
    rfl
  · obtain rfl := Except.ok.inj hnext
    rfl
  · have hsame := hok.popBack_keeps henabled hnext hstable
    exact absurd hsame (by decide)

end Fizzos.Proofs
