import Fizzos.Proofs.List

/-!
# `Fizzos.Proofs.ListRuns`: a list over a whole run

`IsList` does not mention the `prev` link of the first element. `list_pop_front` leaves that link
stale, and no function reads it: `list_delete` reads `prev` of an element only when it is not the
head, and `list_push_front` writes it. So `IsList` is an invariant of every run.
-/

set_option autoImplicit false

namespace Fizzos.Proofs

open Fizzos.LibKernel
open Fizzos.Support

/-- The list between two calls. -/
structure ListOk (s : ListState) : Prop where
  isList : IsList s.links s.list s.seq
  kernel : ∀ x ∈ s.seq, KERNEL_VADDR_START ≤ x
  pointer : ∀ x ∈ s.seq, x < 2 ^ 32

namespace ListOk

variable {s : ListState}

theorem length_le (hs : ListOk s) : s.seq.length ≤ LIST_WALK :=
  length_le_listWalk hs.isList.linked hs.pointer

theorem inKernel (hs : ListOk s) : InKernel id s.seq := hs.kernel

/-- Every call returns, and does the same to the sequence. -/
theorem next (hs : ListOk s) {a : ListAct} (henabled : s.Enabled a) :
    ∃ s', s.next a = .ok s' ∧ s'.seq = seqAfter s.seq a ∧ ListOk s' := by
  cases a with
  | init => exact ⟨_, rfl, rfl, IsList.init _, by simp [seqAfter], by simp [seqAfter]⟩
  | pushBack elem =>
      obtain ⟨hkernel, hpointer, hnew⟩ := henabled
      have hk : InKernel id (s.seq ++ [elem]) := by
        intro x hx
        rcases List.mem_append.mp hx with hx | hx
        · exact hs.kernel x hx
        · rw [List.mem_singleton.mp hx]
          exact hkernel
      obtain ⟨list, links, hpush, hlist, -⟩ := listPushBack_spec hs.isList hnew hk
      refine ⟨⟨list, links, s.seq ++ [elem]⟩, ?_, rfl, hlist, hk, ?_⟩
      · simp only [ListState.next, ListState.listAfter, hpush, ok_bind, pure_eq_ok, seqAfter]
      · intro x hx
        rcases List.mem_append.mp hx with hx | hx
        · exact hs.pointer x hx
        · rw [List.mem_singleton.mp hx]
          exact hpointer
  | pushFront elem =>
      obtain ⟨hkernel, hpointer, hnew⟩ := henabled
      obtain ⟨list, links, hpush, hlist, -⟩ := listPushFront_spec hs.isList hnew
      refine ⟨⟨list, links, elem :: s.seq⟩, ?_, rfl, hlist, ?_, ?_⟩
      · simp only [ListState.next, ListState.listAfter, hpush, ok_bind, pure_eq_ok, seqAfter]
      · exact List.forall_mem_cons.mpr ⟨hkernel, hs.kernel⟩
      · exact List.forall_mem_cons.mpr ⟨hpointer, hs.pointer⟩
  -- On an empty list `list_pop_front` returns NULL and changes nothing.
  | popFront =>
      cases hseq : s.seq with
      | nil =>
          have hempty := hseq ▸ hs.isList
          refine ⟨⟨s.list, s.links, []⟩, ?_, rfl, hempty, by simp, by simp⟩
          simp only [ListState.next, ListState.listAfter, listPopFront_nil hempty, ok_bind,
            pure_eq_ok, seqAfter, hseq, List.tail_nil]
      | cons x xs =>
          have hcons := hseq ▸ hs.isList
          obtain ⟨list, links, hpop, hlist, -⟩ := listPopFront_spec hcons (hseq ▸ hs.inKernel)
          refine ⟨⟨list, links, xs⟩, ?_, rfl, hlist, ?_, ?_⟩
          · simp only [ListState.next, ListState.listAfter, hpop, ok_bind, pure_eq_ok, seqAfter,
              hseq, List.tail_cons]
          · intro y hy
            exact hs.kernel y (hseq ▸ List.mem_cons_of_mem x hy)
          · intro y hy
            exact hs.pointer y (hseq ▸ List.mem_cons_of_mem x hy)
  | delete elem =>
      obtain ⟨list, links, hdelete, hlist, -⟩ := listDelete_spec hs.isList henabled hs.length_le
      refine ⟨⟨list, links, s.seq.erase elem⟩, ?_, rfl, hlist, ?_, ?_⟩
      · simp only [ListState.next, ListState.listAfter, hdelete, ok_bind, pure_eq_ok, seqAfter]
      · exact fun x hx => hs.kernel x (List.mem_of_mem_erase hx)
      · exact fun x hx => hs.pointer x (List.mem_of_mem_erase hx)

end ListOk

theorem listSystem_inductive : listSystem.Inductive ListOk where
  init := by
    rintro ⟨list, links, seq⟩ ⟨rfl, rfl⟩
    exact ⟨IsList.init links, by simp, by simp⟩
  step hs henabled hnext := by
    obtain ⟨s', hok, -, hs'⟩ := hs.next henabled
    obtain rfl := Except.ok.inj (hok.symm.trans hnext)
    exact hs'

/-- A list is a sequence, for every run of calls. Walking `next` from the head visits its
elements and ends with `NULL`, the tail is the last one, and behind the first element each `prev`
is the element before. `list_find` answers membership and `list_empty` emptiness, every call
returns and does the same to the sequence, and `list_pop_front` returns its first element. -/
theorem listSystem_isSequence {s : ListState} (hs : listSystem.Reachable s) :
    nodesFrom s.links LIST_WALK s.list.head = .ok s.seq ∧
    s.list.head = s.seq.head? ∧ s.list.tail = s.seq.getLast? ∧
    (∀ l₁ a b l₂, s.seq = l₁ ++ a :: b :: l₂ → (s.links b).prev = some a) ∧
    (∀ x, listFind s.list x s.links = .ok (decide (x ∈ s.seq))) ∧
    listEmpty s.list = s.seq.isEmpty ∧
    (∀ a, s.Enabled a → ∃ s', s.next a = .ok s' ∧ s'.seq = seqAfter s.seq a) ∧
    ∃ list links, listPopFront id s.list s.links = .ok (s.seq.head?, list, links) := by
  have hok := listSystem_inductive.reachable hs
  have hl := hok.isList
  refine ⟨?_, hl.head, hl.tail, ?_, fun x => listFind_spec hl hok.length_le, hl.listEmpty_eq,
    fun a henabled => ?_, ?_⟩
  · rw [hl.head]
    exact nodesFrom_eq hl.linked hok.length_le
  · intro l₁ a b l₂ hseq
    exact (hseq ▸ hl.linked).prev_eq
  · obtain ⟨s', hnext, hseq, -⟩ := hok.next henabled
    exact ⟨s', hnext, hseq⟩
  · cases hseq : s.seq with
    | nil => exact ⟨s.list, s.links, listPopFront_nil (hseq ▸ hl)⟩
    | cons x xs =>
        obtain ⟨list, links, hpop, -⟩ := listPopFront_spec (hseq ▸ hl) (hseq ▸ hok.inKernel)
        exact ⟨list, links, hpop⟩

/-- Two elements are pushed and the first is popped. The `prev` link of the new head is stale. -/
theorem listSystem_isSequence_stale : ∃ s, listSystem.Reachable s ∧ s.seq = [0xc0000020] ∧
    nodesFrom s.links LIST_WALK s.list.head = .ok [0xc0000020] ∧
    (s.links 0xc0000020).prev = some 0xc0000010 := by
  let x : Nat := 0xc0000010
  let y : Nat := 0xc0000020
  let links₀ : Links Nat := fun _ => ⟨none, none⟩
  let links₁ := (links₀.setPrev x none).setNext x none
  let links₂ := ((links₁.setNext x (some y)).setPrev y (some x)).setNext y none
  have hs₀ : listSystem.Reachable ⟨listInit, links₀, []⟩ := .init ⟨rfl, rfl⟩
  have hx : listSystem.enabled ⟨listInit, links₀, []⟩ (.pushBack x) :=
    ⟨by decide, by decide, List.not_mem_nil⟩
  have hs₁ : listSystem.Reachable ⟨⟨some x, some x⟩, links₁, [x]⟩ := .step hs₀ hx rfl
  have hy : listSystem.enabled ⟨⟨some x, some x⟩, links₁, [x]⟩ (.pushBack y) :=
    ⟨by decide, by decide, by decide⟩
  have hs₂ : listSystem.Reachable ⟨⟨some x, some y⟩, links₂, [x, y]⟩ := .step hs₁ hy rfl
  have hpop : listSystem.enabled ⟨⟨some x, some y⟩, links₂, [x, y]⟩ .popFront := trivial
  have hs₃ : listSystem.Reachable ⟨⟨some y, some y⟩, links₂.setNext x none, [y]⟩ :=
    .step hs₂ hpop rfl
  exact ⟨_, hs₃, rfl, (listSystem_isSequence hs₃).1, rfl⟩

end Fizzos.Proofs
