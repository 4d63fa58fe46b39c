import Fizzos.Proofs.List

/-!
# `Fizzos.Proofs.ListFamily`: several lists with headers in one heap

`Lists addr V hdr h S` says that the headers `hdr q` of the names `q` with `V q` hold the
sequences `S q`, and that all sequences share the links `h` without a common node. A name
that is not in use has no header to rely on, and its sequence is empty.

Each list operation on one of the names keeps the family and changes one sequence.
-/

set_option autoImplicit false

namespace Fizzos.Proofs

open Fizzos.Support
open Fizzos.LibKernel

variable {ι α : Type}

/-- The headers in use hold the sequences `S`, which share the links. -/
structure Lists (addr : α → Nat) (V : ι → Prop) (hdr : ι → KList α) (h : Links α)
    (S : ι → List α) : Prop where
  family : Family h S
  head : ∀ q, V q → (hdr q).head = (S q).head?
  tail : ∀ q, V q → (hdr q).tail = (S q).getLast?
  kernel : ∀ q, InKernel addr (S q)
  unused : ∀ q, ¬V q → S q = []

namespace Lists

variable {addr : α → Nat} {V V' : ι → Prop} {hdr hdr' : ι → KList α} {h h' : Links α}
  {S : ι → List α} {q : ι} {x : α}

theorem isList (hs : Lists addr V hdr h S) (hq : V q) : IsList h (hdr q) (S q) :=
  ⟨hs.head q hq, hs.tail q hq, hs.family.linked q⟩

theorem nodup (hs : Lists addr V hdr h S) (q : ι) : (S q).Nodup := (hs.family.linked q).nodup

/-- Writes that leave the nodes and the headers alone keep the family. -/
theorem congr (hs : Lists addr V hdr h S) (hhdr : ∀ q, V q → hdr' q = hdr q)
    (hlinks : ∀ q, ∀ x ∈ S q, h' x = h x) : Lists addr V hdr' h' S where
  family := hs.family.congr hlinks
  head q hq := by rw [hhdr q hq, hs.head q hq]
  tail q hq := by rw [hhdr q hq, hs.tail q hq]
  kernel := hs.kernel
  unused := hs.unused

/-- A node of one list is in no other list. -/
theorem not_mem_of_ne (hs : Lists addr V hdr h S) {r : ι} (hrq : r ≠ q) {y : α}
    (hy : y ∈ S r) : y ∉ S q := fun hyq => hrq (hs.family.apart r q y hy hyq)

/-- `list_find` answers membership. -/
theorem find [DecidableEq α] (hs : Lists addr V hdr h S) (hq : V q)
    (hlen : (S q).length ≤ LIST_WALK) (x : α) :
    listFind (hdr q) x h = .ok (decide (x ∈ S q)) := listFind_spec (hs.isList hq) hlen

section
variable [DecidableEq ι]

/-- One list is replaced. The links of the other lists stay. -/
theorem replace (hs : Lists addr V hdr h S) (hq : V q) {l : KList α} {xs : List α}
    (hl : IsList h' l xs) (hframe : ∀ r, r ≠ q → ∀ y ∈ S r, h' y = h y)
    (hnew : ∀ r, r ≠ q → ∀ y ∈ S r, y ∉ xs) (hkernel : InKernel addr xs) :
    Lists addr V (Function.update hdr q l) h' (Function.update S q xs) where
  family := hs.family.update q xs hl.linked hframe hnew
  head r hr := by
    by_cases hrq : r = q
    · subst hrq
      simpa using hl.head
    · simpa [hrq] using hs.head r hr
  tail r hr := by
    by_cases hrq : r = q
    · subst hrq
      simpa using hl.tail
    · simpa [hrq] using hs.tail r hr
  kernel r := by
    by_cases hrq : r = q
    · subst hrq
      simpa using hkernel
    · simpa [hrq] using hs.kernel r
  unused r hr := by
    have hrq : r ≠ q := by
      rintro rfl
      exact hr hq
    simpa [hrq] using hs.unused r hr

/-- A list comes into use, empty. -/
theorem add (hs : Lists addr V hdr h S) (hq : ¬V q) (hV : ∀ r, V' r ↔ r = q ∨ V r) :
    Lists addr V' (Function.update hdr q listInit) h S where
  family := hs.family
  head r hr := by
    by_cases hrq : r = q
    · subst hrq
      simp [hs.unused r hq, listInit]
    · simpa [hrq] using hs.head r (((hV r).mp hr).resolve_left hrq)
  tail r hr := by
    by_cases hrq : r = q
    · subst hrq
      simp [hs.unused r hq, listInit]
    · simpa [hrq] using hs.tail r (((hV r).mp hr).resolve_left hrq)
  kernel := hs.kernel
  unused r hr := hs.unused r fun hV' => hr ((hV r).mpr (.inr hV'))

/-- A list goes out of use, with its nodes. -/
theorem drop (hs : Lists addr V hdr h S) (hV : ∀ r, V' r ↔ r ≠ q ∧ V r) :
    Lists addr V' hdr h (Function.update S q []) where
  family := hs.family.update q [] (Linked.nil h) (fun _ _ _ _ => rfl) (fun _ _ _ _ => by simp)
  head r hr := by
    obtain ⟨hrq, hr⟩ := (hV r).mp hr
    simpa [hrq] using hs.head r hr
  tail r hr := by
    obtain ⟨hrq, hr⟩ := (hV r).mp hr
    simpa [hrq] using hs.tail r hr
  kernel r := by
    by_cases hrq : r = q
    · subst hrq
      simp [InKernel]
    · simpa [hrq] using hs.kernel r
  unused r hr := by
    by_cases hrq : r = q
    · subst hrq
      simp
    · simpa [hrq] using hs.unused r fun h => hr ((hV r).mpr ⟨hrq, h⟩)

variable [DecidableEq α]

/-- `list_push_back` of a node that is on no list. -/
theorem pushBack (hs : Lists addr V hdr h S) (hq : V q) (hx : ∀ r, x ∉ S r)
    (haddr : KERNEL_VADDR_START ≤ addr x) :
    ∃ l h', listPushBack addr (hdr q) x h = .ok (l, h') ∧
      Lists addr V (Function.update hdr q l) h' (Function.update S q (S q ++ [x])) := by
  have hkernel : InKernel addr (S q ++ [x]) := by
    intro y hy
    rcases List.mem_append.mp hy with hy | hy
    · exact hs.kernel q y hy
    · rw [List.mem_singleton.mp hy]
      exact haddr
  obtain ⟨l, h', hok, hl, hframe⟩ := listPushBack_spec (hs.isList hq) (hx q) hkernel
  refine ⟨l, h', hok, hs.replace hq hl (fun r hr y hy => ?_) (fun r hr y hy => ?_) hkernel⟩
  · refine hframe y ?_ (hs.not_mem_of_ne hr hy)
    rintro rfl
    exact hx r hy
  · rw [List.mem_append, List.mem_singleton, not_or]
    refine ⟨hs.not_mem_of_ne hr hy, ?_⟩
    rintro rfl
    exact hx r hy

/-- `list_push_back` of the only node of a list once more: its `prev` link now points at
itself, and nothing reads it. -/
theorem pushBack_again (hs : Lists addr V hdr h S) (hq : V q) (hx : S q = [x]) :
    ∃ l h', listPushBack addr (hdr q) x h = .ok (l, h') ∧
      Lists addr V (Function.update hdr q l) h' S := by
  have hhead : (hdr q).head = some x := by rw [hs.head q hq, hx]; rfl
  have htail : (hdr q).tail = some x := by rw [hs.tail q hq, hx]; rfl
  have haddr : KERNEL_VADDR_START ≤ addr x := hs.kernel q x (by simp [hx])
  let h' := ((h.setNext x (some x)).setPrev x (some x)).setNext x none
  have hl : IsList h' ⟨some x, some x⟩ (S q) := by
    rw [hx]
    exact ⟨rfl, rfl, Linked.singleton (by simp [h', LinkHeap.setNext_next])⟩
  have hframe : ∀ r, r ≠ q → ∀ y ∈ S r, h' y = h y := by
    intro r hr y hy
    have hne : y ≠ x := by
      rintro rfl
      exact hs.not_mem_of_ne hr hy (by simp [hx])
    simp [h', LinkHeap.setNext_of_ne _ _ hne, LinkHeap.setPrev_of_ne _ _ hne]
  refine ⟨⟨some x, some x⟩, h', by simp [listPushBack, hhead, htail, isKernelPtr, haddr, h'], ?_⟩
  have hsame := hs.replace hq hl hframe (fun r hr y hy => hs.not_mem_of_ne hr hy) (hs.kernel q)
  rwa [Function.update_eq_self] at hsame

/-- `list_delete` of a node of the list. -/
theorem delete (hs : Lists addr V hdr h S) (hq : V q) (hx : x ∈ S q)
    (hlen : (S q).length ≤ LIST_WALK) :
    ∃ l h', listDelete (hdr q) x h = .ok (l, h') ∧
      Lists addr V (Function.update hdr q l) h' (Function.update S q ((S q).erase x)) := by
  obtain ⟨l, h', hok, hl, hframe⟩ := listDelete_spec (hs.isList hq) hx hlen
  refine ⟨l, h', hok, hs.replace hq hl (fun r hr y hy => ?_) (fun r hr y hy hyq => ?_)
    fun y hy => hs.kernel q y (List.mem_of_mem_erase hy)⟩
  · exact hframe y (hs.not_mem_of_ne hr hy)
  · exact hs.not_mem_of_ne hr hy (List.mem_of_mem_erase hyq)

/-- `list_pop_front` of a list that is not empty. -/
theorem popFront (hs : Lists addr V hdr h S) (hq : V q) {xs : List α} (hx : S q = x :: xs) :
    ∃ l h', listPopFront addr (hdr q) h = .ok (some x, l, h') ∧
      Lists addr V (Function.update hdr q l) h' (Function.update S q xs) := by
  have hl := hs.isList hq
  have hkernel := hs.kernel q
  rw [hx] at hl hkernel
  obtain ⟨l, h', hok, hl', hframe⟩ := listPopFront_spec hl hkernel
  have hother : ∀ r, r ≠ q → ∀ y ∈ S r, y ≠ x ∧ y ∉ xs := by
    intro r hr y hy
    have hnot := hs.not_mem_of_ne hr hy
    rwa [hx, List.mem_cons, not_or] at hnot
  exact ⟨l, h', hok, hs.replace hq hl' (fun r hr y hy => hframe y (hother r hr y hy).1)
    (fun r hr y hy => (hother r hr y hy).2) fun y hy => hkernel y (List.mem_cons_of_mem x hy)⟩

end

end Lists

end Fizzos.Proofs
