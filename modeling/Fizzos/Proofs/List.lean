import Fizzos.LibKernel.List
import Mathlib.Data.List.Perm.Subperm

/-!
# `Fizzos.Proofs.List`: the intrusive list is a sequence

`IsList h list xs` says that the header `list` and the links in `h` hold the sequence `xs`:
walking `next` from the head visits `xs` and ends with `NULL`, and the tail is the last
element. Each list function has one specification lemma. It says that the call returns, what
the new sequence is, and that the links of every node outside the old list and the argument
are unchanged.

The address checks of `list_push_back` and `list_pop_front` need elements in kernel memory
(`InKernel`).
-/

set_option autoImplicit false

namespace Fizzos.Proofs

open Fizzos.Support
open Fizzos.LibKernel

variable {α : Type}

/-- The header and the links hold the sequence `xs`. -/
structure IsList (h : Links α) (list : KList α) (xs : List α) : Prop where
  head : list.head = xs.head?
  tail : list.tail = xs.getLast?
  linked : Linked h xs

/-- All nodes lie in kernel memory. -/
def InKernel (addr : α → Nat) (xs : List α) : Prop :=
  ∀ x ∈ xs, KERNEL_VADDR_START ≤ addr x

namespace IsList

variable {h h' : Links α} {list : KList α} {xs ys : List α}

/-- An initialised header holds the empty sequence. -/
theorem init (h : Links α) : IsList h listInit [] := ⟨rfl, rfl, Linked.nil h⟩

theorem head_eq_none_iff (hl : IsList h list xs) : list.head = none ↔ xs = [] := by
  rw [hl.head, List.head?_eq_none_iff]

theorem tail_eq_none_iff (hl : IsList h list xs) : list.tail = none ↔ xs = [] := by
  rw [hl.tail, List.getLast?_eq_none_iff]

/-- `list_empty` answers emptiness. -/
theorem listEmpty_eq (hl : IsList h list xs) : listEmpty list = xs.isEmpty := by
  unfold listEmpty
  rw [hl.head]
  cases xs <;> rfl

/-- The header and the links determine the sequence. -/
theorem unique (hx : IsList h list xs) (hy : IsList h list ys) : xs = ys := by
  have hhead : xs.head? = ys.head? := hx.head.symm.trans hy.head
  have hwalk : ∀ (as bs : List α), Linked h as → Linked h bs → as.head? = bs.head? →
      as = bs := by
    intro as
    induction as with
    | nil =>
        intro bs _ _ hhd
        cases bs with
        | nil => rfl
        | cons b bs => simp at hhd
    | cons a as ih =>
        intro bs ha hb hhd
        cases bs with
        | nil => simp at hhd
        | cons b bs =>
            simp only [List.head?_cons, Option.some.injEq] at hhd
            subst hhd
            have hnext : as.head? = bs.head? := ha.next_head.symm.trans hb.next_head
            rw [ih bs ha.tail hb.tail hnext]
  exact hwalk xs ys hx.linked hy.linked hhead

/-- The sequence determines the header. -/
theorem header_unique {list' : KList α} (hx : IsList h list xs) (hy : IsList h' list' xs) :
    list = list' := by
  obtain ⟨head, tail⟩ := list
  obtain ⟨head', tail'⟩ := list'
  obtain rfl : head = head' := hx.head.trans hy.head.symm
  obtain rfl : tail = tail' := hx.tail.trans hy.tail.symm
  rfl

/-- A heap that agrees on the nodes of the list holds the same list. -/
theorem congr (hl : IsList h list xs) (heq : ∀ x ∈ xs, h' x = h x) : IsList h' list xs :=
  ⟨hl.head, hl.tail, hl.linked.congr_of_eq heq⟩

/-- The list has one element exactly when head and tail are the same node. -/
theorem head_eq_tail (hl : IsList h list xs) (hne : xs ≠ []) :
    list.head = list.tail ↔ ∃ x, xs = [x] := by
  rw [hl.head, hl.tail]
  constructor
  · intro heq
    cases xs with
    | nil => exact absurd rfl hne
    | cons x rest =>
        cases rest with
        | nil => exact ⟨x, rfl⟩
        | cons y ys =>
            rw [List.head?_cons, List.getLast?_cons_cons] at heq
            have hmem : x ∈ y :: ys := List.mem_of_getLast? heq.symm
            exact absurd hmem (List.nodup_cons.mp hl.linked.nodup).1
  · rintro ⟨x, rfl⟩
    rfl

theorem isKernelPtr_head (hl : IsList h list xs) (hne : xs ≠ []) {addr : α → Nat}
    (haddr : InKernel addr xs) : isKernelPtr addr list.head = true := by
  rw [hl.head]
  cases xs with
  | nil => exact absurd rfl hne
  | cons x xs => exact decide_eq_true (haddr x List.mem_cons_self)

theorem isKernelPtr_tail (hl : IsList h list xs) (hne : xs ≠ []) {addr : α → Nat}
    (haddr : InKernel addr xs) : isKernelPtr addr list.tail = true := by
  rw [hl.tail, List.getLast?_eq_some_getLast hne]
  exact decide_eq_true (haddr _ (List.getLast_mem hne))

end IsList

/-- `list_front` returns the first element. -/
theorem listFront_spec {h : Links α} {list : KList α} {xs : List α} {x : α}
    (hl : IsList h list (x :: xs)) : listFront list = .ok x := by
  have hhead : list.head = some x := hl.head
  have htail : list.tail ≠ none := by
    rw [ne_eq, hl.tail_eq_none_iff]
    simp
  simp [listFront, hhead, htail]

section
variable [DecidableEq α] {addr : α → Nat} {h : Links α} {list : KList α} {xs : List α}
  {x : α}

/-- `list_push_back` appends the element. -/
theorem listPushBack_spec (hl : IsList h list xs) (hx : x ∉ xs)
    (haddr : InKernel addr (xs ++ [x])) :
    ∃ list' h', listPushBack addr list x h = .ok (list', h') ∧
      IsList h' list' (xs ++ [x]) ∧ ∀ y, y ≠ x → y ∉ xs → h' y = h y := by
  cases htail : list.tail with
  | none =>
      have hnil : xs = [] := hl.tail_eq_none_iff.mp htail
      subst hnil
      have hhead : list.head = none := hl.head
      refine ⟨{ head := some x, tail := some x }, (h.setPrev x none).setNext x none,
        ?_, ?_, ?_⟩
      · have hk : KERNEL_VADDR_START ≤ addr x := haddr x (by simp)
        simp [listPushBack, htail, hhead, isKernelPtr, hk]
      · exact ⟨rfl, rfl, Linked.singleton (by simp [LinkHeap.setNext_next])⟩
      · intro y hy _
        rw [LinkHeap.setNext_of_ne _ _ hy, LinkHeap.setPrev_of_ne _ _ hy]
  | some t =>
      have hlast : xs.getLast? = some t := hl.tail.symm.trans htail
      have hne : xs ≠ [] := by rintro rfl; simp at hlast
      have ht : t ∈ xs := List.mem_of_getLast? hlast
      have htx : t ≠ x := fun heq => hx (heq ▸ ht)
      let h' := ((h.setNext t (some x)).setPrev x (some t)).setNext x none
      have hnew : IsList h' { list with tail := some x } (xs ++ [x]) := by
        refine ⟨?_, ?_, ?_⟩
        · show list.head = (xs ++ [x]).head?
          rw [hl.head]
          cases xs with
          | nil => exact absurd rfl hne
          | cons y ys => rfl
        · simp
        · refine Linked.append ?_ ?_ (Linked.singleton ?_) (by simp) ?_
          · rw [List.nodup_append]
            exact ⟨hl.linked.nodup, List.nodup_singleton x, by
              intro a ha b hb; simp only [List.mem_singleton] at hb
              subst hb; exact fun heq => hx (heq ▸ ha)⟩
          · -- Only the last node of `xs` changes its `next` link, and it is no
            -- predecessor inside `xs`.
            have hchain := hl.linked.chain
            rw [List.isChain_iff_forall_rel_of_append_cons_cons] at hchain ⊢
            intro a b l₁ l₂ heq
            have hab := hchain heq
            have ha : a ∈ xs := by simp [heq]
            have hb : b ∈ xs := by simp [heq]
            have hat : a ≠ t := by
              intro hat
              subst hat
              have hnone := hl.linked.last a hlast
              rw [hab.1] at hnone
              cases hnone
            have hax : a ≠ x := fun h => hx (h ▸ ha)
            have hbx : b ≠ x := fun h => hx (h ▸ hb)
            simp only [h', LinkHeap.setNext_next, LinkHeap.setNext_prev,
              LinkHeap.setPrev_next, LinkHeap.setPrev_prev, hax, hat, hbx, if_false]
            exact hab
          · simp [h', LinkHeap.setNext_next]
          · intro a ha b hb
            rw [hlast, Option.some.injEq] at ha
            simp only [List.head?_cons, Option.some.injEq] at hb
            subst ha hb
            simp [h', LinkHeap.setNext_next, LinkHeap.setPrev_prev, htx]
      refine ⟨_, h', ?_, hnew, ?_⟩
      · have hhk := hnew.isKernelPtr_head (by simp) haddr
        have htk := hnew.isKernelPtr_tail (by simp) haddr
        simp only at hhk htk
        simp [listPushBack, htail, hhk, htk, h']
      · intro y hy hyxs
        have hyt : y ≠ t := fun heq => hyxs (heq ▸ ht)
        simp only [h']
        rw [LinkHeap.setNext_of_ne _ _ hy, LinkHeap.setPrev_of_ne _ _ hy,
          LinkHeap.setNext_of_ne _ _ hyt]

/-- `list_push_front` puts the element first. -/
theorem listPushFront_spec (hl : IsList h list xs) (hx : x ∉ xs) :
    ∃ list' h', listPushFront list x h = .ok (list', h') ∧
      IsList h' list' (x :: xs) ∧ ∀ y, y ≠ x → y ∉ xs → h' y = h y := by
  cases xs with
  | nil =>
      have hhead : list.head = none := hl.head
      have htail : list.tail = none := hl.tail
      refine ⟨{ head := some x, tail := some x }, (h.setPrev x none).setNext x none,
        ?_, ?_, ?_⟩
      · simp [listPushFront, hhead, htail]
      · exact ⟨rfl, rfl, Linked.singleton (by simp [LinkHeap.setNext_next])⟩
      · intro y hy _
        rw [LinkHeap.setNext_of_ne _ _ hy, LinkHeap.setPrev_of_ne _ _ hy]
  | cons z zs =>
      have hhead : list.head = some z := hl.head
      have hzx : z ≠ x := fun heq => hx (heq ▸ List.mem_cons_self)
      let h' := ((h.setPrev x none).setNext x (some z)).setPrev z (some x)
      -- Two elements get new links, `x` and the one that was first.
      refine ⟨{ list with head := some x }, h', ?_, ⟨rfl, ?_, ?_⟩, ?_⟩
      · simp [listPushFront, hhead, h']
      · show list.tail = (x :: z :: zs).getLast?
        rw [hl.tail, List.getLast?_cons_cons]
      · refine Linked.cons (hl.linked.congr ?_ ?_) hx ?_ ?_
        · intro y hy
          have hyx : y ≠ x := fun heq => hx (heq ▸ hy)
          simp [h', LinkHeap.setNext_next, hyx]
        · intro y hy
          have hyz : y ≠ z := fun heq =>
            (List.nodup_cons.mp hl.linked.nodup).1 (heq ▸ hy)
          have hyx : y ≠ x := fun heq => hx (heq ▸ List.mem_of_mem_tail hy)
          simp [h', LinkHeap.setPrev_prev, hyz, hyx]
        · simp [h', LinkHeap.setNext_next]
        · intro y hy
          simp only [List.head?_cons, Option.some.injEq] at hy
          subst hy
          simp [h', LinkHeap.setPrev_prev]
      · intro y hy hyxs
        have hyz : y ≠ z := fun heq => hyxs (heq ▸ List.mem_cons_self)
        simp only [h']
        rw [LinkHeap.setPrev_of_ne _ _ hyz, LinkHeap.setNext_of_ne _ _ hy,
          LinkHeap.setPrev_of_ne _ _ hy]

/-- `list_pop_front` returns `NULL` on an empty list. -/
theorem listPopFront_nil (hl : IsList h list []) :
    listPopFront addr list h = .ok (none, list, h) := by
  have hhead : list.head = none := hl.head
  have htail : list.tail = none := hl.tail
  simp [listPopFront, hhead, htail]

/-- `list_pop_front` drops the first element. -/
theorem listPopFront_spec (hl : IsList h list (x :: xs)) (haddr : InKernel addr (x :: xs)) :
    ∃ list' h', listPopFront addr list h = .ok (some x, list', h') ∧
      IsList h' list' xs ∧ ∀ y, y ≠ x → h' y = h y := by
  have hhead : list.head = some x := hl.head
  cases xs with
  | nil =>
      have htail : list.tail = some x := hl.tail
      refine ⟨listInit, h, ?_, IsList.init h, fun y _ => rfl⟩
      simp [listPopFront, hhead, htail, listInit]
  | cons z zs =>
      have hxz : x ≠ z := fun heq =>
        (List.nodup_cons.mp hl.linked.nodup).1 (heq ▸ List.mem_cons_self)
      have hne : list.head ≠ list.tail := by
        rw [ne_eq, hl.head_eq_tail (by simp)]
        rintro ⟨y, hy⟩
        simp at hy
      have hnext : (h x).next = some z := hl.linked.next_head
      -- Only `next` of the popped element is cleared: `prev` of the new head still points to it.
      have hnew : IsList (h.setNext x none) { list with head := some z } (z :: zs) := by
        refine ⟨rfl, ?_, hl.linked.tail.congr_of_eq ?_⟩
        · show list.tail = (z :: zs).getLast?
          rw [hl.tail, List.getLast?_cons_cons]
        · intro y hy
          refine LinkHeap.setNext_of_ne _ _ ?_
          rintro rfl
          exact (List.nodup_cons.mp hl.linked.nodup).1 hy
      have haddr' : InKernel addr (z :: zs) :=
        fun y hy => haddr y (List.mem_cons_of_mem x hy)
      refine ⟨_, _, ?_, hnew, fun y hy => LinkHeap.setNext_of_ne _ _ hy⟩
      have hhk := hnew.isKernelPtr_head (by simp) haddr'
      have htk := hnew.isKernelPtr_tail (by simp) haddr'
      simp only at hhk htk
      rw [hhead] at hne
      simp [listPopFront, hhead, hne, hnext, hhk, htk]

/-- The walk of `list_find` answers membership. -/
theorem listFindFrom_spec (hl : Linked h xs) (n : Nat) (hn : xs.length ≤ n) :
    listFindFrom x h n xs.head? = .ok (decide (x ∈ xs)) := by
  induction xs generalizing n with
  | nil => cases n <;> rfl
  | cons y ys ih =>
      cases n with
      | zero => simp at hn
      | succ n =>
          simp only [List.head?_cons, listFindFrom]
          by_cases hyx : y = x
          · simp [hyx]
          · have hxy : x ≠ y := fun heq => hyx heq.symm
            rw [if_neg hyx, hl.next_head, ih hl.tail n (by simpa using hn)]
            simp [hxy]

/-- There are not more nodes than addresses. -/
theorem length_le_listWalk {h : Links Nat} {ps : List Nat} (hl : Linked h ps)
    (hpointer : ∀ p ∈ ps, p < 2 ^ 32) : ps.length ≤ LIST_WALK := by
  have hsub : ps ⊆ List.range LIST_WALK := fun p hp => List.mem_range.mpr (hpointer p hp)
  have hlen := (hl.nodup.subperm hsub).length_le
  rwa [List.length_range] at hlen

/-- `list_find` answers membership. -/
theorem listFind_spec (hl : IsList h list xs) (hlen : xs.length ≤ LIST_WALK) :
    listFind list x h = .ok (decide (x ∈ xs)) := by
  unfold listFind
  rw [hl.head]
  exact listFindFrom_spec hl.linked _ hlen

/-- `list_delete` of a member returns, takes that element out and keeps the order of the
others. -/
theorem listDelete_spec (hl : IsList h list xs) (hx : x ∈ xs) (hlen : xs.length ≤ LIST_WALK) :
    ∃ list' h', listDelete list x h = .ok (list', h') ∧
      IsList h' list' (xs.erase x) ∧ ∀ y, y ∉ xs → h' y = h y := by
  have hfind : listFind list x h = .ok true := by
    rw [listFind_spec hl hlen, decide_eq_true hx]
  obtain ⟨l, r, heq, hxl⟩ := List.eq_append_cons_of_mem hx
  have herase : xs.erase x = l ++ r := by
    rw [heq, List.erase_append_right _ hxl, List.erase_cons_head]
  rw [herase]
  cases l using List.reverseRecOn with
  | nil =>
      have heq : xs = x :: r := heq
      subst heq
      have hhead : list.head = some x := hl.head
      cases r with
      | nil =>
          have htail : list.tail = some x := hl.tail
          refine ⟨listInit, h, ?_, IsList.init h, fun y _ => rfl⟩
          simp [listDelete, hfind, hhead, htail]
      | cons b r =>
          have hne : list.head ≠ list.tail := by
            rw [ne_eq, hl.head_eq_tail (by simp)]
            rintro ⟨y, hy⟩
            simp at hy
          have hnext : (h x).next = some b := hl.linked.next_head
          have hb : b ∉ r := (List.nodup_cons.mp hl.linked.tail.nodup).1
          refine ⟨{ list with head := some b }, h.setPrev b none, ?_, ⟨rfl, ?_, ?_⟩, ?_⟩
          · rw [hhead] at hne
            simp [listDelete, hfind, hhead, hne, hnext]
          · show list.tail = (b :: r).getLast?
            rw [hl.tail, List.getLast?_cons_cons]
          · refine hl.linked.tail.congr (fun y _ => by simp) ?_
            intro y hy
            have hyb : y ≠ b := fun heq => hb (heq ▸ hy)
            simp [LinkHeap.setPrev_prev, hyb]
          · intro y hy
            exact LinkHeap.setPrev_of_ne _ _ (fun heq => hy (by simp [heq]))
  | append_singleton l a _ =>
      have heq : xs = l ++ a :: x :: r := by simpa using heq
      subst heq
      have hprev : (h x).prev = some a := hl.linked.prev_eq
      have hax : a ≠ x := fun h => hxl (by simp [h])
      have hhead : list.head ≠ some x := by
        rw [hl.head]
        cases l with
        | nil => simpa using hax
        | cons c l =>
            have hcx : c ≠ x := fun h => hxl (by simp [h])
            simpa using hcx
      have hne : list.head ≠ list.tail := by
        rw [ne_eq, hl.head_eq_tail (by simp)]
        rintro ⟨y, hy⟩
        have hlen1 := congrArg List.length hy
        simp only [List.length_append, List.length_cons, List.length_nil] at hlen1
        omega
      cases r with
      | nil =>
          have htail : list.tail = some x := by rw [hl.tail]; simp
          refine ⟨{ list with tail := some a }, h.setNext a none, ?_, ⟨?_, ?_, ?_⟩, ?_⟩
          · rw [htail] at hne
            simp [listDelete, hfind, htail, hne, hprev]
          · show list.head = _
            rw [hl.head]
            cases l <;> simp
          · simp
          · have hsplit : l ++ [a, x] = (l ++ [a]) ++ [x] := by simp
            have hnodup := hl.linked.nodup
            rw [hsplit] at hnodup
            have hchain := hl.linked.chain
            rw [hsplit] at hchain
            have hpre := hchain.left_of_append
            refine ⟨by simpa using (List.nodup_append.mp hnodup).1, ?_, ?_⟩
            · rw [List.append_nil]
              rw [List.isChain_iff_forall_rel_of_append_cons_cons] at hpre ⊢
              intro c d m₁ m₂ hcd
              have hrel := hpre hcd
              have hca : c ≠ a := by
                intro hca
                subst hca
                -- `c` would point at `d`, but its successor in the whole list is `x`.
                have hcx : (h c).next = some x := hl.linked.next_eq
                rw [hrel.1, Option.some.injEq] at hcx
                exact hxl (hcd ▸ by simp [hcx])
              simpa [LinkHeap.setNext_next, hca] using hrel
            · intro c hc
              simp only [List.append_nil, List.getLast?_concat, Option.some.injEq] at hc
              subst hc
              simp [LinkHeap.setNext_next]
          · intro y hy
            exact LinkHeap.setNext_of_ne _ _ (fun heq => hy (by simp [heq]))
      | cons b r =>
          have hnext : (h x).next = some b := by
            have hl' : Linked h ((l ++ [a]) ++ x :: b :: r) := by simpa using hl.linked
            exact hl'.next_eq
          have htail : list.tail ≠ some x := by
            rw [hl.tail]
            intro hlast
            have hxr : x ∈ b :: r := by
              have hsplit : l ++ a :: x :: b :: r = (l ++ [a, x]) ++ (b :: r) := by simp
              rw [hsplit, List.getLast?_append] at hlast
              cases hbr : (b :: r).getLast? with
              | none => simp at hbr
              | some e =>
                  rw [hbr] at hlast
                  have hex : e = x := by simpa using hlast
                  exact hex ▸ List.mem_of_getLast? hbr
            have hnd := (List.nodup_append.mp hl.linked.nodup).2.1
            exact (List.nodup_cons.mp (List.nodup_cons.mp hnd).2).1 hxr
          have hnd := hl.linked.nodup
          rw [List.nodup_append] at hnd
          have hxbr : x ∉ b :: r :=
            (List.nodup_cons.mp (List.nodup_cons.mp hnd.2.1).2).1
          have hxb : b ≠ x := fun h => hxbr (h ▸ List.mem_cons_self)
          let h' := (((h.setNext a (some b)).setPrev b (some a)).setPrev x none).setNext x none
          have hrun : listDelete list x h = .ok (list, h') := by
            simp only [listDelete, hfind, ok_bind, ASSERT_true, hne, if_false, hhead, htail,
              hprev, deref_some, LinkHeap.setNext_next, hax.symm, hnext, LinkHeap.setNext_prev,
              pure_eq_ok, h']
          refine ⟨list, h', hrun, ⟨?_, ?_, ?_⟩, ?_⟩
          · rw [hl.head]
            cases l <;> simp
          · rw [hl.tail]
            simp [List.getLast?_append, List.getLast?_cons_cons]
          · have hunlink : Linked h' (l ++ a :: b :: r) := by
              refine hl.linked.unlink ?_ ?_ ?_ ?_
              · intro y hy hya
                have hyx : y ≠ x := by
                  rintro rfl
                  rcases List.mem_append.mp hy with hyl | hyr
                  · exact hxl (List.mem_append_left _ hyl)
                  · rcases List.mem_cons.mp hyr with hya' | hybr
                    · exact hya hya'
                    · exact hxbr hybr
                simp [h', LinkHeap.setNext_next, hyx, hya]
              · intro y hy hyb
                have hyx : y ≠ x := by
                  rintro rfl
                  rcases List.mem_append.mp hy with hyl | hyr
                  · exact hxl (List.mem_append_left _ hyl)
                  · rcases List.mem_cons.mp hyr with hya' | hybr
                    · exact hax hya'.symm
                    · exact hxbr hybr
                simp [h', LinkHeap.setPrev_prev, hyx, hyb]
              · simp [h', LinkHeap.setNext_next, hax]
              · simp [h', LinkHeap.setPrev_prev, hxb]
            simpa using hunlink
          · intro y hy
            have hya : y ≠ a := fun heq => hy (by simp [heq])
            have hyb : y ≠ b := fun heq => hy (by simp [heq])
            have hyx : y ≠ x := fun heq => hy (by simp [heq])
            simp only [h']
            rw [LinkHeap.setNext_of_ne _ _ hyx, LinkHeap.setPrev_of_ne _ _ hyx,
              LinkHeap.setPrev_of_ne _ _ hyb, LinkHeap.setNext_of_ne _ _ hya]

end

/-- The walk along `next` visits the sequence. -/
theorem nodesFrom_eq {h : Links α} {xs : List α} (hl : Linked h xs) {n : Nat} (hn : xs.length ≤ n) :
    nodesFrom h n xs.head? = .ok xs := by
  induction xs generalizing n with
  | nil => cases n <;> rfl
  | cons y ys ih =>
      cases n with
      | zero => exact absurd hn (Nat.not_succ_le_zero _)
      | succ n =>
          rw [List.head?_cons, nodesFrom, hl.next_head,
            ih hl.tail (Nat.le_of_succ_le_succ hn), ok_bind, pure_eq_ok]

end Fizzos.Proofs
