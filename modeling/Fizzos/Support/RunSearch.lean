import Mathlib.Data.List.Induction

/-!
# `Fizzos.Support.RunSearch`: the first run of elements in a list

A run is a number of elements in a row that all satisfy a predicate. `runStep` is one turn of a
search that counts down from the length of the run, and begins again behind an element that does not
satisfy the predicate. Over a whole list it stops at the end of the first run (`foldlM_runStep`).
-/

set_option autoImplicit false

namespace Fizzos.Support

universe u

variable {α ε : Type u}

/-- `w` is a run of `n` elements of `xs`, behind `l`. -/
structure Run (p : α → Bool) (n : Nat) (xs l w : List α) : Prop where
  split : ∃ r, xs = l ++ w ++ r
  length : w.length = n
  all : ∀ x ∈ w, p x = true

/-- One turn: count the element, and stop at the last one of a run. -/
def runStep (p : α → Bool) (n : Nat) (stop : α → ε) (count : Nat) (x : α) : Except ε Nat :=
  if p x = true then if count - 1 = 0 then .error (stop x) else .ok (count - 1)
  else .ok n

namespace Run

variable {p : α → Bool} {n : Nat} {xs ys l l' w w' : List α} {e : α}

/-- A run of a part of the list. -/
theorem append (h : Run p n xs l w) (ys : List α) : Run p n (xs ++ ys) l w := by
  obtain ⟨r, hr⟩ := h.split
  exact ⟨⟨r ++ ys, by rw [hr, List.append_assoc]⟩, h.length, h.all⟩

/-- A run of a longer list is behind the last element, or it ends there. -/
theorem concat (h : Run p n (xs ++ [e]) l w) : Run p n xs l w ∨ l ++ w = xs ++ [e] := by
  obtain ⟨r, hr⟩ := h.split
  rcases List.eq_nil_or_concat r with rfl | ⟨r, y, rfl⟩
  · exact .inr (by rw [hr, List.append_nil])
  · rw [List.concat_eq_append, ← List.append_assoc] at hr
    exact .inl ⟨⟨r, (List.append_inj' hr rfl).1⟩, h.length, h.all⟩

/-- There is one run at a place. -/
theorem unique (h : Run p n xs l w) (h' : Run p n xs l' w') (hlen : l.length = l'.length) :
    l = l' ∧ w = w' := by
  obtain ⟨r, hr⟩ := h.split
  obtain ⟨r', hr'⟩ := h'.split
  have heq := hr.symm.trans hr'
  rw [List.append_assoc, List.append_assoc] at heq
  obtain ⟨hl, hrest⟩ := List.append_inj heq hlen
  exact ⟨hl, (List.append_inj hrest (h.length.trans h'.length.symm)).1⟩

/-- The elements of a run are elements of the list. -/
theorem getElem? (h : Run p n xs l w) {i : Nat} (hi : i < n) : xs[l.length + i]? = w[i]? := by
  obtain ⟨r, rfl⟩ := h.split
  have hlen := h.length
  rw [List.append_assoc, List.getElem?_append_right (Nat.le_add_right _ _), Nat.add_sub_cancel_left,
    List.getElem?_append_left (by omega)]

/-- The elements in front of a run. -/
theorem getElem?_lt (h : Run p n xs l w) {i : Nat} (hi : i < l.length) : xs[i]? = l[i]? := by
  obtain ⟨r, rfl⟩ := h.split
  rw [List.append_assoc, List.getElem?_append_left hi]

end Run

/-- What the search knows behind `xs`, with `count` elements left: there is no run, and `xs` ends
with the elements that are counted already. -/
structure Searched (p : α → Bool) (n : Nat) (xs : List α) (count : Nat) : Prop where
  none : ∀ l w, ¬ Run p n xs l w
  pos : 0 < count
  counted : ∃ q t, xs = q ++ t ∧ t.length + count = n ∧ (∀ x ∈ t, p x = true) ∧
    ∀ y, q.getLast? = some y → p y = false

section
variable {p : α → Bool} {n count : Nat} {stop : α → ε} {xs : List α} {e : α}

/-- An element that does not satisfy the predicate. -/
theorem Searched.restart (h : Searched p n xs count) (hn : 0 < n) (he : p e = false) :
    Searched p n (xs ++ [e]) n := by
  refine ⟨fun l w hrun => ?_, hn, xs ++ [e], [], by simp, by simp, by simp, by simp [he]⟩
  rcases hrun.concat with hold | hend
  · exact h.none l w hold
  · -- the run would end with this element
    rcases List.eq_nil_or_concat w with rfl | ⟨w, y, rfl⟩
    · exact Nat.ne_of_gt hn hrun.length.symm
    · rw [List.concat_eq_append, ← List.append_assoc] at hend
      obtain rfl : y = e := List.singleton_inj.mp (List.append_inj' hend rfl).2
      have hy := hrun.all y (by simp)
      rw [he] at hy
      cases hy

/-- An element that is counted. -/
theorem Searched.count_down (h : Searched p n xs count) (he : p e = true) (hcount : 1 < count) :
    Searched p n (xs ++ [e]) (count - 1) := by
  obtain ⟨q, t, rfl, hlen, hall, hq⟩ := h.counted
  have hall' : ∀ x ∈ t ++ [e], p x = true := List.forall_mem_append.mpr
    ⟨hall, List.forall_mem_singleton.mpr he⟩
  have hlen' : (t ++ [e]).length + (count - 1) = n := by
    rw [List.length_append, List.length_singleton]
    omega
  refine ⟨fun l w hrun => ?_, by omega, q, t ++ [e], by simp, hlen', hall', hq⟩
  rcases hrun.concat with hold | hend
  · exact h.none l w hold
  · -- a run that ends here would begin in front of the elements that are counted
    rw [List.append_assoc] at hend
    have hwlen := hrun.length
    rcases List.append_eq_append_iff.mp hend with ⟨u, hu, rfl⟩ | ⟨u, -, hu⟩
    · rcases List.eq_nil_or_concat u with rfl | ⟨u, y, rfl⟩
      · rw [List.nil_append] at hwlen
        omega
      · have hlast : q.getLast? = some y := by
          rw [hu, List.concat_eq_append, ← List.append_assoc, List.getLast?_concat]
        have hy := hrun.all y (by simp)
        rw [hq y hlast] at hy
        cases hy
    · have hle := congrArg List.length hu
      rw [List.length_append, List.length_append, List.length_singleton] at hle
      omega

/-- One more turn. -/
theorem foldlM_concat {f : Nat → α → Except ε Nat} {c d : Nat} (h : xs.foldlM f c = .ok d) (e : α) :
    (xs ++ [e]).foldlM f c = f d e := by
  rw [List.foldlM_append, h]
  exact bind_pure (f d e)

/-- The search over a list stops at the last element of its first run, or goes through the list when
it has no run. -/
theorem foldlM_runStep (hn : 0 < n) (xs : List α) :
    (∃ l w e, Run p n xs l w ∧ (∀ l' w', Run p n xs l' w' → l.length ≤ l'.length) ∧
      w.getLast? = some e ∧ xs.foldlM (runStep p n stop) n = .error (stop e)) ∨
    ∃ count, Searched p n xs count ∧ xs.foldlM (runStep p n stop) n = .ok count := by
  induction xs using List.reverseRecOn with
  | nil =>
      refine .inr ⟨n, ⟨fun l w hrun => ?_, hn, [], [], by simp, by simp, by simp, by simp⟩, rfl⟩
      obtain ⟨r, hr⟩ := hrun.split
      have hlen := congrArg List.length hr
      rw [List.length_append, List.length_append, hrun.length, List.length_nil] at hlen
      omega
  | append_singleton xs e ih =>
      rcases ih with ⟨l, w, e', hrun, hfirst, hlast, hfold⟩ | ⟨count, hsearched, hfold⟩
      · refine .inl ⟨l, w, e', hrun.append [e], fun l' w' hrun' => ?_, hlast,
          by rw [List.foldlM_append, hfold]; rfl⟩
        rcases hrun'.concat with hold | hend
        · exact hfirst l' w' hold
        · -- a run that ends with the new element is behind the other one
          obtain ⟨r, hr⟩ := hrun.split
          have hlen := congrArg List.length hr
          have hlen' := congrArg List.length hend
          simp only [List.length_append, List.length_singleton, hrun.length, hrun'.length]
            at hlen hlen'
          omega
      · rw [foldlM_concat hfold e, runStep]
        -- The search has found nothing yet: `e` breaks the count, ends a run, or is one more of it.
        cases hp : p e with
        | false => exact .inr ⟨n, hsearched.restart hn hp, if_neg (by decide)⟩
        | true =>
            obtain ⟨q, t, rfl, hlen, hall, -⟩ := hsearched.counted
            by_cases hcount : count = 1
            · -- the elements that are counted and the new one are the first run
              have hlast : (t ++ [e]).length = n := by
                rw [List.length_append, List.length_singleton]
                omega
              have hall' : ∀ x ∈ t ++ [e], p x = true := List.forall_mem_append.mpr
                ⟨hall, List.forall_mem_singleton.mpr hp⟩
              refine .inl ⟨q, t ++ [e], e, ⟨⟨[], by simp⟩, hlast, hall'⟩, fun l w hrun => ?_,
                List.getLast?_concat, by rw [if_pos rfl, if_pos (by omega)]⟩
              rcases hrun.concat with hold | hend
              · exact absurd hold (hsearched.none l w)
              · have hsame := congrArg List.length hend
                simp only [List.length_append, hrun.length] at hsame hlast
                omega
            · have hpos := hsearched.pos
              refine .inr ⟨count - 1, hsearched.count_down hp (by omega), ?_⟩
              rw [if_pos rfl, if_neg (by omega)]

end

end Fizzos.Support
