import Fizzos.Support.Logged
import Mathlib.Data.List.Basic

/-!
# `Fizzos.Support.Visit`: calling a function on the items of a list until it says stop

`visit func as st` calls `func` on the items of `as`, one after the other. `func` works on a state
and answers whether it goes on; the first `false` is the last call. The log has the items that
`func` was called on.

`visitBlocks` goes over a list of blocks, and a `false` ends its own block only. The two agree on
the blocks one behind the other exactly when nothing comes behind the block of the first `false`
(`visitBlocks_log_eq_iff`).
-/

set_option autoImplicit false

namespace Fizzos.Support

variable {σ α : Type}

/-- Call `func` on the items up to the first one that it returns `false` for. -/
def visit (func : σ → α → Bool × σ) : List α → σ → Logged α σ
  | [], st => pure st
  | a :: rest, st => do
      .tell [a]
      if (func st a).1 then visit func rest (func st a).2 else pure (func st a).2

/-- Visit each block. -/
def visitBlocks (func : σ → α → Bool × σ) : List (List α) → σ → Logged α σ
  | [], st => pure st
  | block :: rest, st => do
      let st ← visit func block st
      visitBlocks func rest st

/-- The state behind the items, when `func` returns `true` for each of them. -/
def goesOn (func : σ → α → Bool × σ) : List α → σ → Option σ
  | [], st => some st
  | a :: rest, st => if (func st a).1 then goesOn func rest (func st a).2 else none

/-- Behind the block with the first item that `func` returns `false` for, the blocks are empty. -/
def StopsInLast (func : σ → α → Bool × σ) (blocks : List (List α)) (st : σ) : Prop :=
  ∀ pre block post st', blocks = pre ++ block :: post →
    goesOn func pre.flatten st = some st' → goesOn func block st' = none → post.flatten = []

section
variable {func : σ → α → Bool × σ} {st st' : σ} {as bs : List α}

theorem goesOn_append : goesOn func (as ++ bs) st = (goesOn func as st).bind (goesOn func bs) := by
  induction as generalizing st with
  | nil => rfl
  | cons a rest ih =>
      rw [List.cons_append, goesOn, goesOn]
      split
      next => exact ih
      next => rfl

/-- A function that never returns `false` has no stop. -/
theorem StopsInLast.of_true {blocks : List (List α)} (h : ∀ st a, (func st a).1 = true) :
    StopsInLast func blocks st := by
  have hgoes : ∀ (as : List α) (st : σ), goesOn func as st ≠ none := by
    intro as
    induction as with
    | nil => exact fun st => Option.some_ne_none st
    | cons a rest ih =>
        intro st
        rw [goesOn, if_pos (h st a)]
        exact ih _
  exact fun _ _ _ _ _ _ hnone => absurd hnone (hgoes _ _)

/-- Items that `func` goes on behind are all visited. -/
theorem visit_append (h : goesOn func as st = some st') :
    visit func (as ++ bs) st = ⟨(visit func bs st').value, as ++ (visit func bs st').log⟩ := by
  induction as generalizing st with
  | nil =>
      obtain rfl := Option.some.inj h
      rfl
  | cons a rest ih =>
      rw [goesOn] at h
      split at h
      next hagain =>
        rw [List.cons_append, visit, if_pos hagain, ih h]
        rfl
      next => cases h

theorem visit_goesOn (h : goesOn func as st = some st') : visit func as st = ⟨st', as⟩ := by
  have happend : visit func (as ++ []) st = _ := visit_append h
  rwa [List.append_nil, visit, Logged.pure_value, Logged.pure_log, List.append_nil] at happend

/-- Behind a stop nothing is visited. -/
theorem visit_stop (h : goesOn func as st = none) : visit func
    (as ++ bs) st = visit func as st := by
  induction as generalizing st with
  | nil => cases h
  | cons a rest ih =>
      rw [goesOn] at h
      rw [List.cons_append, visit, visit]
      split
      next hagain =>
        rw [if_pos hagain] at h
        rw [ih h]
      next => rfl

/-- A visit calls `func` at least once. -/
theorem visit_log_eq_nil : (visit func as st).log = [] ↔ as = [] := by
  cases as with
  | nil => exact iff_of_true rfl rfl
  | cons a rest => exact iff_of_false (List.cons_ne_nil _ _) (List.cons_ne_nil _ _)

/-- The items in front are visited, in their order. -/
theorem visit_log_prefix : (visit func as st).log <+: as := by
  induction as generalizing st with
  | nil => exact List.prefix_refl _
  | cons a rest ih =>
      rw [visit]
      split
      next => exact (List.prefix_cons_inj a).mpr ih
      next => exact (List.prefix_cons_inj a).mpr List.nil_prefix

/-- Only items are visited. -/
theorem visit_log_subset : (visit func as st).log ⊆ as := visit_log_prefix.subset

end

section
variable {func : σ → α → Bool × σ} {st : σ} {blocks : List (List α)}

theorem visitBlocks_append {blocks' : List (List α)} : visitBlocks func (blocks ++ blocks') st =
    visitBlocks func blocks st >>= visitBlocks func blocks' := by
  induction blocks generalizing st with
  | nil => rfl
  | cons block rest ih =>
      rw [List.cons_append, visitBlocks, visitBlocks, bind_assoc]
      congr 1
      funext st
      exact ih

theorem visitBlocks_singleton (block : List α) : visitBlocks func
    [block] st = visit func block st :=
  bind_pure _

/-- Empty blocks do not count. -/
theorem visitBlocks_nil (h : ∀ block ∈ blocks, block = []) :
    visitBlocks func blocks st = pure st := by
  induction blocks generalizing st with
  | nil => rfl
  | cons block rest ih =>
      rw [h block List.mem_cons_self]
      exact ih fun b hb => h b (List.mem_cons_of_mem block hb)

theorem visitBlocks_log_eq_nil : (visitBlocks func blocks st).log = [] ↔ blocks.flatten = [] := by
  induction blocks generalizing st with
  | nil => exact iff_of_true rfl rfl
  | cons block rest ih =>
      rw [visitBlocks, Logged.bind_log, List.append_eq_nil_iff, visit_log_eq_nil, ih,
        List.flatten_cons, List.append_eq_nil_iff]

/-- Each block is visited, whatever was said in front of it. -/
theorem exists_mem_visitBlocks {block : List α} (h : block ∈ blocks) (hne : block ≠ []) :
    ∃ a ∈ block, a ∈ (visitBlocks func blocks st).log := by
  induction blocks generalizing st with
  | nil => exact absurd h List.not_mem_nil
  | cons first rest ih =>
      rw [visitBlocks, Logged.bind_log]
      rcases List.mem_cons.mp h with rfl | hrest
      · obtain ⟨a, ha⟩ := List.exists_mem_of_ne_nil _ (mt visit_log_eq_nil.mp hne)
        exact ⟨a, visit_log_subset ha, List.mem_append_left _ ha⟩
      · obtain ⟨a, ha, hlog⟩ := ih hrest
        exact ⟨a, ha, List.mem_append_right _ hlog⟩

/-- Without a stop the blocks are visited like one. -/
theorem visitBlocks_goesOn {st' : σ} (h : goesOn func blocks.flatten st = some st') :
    visitBlocks func blocks st = ⟨st', blocks.flatten⟩ := by
  induction blocks generalizing st with
  | nil =>
      obtain rfl := Option.some.inj h
      rfl
  | cons block rest ih =>
      rw [List.flatten_cons, goesOn_append] at h
      obtain ⟨st₁, hblock, hrest⟩ := Option.bind_eq_some_iff.mp h
      rw [visitBlocks, visit_goesOn hblock, List.flatten_cons]
      exact congrArg (fun x : Logged α σ => (⟨x.value, block ++ x.log⟩ : Logged α σ)) (ih hrest)

theorem StopsInLast.goes_iff {block : List α} {st' : σ} (h : goesOn func block st = some st') :
    StopsInLast func (block :: blocks) st ↔ StopsInLast func blocks st' := by
  constructor
  · intro hstops pre b post st'' hsplit hpre
    refine hstops (block :: pre) b post st'' (by rw [hsplit]; rfl) ?_
    rw [List.flatten_cons, goesOn_append, h]
    exact hpre
  · intro hstops pre b post st'' hsplit hpre hb
    cases pre with
    | nil =>
        obtain ⟨rfl, rfl⟩ := List.cons.inj hsplit
        obtain rfl := Option.some.inj hpre
        rw [h] at hb
        cases hb
    | cons first pre =>
        obtain ⟨rfl, rfl⟩ := List.cons.inj hsplit
        rw [List.flatten_cons, goesOn_append, h] at hpre
        exact hstops pre b post st'' rfl hpre hb

theorem StopsInLast.stops_iff {block : List α} (h : goesOn func block st = none) :
    StopsInLast func (block :: blocks) st ↔ blocks.flatten = [] := by
  constructor
  · exact fun hstops => hstops [] block blocks st rfl rfl h
  · intro hempty pre b post st' hsplit hpre _
    cases pre with
    | nil =>
        obtain ⟨rfl, rfl⟩ := List.cons.inj hsplit
        exact hempty
    | cons first pre =>
        obtain ⟨rfl, rfl⟩ := List.cons.inj hsplit
        rw [List.flatten_cons, goesOn_append, h] at hpre
        cases hpre

/-- The visit block by block is the visit of all items if and only if nothing comes behind the
block of the first stop. -/
theorem visitBlocks_log_eq_iff : (visitBlocks func blocks st).log =
    (visit func blocks.flatten st).log ↔ StopsInLast func blocks st := by
  induction blocks generalizing st with
  | nil =>
      refine iff_of_true rfl fun pre block post st' hsplit => ?_
      exact absurd hsplit.symm (List.append_ne_nil_of_right_ne_nil _ (List.cons_ne_nil _ _))
  | cons block rest ih =>
      rw [visitBlocks, Logged.bind_log, List.flatten_cons]
      cases hblock : goesOn func block st with
      | some st' =>
          rw [StopsInLast.goes_iff hblock, visit_goesOn hblock, visit_append hblock, ← ih]
          exact List.append_right_inj block
      | none =>
          rw [StopsInLast.stops_iff hblock, visit_stop hblock, List.append_right_eq_self]
          exact visitBlocks_log_eq_nil

end

end Fizzos.Support
