import Mathlib.Algebra.GroupWithZero.Nat

/-!
# `Fizzos.Support.System`: systems that take steps

A system has initial states, actions that may be enabled in a state, and a function that
takes an action. The function can fail: then the run ends there, and the state after the
action does not exist. The order of the actions is free, so one run stands for one
interleaving.

`Reachable` is the set of states of all runs. A property that holds initially and that every
successful action keeps (`Inductive`) holds in every reachable state
(`Inductive.reachable`). `Runs` is a check that the actions of a given list can happen one after
the other, and then the state behind them is reachable (`Reachable.runs`).
-/

set_option autoImplicit false

namespace Fizzos.Support

/-- A system with states `σ`, actions `α` and failures `ε`. -/
structure System (σ α ε : Type) where
  init : σ → Prop
  enabled : σ → α → Prop
  next : σ → α → Except ε σ

/-- A call that returns has a result. -/
theorem eq_ok_getD {ε β : Type} {x : Except ε β} {d : β} (h : x.isOk = true) :
    x = .ok (x.toOption.getD d) := by
  cases x with
  | ok a => rfl
  | error e => cases h

namespace System

variable {σ α ε : Type} (S : System σ α ε)

/-- The states that a run reaches. -/
inductive Reachable : σ → Prop
  | init {s : σ} : S.init s → Reachable s
  | step {s s' : σ} {a : α} : Reachable s → S.enabled s a → S.next s a = .ok s' → Reachable s'

/-- An invariant that one step proves: it holds initially and every step keeps it. -/
structure Inductive (I : σ → Prop) : Prop where
  init : ∀ {s : σ}, S.init s → I s
  step : ∀ {s s' : σ} {a : α}, I s → S.enabled s a → S.next s a = .ok s' → I s'

/-- The system with fewer actions enabled. -/
def restrict (P : σ → α → Prop) : System σ α ε :=
  { S with enabled := fun s a => S.enabled s a ∧ P s a }

variable {S}

/-- The run lemma: what every step keeps holds in every reachable state. -/
theorem Inductive.reachable {I : σ → Prop} (h : S.Inductive I) {s : σ} (hs : S.Reachable s) :
    I s := by
  induction hs with
  | init hinit => exact h.init hinit
  | step _ henabled hnext ih => exact h.step ih henabled hnext

/-- A run of the system with fewer actions is a run. -/
theorem Reachable.of_restrict {P : σ → α → Prop} {s : σ} (hs : (S.restrict P).Reachable s) :
    S.Reachable s := by
  induction hs with
  | init hinit => exact .init hinit
  | step _ henabled hnext ih => exact ih.step henabled.1 hnext

/-- A run starts somewhere. -/
theorem Reachable.exists_init {s : σ} (hs : S.Reachable s) : ∃ s₀, S.init s₀ := by
  induction hs with
  | init hinit => exact ⟨_, hinit⟩
  | step _ _ _ ih => exact ih

/-! ### Runs of a list of actions -/

variable (S) in
/-- The state after an action, when there is one. -/
def after (s : σ) (a : α) : σ := (S.next s a).toOption.getD s

variable (S) in
/-- The actions can happen one after the other. -/
def Runs : σ → List α → Prop
  | _, [] => True
  | s, a :: acts => (S.enabled s a ∧ (S.next s a).isOk = true) ∧ Runs (S.after s a) acts

variable (S) in
instance decidableRuns [∀ s a, Decidable (S.enabled s a)] :
    (s : σ) → (acts : List α) → Decidable (S.Runs s acts)
  | _, [] => isTrue trivial
  | s, a :: acts =>
      have := decidableRuns (S.after s a) acts
      inferInstanceAs (Decidable ((S.enabled s a ∧ (S.next s a).isOk = true) ∧
        S.Runs (S.after s a) acts))

instance decidableRestrict {P : σ → α → Prop} [∀ s a, Decidable (S.enabled s a)]
    [∀ s a, Decidable (P s a)] (s : σ) (a : α) : Decidable ((S.restrict P).enabled s a) :=
  inferInstanceAs (Decidable (S.enabled s a ∧ P s a))

theorem Reachable.runs {acts : List α} {s : σ} (hs : S.Reachable s) (hruns : S.Runs s acts) :
    S.Reachable (acts.foldl S.after s) := by
  induction acts generalizing s with
  | nil => exact hs
  | cons a acts ih =>
      obtain ⟨⟨ha, hok⟩, hruns⟩ := hruns
      exact ih (hs.step ha (eq_ok_getD hok)) hruns

theorem runs_append {acts acts' : List α} {s : σ} :
    S.Runs s (acts ++ acts') ↔ S.Runs s acts ∧ S.Runs (acts.foldl S.after s) acts' := by
  induction acts generalizing s with
  | nil => exact (iff_of_eq (true_and _)).symm
  | cons a acts ih => exact (and_congr_right fun _ => ih).trans and_assoc.symm

/-- What each action of a run keeps, until one reaches the goal. -/
theorem Runs.keeps {I goal : σ → Prop} {acts : List α}
    (hstep : ∀ {s s' : σ} {a : α}, a ∈ acts → I s → S.enabled s a → S.next s a = .ok s' →
    goal s' ∨ I s') {s : σ} (hs : I s) (hruns : S.Runs s acts) :
    (∃ n ≤ acts.length, goal ((acts.take n).foldl S.after s)) ∨ I (acts.foldl S.after s) := by
  induction acts generalizing s with
  | nil => exact .inr hs
  | cons a acts ih =>
      obtain ⟨⟨ha, hok⟩, hruns⟩ := hruns
      obtain hgoal | hs' := hstep List.mem_cons_self hs ha (eq_ok_getD (d := s) hok)
      · exact .inl ⟨1, Nat.le_add_left 1 _, hgoal⟩
      · refine (ih (fun hmem => hstep (List.mem_cons_of_mem _ hmem)) hs' hruns).imp_left ?_
        rintro ⟨n, hn, hgoal⟩
        exact ⟨n + 1, Nat.succ_le_succ hn, hgoal⟩

/-- A rank that no action raises, and that each action lowers by its cost, until the goal is
reached. When the costs of a run are above the rank at its start, the run reaches the goal. -/
theorem Runs.reaches {I goal : σ → Prop} {rank : σ → Nat} {cost : α → Nat}
    (hstep : ∀ {s s' : σ} {a : α}, I s → S.enabled s a → S.next s a = .ok s' →
      goal s' ∨ (I s' ∧ rank s' + cost a ≤ rank s))
    {acts : List α} {s : σ} (hs : I s) (hruns : S.Runs s acts)
    (hcost : rank s < (acts.map cost).sum) :
    ∃ n ≤ acts.length, goal ((acts.take n).foldl S.after s) := by
  induction acts generalizing s with
  | nil => exact absurd hcost (Nat.not_lt_zero _)
  | cons a acts ih =>
      obtain ⟨⟨ha, hok⟩, hruns⟩ := hruns
      obtain hgoal | ⟨hs', hrank⟩ := hstep hs ha (eq_ok_getD (d := s) hok)
      · exact ⟨1, Nat.le_add_left 1 _, hgoal⟩
      · rw [List.map_cons, List.sum_cons] at hcost
        have hleft : rank (S.after s a) < (acts.map cost).sum := by
          have : rank (S.after s a) + cost a ≤ rank s := hrank
          omega
        obtain ⟨n, hn, hgoal⟩ := ih hs' hruns hleft
        exact ⟨n + 1, Nat.succ_le_succ hn, hgoal⟩

end System

end Fizzos.Support
