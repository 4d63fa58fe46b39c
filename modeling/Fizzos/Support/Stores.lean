import Mathlib.Data.List.GetD
import Mathlib.Logic.Function.Basic

/-!
# `Fizzos.Support.Stores`: memory that remembers where it was written

A `Stored ι β` is a memory with addresses of a type `ι`, and the list of the addresses that have
been written. So a statement can be about the places of the stores and not only about what they
leave behind. `InRange P` says that all stores went to addresses with `P`. It splits along a store
(`inRange_store`) and along a loop of stores (`inRange_foldl`).

When the addresses are integers, `Wrote m m' off t` says that the text `t` has been written at `off`
and nothing else. Two texts side by side are one text, in whichever order they are written
(`Wrote.append`, `Wrote.prepend`). The memories determine a text of a known length (`Wrote.unique`).
-/

set_option autoImplicit false

namespace Fizzos.Support

universe u v w

/-- A memory, and the addresses of the stores in order. -/
structure Stored (ι : Type u) (β : Type v) where
  mem : ι → β
  stores : List ι

namespace Stored

variable {ι : Type u} {β : Type v} [DecidableEq ι]

/-- Store a value. -/
def store (m : Stored ι β) (a : ι) (b : β) : Stored ι β :=
  ⟨Function.update m.mem a b, m.stores ++ [a]⟩

/-- All stores went to addresses with `P`. -/
def InRange (P : ι → Prop) (m : Stored ι β) : Prop := ∀ a ∈ m.stores, P a

section
variable {P : ι → Prop} {m : Stored ι β} {a : ι} {b : β}

@[simp] theorem store_mem_self : (m.store a b).mem a = b := Function.update_self _ _ _

theorem store_mem_of_ne {a' : ι} (h : a' ≠ a) : (m.store a b).mem a' = m.mem a' :=
  Function.update_of_ne h _ _

theorem inRange_store : (m.store a b).InRange P ↔ m.InRange P ∧ P a := by
  unfold InRange store
  rw [List.forall_mem_append]
  simp

omit [DecidableEq ι] in
/-- A loop stays in range when each turn does. -/
theorem inRange_foldl {γ : Type w} {f : Stored ι β → γ → Stored ι β} {xs : List γ}
    (h : ∀ m : Stored ι β, ∀ x ∈ xs, m.InRange P → (f m x).InRange P) (hm : m.InRange P) :
    (xs.foldl f m).InRange P := by
  induction xs generalizing m with
  | nil => exact hm
  | cons x xs ih =>
      refine ih (fun m y hy => h m y (List.mem_cons_of_mem _ hy)) ?_
      exact h m x List.mem_cons_self hm

end

/-! ### Texts -/

/-- From `m` to `m'`, the text `t` was written at `off`, and nothing else. -/
structure Wrote (m m' : Stored Int β) (off : Int) (t : List β) : Prop where
  text : ∀ k (hk : k < t.length), m'.mem (off + k) = t[k]
  outside : ∀ a, a < off ∨ off + t.length ≤ a → m'.mem a = m.mem a
  stores : ∀ a, a ∈ m'.stores ↔ a ∈ m.stores ∨ off ≤ a ∧ a < off + t.length

namespace Wrote

variable {m m' m₁ m₂ : Stored Int β} {off : Int} {t t₁ t₂ : List β} {b : β}

theorem nil (m : Stored Int β) (off : Int) : Wrote m m off [] where
  text k hk := absurd hk (Nat.not_lt_zero k)
  outside _ _ := rfl
  stores a := by
    refine ⟨.inl, ?_⟩
    rintro (ha | ⟨hlo, hhi⟩)
    · exact ha
    · rw [List.length_nil] at hhi
      omega

/-- One store. -/
theorem store (m : Stored Int β) (off : Int) (b : β) : Wrote m (m.store off b) off [b] where
  text k hk := by
    obtain rfl : k = 0 := Nat.lt_one_iff.mp hk
    exact (congrArg _ (Int.add_zero off)).trans store_mem_self
  outside a ha := store_mem_of_ne (by simp at ha; omega)
  stores a := by
    simp only [Stored.store, List.mem_append, List.mem_singleton, List.length_singleton]
    exact or_congr Iff.rfl (by omega)

/-- A text that is written in two parts, on disjoint places. -/
theorem parts (h₁ : Wrote m m₁ off t₁) {off₂ : Int} (h₂ : Wrote m₁ m₂ off₂ t₂) :
    (∀ a, a < off₂ ∨ off₂ + t₂.length ≤ a → m₂.mem a = m₁.mem a) ∧
    (∀ a, a < off ∨ off + t₁.length ≤ a → m₁.mem a = m.mem a) ∧
    ∀ a, a ∈ m₂.stores ↔ a ∈ m.stores ∨ (off ≤ a ∧ a < off + t₁.length) ∨
      (off₂ ≤ a ∧ a < off₂ + t₂.length) := by
  refine ⟨h₂.outside, h₁.outside, fun a => ?_⟩
  rw [h₂.stores, h₁.stores, or_assoc]

/-- A text and another one behind it. -/
theorem append (h₁ : Wrote m m₁ off t₁) (h₂ : Wrote m₁ m₂ (off + t₁.length) t₂) :
    Wrote m m₂ off (t₁ ++ t₂) := by
  obtain ⟨hout₂, hout₁, hstores⟩ := h₁.parts h₂
  refine ⟨fun k hk => ?_, fun a ha => ?_, fun a => ?_⟩
  · rw [List.length_append] at hk
    by_cases hlt : k < t₁.length
    · rw [hout₂ _ (by omega), h₁.text k hlt, List.getElem_append_left hlt]
    · have hk₂ := h₂.text (k - t₁.length) (by omega)
      rw [show off + t₁.length + ((k - t₁.length : Nat) : Int) = off + k by omega] at hk₂
      rw [hk₂, List.getElem_append_right (by omega)]
  · rw [List.length_append] at ha
    rw [hout₂ a (by omega), hout₁ a (by omega)]
  · rw [hstores, List.length_append]
    exact or_congr Iff.rfl (by omega)

/-- A text and another one in front of it. -/
theorem prepend (h₂ : Wrote m m₁ (off + t₁.length) t₂) (h₁ : Wrote m₁ m₂ off t₁) :
    Wrote m m₂ off (t₁ ++ t₂) := by
  obtain ⟨hout₁, hout₂, hstores⟩ := h₂.parts h₁
  refine ⟨fun k hk => ?_, fun a ha => ?_, fun a => ?_⟩
  · rw [List.length_append] at hk
    by_cases hlt : k < t₁.length
    · rw [h₁.text k hlt, List.getElem_append_left hlt]
    · have hk₂ := h₂.text (k - t₁.length) (by omega)
      rw [show off + t₁.length + ((k - t₁.length : Nat) : Int) = off + k by omega] at hk₂
      rw [hout₁ _ (by omega), hk₂, List.getElem_append_right (by omega)]
  · rw [List.length_append] at ha
    rw [hout₁ a (by omega), hout₂ a (by omega)]
  · rw [hstores, List.length_append]
    exact or_congr Iff.rfl (by omega)

/-- Two texts of one length at one place are the same. -/
theorem unique (h₁ : Wrote m m' off t₁) (h₂ : Wrote m m' off t₂) (hlen : t₁.length = t₂.length) :
    t₁ = t₂ :=
  List.ext_getElem hlen fun k hk₁ hk₂ => (h₁.text k hk₁).symm.trans (h₂.text k hk₂)

end Wrote

end Stored

/-! ### Lists of stores -/

section
variable {ι : Type u} {β : Type v} [DecidableEq ι] {mem : ι → β} {stores : List (ι × β)} {a : ι}

/-- An address that no store goes to. -/
theorem foldl_update_of_notMem (h : ∀ e ∈ stores, e.1 ≠ a) :
    stores.foldl (fun mem e => Function.update mem e.1 e.2) mem a = mem a := by
  induction stores generalizing mem with
  | nil => rfl
  | cons e stores ih =>
      rw [List.foldl_cons, ih fun e' he' => h e' (List.mem_cons_of_mem _ he')]
      exact Function.update_of_ne (h e List.mem_cons_self).symm _ _

/-- An address that gets the same value from all stores that go to it. -/
theorem foldl_update_of_mem {b : β} (hmem : (a, b) ∈ stores)
    (huniq : ∀ e ∈ stores, e.1 = a → e.2 = b) :
    stores.foldl (fun mem e => Function.update mem e.1 e.2) mem a = b := by
  induction stores generalizing mem with
  | nil => cases hmem
  | cons e stores ih =>
      have htail (e' : ι × β) (he' : e' ∈ stores) : e'.1 = a → e'.2 = b :=
        huniq e' (List.mem_cons_of_mem _ he')
      by_cases hlater : (a, b) ∈ stores
      · exact ih hlater htail
      · obtain rfl : e = (a, b) := ((List.mem_cons.mp hmem).resolve_right hlater).symm
        -- A later store to the address would have the same value.
        rw [List.foldl_cons, foldl_update_of_notMem]
        · exact Function.update_self _ _ _
        · rintro ⟨a', b'⟩ he' rfl
          exact hlater (htail _ he' rfl ▸ he')

/-- A loop that fills the first entries of an array. -/
theorem foldl_fill (f : Nat → β) (n : Nat) (mem : Nat → β) (i : Nat) :
    (List.range n).foldl (fun mem i => Function.update mem i (f i)) mem i = if i
    < n then f i else mem i := by
  have hstores : (List.range n).foldl (fun mem i => Function.update mem i (f i)) mem =
      ((List.range n).map fun i => (i, f i)).foldl
        (fun mem e => Function.update mem e.1 e.2) mem := by
    rw [List.foldl_map]
  rw [hstores]
  split
  · next hi =>
    refine foldl_update_of_mem (List.mem_map_of_mem (List.mem_range.mpr hi)) fun e he heq => ?_
    obtain ⟨j, -, rfl⟩ := List.mem_map.mp he
    exact congrArg f heq
  · next hi =>
    refine foldl_update_of_notMem fun e he heq => hi ?_
    obtain ⟨j, hj, rfl⟩ := List.mem_map.mp he
    exact heq ▸ List.mem_range.mp hj

end

end Fizzos.Support
