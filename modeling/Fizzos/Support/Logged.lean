import Mathlib.Init

/-!
# `Fizzos.Support.Logged`: computations that log what they do

`Logged ε α` is a value with the list of the events on the way to it. A function is instrumented by
writing it in this monad; the projection `value` has to be the function itself.

`All P x` says that every event of `x` satisfies `P`. It splits along the binds (`all_bind`).
-/

set_option autoImplicit false

namespace Fizzos.Support

/-- A value with a log of events. -/
structure Logged (ε α : Type) where
  value : α
  log : List ε

namespace Logged

variable {ε α β : Type}

instance : Monad (Logged ε) where
  pure a := ⟨a, []⟩
  bind x f := ⟨(f x.value).value, x.log ++ (f x.value).log⟩

instance : LawfulMonad (Logged ε) := LawfulMonad.mk' _
  (fun _ => congrArg (mk _) (List.append_nil _))
  (fun _ _ => rfl)
  (fun _ _ _ => congrArg (mk _) (List.append_assoc _ _ _))

/-- Log events. -/
def tell (es : List ε) : Logged ε Unit := ⟨(), es⟩

@[simp] theorem pure_value (a : α) : (pure a : Logged ε α).value = a := rfl

@[simp] theorem pure_log (a : α) : (pure a : Logged ε α).log = [] := rfl

@[simp] theorem bind_value (x : Logged ε α) (f : α → Logged ε β) :
    (x >>= f).value = (f x.value).value := rfl

@[simp] theorem bind_log (x : Logged ε α) (f : α → Logged ε β) :
    (x >>= f).log = x.log ++ (f x.value).log := rfl

@[simp] theorem tell_log (es : List ε) : (tell es).log = es := rfl

/-- Every event satisfies `P`. -/
def All (P : ε → Prop) (x : Logged ε α) : Prop := ∀ e ∈ x.log, P e

section
variable {P : ε → Prop} {x : Logged ε α} {f : α → Logged ε β}

theorem all_pure (a : α) : (pure a : Logged ε α).All P := fun _ he => absurd he List.not_mem_nil

theorem all_tell {es : List ε} : (tell es).All P ↔ ∀ e ∈ es, P e := Iff.rfl

theorem all_bind : (x >>= f).All P ↔ x.All P ∧ (f x.value).All P := List.forall_mem_append

end

end Logged

end Fizzos.Support
