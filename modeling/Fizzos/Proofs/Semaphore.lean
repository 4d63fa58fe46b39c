import Fizzos.Kernel.Semaphore

/-!
# `Fizzos.Proofs.Semaphore`: the wait list and the count of a semaphore

`SemaInvariant` relates `count` with the wait list. A `sema_post` that finds a waiter has
counted before it pops, so the list is longer than `-count` by the number of such posts. That is
why the pop always finds a waiter.

`count` is an `int`. All this needs that no increment or decrement overflows (`CountFits`), and
`semaSystem_not_safe` is what goes wrong at `INT_MAX`.
-/

set_option autoImplicit false

namespace Fizzos.Proofs

open Fizzos.Kernel
open Fizzos.Support

/-- The relation of `count`, the wait list and the progress of the threads. -/
structure SemaInvariant (val : Int) (s : SemaState) : Prop where
  count_range : -2 ^ 31 ≤ s.sem.count ∧ s.sem.count < 2 ^ 31
  /-- The sleeping threads, and the posts that are about to pop one of them. -/
  waiting : (s.sem.waitList.length : Int) = max 0 (-s.sem.count) + s.posting.length
  /-- Each wait that began, ended or not, took one from `count`. -/
  balance : s.sem.count
    = val + s.posts - s.completed - s.woken.length - s.sem.waitList.length

/-! ### One action -/

section
variable {s : SemaState} {t : Tid}

/-- A wait with something to take goes on at once. -/
theorem wait_now (h : 0 < s.sem.count) (hrange : s.sem.count < 2 ^ 31) : s.wait t = { s with
    sem := { s.sem with count := s.sem.count - 1 }, completed := s.completed + 1 } := by
  have hge : s.sem.count - 1 ≥ 0 := by omega
  have hwrap : wrap32 (s.sem.count - 1) = s.sem.count - 1 := wrap32_eq (by omega) (by omega)
  simp only [SemaState.wait, semaWait, atomicDecAndSetge, hwrap, decide_eq_true hge, if_true]

/-- A wait with nothing to take goes to the end of the list. -/
theorem wait_sleep (h : s.sem.count ≤ 0) (hrange : -2 ^ 31 < s.sem.count) : s.wait t = { s with
    sem := { count := s.sem.count - 1, waitList := s.sem.waitList ++ [t] } } := by
  have hge : ¬s.sem.count - 1 ≥ 0 := by omega
  have hwrap : wrap32 (s.sem.count - 1) = s.sem.count - 1 := wrap32_eq (by omega) (by omega)
  simp only [SemaState.wait, semaWait, atomicDecAndSetge, hwrap, decide_eq_false hge]
  rfl

/-- A post without a waiting thread counts up. -/
theorem post_free (h : 0 ≤ s.sem.count) (hrange : s.sem.count < 2 ^ 31 - 1) :
    s.post t = { s with
      sem := { s.sem with count := s.sem.count + 1 }, posts := s.posts + 1 } := by
  have hg : s.sem.count + 1 > 0 := by omega
  have hwrap : wrap32 (s.sem.count + 1) = s.sem.count + 1 := wrap32_eq (by omega) (by omega)
  simp only [SemaState.post, semaPostInc, atomicIncAndSetg, hwrap, decide_eq_true hg, Bool.not_true]

/-- A post with a waiting thread counts up, and is going to wake it. -/
theorem post_waiter (h : s.sem.count < 0) (hrange : -2 ^ 31 ≤ s.sem.count) :
    s.post t = { s with
      sem := { s.sem with count := s.sem.count + 1 }
      posts := s.posts + 1, posting := t :: s.posting } := by
  have hg : ¬s.sem.count + 1 > 0 := by omega
  have hwrap : wrap32 (s.sem.count + 1) = s.sem.count + 1 := wrap32_eq (by omega) (by omega)
  simp [SemaState.post, semaPostInc, atomicIncAndSetg, hwrap, hg]

/-- The increment takes back a decrement that wraps around. -/
theorem atomicInc_wrap32 {i : Int} (hlo : -2 ^ 31 ≤ i) (hhi : i < 2 ^ 31) :
    atomicInc (wrap32 (i - 1)) = i := by
  have hback : wrap32 (wrap32 (i - 1) + 1) = wrap32 (i - 1 + 1) := Int.bmod_add_bmod
  rw [atomicInc, hback, Int.sub_add_cancel, wrap32_eq hlo hhi]

/-- `sema_trywait` takes what is there, or leaves the semaphore alone. -/
theorem semaTrywait_eq (sem : Sem) : semaTrywait sem =
    if sem.count - 1 ≥ 0 then ({ sem with count := wrap32 (sem.count - 1) }, true)
    else ({ sem with count := atomicInc (wrap32 (sem.count - 1)) }, false) := by
  by_cases hge : sem.count - 1 ≥ 0
  · rw [if_pos hge]
    simp only [semaTrywait, atomicDecAndSetge, decide_eq_true hge, if_true]
  · rw [if_neg hge]
    simp only [semaTrywait, atomicDecAndSetge, decide_eq_false hge]
    rfl

/-- A `sema_trywait` that fails puts back what it took. -/
theorem semaTrywait_fails {sem sem' : Sem} (hlo : -2 ^ 31 ≤ sem.count) (hhi : sem.count < 2 ^ 31)
    (h : semaTrywait sem = (sem', false)) : sem' = sem := by
  rw [semaTrywait_eq, atomicInc_wrap32 hlo hhi] at h
  split at h
  · exact absurd (congrArg Prod.snd h) (by simp)
  · exact (congrArg Prod.fst h).symm

/-- A `sema_trywait` that succeeds takes one. -/
theorem trywait_now (h : 0 < s.sem.count) (hrange : s.sem.count < 2 ^ 31) : s.trywait = { s with
    sem := { s.sem with count := s.sem.count - 1 }, completed := s.completed + 1 } := by
  have hge : s.sem.count - 1 ≥ 0 := by omega
  have hwrap : wrap32 (s.sem.count - 1) = s.sem.count - 1 := wrap32_eq (by omega) (by omega)
  rw [SemaState.trywait, semaTrywait_eq, if_pos hge, hwrap]

/-- With nothing to take it changes nothing. -/
theorem trywait_fail (h : s.sem.count ≤ 0) (hrange : -2 ^ 31 ≤ s.sem.count) : s.trywait = s := by
  have hge : ¬s.sem.count - 1 ≥ 0 := by omega
  rw [SemaState.trywait, semaTrywait_eq, if_neg hge, atomicInc_wrap32 hrange (by omega)]

end

/-! ### Runs -/

namespace SemaInvariant

variable {val : Int} {s s' : SemaState} {t : Tid}

theorem start (hlo : 0 ≤ val) (hhi : val < 2 ^ 31) : SemaInvariant val (SemaState.start val) where
  count_range := ⟨show -2 ^ 31 ≤ val by omega, hhi⟩
  waiting := by
    simp only [SemaState.start, semaInit, List.length_nil]
    omega
  balance := by simp [SemaState.start, semaInit]

/-- A wait keeps the invariant, when `count` does not wrap around. -/
theorem wait (h : SemaInvariant val s) (hfits : -2 ^ 31 < s.sem.count) :
    SemaInvariant val (s.wait t) := by
  obtain ⟨⟨hlo, hhi⟩, hwaiting, hbalance⟩ := h
  by_cases hpos : 0 < s.sem.count
  · rw [wait_now hpos hhi]
    constructor <;> simp only <;> omega
  · rw [wait_sleep (by omega) hfits]
    constructor <;> simp only [List.length_append, List.length_singleton] <;> omega

/-- A try keeps it, whatever it finds. -/
theorem trywait (h : SemaInvariant val s) : SemaInvariant val s.trywait := by
  obtain ⟨hlo, hhi⟩ := h.count_range
  by_cases hpos : 0 < s.sem.count
  · obtain ⟨-, hwaiting, hbalance⟩ := h
    rw [trywait_now hpos hhi]
    constructor <;> simp only <;> omega
  · rw [trywait_fail (by omega) hlo]
    exact h

/-- A post keeps it, when `count` does not wrap around. -/
theorem post (h : SemaInvariant val s) (hfits : s.sem.count < 2 ^ 31 - 1) :
    SemaInvariant val (s.post t) := by
  obtain ⟨⟨hlo, hhi⟩, hwaiting, hbalance⟩ := h
  by_cases hneg : s.sem.count < 0
  · rw [post_waiter hneg hlo]
    constructor <;> simp only [List.length_cons] <;> omega
  · rw [post_free (by omega) hfits]
    constructor <;> simp only <;> omega

/-- A post that is about to pop finds a waiter. -/
theorem waitList_ne_nil (h : SemaInvariant val s) (hmem : t ∈ s.posting) :
    s.sem.waitList ≠ [] := by
  have hpos : 0 < s.posting.length := List.length_pos_of_mem hmem
  have hwaiting := h.waiting
  refine List.ne_nil_of_length_pos ?_
  omega

/-- The second half of a post takes the first waiting thread from the list. -/
theorem pop (h : SemaInvariant val s) (hmem : t ∈ s.posting) (hstep : s.pop t = .ok s') :
    SemaInvariant val s' := by
  obtain ⟨hrange, hwaiting, hbalance⟩ := h
  obtain ⟨⟨sem, popped⟩, hpop, hret⟩ := bind_eq_ok.mp hstep
  obtain rfl := Except.ok.inj hret
  have hpos : 0 < s.posting.length := List.length_pos_of_mem hmem
  have herase : (s.posting.erase t).length = s.posting.length - 1 := List.length_erase_of_mem hmem
  cases hlist : s.sem.waitList with
  | nil =>
      rw [semaPostPop, hlist] at hpop
      exact absurd hpop (by simp)
  | cons w ws =>
      rw [semaPostPop, hlist] at hpop
      obtain ⟨rfl, rfl⟩ := Prod.mk.inj (Except.ok.inj hpop)
      rw [hlist, List.length_cons] at hwaiting hbalance
      constructor <;> simp only [List.length_cons, herase] <;> omega

/-- A thread that has been woken completes its wait. -/
theorem resume (h : SemaInvariant val s) (hmem : t ∈ s.woken) :
    SemaInvariant val { s with woken := s.woken.erase t, completed := s.completed + 1 } := by
  obtain ⟨hrange, hwaiting, hbalance⟩ := h
  have hpos : 0 < s.woken.length := List.length_pos_of_mem hmem
  have herase : (s.woken.erase t).length = s.woken.length - 1 := List.length_erase_of_mem hmem
  constructor <;> simp only [herase] <;> omega

/-- Every action that does not overflow `count` keeps the invariant. -/
theorem next {a : SemaAct} (h : SemaInvariant val s) (henabled : s.Enabled a)
    (hfits : CountFits s a) (hnext : s.next a = .ok s') : SemaInvariant val s' := by
  cases a with
  | wait t =>
      cases hnext
      exact h.wait hfits
  | trywait t =>
      cases hnext
      exact h.trywait
  | post t =>
      cases hnext
      exact h.post hfits
  | pop t => exact h.pop henabled hnext
  | resume t =>
      cases hnext
      exact h.resume henabled

/-- No more waits end than posts begin. -/
theorem completed_le (h : SemaInvariant val s) : (s.completed : Int) ≤ val + s.posts := by
  obtain ⟨-, hwaiting, hbalance⟩ := h
  omega

end SemaInvariant

/-- In every run that does not overflow `count` the invariant holds. -/
theorem semaSystem_inductive {val : Int} (hlo : 0 ≤ val) (hhi : val < 2 ^ 31) :
    ((semaSystem val).restrict CountFits).Inductive (SemaInvariant val) where
  init hinit := by
    cases hinit
    exact SemaInvariant.start hlo hhi
  step h henabled hnext := h.next henabled.1 henabled.2 hnext

/-- What a semaphore with the initial value `val` promises, in every reachable state of a system
that uses it. -/
structure SemaSafe (val : Int) (S : System SemaState SemaAct Halt) : Prop where
  /-- No more waits and trywaits get through than `val` and the posts allow. -/
  completed : ∀ s, S.Reachable s → (s.completed : Int) ≤ val + s.posts
  /-- `sema_post` never pops an empty list. -/
  pop : ∀ s, S.Reachable s → ∀ t, S.enabled s (.pop t) →
    s.sem.waitList ≠ [] ∧ ∃ s', S.next s (.pop t) = .ok s'
  /-- The wait list has the threads that `count` owes, and those about to be popped. -/
  waiting : ∀ s, S.Reachable s →
    (s.sem.waitList.length : Int) = max 0 (-s.sem.count) + s.posting.length
  /-- A `sema_trywait` that fails changes nothing. -/
  trywait : ∀ s, S.Reachable s → ∀ sem, semaTrywait s.sem = (sem, false) → sem = s.sem

/-- The semaphore is safe for every initial value, any number of threads and any interleaving
that does not overflow `count`. -/
theorem semaSystem_safe {val : Int} (hlo : 0 ≤ val) (hhi : val < 2 ^ 31) :
    SemaSafe val ((semaSystem val).restrict CountFits) where
  completed s hs := ((semaSystem_inductive hlo hhi).reachable hs).completed_le
  pop s hs t ht := by
    have hne := ((semaSystem_inductive hlo hhi).reachable hs).waitList_ne_nil ht.1
    refine ⟨hne, ?_⟩
    obtain ⟨w, ws, hlist⟩ := List.exists_cons_of_ne_nil hne
    have hpop : semaPostPop s.sem = .ok ({ s.sem with waitList := ws }, w) := by
      rw [semaPostPop, hlist]
    exact ⟨_, by show s.pop t = _; rw [SemaState.pop, hpop]; rfl⟩
  waiting s hs := ((semaSystem_inductive hlo hhi).reachable hs).waiting
  trywait s hs sem h := by
    obtain ⟨hlow, hhigh⟩ := ((semaSystem_inductive hlo hhi).reachable hs).count_range
    exact semaTrywait_fails hlow hhigh h

theorem semaSystem_safe_zero : SemaSafe 0 ((semaSystem 0).restrict CountFits) :=
  semaSystem_safe (by decide) (by decide)

/-- Two posts at `INT_MAX`: the first one wraps `count` around, and the second one pops an empty
list. -/
theorem semaSystem_not_safe : ¬∀ val : Int, 0 ≤ val → val < 2 ^ 31 →
    SemaSafe val (semaSystem val) := by
  intro hsafe
  have hidle : (SemaState.start (2 ^ 31 - 1)).Idle 1 := by
    simp [SemaState.Idle, SemaState.start, semaInit]
  have hwrapped : (SemaState.start (2 ^ 31 - 1)).post 1
      = { SemaState.start (2 ^ 31 - 1) with sem := ⟨-2 ^ 31, []⟩, posts := 1 } := rfl
  have hfirst : (semaSystem (2 ^ 31 - 1)).Reachable ((SemaState.start (2 ^ 31 - 1)).post 1) :=
    .step (a := .post 1) (.init rfl) hidle rfl
  rw [hwrapped] at hfirst
  have hagain : (semaSystem (2 ^ 31 - 1)).enabled
      { SemaState.start (2 ^ 31 - 1) with sem := ⟨-2 ^ 31, []⟩, posts := 1 } (.post 1) := hidle
  have hsecond := System.Reachable.step hfirst hagain rfl
  have hpop := (hsafe (2 ^ 31 - 1) (by decide) (by decide)).pop _ hsecond 1 List.mem_cons_self
  exact hpop.1 rfl

end Fizzos.Proofs
