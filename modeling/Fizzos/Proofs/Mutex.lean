import Fizzos.Kernel.Mutex
import Fizzos.Support.Enumerates

/-!
# `Fizzos.Proofs.Mutex`: the recursive mutex excludes, and loses no wake-up

The invariant has two halves. `Owned s owner` is about exclusion: `owner` is the thread that
holds the mutex, if any, and `OwnerView` says what `holder` and `repeat` are at each place of
the owner. Every other thread is at a place where it holds nothing (`OtherView`).
`MutexWaiters` is about the wait list: it holds the sleeping threads that no release has
popped, and when the mutex is free with a thread on the list, a popped thread is on its way
to the exchange.

A step of a thread that is not the owner leaves `holder` and `repeat` alone, except for the
exchange that makes it the owner. That is why the unprotected test of `holder` in
`mutex_acquire` is right: only the owner can find its own name there.

`repeat` is a `uint32_t`, so all this needs that no thread nests `2 ^ 32` acquires
(`shallowMutexSystem`). `mutexSystem_not_safe` is what goes wrong without it.
-/

set_option autoImplicit false

namespace Fizzos.Proofs

open Fizzos.Kernel
open Fizzos.Support

/-- What the mutex looks like while its owner `t` is at the place `pc` with depth `d`. -/
def OwnerView (t : Tid) (holder : Option Tid) (pc : MutexPc) (d : Nat) : Prop :=
  match pc with
  | .acqHolder | .relXchg => d = 0 ∧ holder = none
  | .acqOne | .relHolder => d = 0 ∧ holder = some t
  | .outside | .relAssert | .relDec => 0 < d ∧ holder = some t
  | .acqCheck | .acqRepeat => 0 < d ∧ d + 1 < 2 ^ 32 ∧ holder = some t
  | .acqTry _ | .acqSleep | .relUnblock _ => False

/-- A thread that is not the owner is at a place where it holds nothing. -/
def OtherView (pc : MutexPc) (d : Nat) : Prop :=
  match pc with
  | .outside | .acqCheck | .acqTry _ | .acqSleep | .relUnblock _ => d = 0
  | .acqRepeat | .acqHolder | .acqOne | .relAssert | .relDec | .relHolder | .relXchg => False

/-- `owner` holds the mutex, and nobody else does. -/
structure Owned (s : MutexState) (owner : Option Tid) : Prop where
  isLock : s.lock.isLock = owner.isSome
  count : s.lock.repeat.toNat = owner.elim 0 s.depth
  free : owner = none → s.lock.holder = none
  view : ∀ t, owner = some t → OwnerView t s.lock.holder (s.pc t) (s.depth t)
  other : ∀ t, owner ≠ some t → OtherView (s.pc t) (s.depth t)

/-- The wait list, and the threads that a release popped. -/
structure MutexWaiters (s : MutexState) : Prop where
  asleep : Enumerates s.lock.waitList fun t =>
    s.pc t = .acqSleep ∧ s.blocked t = true ∧ ∀ v, s.pc v ≠ .relUnblock t
  popped : ∀ v t, s.pc v = .relUnblock t → s.pc t = .acqSleep ∧ s.blocked t = true
  popped_once : ∀ u v t, s.pc u = .relUnblock t → s.pc v = .relUnblock t → u = v
  rescue : s.lock.isLock = false → s.lock.waitList ≠ [] → ∃ t, s.WillRetry t

/-- The invariant of the mutex and its threads. -/
structure MutexInvariant (s : MutexState) : Prop where
  owned : ∃ owner, Owned s owner
  waiters : MutexWaiters s

/-! ### Exclusion over one step -/

namespace Owned

variable {s : MutexState} {owner : Option Tid} {t : Tid}

/-- Another thread moves to a place where it holds nothing. -/
theorem other_goto (h : Owned s owner) (hne : owner ≠ some t) {pc : MutexPc}
    (hpc : OtherView pc (s.depth t)) : Owned (s.goto t pc) owner where
  isLock := h.isLock
  count := h.count
  free := h.free
  view u hu := by
    have hut : u ≠ t := fun heq => hne (heq ▸ hu)
    simpa [MutexState.goto, hut] using h.view u hu
  other u hu := by
    by_cases hut : u = t
    · subst hut
      simpa [MutexState.goto] using hpc
    · simpa [MutexState.goto, hut] using h.other u hu

/-- The owner takes a step: only its place and depth, `holder` and `repeat` change. -/
theorem owner_step {s' : MutexState} (h : Owned s (some t))
    (hlock : s'.lock.isLock = true)
    (hpc : ∀ u, u ≠ t → s'.pc u = s.pc u) (hdepth : ∀ u, u ≠ t → s'.depth u = s.depth u)
    (hcount : s'.lock.repeat.toNat = s'.depth t)
    (hview : OwnerView t s'.lock.holder (s'.pc t) (s'.depth t)) : Owned s' (some t) where
  isLock := hlock
  count := hcount
  free hnone := by cases hnone
  view u hu := by
    cases hu
    exact hview
  other u hu := by
    have hut : u ≠ t := fun heq => hu (heq ▸ rfl)
    rw [hpc u hut, hdepth u hut]
    exact h.other u hu

/-- Only the owner finds its own name in `holder`. -/
theorem eq_of_holder (h : Owned s owner) (hholder : s.lock.holder = some t) :
    owner = some t := by
  cases howner : owner with
  | none =>
      rw [h.free howner] at hholder
      cases hholder
  | some o =>
      have hview := h.view o howner
      rw [hholder] at hview
      cases hpc : s.pc o <;> simp [OwnerView, hpc] at hview <;> simp [hview]

/-- A thread at a place for owners only is the owner. -/
theorem eq_of_place (h : Owned s owner) (hplace : ¬OtherView (s.pc t) (s.depth t)) :
    owner = some t := by
  by_contra hne
  exact hplace (h.other t hne)

/-- A thread at a place for others only is not the owner. -/
theorem not_owner (h : Owned s owner)
    (hplace : ¬OwnerView t s.lock.holder (s.pc t) (s.depth t)) : owner ≠ some t :=
  fun howner => hplace (h.view t howner)

/-- `mutex_acquire` and `mutex_release` are called. -/
theorem call (h : Owned s owner) {pc : MutexPc} (hout : s.pc t = .outside)
    (hpc : (0 < s.depth t → OwnerView t (some t) pc (s.depth t)) ∧
      (s.depth t = 0 → OtherView pc (s.depth t))) : Owned (s.goto t pc) owner := by
  by_cases howner : owner = some t
  · subst howner
    have hview := h.view t rfl
    simp only [hout, OwnerView] at hview
    refine h.owner_step h.isLock (fun u hu => ?_) (fun _ _ => rfl) h.count ?_
    · simp [MutexState.goto, hu]
    · simpa [MutexState.goto, hview.2] using hpc.1 hview.1
  · have hother := h.other t howner
    simp only [hout, OtherView] at hother
    exact h.other_goto howner (hpc.2 hother)

/-- A step of a thread keeps exclusion, and can change the owner. -/
theorem step {s' : MutexState} (h : Owned s owner) (hstep : s.step t = .ok s') :
    ∃ owner', Owned s' owner' := by
  unfold MutexState.step at hstep
  cases hpc : s.pc t with
  | outside =>
      simp only [hpc, pure_eq_ok, Except.ok.injEq] at hstep
      subst hstep
      exact ⟨owner, h⟩
  | acqCheck =>
      simp only [hpc, pure_eq_ok] at hstep
      by_cases hholder : s.lock.holder = some t
      · obtain rfl := h.eq_of_holder hholder
        rw [if_pos hholder] at hstep
        cases hstep
        have hview := h.view t rfl
        simp only [hpc, OwnerView] at hview
        refine ⟨_, h.owner_step h.isLock (fun u hu => ?_) (fun _ _ => rfl) h.count ?_⟩
        · simp [MutexState.goto, hu]
        · simpa [MutexState.goto, OwnerView] using hview
      · rw [if_neg hholder] at hstep
        cases hstep
        have hne : owner ≠ some t := by
          rintro rfl
          have hview := h.view t rfl
          simp only [hpc, OwnerView] at hview
          exact hholder hview.2.2
        have hother := h.other t hne
        rw [hpc] at hother
        exact ⟨owner, h.other_goto hne hother⟩
  | acqRepeat =>
      obtain rfl := h.eq_of_place (t := t) (by simp [hpc, OtherView])
      simp only [hpc, pure_eq_ok, Except.ok.injEq] at hstep
      subst hstep
      have hview := h.view t rfl
      have hcount : s.lock.repeat.toNat = s.depth t := h.count
      simp only [hpc, OwnerView] at hview
      refine ⟨_, h.owner_step h.isLock (fun u hu => ?_) (fun u hu => ?_) ?_ ?_⟩
      · simp [MutexState.goto, hu]
      · simp [hu]
      · simp only [Function.update_self, UInt32.toNat_add, hcount]
        exact Nat.mod_eq_of_lt hview.2.1
      · simp [MutexState.goto, OwnerView, hview.2.2]
  | acqTry woken =>
      have hne : owner ≠ some t := h.not_owner (by simp [hpc, OwnerView])
      have hother := h.other t hne
      simp only [hpc, OtherView] at hother
      cases hlock : s.lock.isLock with
      | true =>
          simp only [hpc, mutexTry, hlock, if_true, pure_eq_ok, Except.ok.injEq] at hstep
          subst hstep
          have hgoto : Owned (s.goto t .acqSleep) owner := h.other_goto hne hother
          exact ⟨owner, hlock ▸ hgoto.isLock, hgoto.count, hgoto.free, hgoto.view, hgoto.other⟩
      | false =>
          simp only [hpc, mutexTry, hlock, Bool.false_eq_true, if_false, pure_eq_ok,
            Except.ok.injEq] at hstep
          subst hstep
          -- the mutex was free, so nobody was the owner, and `t` is now
          have howner : owner = none := by
            rw [← Option.isNone_iff_eq_none, ← Option.not_isSome, ← h.isLock, hlock]
            rfl
          subst howner
          refine ⟨some t, rfl, ?_, fun hnone => ?_, fun u hu => ?_, fun u hu => ?_⟩
          · exact Eq.trans (show s.lock.repeat.toNat = 0 from h.count) hother.symm
          · cases hnone
          · cases hu
            simpa [MutexState.goto, OwnerView, hother] using h.free rfl
          · have hut : u ≠ t := fun heq => hu (heq ▸ rfl)
            simpa [MutexState.goto, hut] using h.other u (by simp)
  | acqSleep =>
      simp only [hpc, pure_eq_ok, Except.ok.injEq] at hstep
      subst hstep
      have hne : owner ≠ some t := h.not_owner (by simp [hpc, OwnerView])
      have hother := h.other t hne
      rw [hpc] at hother
      exact ⟨owner, h.other_goto hne hother⟩
  | acqHolder =>
      obtain rfl := h.eq_of_place (t := t) (by simp [hpc, OtherView])
      simp only [hpc, pure_eq_ok, Except.ok.injEq] at hstep
      subst hstep
      have hview := h.view t rfl
      simp only [hpc, OwnerView] at hview
      refine ⟨_, h.owner_step h.isLock (fun u hu => ?_) (fun _ _ => rfl) h.count ?_⟩
      · simp [MutexState.goto, hu]
      · simpa [MutexState.goto, OwnerView] using hview.1
  | acqOne =>
      obtain rfl := h.eq_of_place (t := t) (by simp [hpc, OtherView])
      simp only [hpc, pure_eq_ok, Except.ok.injEq] at hstep
      subst hstep
      have hview := h.view t rfl
      simp only [hpc, OwnerView] at hview
      refine ⟨_, h.owner_step h.isLock (fun u hu => ?_) (fun u hu => ?_) ?_ ?_⟩
      · simp [MutexState.goto, hu]
      · simp [hu]
      · simp [hview.1]
      · simpa [MutexState.goto, OwnerView] using hview.2
  | relAssert =>
      obtain rfl := h.eq_of_place (t := t) (by simp [hpc, OtherView])
      simp only [hpc, bind_eq_ok, pure_eq_ok, Except.ok.injEq] at hstep
      obtain ⟨_, -, rfl⟩ := hstep
      have hview := h.view t rfl
      rw [hpc] at hview
      refine ⟨_, h.owner_step h.isLock (fun u hu => ?_) (fun _ _ => rfl) h.count ?_⟩
      · simp [MutexState.goto, hu]
      · simpa [MutexState.goto, OwnerView] using hview
  | relDec =>
      obtain rfl := h.eq_of_place (t := t) (by simp [hpc, OtherView])
      simp only [hpc, pure_eq_ok, Except.ok.injEq] at hstep
      subst hstep
      have hview := h.view t rfl
      have hcount : s.lock.repeat.toNat = s.depth t := h.count
      simp only [hpc, OwnerView] at hview
      have hleft : (s.lock.repeat - 1).toNat = s.depth t - 1 := by
        have hone : (1 : UInt32) ≤ s.lock.repeat := by
          rw [UInt32.le_iff_toNat_le, hcount]
          exact hview.1
        rw [UInt32.toNat_sub_of_le _ _ hone, hcount]
        rfl
      have hzero : s.lock.repeat - 1 = 0 ↔ s.depth t - 1 = 0 := by
        rw [← hleft, ← UInt32.toNat_inj]
        rfl
      refine ⟨_, h.owner_step h.isLock (fun u hu => ?_) (fun u hu => ?_) ?_ ?_⟩
      · simp [MutexState.goto, hu]
      · simp [hu]
      · simpa using hleft
      · by_cases hlast : s.lock.repeat - 1 = 0
        · simp [MutexState.goto, OwnerView, hlast, hzero.mp hlast, hview.2]
        · have hpos := mt hzero.mpr hlast
          simp only [MutexState.goto, Function.update_self, if_neg hlast, OwnerView]
          exact ⟨by omega, hview.2⟩
  | relHolder =>
      obtain rfl := h.eq_of_place (t := t) (by simp [hpc, OtherView])
      simp only [hpc, pure_eq_ok, Except.ok.injEq] at hstep
      subst hstep
      have hview := h.view t rfl
      simp only [hpc, OwnerView] at hview
      refine ⟨_, h.owner_step h.isLock (fun u hu => ?_) (fun _ _ => rfl) h.count ?_⟩
      · simp [MutexState.goto, hu]
      · simpa [MutexState.goto, OwnerView] using hview.1
  | relXchg =>
      obtain rfl := h.eq_of_place (t := t) (by simp [hpc, OtherView])
      simp only [hpc, mutexUnlock, bind_eq_ok, pure_eq_ok, Except.ok.injEq] at hstep
      obtain ⟨_, ⟨_, -, rfl⟩, rfl⟩ := hstep
      have hview := h.view t rfl
      simp only [hpc, OwnerView] at hview
      have hcount : s.lock.repeat.toNat = s.depth t := h.count
      refine ⟨none, rfl, ?_, fun _ => hview.2, fun u hu => (by cases hu), fun u _ => ?_⟩
      · rw [hview.1] at hcount
        exact hcount
      · by_cases hut : u = t
        · subst hut
          cases hpop : s.lock.waitList.head? <;> simp [MutexState.goto, OtherView, hview.1]
        · simpa [MutexState.goto, hut] using h.other u (fun heq => hut (by cases heq; rfl))
  | relUnblock popped =>
      simp only [hpc, pure_eq_ok, Except.ok.injEq] at hstep
      subst hstep
      have hne : owner ≠ some t := h.not_owner (by simp [hpc, OwnerView])
      have hother := h.other t hne
      rw [hpc] at hother
      have hgoto : Owned (s.goto t .outside) owner := h.other_goto hne hother
      exact ⟨owner, hgoto.isLock, hgoto.count, hgoto.free, hgoto.view, hgoto.other⟩

end Owned

/-! ### The wait list over one step -/

/-- A place that is neither in `thread_block` nor before a `thread_unblock`. -/
def Quiet : MutexPc → Prop
  | .acqSleep | .relUnblock _ => False
  | _ => True

namespace MutexWaiters

variable {s s' : MutexState} {t : Tid}

/-- A move between quiet places changes nothing for the others. -/
theorem pc_iff (hpc : ∀ u, u ≠ t → s'.pc u = s.pc u) (hold : Quiet (s.pc t))
    (hnew : Quiet (s'.pc t)) {pc : MutexPc} (hpc' : ¬Quiet pc) (u : Tid) :
    s'.pc u = pc ↔ s.pc u = pc := by
  by_cases hu : u = t
  · subst hu
    exact ⟨fun h => absurd (h ▸ hnew) hpc', fun h => absurd (h ▸ hold) hpc'⟩
  · rw [hpc u hu]

/-- A step between quiet places that leaves the wait list alone. -/
theorem quiet (h : MutexWaiters s) (hpc : ∀ u, u ≠ t → s'.pc u = s.pc u)
    (hold : Quiet (s.pc t)) (hnew : Quiet (s'.pc t)) (hblocked : s'.blocked = s.blocked)
    (hwait : s'.lock.waitList = s.lock.waitList)
    (hrescue : s'.lock.isLock = false → s'.lock.waitList ≠ [] →
      s.lock.isLock = false ∧ s.pc t ≠ .acqTry true) : MutexWaiters s' := by
  have hsleep := fun u => pc_iff hpc hold hnew (show ¬Quiet .acqSleep from id) u
  have hunblock := fun u v => pc_iff hpc hold hnew (show ¬Quiet (.relUnblock v) from id) u
  refine
    { asleep := hwait ▸ h.asleep.congr fun u => ?_
      popped := fun v u hv => ?_
      popped_once := fun u v w hu hv => ?_
      rescue := fun hlock hne => ?_ }
  · simp only [hsleep, hunblock, ne_eq, hblocked]
  · rw [hsleep, hblocked]
    exact h.popped v u ((hunblock v u).mp hv)
  · exact h.popped_once u v w ((hunblock u w).mp hu) ((hunblock v w).mp hv)
  · obtain ⟨hfree, htry⟩ := hrescue hlock hne
    obtain ⟨u, hu⟩ := h.rescue hfree (hwait ▸ hne)
    refine ⟨u, ?_⟩
    rcases hu with ⟨hasleep, hwoken⟩ | hretry
    · refine .inl ⟨(hsleep u).mpr hasleep, ?_⟩
      rw [hblocked]
      exact hwoken.imp_left fun ⟨v, hv⟩ => ⟨v, (hunblock v u).mpr hv⟩
    · have hut : u ≠ t := by
        rintro rfl
        exact htry hretry
      exact .inr ((hpc u hut).trans hretry)

/-- The caller of `mutex_acquire` goes to sleep. -/
theorem sleep (h : MutexWaiters s) {woken : Bool} (hpc : s.pc t = .acqTry woken)
    (hlock : s.lock.isLock = true) :
    MutexWaiters { s.goto t .acqSleep with
      lock := { s.lock with waitList := s.lock.waitList ++ [t] }
      blocked := Function.update s.blocked t true } := by
  -- Only a thread that sleeps is popped, and `t` runs.
  have hnot : ∀ v, s.pc v ≠ .relUnblock t := by
    intro v hv
    have hasleep := (h.popped v t hv).1
    rw [hpc] at hasleep
    cases hasleep
  have hother : ∀ v u, (s.goto t .acqSleep).pc v = .relUnblock u → s.pc v = .relUnblock u := by
    intro v u hv
    by_cases hvt : v = t
    · simp [MutexState.goto, hvt] at hv
    · simpa [MutexState.goto, hvt] using hv
  refine
    { asleep := (h.asleep.push (by simp [hpc])).congr fun u => ?_
      popped := fun v u hv => ?_
      popped_once := fun u v w hu hv => h.popped_once u v w (hother u w hu) (hother v w hv)
      rescue := fun hfree => by rw [show s.lock.isLock = false from hfree] at hlock; cases hlock }
  · by_cases hu : u = t
    · subst hu
      simp only [MutexState.goto, Function.update_self, or_true, true_and, true_iff]
      intro v hv
      exact hnot v (hother v u hv)
    · simp only [MutexState.goto, Function.update_of_ne hu, hu, or_false]
      refine and_congr_right fun _ => and_congr_right fun _ => forall_congr' fun v => ?_
      by_cases hvt : v = t
      · simp [hvt, hpc]
      · simp [hvt]
  · have hold := h.popped v u (hother v u hv)
    have hut : u ≠ t := by
      rintro rfl
      rw [hpc] at hold
      cases hold.1
    simpa [MutexState.goto, hut] using hold

/-- A woken thread returns from `thread_block`. -/
theorem resume (h : MutexWaiters s) (hpc : s.pc t = .acqSleep) (hrun : s.blocked t = false) :
    MutexWaiters (s.goto t (.acqTry true)) := by
  -- Who is popped but not yet unblocked is still blocked.
  have hnot : ∀ v, s.pc v ≠ .relUnblock t := by
    intro v hv
    have hblocked := (h.popped v t hv).2
    rw [hrun] at hblocked
    cases hblocked
  have hunblock : ∀ v u, (s.goto t (.acqTry true)).pc v = .relUnblock u ↔
      s.pc v = .relUnblock u := by
    intro v u
    by_cases hvt : v = t
    · simp [MutexState.goto, hvt, hpc]
    · simp [MutexState.goto, hvt]
  refine
    { asleep := h.asleep.congr fun u => ?_
      popped := fun v u hv => ?_
      popped_once := fun u v w hu hv =>
        h.popped_once u v w ((hunblock u w).mp hu) ((hunblock v w).mp hv)
      rescue := fun _ _ => ⟨t, .inr (Function.update_self _ _ _)⟩ }
  · simp only [ne_eq, hunblock]
    by_cases hu : u = t
    · simp [MutexState.goto, hu, hrun]
    · simp [MutexState.goto, hu]
  · have hold := h.popped v u ((hunblock v u).mp hv)
    have hut : u ≠ t := by
      rintro rfl
      exact hnot v ((hunblock v u).mp hv)
    simpa [MutexState.goto, hut] using hold

/-- The release pops the first sleeping thread. -/
theorem unlock (h : MutexWaiters s) (hpc : s.pc t = .relXchg) {w : Tid} {ws : List Tid}
    (hwait : s.lock.waitList = w :: ws) :
    MutexWaiters { s.goto t (.relUnblock w) with
      lock := { s.lock with isLock := false, waitList := ws } } := by
  have hasleep := hwait ▸ h.asleep
  obtain ⟨hsleep, hblocked, hnot⟩ := hasleep.head
  have hwt : w ≠ t := by
    rintro rfl
    rw [hpc] at hsleep
    cases hsleep
  -- The new pair of a releaser and the thread that it popped is `t` and `w`.
  have hunblock : ∀ v u, (s.goto t (.relUnblock w)).pc v = .relUnblock u ↔
      s.pc v = .relUnblock u ∨ (v = t ∧ u = w) := by
    intro v u
    by_cases hvt : v = t
    · simp [MutexState.goto, hvt, hpc, eq_comm]
    · simp [MutexState.goto, hvt]
  refine
    { asleep := hasleep.pop.congr fun u => ?_
      popped := fun v u hv => ?_
      popped_once := fun u v x hu hv => ?_
      rescue := fun _ _ => ⟨w, .inl ⟨?_, .inl ⟨t, Function.update_self _ _ _⟩⟩⟩ }
  · simp only [ne_eq, hunblock, not_or, not_and, forall_and]
    by_cases hu : u = t
    · simp [MutexState.goto, hu, hpc]
    · simp [MutexState.goto, hu, and_assoc]
  · rcases (hunblock v u).mp hv with hold | ⟨rfl, rfl⟩
    · have hpopped := h.popped v u hold
      have hut : u ≠ t := by
        rintro rfl
        rw [hpc] at hpopped
        cases hpopped.1
      simpa [MutexState.goto, hut] using hpopped
    · simpa [MutexState.goto, hwt] using ⟨hsleep, hblocked⟩
  · rcases (hunblock u x).mp hu with hu' | ⟨hut, hux⟩
    · rcases (hunblock v x).mp hv with hv' | ⟨-, rfl⟩
      · exact h.popped_once u v x hu' hv'
      · exact absurd hu' (hnot u)
    · rcases (hunblock v x).mp hv with hv' | ⟨hvt, -⟩
      · exact absurd (hux ▸ hv') (hnot v)
      · rw [hut, hvt]
  · -- The lock is free now, and `w` is on its way to try again.
    simpa [MutexState.goto, hwt] using hsleep

/-- The popped thread becomes ready. -/
theorem unblock (h : MutexWaiters s) {w : Tid} (hpc : s.pc t = .relUnblock w) :
    MutexWaiters { s.goto t .outside with blocked := Function.update s.blocked w false } := by
  -- Nobody else has popped `w`.
  have hunblock : ∀ v u, (s.goto t .outside).pc v = .relUnblock u ↔
      s.pc v = .relUnblock u ∧ u ≠ w := by
    intro v u
    by_cases hvt : v = t
    · simp [MutexState.goto, hvt, hpc, eq_comm]
    · simp only [MutexState.goto, Function.update_of_ne hvt, iff_self_and]
      rintro hv rfl
      exact hvt (h.popped_once v t u hv hpc)
  have hasleep : ∀ u, (s.goto t .outside).pc u = .acqSleep ↔ s.pc u = .acqSleep := by
    intro u
    by_cases hut : u = t
    · simp [MutexState.goto, hut, hpc]
    · simp [MutexState.goto, hut]
  refine
    { asleep := h.asleep.congr fun u => ?_
      popped := fun v u hv => ?_
      popped_once := fun u v x hu hv =>
        h.popped_once u v x ((hunblock u x).mp hu).1 ((hunblock v x).mp hv).1
      rescue := fun hfree hne => ?_ }
  · simp only [hasleep, ne_eq, hunblock]
    by_cases huw : u = w
    · subst huw
      simp only [Function.update_self, Bool.false_eq_true, false_and, and_false, iff_false]
      rintro ⟨-, -, hnot⟩
      exact hnot t hpc
    · simp [huw]
  · obtain ⟨hold, huw⟩ := (hunblock v u).mp hv
    rw [hasleep]
    simpa [huw] using h.popped v u hold
  · -- Who was on the way to a free lock still is: if it is `w`, it runs now.
    obtain ⟨u, hu⟩ := h.rescue hfree hne
    refine ⟨u, ?_⟩
    rcases hu with ⟨hsleep, hwoken⟩ | hretry
    · refine .inl ⟨(hasleep u).mpr hsleep, ?_⟩
      by_cases huw : u = w
      · exact .inr (by simp [huw])
      · rcases hwoken with ⟨v, hv⟩ | hrun
        · exact .inl ⟨v, (hunblock v u).mpr ⟨hv, huw⟩⟩
        · exact .inr (by simpa [huw] using hrun)
    · have hut : u ≠ t := by
        rintro rfl
        rw [hpc] at hretry
        cases hretry
      exact .inr (by simpa [MutexState.goto, hut] using hretry)

end MutexWaiters

/-! ### The invariant over runs -/

namespace MutexInvariant

variable {s s' : MutexState}

/-- The mutex after `mutex_lock_init`. -/
theorem start : MutexInvariant MutexState.start where
  owned := ⟨none, rfl, rfl, fun _ => rfl, fun _ h => (by cases h), fun _ _ => rfl⟩
  waiters :=
    { asleep := Enumerates.nil fun _ => by simp [MutexState.start]
      popped := fun _ _ h => by cases h
      popped_once := fun _ _ _ h => by cases h
      rescue := fun _ h => absurd rfl h }

/-- Every access keeps the wait list right. -/
theorem step_waiters {t : Tid} (h : MutexWaiters s) (hrun : s.blocked t = false)
    (hstep : s.step t = .ok s') : MutexWaiters s' := by
  unfold MutexState.step at hstep
  have hother : ∀ {pc : MutexPc} {u : Tid}, u ≠ t → (s.goto t pc).pc u = s.pc u :=
    fun hu => Function.update_of_ne hu _ _
  have hself : ∀ {pc : MutexPc}, (s.goto t pc).pc t = pc := Function.update_self _ _ _
  cases hpc : s.pc t with
  -- Four accesses change the wait list or a sleeping thread, and the others are quiet.
  | acqTry woken =>
      cases hlock : s.lock.isLock with
      | true =>
          simp only [hpc, mutexTry, if_pos hlock, pure_eq_ok, Except.ok.injEq] at hstep
          subst hstep
          exact h.sleep hpc hlock
      | false =>
          simp only [hpc, mutexTry, hlock, Bool.false_eq_true, if_false, pure_eq_ok,
            Except.ok.injEq] at hstep
          subst hstep
          exact h.quiet (t := t) (fun u hu => hother hu) (by simp [hpc, Quiet])
            (by simp [hself, Quiet]) rfl rfl (fun hfree => by cases hfree)
  | acqSleep =>
      simp only [hpc, pure_eq_ok, Except.ok.injEq] at hstep
      subst hstep
      exact h.resume hpc hrun
  | relXchg =>
      simp only [hpc, mutexUnlock, bind_eq_ok, pure_eq_ok, Except.ok.injEq] at hstep
      obtain ⟨_, ⟨_, -, rfl⟩, rfl⟩ := hstep
      cases hwait : s.lock.waitList with
      | nil =>
          exact h.quiet (t := t) (fun u hu => hother hu) (by simp [hpc, Quiet])
            (by simp [MutexState.goto, Quiet]) rfl (by simp [hwait]) (by simp)
      | cons w ws => exact h.unlock hpc hwait
  | relUnblock popped =>
      simp only [hpc, pure_eq_ok, Except.ok.injEq] at hstep
      subst hstep
      exact h.unblock hpc
  | outside =>
      simp only [hpc, pure_eq_ok, Except.ok.injEq] at hstep
      subst hstep
      exact h
  | acqCheck =>
      simp only [hpc, pure_eq_ok] at hstep
      split at hstep <;> cases hstep <;>
        exact h.quiet (t := t) (fun u hu => hother hu) (by simp [hpc, Quiet])
          (by simp [hself, Quiet]) rfl rfl (fun hfree _ => ⟨hfree, by simp [hpc]⟩)
  | relAssert =>
      simp only [hpc, bind_eq_ok, pure_eq_ok, Except.ok.injEq] at hstep
      obtain ⟨_, -, rfl⟩ := hstep
      exact h.quiet (t := t) (fun u hu => hother hu) (by simp [hpc, Quiet])
        (by simp [hself, Quiet]) rfl rfl (fun hfree _ => ⟨hfree, by simp [hpc]⟩)
  | relDec =>
      simp only [hpc, pure_eq_ok, Except.ok.injEq] at hstep
      subst hstep
      refine h.quiet (t := t) (fun u hu => hother hu) (by simp [hpc, Quiet]) ?_ rfl rfl
        (fun hfree _ => ⟨hfree, by simp [hpc]⟩)
      by_cases hleft : s.lock.repeat - 1 = 0 <;> simp [MutexState.goto, hleft, Quiet]
  | acqRepeat | acqHolder | acqOne | relHolder =>
      simp only [hpc, pure_eq_ok, Except.ok.injEq] at hstep
      subst hstep
      exact h.quiet (t := t) (fun u hu => hother hu) (by simp [hpc, Quiet])
        (by simp [MutexState.goto, Quiet]) rfl rfl (fun hfree _ => ⟨hfree, by simp [hpc]⟩)

/-- Every action keeps the invariant. -/
theorem next {a : MutexAct} (h : MutexInvariant s) (henabled : s.Enabled a)
    (hfits : DepthFits s a) (hnext : s.next a = .ok s') : MutexInvariant s' := by
  obtain ⟨owner, howned⟩ := h.owned
  cases a with
  | acquire t =>
      cases hnext
      have hout : s.pc t = .outside := henabled
      have hdepth : s.depth t + 1 < 2 ^ 32 := hfits
      refine ⟨⟨owner, howned.call hout ⟨fun hpos => ⟨hpos, hdepth, rfl⟩, id⟩⟩, ?_⟩
      exact h.waiters.quiet (t := t) (fun u hu => Function.update_of_ne hu _ _)
        (by simp [hout, Quiet]) (by simp [MutexState.goto, Quiet]) rfl rfl
        (fun hfree _ => ⟨hfree, by simp [hout]⟩)
  | release t =>
      cases hnext
      obtain ⟨hout, hpos⟩ := henabled
      refine ⟨⟨owner, howned.call hout ⟨fun hpos => ⟨hpos, rfl⟩, fun hzero => ?_⟩⟩, ?_⟩
      · omega
      · exact h.waiters.quiet (t := t) (fun u hu => Function.update_of_ne hu _ _)
          (by simp [hout, Quiet]) (by simp [MutexState.goto, Quiet]) rfl rfl
          (fun hfree _ => ⟨hfree, by simp [hout]⟩)
  | step t => exact ⟨howned.step hnext, step_waiters h.waiters henabled.2 hnext⟩

/-- No access fails an assertion. -/
theorem next_ok {a : MutexAct} (h : MutexInvariant s) : ∃ s', s.next a = .ok s' := by
  obtain ⟨owner, howned⟩ := h.owned
  cases a with
  | acquire t => exact ⟨_, rfl⟩
  | release t => exact ⟨_, rfl⟩
  | step t =>
      simp only [MutexState.next, MutexState.step]
      cases hpc : s.pc t with
      | relAssert =>
          obtain rfl := howned.eq_of_place (t := t) (by simp [hpc, OtherView])
          have hview := howned.view t rfl
          simp only [hpc, OwnerView] at hview
          simp [hview.2]
      | relXchg =>
          obtain rfl := howned.eq_of_place (t := t) (by simp [hpc, OtherView])
          have hlock : s.lock.isLock = true := howned.isLock
          simp [mutexUnlock, hlock]
      | acqCheck => by_cases hholder : s.lock.holder = some t <;> simp [hholder]
      | acqTry woken => cases hlock : s.lock.isLock <;> simp [mutexTry, hlock]
      | outside | acqRepeat | acqSleep | acqHolder | acqOne | relDec | relHolder
      | relUnblock => exact ⟨_, rfl⟩

/-- A thread that holds the mutex is the owner. -/
theorem Owned.eq_of_holds {owner : Option Tid} (h : Owned s owner) {t : Tid}
    (ht : s.Holds t) : owner = some t := by
  refine h.eq_of_place ?_
  rcases ht with hdepth | hpc | hpc | hpc | hpc
  · intro hother
    cases hpc : s.pc t <;> simp only [hpc, OtherView] at hother <;> omega
  all_goals simp [hpc, OtherView]

end MutexInvariant

/-- `MutexInvariant` is inductive while the depths fit into `repeat`. -/
theorem shallowMutexSystem_inductive : shallowMutexSystem.Inductive MutexInvariant where
  init hinit := by
    cases hinit
    exact MutexInvariant.start
  step h henabled hnext := h.next henabled.1 henabled.2 hnext

/-- What a mutex promises, in every reachable state of a system that uses one. -/
structure MutexSafe (S : System MutexState MutexAct Halt) : Prop where
  /-- At most one thread is between the exchange of its first acquire and the exchange of its
  final release. -/
  exclusion : ∀ s, S.Reachable s → ∀ t u, s.Holds t → s.Holds u → t = u
  /-- The holder is that thread, from `mutex->holder = current` to `mutex->holder = NULL`. -/
  holder : ∀ s, S.Reachable s → ∀ t, s.Holds t → s.pc t ≠ .acqHolder → s.pc t ≠ .relXchg →
    s.lock.holder = some t
  /-- `repeat` is the number of its unmatched acquires. -/
  repeat_eq : ∀ s, S.Reachable s → ∀ t, s.Holds t → s.lock.repeat.toNat = s.depth t
  /-- The assertions of `mutex_release` hold. -/
  asserts : ∀ s, S.Reachable s → ∀ a, S.enabled s a → S.next s a ≠ .error .assertFailed
  /-- A free mutex with a sleeping thread has a popped thread on its way to the exchange. -/
  wakeup : ∀ s, S.Reachable s → s.lock.isLock = false → s.lock.waitList ≠ [] →
    ∃ t, s.WillRetry t

/-- Exclusion, the bookkeeping of the holder, the assertions and the wake-ups, for any number
of threads, any interleaving and any nesting depth below `2 ^ 32`. -/
theorem shallowMutexSystem_safe : MutexSafe shallowMutexSystem where
  exclusion s hs t u ht hu := by
    obtain ⟨owner, howned⟩ := (shallowMutexSystem_inductive.reachable hs).owned
    have hsame := (MutexInvariant.Owned.eq_of_holds howned ht).symm.trans
      (MutexInvariant.Owned.eq_of_holds howned hu)
    exact Option.some.inj hsame
  holder s hs t ht hset hclear := by
    obtain ⟨owner, howned⟩ := (shallowMutexSystem_inductive.reachable hs).owned
    have hview := howned.view t (MutexInvariant.Owned.eq_of_holds howned ht)
    cases hpc : s.pc t <;> simp_all [OwnerView]
  repeat_eq s hs t ht := by
    obtain ⟨owner, howned⟩ := (shallowMutexSystem_inductive.reachable hs).owned
    obtain rfl := MutexInvariant.Owned.eq_of_holds howned ht
    exact howned.count
  asserts s hs a _ := by
    obtain ⟨s', hok⟩ := (shallowMutexSystem_inductive.reachable hs).next_ok (a := a)
    rw [show shallowMutexSystem.next s a = .ok s' from hok]
    intro herror
    cases herror
  wakeup s hs := (shallowMutexSystem_inductive.reachable hs).waiters.rescue

/-- The thread 0 is outside and has nested `n` acquires. -/
structure Nested (s : MutexState) (n : Nat) : Prop where
  reachable : mutexSystem.Reachable s
  outside : s.pc 0 = .outside
  running : s.blocked 0 = false
  depth : s.depth 0 = n
  repeat_eq : s.lock.repeat = UInt32.ofNat n
  owner : (n = 0 ∧ s.lock.isLock = false ∧ s.lock.holder = none) ∨ s.lock.holder = some 0

/-- The thread 0 goes on. -/
private theorem reachable_step {s : MutexState} (s' : MutexState)
    (hs : mutexSystem.Reachable s) (hpc : s.pc 0 ≠ .outside) (hrun : s.blocked 0 = false)
    (hstep : s.step 0 = .ok s') : mutexSystem.Reachable s' :=
  .step hs (show mutexSystem.enabled s (.step 0) from ⟨hpc, hrun⟩) hstep

/-- One more acquire, of the free mutex or of the mutex that the thread holds. -/
theorem Nested.acquire {s : MutexState} {n : Nat} (h : Nested s n) :
    ∃ s', Nested s' (n + 1) := by
  have hcall : mutexSystem.Reachable (s.goto 0 .acqCheck) :=
    .step h.reachable (show mutexSystem.enabled s (.acquire 0) from h.outside) rfl
  -- The free mutex is taken with an exchange, the own one is counted up.
  rcases h.owner with ⟨rfl, hfree, hnone⟩ | hholder
  · have htry := reachable_step (s.goto 0 (.acqTry false)) hcall
      (by simp [MutexState.goto]) h.running (by simp [MutexState.step, MutexState.goto, hnone])
    have htake := reachable_step ({ s.goto 0 .acqHolder with
        lock := { s.lock with isLock := true } }) htry
      (by simp [MutexState.goto]) h.running
      (by simp [MutexState.step, MutexState.goto, mutexTry, hfree])
    have hholder := reachable_step ({ s.goto 0 .acqOne with
        lock := { s.lock with isLock := true, holder := some 0 } }) htake
      (by simp [MutexState.goto]) h.running (by simp [MutexState.step, MutexState.goto])
    have hone := reachable_step ({ s.goto 0 .outside with
        lock := { s.lock with isLock := true, holder := some 0, «repeat» := 1 }
        depth := Function.update s.depth 0 1 }) hholder
      (by simp [MutexState.goto]) h.running
      (by simp [MutexState.step, MutexState.goto, h.depth])
    exact ⟨_, hone, by simp [MutexState.goto], h.running, by simp, rfl, .inr rfl⟩
  · have hcheck := reachable_step (s.goto 0 .acqRepeat) hcall
      (by simp [MutexState.goto]) h.running
      (by simp [MutexState.step, MutexState.goto, hholder])
    have hcount := reachable_step ({ s.goto 0 .outside with
        lock := { s.lock with «repeat» := s.lock.repeat + 1 }
        depth := Function.update s.depth 0 (s.depth 0 + 1) }) hcheck
      (by simp [MutexState.goto]) h.running (by simp [MutexState.step, MutexState.goto])
    refine ⟨_, hcount, by simp [MutexState.goto], h.running, ?_, ?_, .inr hholder⟩
    · simp [h.depth]
    · simp [h.repeat_eq, UInt32.ofNat_add]

/-- One thread can nest any number of acquires, and `repeat` counts them modulo `2 ^ 32`. -/
theorem exists_nested (n : Nat) : ∃ s, Nested s n := by
  induction n with
  | zero => exact ⟨_, .init rfl, rfl, rfl, rfl, rfl, .inl ⟨rfl, rfl, rfl⟩⟩
  | succ n ih =>
      obtain ⟨s, hs⟩ := ih
      exact hs.acquire

/-- Without the bound the promise is broken: after `2 ^ 32` nested acquires of one thread
`repeat` is zero. -/
theorem mutexSystem_not_safe : ¬MutexSafe mutexSystem := by
  intro hsafe
  obtain ⟨s, hs⟩ := exists_nested (2 ^ 32)
  have hcount := hsafe.repeat_eq s hs.reachable 0 (.inl (by rw [hs.depth]; decide))
  rw [hs.repeat_eq, hs.depth] at hcount
  revert hcount
  decide

end Fizzos.Proofs
