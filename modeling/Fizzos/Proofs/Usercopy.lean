import Fizzos.Proofs.ForkRuns
import Fizzos.User.Usercopy

/-!
# `Fizzos.Proofs.Usercopy`: who sees the stores of a system call

A user write reaches the memory of one process, since the entry of a shared frame is read-only. A
store of a system call passes a read-only entry, so the other users of the frame see the byte
(`usercopySystem_isolated_iff`).

After such a store the memory that each process would have without sharing is lost. `CowInv` uses
`eager` for this memory only, and no step reads it. So `CowInv` for some `eager` is an invariant
of all runs (`usercopySystem_inductive`).
-/

set_option autoImplicit false

namespace Fizzos.Proofs

open Fizzos.Kernel
open Fizzos.Support
open Fizzos.User

/-- The state with another memory for the machine that copies everything. -/
def withEager (s : CowState) (eager : Nat → Nat → Option (Nat → UInt8)) : CowState :=
  { s with eager }

/-- What a process reads. -/
def readOf (s : CowState) (q addr : Nat) : Option UInt8 := s.vm.userRead (s.dir q) addr

/-- The store of a system call does no harm: no other process maps the frame, or the byte is there
already. All other steps do none. -/
def Harmless (s : UsercopyState) : UsercopyAct → Prop
  | .cow _ => True
  | .call _ _ _ => True
  | .copyByte p byte => ∀ c ∈ s.copy p,
      (∀ q < s.cow.procs, q ≠ p → ∀ page < USER_PAGES,
        s.cow.frame (q, page) ≠ s.cow.frame (p, c.1 / PG_SIZE)) ∨
      readOf s.cow p c.1 = some byte

section
variable {totalMemSize : Nat} {s s' : CowState} {own : Pool → Multiset Nat}
  {eager : Nat → Nat → Option (Nat → UInt8)} {p q addr f : Nat}

/-! ### Steps of the processes -/

/-- No step reads `eager`, and a step changes it for one process only. -/
theorem next_withEager {a : CowAct} (hok : s.next a = .ok s')
    (eager : Nat → Nat → Option (Nat → UInt8)) :
    ∃ eager', (withEager s eager).next a = .ok (withEager s' eager') ∧ s.procs ≤ s'.procs ∧
      ∀ q < s.procs, cowProcess a ≠ some q → eager' q = eager q := by
  cases a with
  -- The child gets what the parent reads.
  | fork p current =>
      obtain ⟨⟨mm, vm⟩, hcopy, hret⟩ := bind_eq_ok.mp hok
      obtain rfl := Except.ok.inj hret
      refine ⟨Function.update eager s.procs (eager p), ?_, Nat.le_succ _, fun q hq _ =>
        Function.update_of_ne hq.ne _ _⟩
      rw [CowState.next, show (withEager s eager).vm = s.vm from rfl,
        show (withEager s eager).proc = s.proc from rfl, hcopy]
      rfl
  | write p addr byte =>
      obtain rfl := Except.ok.inj hok
      exact ⟨_, rfl, Nat.le_refl _, fun q _ hne =>
        Function.update_of_ne (fun heq => hne (congrArg some heq.symm)) _ _⟩
  | protectFault p addr current =>
      obtain ⟨vm, hfault, hret⟩ := bind_eq_ok.mp hok
      obtain rfl := Except.ok.inj hret
      refine ⟨eager, ?_, Nat.le_refl _, fun _ _ _ => rfl⟩
      rw [CowState.next, show (withEager s eager).vm = s.vm from rfl,
        show (withEager s eager).proc = s.proc from rfl, hfault]
      rfl
  | notPresent p addr current =>
      obtain ⟨⟨buf, vm⟩, halloc, hret⟩ := bind_eq_ok.mp hok
      obtain rfl := Except.ok.inj hret
      refine ⟨eager, ?_, Nat.le_refl _, fun _ _ _ => rfl⟩
      rw [CowState.next, show (withEager s eager).vm = s.vm from rfl,
        show (withEager s eager).proc = s.proc from rfl, halloc]
      rfl
  | mapped p fileRead =>
      obtain ⟨⟨addr, buf⟩, hderef, hok⟩ := bind_eq_ok.mp hok
      obtain ⟨vm, hmap, hret⟩ := bind_eq_ok.mp hok
      obtain rfl := Except.ok.inj hret
      -- A mapped page is read at once, so it is entered for `p`.
      refine ⟨((withEager s eager).setEager p (addr / PG_SIZE)
        (some ((Vm.pageContent (s.proc p).mm addr fileRead).getD fun _ => 0))).eager, ?_,
        Nat.le_refl _, fun q _ hne =>
          Function.update_of_ne (fun heq => hne (congrArg some heq.symm)) _ _⟩
      rw [CowState.next, show (withEager s eager).vm = s.vm from rfl,
        show (withEager s eager).proc = s.proc from rfl, hderef, ok_bind]
      dsimp only
      rw [hmap]
      rfl
  | pages a =>
      obtain ⟨t, hnext, hret⟩ := bind_eq_ok.mp hok
      obtain rfl := Except.ok.inj hret
      refine ⟨eager, ?_, Nat.le_refl _, fun _ _ _ => rfl⟩
      rw [CowState.next, show (withEager s eager).vm = s.vm from rfl,
        show (withEager s eager).others = s.others from rfl, hnext]
      rfl
  | store table user =>
      obtain rfl := Except.ok.inj hok
      exact ⟨eager, rfl, Nat.le_refl _, fun _ _ _ => rfl⟩

/-- A step of a process does not change what another process reads. -/
theorem CowInv.next_reads (h : CowInv totalMemSize (withEager s eager) own)
    (htotal : totalMemSize ≤ 2 ^ 30) {a : CowAct} (ha : s.Enabled a) (hok : s.next a = .ok s') :
    (∃ eager' own', CowInv totalMemSize (withEager s' eager') own') ∧
      ∀ q < s.procs, cowProcess a ≠ some q → ∀ addr < TASK_SIZE,
        readOf s' q addr = readOf s q addr := by
  obtain ⟨eager', hok', hprocs, hsame⟩ := next_withEager hok eager
  have ha' : (withEager s eager).Enabled a := by cases a <;> exact ha
  obtain ⟨own', h'⟩ := h.next htotal ha' hok'
  refine ⟨⟨eager', own', h'⟩, fun q hq hne addr haddr => ?_⟩
  have hread : readOf s q addr = _ := h.userRead hq haddr
  have hread' : readOf s' q addr = _ := h'.userRead (Nat.lt_of_lt_of_le hq hprocs) haddr
  rw [hread, hread']
  exact congrArg (fun e => (e (addr / PG_SIZE)).map fun content => content (addr % PG_SIZE))
    (hsame q hq hne)

/-! ### A store of a system call -/

/-- A store of one byte, whatever the entry permits: each process that maps the frame reads the
byte. -/
theorem CowInv.storeByte (h : CowInv totalMemSize (withEager s eager) own) (hp : p < s.procs)
    (haddr : addr < TASK_SIZE) (hf : s.frame (p, pageOf addr) = some f) {byte : UInt8}
    (hok : s.next (.write p addr byte) = .ok s') :
    (∃ eager', CowInv totalMemSize (withEager s' eager') own) ∧
      ∀ q < s.procs, ∀ a < TASK_SIZE, readOf s' q a =
        if s.frame (q, pageOf a) = some f ∧ a % PG_SIZE = addr % PG_SIZE then some byte
        else readOf s q a := by
  have hslot : (p, pageOf addr) ∈ s.slots := mem_slots.mpr ⟨hp, pageOf_lt haddr⟩
  obtain ⟨hvm, hprocs, hproc⟩ : s'.vm = s.vm.userWrite (s.dir p) addr byte ∧
      s'.procs = s.procs ∧ s'.proc = s.proc := by
    rw [← Except.ok.inj hok]
    exact ⟨rfl, rfl, rfl⟩
  rw [userWrite_eq hf] at hvm
  -- the page may be shared: what a process reads is what its frames hold
  let x := Function.update (s.vm.user (pageAddr f)) (addr % PG_SIZE) byte
  let eager' := fun q page => (sharing s.vm s.procs s.dir).view
    (Function.update (contentOf s.vm) f x) (q, page)
  have heager : ∀ slot ∈ s.slots, eager' slot.1 slot.2
      = (sharing s.vm s.procs s.dir).view (Function.update (contentOf s.vm) f x) slot :=
    fun _ _ => rfl
  have h' : CowInv totalMemSize (withEager s' eager') own := by
    obtain rfl := Except.ok.inj hok
    rw [userWrite_eq hf]
    exact h.setContent hslot hf x heager
  refine ⟨⟨eager', h'⟩, fun q hq a ha => ?_⟩
  have hread : readOf s q a = (s.frame (q, pageOf a)).map _ :=
    userRead_eq (h.spaces.space q hq) (pageOf_lt ha)
  have hread' : readOf s' q a = (s'.vm.frame (s'.dir q) (pageOf a)).map _ :=
    userRead_eq (h'.spaces.space q (hprocs.symm ▸ hq)) (pageOf_lt ha)
  have hdir : s'.dir q = s.dir q := by rw [CowState.dir, hproc, CowState.dir]
  rw [hread, hread', hdir, hvm]
  show (s.frame (q, pageOf a)).map _ = _
  cases hg : s.frame (q, pageOf a) with
  | none => simp
  | some g =>
      by_cases hgf : g = f
      · subst hgf
        by_cases hoff : a % PG_SIZE = addr % PG_SIZE
        · simp [hoff]
        · simp [hoff]
      · have hne : pageAddr g ≠ pageAddr f := fun heq => hgf (pageAddr_inj heq)
        simp [hgf, Function.update_of_ne hne]

end

/-! ### Runs -/

section
variable {totalMemSize : Nat} {s s' : UsercopyState}

/-- The byte of a copy goes to a frame of the process. -/
theorem exists_frame_of_enabled {p : Nat} {byte : UInt8} (ha : s.Enabled (.copyByte p byte)) :
    ∃ dest n f, s.copy p = some (dest, n) ∧ p < s.cow.procs ∧ dest < TASK_SIZE ∧
      s.cow.frame (p, pageOf dest) = some f := by
  obtain ⟨⟨hp, -⟩, ⟨dest, n⟩, hcopy, hdest, hpermits⟩ := ha
  rw [supervisorPermits_loader] at hpermits
  obtain ⟨f, hf⟩ : ∃ f, s.cow.frame (p, pageOf dest) = some f := by
    by_contra hnone
    rw [walk_of_none (Option.eq_none_iff_forall_ne_some.mpr fun f hf => hnone ⟨f, hf⟩)] at hpermits
    cases hpermits
  exact ⟨dest, n, f, hcopy, hp, hdest, hf⟩

/-- One step, by the kind of action. -/
theorem usercopy_step (htotal : totalMemSize ≤ 2 ^ 30)
    {eager : Nat → Nat → Option (Nat → UInt8)} {own : Pool → Multiset Nat}
    (h : CowInv totalMemSize (withEager s.cow eager) own) {a : UsercopyAct} (ha : s.Enabled a)
    (hok : s.next a = .ok s') :
    (∃ eager' own', CowInv totalMemSize (withEager s'.cow eager') own') ∧
      ((∀ q < s.cow.procs, a.process ≠ some q → ∀ addr < TASK_SIZE,
        readOf s'.cow q addr = readOf s.cow q addr) ↔ Harmless s a) := by
  cases a with
  | cow a =>
      obtain ⟨cow, hnext, hret⟩ := bind_eq_ok.mp hok
      obtain rfl := Except.ok.inj hret
      obtain ⟨hinv, hreads⟩ := h.next_reads htotal ha.1 hnext
      exact ⟨hinv, iff_of_true hreads trivial⟩
  | call p dest n =>
      obtain rfl := Except.ok.inj hok
      exact ⟨⟨eager, own, h⟩, iff_of_true (fun _ _ _ _ _ => rfl) trivial⟩
  | copyByte p byte =>
      obtain ⟨dest, n, f, hcopy, hp, hdest, hf⟩ := exists_frame_of_enabled ha
      obtain ⟨⟨dest', n'⟩, hderef, hok⟩ := bind_eq_ok.mp hok
      obtain ⟨cow, hnext, hret⟩ := bind_eq_ok.mp hok
      obtain rfl := Except.ok.inj hret
      obtain ⟨rfl, rfl⟩ : dest = dest' ∧ n = n' := by simpa [hcopy, deref] using hderef
      obtain ⟨⟨eager', h'⟩, hreads⟩ := h.storeByte hp hdest hf hnext
      refine ⟨⟨eager', own, h'⟩, ?_⟩
      have hself : readOf s.cow p dest = (s.cow.frame (p, pageOf dest)).map _ :=
        userRead_eq (h.spaces.space p hp) (pageOf_lt hdest)
      rw [hf, Option.map_some] at hself
      constructor
      · intro hsame c hc
        obtain rfl : (dest, n) = c := Option.some.inj (hcopy.symm.trans hc)
        refine or_iff_not_imp_left.mpr fun hshared => ?_
        push Not at hshared
        obtain ⟨q, hq, hqp, page, hpage, hframe⟩ := hshared
        have hframe' : s.cow.frame (q, page) = some f := hframe.trans hf
        -- the other process reads the same frame at this offset
        have hdiv : pageOf (page * PG_SIZE + dest % PG_SIZE) = page := by
          simp only [pageOf, PG_SIZE]
          omega
        have hmod : (page * PG_SIZE + dest % PG_SIZE) % PG_SIZE = dest % PG_SIZE := by
          simp only [PG_SIZE]
          omega
        have hlt : page * PG_SIZE + dest % PG_SIZE < TASK_SIZE := by
          simp only [PG_SIZE, TASK_SIZE, USER_PAGES] at hpage ⊢
          omega
        have hother := hreads q hq _ hlt
        rw [hdiv, hmod, if_pos ⟨hframe', rfl⟩] at hother
        have hne : (UsercopyAct.copyByte p byte).process ≠ some q := fun heq =>
          hqp (Option.some.inj heq).symm
        have hold : readOf s.cow q (page * PG_SIZE + dest % PG_SIZE)
            = (s.cow.frame (q, pageOf (page * PG_SIZE + dest % PG_SIZE))).map _ :=
          userRead_eq (h.spaces.space q hq) (pageOf_lt hlt)
        rw [hdiv, hframe', Option.map_some, hmod] at hold
        rw [hself, ← hold, ← hsame q hq hne _ hlt]
        exact hother
      · intro hharm q hq hne a hlt
        have hqp : q ≠ p := fun heq => hne (congrArg some heq.symm)
        refine (hreads q hq a hlt).trans ?_
        split
        next hsee =>
          rcases hharm _ hcopy with hprivate | hbyte
          · exact absurd (hsee.1.trans hf.symm) (hprivate q hq hqp _ (pageOf_lt hlt))
          · have hold : readOf s.cow q a = (s.cow.frame (q, pageOf a)).map _ :=
              userRead_eq (h.spaces.space q hq) (pageOf_lt hlt)
            rw [hsee.1, Option.map_some, hsee.2] at hold
            rw [hold, ← hself]
            exact hbyte.symm
        next => rfl

theorem usercopySystem_inductive (htotal : totalMemSize ≤ 2 ^ 30) :
    (usercopySystem totalMemSize).Inductive fun s =>
      ∃ eager own, CowInv totalMemSize (withEager s.cow eager) own where
  init hinit := ⟨_, cowInv_init hinit.1⟩
  step h ha hok := by
    obtain ⟨eager, own, h⟩ := h
    exact (usercopy_step htotal h ha hok).1

/-- In every run of forks, user accesses, page faults and system calls that store into the memory
of their callers: a step leaves what all other processes read as it is exactly when it is no store
of a system call, or its frame is not mapped by another process, or the byte is there already. -/
theorem usercopySystem_isolated_iff (hs : (usercopySystem totalMemSize).Reachable s)
    {a : UsercopyAct} (ha : s.Enabled a) (hok : s.next a = .ok s') :
    (∀ q < s.cow.procs, a.process ≠ some q → ∀ addr < TASK_SIZE,
      readOf s'.cow q addr = readOf s.cow q addr) ↔ Harmless s a := by
  obtain ⟨s₀, hinit⟩ := hs.exists_init
  have htotal : totalMemSize ≤ 2 ^ 30 := hinit.1.size.2
  obtain ⟨eager, own, h⟩ := (usercopySystem_inductive htotal).reachable hs
  exact (usercopy_step htotal h ha hok).2

end

/-! ### A call after a fork -/

/-- Without calls the system is the one of the processes. -/
theorem usercopySystem_of_cow {totalMemSize : Nat} {s : CowState}
    (hs : (cowSystem totalMemSize).Reachable s) :
    (usercopySystem totalMemSize).Reachable ⟨s, fun _ => none⟩ := by
  induction hs with
  | init hinit => exact .init ⟨hinit, rfl⟩
  | @step s s' a _ ha hok ih =>
      have hallows : UsercopyState.Allows ⟨s, fun _ => none⟩ a := by
        cases a <;> simp [UsercopyState.Allows]
      refine ih.step (a := .cow a) ⟨ha, hallows⟩ ?_
      show (s.next a >>= _) = _
      rw [show s.next a = .ok s' from hok]
      rfl

/-- Parent and child share a frame with a zero, and a call of the parent stores one byte there. -/
theorem exists_copyByte_64M : ∃ s f, (usercopySystem 0x4000000).Reachable s ∧
    s.cow.procs = 2 ∧ s.copy 0 = some (0x08048000, 1) ∧ (∀ byte, s.Enabled (.copyByte 0 byte)) ∧
    (∀ q < 2, s.cow.frame (q, pageOf 0x08048000) = some f) ∧
    ∀ q < 2, readOf s.cow q 0x08048000 = some 0 := by
  obtain ⟨s, f, h⟩ := exists_sharers 1 (by decide)
  obtain ⟨own, hinv⟩ := exists_cowInv h.reachable
  have haddr : 0x08048000 < TASK_SIZE := by decide
  have hframes : ∀ q < 2, s.frame (q, pageOf 0x08048000) = some f := fun q hq =>
    (h.frame q hq _ (pageOf_lt haddr)).trans (if_pos (by decide))
  have hzero : ∀ q < 2, readOf s q 0x08048000 = some 0 := by
    intro q hq
    have hread : readOf s q 0x08048000 = _ := hinv.userRead (by rw [h.procs]; exact hq) haddr
    rw [hread, show 0x08048000 / PG_SIZE = FIRST_PAGE from rfl, h.eager q hq]
    rfl
  have hruns : s.Runs 0 := ⟨by rw [h.procs]; decide, h.runs 0 (by decide)⟩
  have hcopy : (UsercopyState.setCopy ⟨s, fun _ => none⟩ 0 0x08048000 1).copy 0
      = some (0x08048000, 1) := by
    simp [UsercopyState.setCopy]
  refine ⟨UsercopyState.setCopy ⟨s, fun _ => none⟩ 0 0x08048000 1, f,
    (usercopySystem_of_cow h.reachable).step
    (a := .call 0 0x08048000 1) ⟨hruns, rfl, by decide⟩ rfl,
    h.procs, hcopy, fun _ => ⟨hruns, _, hcopy, haddr, ?_⟩, hframes, hzero⟩
  rw [supervisorPermits_loader]
  show (s.vm.walk (s.dir 0) 0x08048000).isSome
  rw [walk_of_frame (hframes 0 (by decide))]
  rfl

/-- The byte that is there already changes nothing for the child. -/
theorem usercopySystem_isolated_iff_64M : ∃ s s', (usercopySystem 0x4000000).Reachable s ∧
    s.next (.copyByte 0 0) = .ok s' ∧
    readOf s'.cow 1 0x08048000 = readOf s.cow 1 0x08048000 := by
  obtain ⟨s, f, hs, hprocs, hcopy, ha, -, hzero⟩ := exists_copyByte_64M
  obtain ⟨s', hok⟩ : ∃ s', s.next (.copyByte 0 0) = .ok s' := by
    rw [UsercopyState.next, hcopy]
    exact ⟨_, rfl⟩
  have hharm : Harmless s (.copyByte 0 0) := by
    intro c hc
    obtain rfl : (0x08048000, 1) = c := Option.some.inj (hcopy.symm.trans hc)
    exact .inr (hzero 0 (by decide))
  refine ⟨s, s', hs, hok, ?_⟩
  exact (usercopySystem_isolated_iff hs (ha 0) hok).mpr hharm 1 (by omega) (by decide) _ (by decide)

/-- The parent stores into its buffer, and the child reads the byte. `memcpy` runs in the kernel,
where the read-only entry that `fork` has left stops no store. -/
theorem copyByte_reaches_child : ∃ s s', (usercopySystem 0x4000000).Reachable s ∧
    s.Enabled (.copyByte 0 1) ∧ s.next (.copyByte 0 1) = .ok s' ∧ 1 < s.cow.procs ∧
    readOf s.cow 1 0x08048000 = some 0 ∧ readOf s'.cow 1 0x08048000 = some 1 := by
  obtain ⟨s, f, hs, hprocs, hcopy, ha, hframes, hzero⟩ := exists_copyByte_64M
  obtain ⟨eager, own, h⟩ := (usercopySystem_inductive (by decide)).reachable hs
  obtain ⟨cow, hnext⟩ : ∃ cow, s.cow.next (.write 0 0x08048000 1) = .ok cow := ⟨_, rfl⟩
  obtain ⟨-, hreads⟩ := h.storeByte (by omega) (by decide) (hframes 0 (by decide)) hnext
  refine ⟨s, { s.setCopy 0 0x08048001 0 with cow }, hs, ha 1, ?_, by omega, hzero 1 (by decide), ?_⟩
  · rw [UsercopyState.next, hcopy]
    simp only [deref_some, ok_bind, hnext]
    rfl
  · refine (hreads 1 (by omega) _ (by decide)).trans ?_
    rw [if_pos ⟨hframes 1 (by decide), rfl⟩]

end Fizzos.Proofs
