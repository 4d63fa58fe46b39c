import Fizzos.Proofs.Trap
import Fizzos.User.Process

/-!
# `Fizzos.Proofs.Process`: a program traps to its own kernel stack

`cr3` always has the directory of the current task. `esp0` has the end of its page as soon as the
task can go to user mode (`ProcInv`). So a trap of a program finds the words of the right task, and
`get_current` in the handler is the task that was interrupted (`process_active`).
-/

set_option autoImplicit false

namespace Fizzos.Proofs

open Fizzos.Kernel
open Fizzos.Support
open Fizzos.Support.X86
open Fizzos.User

/-- What `process_activate` loads into `cr3`. -/
def dirOf (pgDir : Option Dword) : Dword :=
  match pgDir with
  | none => 0x100000
  | some d => paddr d

/-- The processor has the directory of the current task, and its stack if the task has a frame. -/
structure ProcInv (s : ProcState) : Prop where
  page : ∀ t, s.task t ≠ none → ProcState.IsPage t
  alive : s.task s.current ≠ none
  cr3 : s.cr3 = dirOf (s.pgDir s.current)
  mm : ∀ t, s.hasFrame t = true → (s.pgDir t).isSome
  esp0 : s.hasFrame s.current = true → s.esp0 = stackTop s.current
  user : s.user = true → s.hasFrame s.current = true

section
variable {s s' : ProcState} {t n : Dword}

/-- `update_esp0` puts the end of the page of the task into the task state segment. -/
theorem updateEsp0_page (h : ProcState.IsPage t) : (s.updateEsp0 t).esp0 = stackTop t := by
  have hpage : t &&& 0xfffff000 = t := by
    apply BitVec.eq_of_toNat_eq
    rw [page_toNat]
    exact Nat.div_mul_cancel (Nat.dvd_of_mod_eq_zero (aligned_toNat h))
  show (t &&& 0xfffff000) + _ = _
  rw [hpage]
  rfl

/-- What `process_activate` leaves. -/
theorem processActivate_spec (s : ProcState) (h : ProcState.IsPage t) :
    (s.processActivate t).task = s.task ∧ (s.processActivate t).user = s.user ∧
      (s.processActivate t).cr3 = dirOf (s.pgDir t) ∧
      ((s.pgDir t).isSome → (s.processActivate t).esp0 = stackTop t) := by
  unfold ProcState.processActivate
  have hdir : (s.pageDirActivate t).pgDir t = s.pgDir t := rfl
  by_cases hmm : (s.pgDir t).isSome
  · simp only [hdir, if_pos hmm]
    exact ⟨rfl, rfl, rfl, fun _ => updateEsp0_page h⟩
  · simp only [hdir, if_neg hmm]
    exact ⟨rfl, rfl, rfl, fun hsome => absurd hsome hmm⟩

namespace ProcInv

/-- A switch to a task, when the tasks are in order. -/
theorem schedule (hpage : ∀ t, s.task t ≠ none → ProcState.IsPage t)
    (hmm : ∀ t, s.hasFrame t = true → (s.pgDir t).isSome) (huser : s.user = false)
    (hn : s.task n ≠ none) : ProcInv (s.schedule n) := by
  obtain ⟨htask, huser', hcr3, hesp0⟩ := processActivate_spec s (hpage n hn)
  have hframe (t : Dword) : (s.schedule n).hasFrame t = s.hasFrame t := by
    show ((s.processActivate n).task t).any _ = _
    rw [htask]
    rfl
  have hdir (t : Dword) : (s.schedule n).pgDir t = s.pgDir t := by
    show ((s.processActivate n).task t).bind _ = _
    rw [htask]
    rfl
  refine ⟨fun t ht => hpage t ?_, ?_, ?_, fun t ht => ?_, fun ht => ?_, fun h => ?_⟩
  · exact fun h => ht ((congrFun htask t).trans h)
  · exact fun h => hn ((congrFun htask n).symm.trans h)
  · rw [hdir]
    exact hcr3
  · rw [hdir]
    rw [hframe] at ht
    exact hmm t ht
  · rw [hframe] at ht
    exact hesp0 (hmm n ht)
  · exact absurd (huser'.symm.trans h) (by rw [huser]; decide)

/-- The tasks stay in order when one of them changes. -/
theorem update_page (h : ProcInv s) {x : Option TaskMm}
    (htask : s'.task = Function.update s.task t x)
    (ht : x ≠ none → ProcState.IsPage t) : ∀ u, s'.task u ≠ none → ProcState.IsPage u := by
  intro u hu
  rw [htask] at hu
  by_cases heq : u = t
  · subst heq
    rw [Function.update_self] at hu
    exact ht hu
  · rw [Function.update_of_ne heq] at hu
    exact h.page u hu

/-- A task with a page directory keeps it while it has the frame of a program on its stack. -/
theorem update_mm (h : ProcInv s) {x : Option TaskMm} (htask : s'.task = Function.update s.task t x)
    (hx : x.any TaskMm.frame = true → (x.bind TaskMm.pgDir).isSome) :
    ∀ u, s'.hasFrame u = true → (s'.pgDir u).isSome := by
  intro u hu
  rw [ProcState.hasFrame, htask] at hu
  rw [ProcState.pgDir, htask]
  by_cases heq : u = t
  · subst heq
    rw [Function.update_self] at hu ⊢
    exact hx hu
  · rw [Function.update_of_ne heq] at hu ⊢
    exact h.mm u hu

/-- What `init_proc` leaves behind `do_exec`. -/
theorem initProc_spec (hok : s.next .initProc = .ok s') :
    s'.task = Function.update s.task s.current (some ⟨s.pgDir s.current, true⟩) ∧
      s'.current = s.current ∧ s'.user = s.user ∧ s'.cr3 = dirOf (s.pgDir s.current) ∧
      s'.esp0 = (s.updateEsp0 s.current).esp0 := by
  have hcr3 : ((s.updateEsp0 s.current).pageDirActivate s.current).cr3
      = dirOf (s.pgDir s.current) := by
    rw [ProcState.pageDirActivate, ProcState.updateEsp0_pgDir]
    rfl
  obtain rfl := Except.ok.inj hok
  refine ⟨?_, ?_, ?_, hcr3, ?_⟩
  · simp [ProcState.setTask]
  · simp [ProcState.setTask]
  · simp [ProcState.setTask]
  · simp [ProcState.setTask]

/-- Each action keeps the invariant: the switch of the page directory is part of every switch to
another task. -/
theorem next (h : ProcInv s) {a : ProcAct} (ha : s.Enabled a) (hok : s.next a = .ok s') :
    ProcInv s' := by
  cases a with
  | trap =>
      obtain rfl := Except.ok.inj hok
      exact ⟨h.page, h.alive, h.cr3, h.mm, h.esp0, fun hx => absurd hx Bool.false_ne_true⟩
  | iret =>
      obtain rfl := Except.ok.inj hok
      exact ⟨h.page, h.alive, h.cr3, h.mm, h.esp0, fun _ => ha.2⟩
  | schedule n =>
      obtain rfl := Except.ok.inj hok
      exact .schedule h.page h.mm ha.1 ha.2
  | kthreadCreate t =>
      obtain rfl := Except.ok.inj hok
      obtain ⟨huser, hfree, ht⟩ := ha
      -- the new task has another page than the current one
      have hne : s.current ≠ t := fun heq => h.alive (heq ▸ hfree)
      have htask : (s.setTask t (some ⟨none, false⟩)).task s.current = s.task s.current := by
        simp [ProcState.setTask, hne]
      refine ⟨h.update_page rfl fun _ => ht, ?_, ?_, h.update_mm rfl (by simp), ?_, ?_⟩
      · exact fun hx => h.alive (htask.symm.trans hx)
      · exact h.cr3.trans (congrArg (fun x => dirOf (Option.bind x TaskMm.pgDir)) htask.symm)
      · exact fun hx => h.esp0 ((congrArg (Option.any TaskMm.frame) htask).symm.trans hx)
      · exact fun hx => absurd (huser.symm.trans hx) (by decide)
  | doFork t pgDir =>
      obtain rfl := Except.ok.inj hok
      obtain ⟨huser, hfree, ht, hframe⟩ := ha
      refine .schedule (h.update_page rfl fun _ => ht) (h.update_mm rfl fun _ => rfl) huser ?_
      simp [ProcState.setTask]
  | doExec pgDir =>
      obtain rfl := Except.ok.inj hok
      have htask : (s.setTask s.current (some ⟨some pgDir, false⟩)).task s.current =
          some ⟨some pgDir, false⟩ := by simp [ProcState.setTask]
      refine ⟨h.update_page rfl fun _ => h.page _ h.alive, ?_, ?_,
        h.update_mm rfl (by simp), ?_, ?_⟩
      · exact fun hx => absurd (htask.symm.trans hx) (by simp)
      · exact (congrArg (fun x => dirOf (Option.bind x TaskMm.pgDir)) htask).symm
      · exact fun hx => absurd ((congrArg (Option.any TaskMm.frame) htask).symm.trans hx) (by simp)
      · exact fun hx => absurd (ha.1.symm.trans hx) (by decide)
  | initProc =>
      obtain ⟨htask, hcur, huser, hcr3, hesp0⟩ := initProc_spec hok
      have hself : s'.task s.current = some ⟨s.pgDir s.current, true⟩ := by
        rw [htask, Function.update_self]
      have hmm : (s.pgDir s.current).isSome := Option.isSome_iff_ne_none.mpr ha.2
      refine ⟨h.update_page htask fun _ => h.page _ h.alive, ?_, ?_,
        h.update_mm htask fun _ => hmm, ?_, ?_⟩
      · rw [hcur, hself]
        exact Option.some_ne_none _
      · have hdir : s'.pgDir s.current = s.pgDir s.current := by
          rw [ProcState.pgDir, hself]
          rfl
        rw [hcr3, hcur, hdir]
      · intro _
        rw [hesp0, hcur]
        exact updateEsp0_page (h.page _ h.alive)
      · exact fun hx => absurd ((huser.trans ha.1).symm.trans hx) (by decide)
  | sysExit n =>
      obtain rfl := Except.ok.inj hok
      obtain ⟨huser, hne, hn⟩ := ha
      refine .schedule (h.update_page rfl fun hx =>
        absurd rfl hx) (h.update_mm rfl (by simp)) huser ?_
      simpa [ProcState.setTask, hne] using hn

/-- The invariant holds behind `init_all`, when the first task runs. -/
theorem start (h : s.Start) : ProcInv s where
  page t ht := by
    obtain ⟨x, hx⟩ := Option.ne_none_iff_exists'.mp ht
    exact (h.tasks t x hx).1
  alive := h.current
  cr3 := by
    obtain ⟨x, hx⟩ := Option.ne_none_iff_exists'.mp h.current
    obtain rfl := (h.tasks _ x hx).2
    rw [ProcState.pgDir, hx]
    exact h.cr3
  mm t ht := by
    have hsome : s.task t ≠ none := fun hnone => by simp [ProcState.hasFrame, hnone] at ht
    obtain ⟨x, hx⟩ := Option.ne_none_iff_exists'.mp hsome
    obtain rfl := (h.tasks t x hx).2
    simp [ProcState.hasFrame, hx] at ht
  esp0 ht := by
    obtain ⟨x, hx⟩ := Option.ne_none_iff_exists'.mp h.current
    obtain rfl := (h.tasks _ x hx).2
    simp [ProcState.hasFrame, hx] at ht
  user hx := absurd (h.user.symm.trans hx) (by decide)

end ProcInv

/-- So it holds in every run. -/
theorem procInv_inductive : procSystem.Inductive ProcInv where
  init h := ProcInv.start h
  step h ha hok := h.next ha hok

/-! ### Traps of programs -/

/-- A trap of a program pushes its words at the end of the page of the current task. -/
theorem ProcInv.trapped (h : ProcInv s) (huser : s.user = true) {c : Cpu} {g : Cpu.Gate}
    (hcs : Cpu.rpl c.cs ≠ 0) (hg : g.esp0 = s.esp0) (error : Option Dword) :
    getCurrent (c.deliver g error) = s.current := by
  have htop : trapTop g c = stackTop s.current := by
    rw [trapTop, if_neg hcs, hg]
    exact h.esp0 (h.user huser)
  have hstack := (deliver_trapped c g error).stack
  rw [htop] at hstack
  have hlen := deliver_length c.toCore error
  refine getCurrent_eq (h.page _ h.alive) hstack ?_ (hlen.trans (by decide))
  simp only [hardwareFrame, List.length_append, List.length_cons]
  omega

/-- In every run of tasks that come, fork, become programs, trap and exit, `cr3` has the directory
of the current task. While a program runs, its directory is its own, `esp0` is the end of its page,
and the handler of any trap finds it with `get_current`. -/
theorem process_active (hs : procSystem.Reachable s) :
    s.cr3 = dirOf (s.pgDir s.current) ∧
      (s.user = true → (∃ d, s.pgDir s.current = some d ∧ s.cr3 = paddr d) ∧
        s.esp0 = stackTop s.current ∧
        ∀ (c : Cpu) (g : Cpu.Gate) (error : Option Dword), Cpu.rpl c.cs ≠ 0 → g.esp0 = s.esp0 →
          getCurrent (c.deliver g error) = s.current) := by
  have h := procInv_inductive.reachable hs
  refine ⟨h.cr3, fun huser => ⟨?_, h.esp0 (h.user huser), fun c g error hcs hg => ?_⟩⟩
  · obtain ⟨d, hd⟩ := Option.isSome_iff_exists.mp (h.mm _ (h.user huser))
    exact ⟨d, hd, by rw [h.cr3, hd]; rfl⟩
  · exact h.trapped huser hcs hg error

end

/-- The main task starts, and the others come later. -/
private def mainOnly : ProcState where
  current := 0xc009e000
  task t := if t = 0xc009e000 then some ⟨none, false⟩ else none
  user := false
  cr3 := 0x100000
  esp0 := 0

/-- The init process: a thread that executes a program, is interrupted on the way, and goes to
it. -/
private def initRun : List ProcAct :=
  [.kthreadCreate 0xc0a00000, .schedule 0xc0a00000, .doExec 0xc0b00000, .schedule 0xc009e000,
    .schedule 0xc0a00000, .initProc, .iret]

/-- The state when the first program runs. -/
private abbrev inInit : ProcState := initRun.foldl procSystem.after mainOnly

/-- The first program runs with its own page directory, and an interrupt comes to the end of the
page of its task. -/
theorem process_active_init : inInit.cr3 = 0xb00000 ∧ inInit.esp0 = 0xc0a01000 ∧
    ∀ (c : Cpu) (g : Cpu.Gate) (error : Option Dword), Cpu.rpl c.cs ≠ 0 → g.esp0 = 0xc0a01000 →
      getCurrent (c.deliver g error) = 0xc0a00000 := by
  have hstart : mainOnly.Start := by
    refine ⟨rfl, rfl, by decide +kernel, fun t x h => ?_⟩
    simp only [mainOnly] at h
    split at h
    · next heq => exact ⟨heq ▸ by decide +kernel, (Option.some.inj h).symm⟩
    · exact absurd h (by simp)
  have hreach : procSystem.Reachable inInit :=
    (System.Reachable.init hstart).runs (by decide +kernel)
  obtain ⟨hcr3, huser⟩ := process_active hreach
  obtain ⟨-, hesp0, htrap⟩ := huser (by decide +kernel)
  have hcur : inInit.current = 0xc0a00000 := by decide +kernel
  have htop : inInit.esp0 = 0xc0a01000 := hesp0.trans (by rw [hcur]; decide +kernel)
  refine ⟨hcr3.trans (by decide +kernel), htop, fun c g error hcs hg => ?_⟩
  exact (htrap c g error hcs (hg.trans htop.symm)).trans hcur

end Fizzos.Proofs
