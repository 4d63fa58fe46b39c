import Fizzos.Kernel.Fork
import Fizzos.Proofs.BitmapIds
import Fizzos.Proofs.CowSystem
import Fizzos.Proofs.Sched

/-!
# `Fizzos.Proofs.ForkPid`: what `do_fork` returns in the parent

`do_fork` reads `new->pid` behind `schedule`. While the child is a task, nobody else has its page,
and only `do_fork` has stored its pid. When the child has exited, the page is free, and the next
`get_free_page` may return it. `LeavesPids` says that nothing stores another value in the field
then. It is exactly what `do_fork` needs (`fork_returns_pid`).
-/

set_option autoImplicit false

namespace Fizzos.Proofs

open Fizzos.Kernel
open Fizzos.LibKernel
open Fizzos.Support

/-- What an action stores in the field `pid` of the page `t`. -/
def StoresPid (s : ForkState) (t : Tid) (pid : Nat) : ForkAct → Prop
  | .kthreadCreate _ _ | .doFork =>
      (∃ b, s.buddy.getFreePage KERNEL_POOL s.sched.current = .ok (t, b)) ∧
        ∃ bmap, s.allocPid = .ok (pid, bmap)
  | .write idx v => t = pageAddr idx ∧ pid = v
  | _ => False

/-- While a task is in `do_fork` and its child has exited, the pid in the page of the child
stays. -/
def LeavesPids (s : ForkState) (a : ForkAct) : Prop :=
  ∀ u call, s.fork u = some call → ¬s.IsTask call.new →
    ∀ pid, StoresPid s call.new pid a → pid = call.pid

/-- Every call of `do_fork` would return the pid of its child now. -/
def ForksRight (s : ForkState) : Prop :=
  ∀ u call, s.fork u = some call → s.pid call.new = call.pid

/-- The invariant of a run. The pages of the tasks are out, with one reference. -/
structure ForkInv (totalMemSize : Nat) (s : ForkState) : Prop where
  owns : Owns totalMemSize s.buddy s.others (taskPages s.tasks)
  count : ∀ idx ∈ s.tasks, (s.buddy.page idx).count = 1

/-- What an action does to the pids and to the calls of `do_fork`. -/
structure ForkStep (totalMemSize : Nat) (s : ForkState) (a : ForkAct) (s' : ForkState) : Prop where
  inv : ForkInv totalMemSize s'
  stores : ∀ t pid, StoresPid s t pid a → ¬s.IsTask t ∧ s'.pid t = pid ∧
    ∀ u call, s.fork u = some call → s'.fork u = some call
  same : ∀ t, (∀ pid, ¬StoresPid s t pid a) → s'.pid t = s.pid t
  fork : ∀ u call, s'.fork u = some call → s'.pid call.new = call.pid ∨
    ∃ before, s.fork u = some before ∧ before.new = call.new ∧ before.pid = call.pid

section
variable {totalMemSize : Nat} {s s' : ForkState} {t : Tid} {pid idx : Nat} {P : Pool}

/-- The call that a task is in is its own. -/
theorem setFork_self (call : Option ForkCall) : (s.setFork t call).fork t = call :=
  Function.update_self _ _ _

/-- The calls of the other tasks stay as they are. -/
theorem setFork_of_ne {u : Tid} (hne : u ≠ t) (call : Option ForkCall) :
    (s.setFork t call).fork u = s.fork u := Function.update_of_ne hne _ _

/-! ### The pages of the tasks -/

/-- The pages of the tasks are pages of the kernel pool. -/
theorem mem_taskPages {tasks : Multiset Nat} : idx ∈ taskPages tasks .kernel ↔ idx ∈ tasks := by
  rw [taskPages, Function.update_self]

/-- A new task has one page more. -/
theorem taskPages_cons (tasks : Multiset Nat) (idx : Nat) :
    taskPages (idx ::ₘ tasks) = addPage (taskPages tasks) .kernel idx := by
  rw [addPage, taskPages, taskPages, Function.update_self, Function.update_idem]

/-- The state of the page allocator, as its callers know it. -/
theorem ForkInv.run (h : ForkInv totalMemSize s) :
    ∃ fr, RunInv totalMemSize s.buddy (s.others + pageBlock (taskPages s.tasks)) fr := h.owns

/-- The allocator knows the page of each task as a block of one page. -/
theorem mem_taskBlocks {tasks : Multiset Nat} (hidx : idx ∈ tasks) :
    ⟨idx, 0⟩ ∈ pageBlock (taskPages tasks) .kernel :=
  mem_pageBlock (mem_taskPages.mpr hidx)

/-- A new page is the page of no task. -/
theorem ForkInv.newPage (h : ForkInv totalMemSize s) (htotal : totalMemSize ≤ 2 ^ 30) {b : Buddy}
    {current : Tid} (hok : s.buddy.getFreePage KERNEL_POOL current = .ok (t, b)) :
    ∃ idx, t = pageAddr idx ∧ ¬s.IsTask t ∧
    Owns totalMemSize b s.others (taskPages (idx ::ₘ s.tasks)) ∧
      ∀ i ∈ idx ::ₘ s.tasks, (b.page i).count = 1 := by
  obtain ⟨idx, rfl, -, hnew, howns, hpage⟩ := h.owns.getFreePage htotal hok
  refine ⟨idx, rfl, ?_, ?_, fun i hi => ?_⟩
  · rintro ⟨i, hi, heq⟩
    rw [← pageAddr_inj heq] at hi
    exact hnew .kernel (mem_taskPages.mpr hi)
  · rw [taskPages_cons]
    exact howns
  · rw [hpage]
    by_cases heq : i = idx
    · rw [heq, Function.update_self]
    · rw [Function.update_of_ne heq]
      exact h.count i ((Multiset.mem_cons.mp hi).resolve_left heq)

/-- `free_page` gives back the page of a task. -/
theorem ForkInv.freePage (h : ForkInv totalMemSize s) (htotal : totalMemSize ≤ 2 ^ 30)
    (hidx : idx ∈ s.tasks) {b : Buddy} {current : Tid}
    (hok : s.buddy.freePageAt (pageAddr idx) current = .ok b) :
    Owns totalMemSize b s.others (taskPages (s.tasks.erase idx)) ∧
      ∀ i ∈ s.tasks.erase idx, (b.page i).count = 1 := by
  obtain ⟨fr, hrun⟩ := h.run
  have hlt : totalMemSize < 2 ^ 32 := by omega
  have hbase := pageBase_pageAddr (h.owns.lt_maxPages htotal (mem_taskPages.mpr hidx))
  have hout : s.others + pageBlock (taskPages s.tasks)
      = BuddyInv.hold (s.others + pageBlock (taskPages (s.tasks.erase idx))) .kernel ⟨idx, 0⟩ := by
    rw [← Multiset.cons_erase hidx, taskPages_cons, pageBlock_addPage,
      Multiset.cons_erase hidx, add_comm,
      BuddyInv.hold_add, add_comm]
  rw [hout] at hrun
  have hback : paddr2pg (getPaddr (pageAddr idx)) = idx := paddr2pg_pageAddr idx
  have hlast : RunInv totalMemSize s.buddy
      (BuddyInv.hold (s.others + pageBlock (taskPages (s.tasks.erase idx))) .kernel
        ⟨paddr2pg (getPaddr (pageAddr idx)), 0⟩) fr := by
    rw [hback]
    exact hrun
  obtain ⟨b', fr', hok', hrun', hpage⟩ :=
    hlast.freePageAt_last htotal hbase (by rw [hback]; exact h.count idx hidx) current
  obtain rfl : b' = b := Except.ok.inj (hok'.symm.trans hok)
  refine ⟨⟨fr', hrun'⟩, fun i hi => ?_⟩
  -- the other tasks have other pages
  have hmem : ⟨i, 0⟩ ∈ (s.others + pageBlock (taskPages (s.tasks.erase idx))) .kernel :=
    Multiset.mem_add.mpr (.inr (mem_taskBlocks hi))
  have hne : i ≠ idx := hrun.buddy.idx_ne_of_mem (poolRanges hlt) hmem
  rw [hback] at hpage
  rw [hpage, Function.update_of_ne hne]
  exact h.count i (Multiset.mem_of_mem_erase hi)

/-- A page that other code has is the page of no task. -/
theorem ForkInv.not_isTask (h : ForkInv totalMemSize s)
    (htotal : totalMemSize ≤ 2 ^ 30) {blk : Block}
    (hblk : blk ∈ s.others P) (hcovers : blk.Covers idx) : ¬s.IsTask (pageAddr idx) := by
  rintro ⟨i, hi, heq⟩
  obtain ⟨fr, hrun⟩ := h.run
  obtain rfl := pageAddr_inj heq
  exact hrun.live_not_covers (s := ⟨s.buddy, s.others⟩) (by omega) hblk (mem_taskBlocks hi) hcovers
    (Block.covers_idx _)

/-- A call of other code to the page allocator. -/
theorem ForkInv.pages (h : ForkInv totalMemSize s) (htotal : totalMemSize ≤ 2 ^ 30) {a : BuddyAct}
    {bs : BuddyState} (ha : (BuddyState.mk s.buddy s.others).Enabled a)
    (hok : (BuddyState.mk s.buddy s.others).next a = .ok bs) :
    ForkInv totalMemSize { s with buddy := bs.buddy, others := bs.live } := by
  obtain ⟨fr, hrun⟩ := h.run
  rcases RunInv.next (s := ⟨s.buddy, s.others⟩) hrun (by omega) ha with
    ⟨hpanic, -⟩ | ⟨bs', fr', hok', hkeeps⟩
  · rw [hpanic] at hok
    cases hok
  · obtain rfl : bs' = bs := Except.ok.inj (hok'.symm.trans hok)
    refine ⟨⟨fr', hkeeps.run⟩, fun i hi => ?_⟩
    rw [hkeeps.page .kernel _ (mem_taskBlocks hi)]
    exact h.count i hi

/-! ### Steps -/

/-- A step keeps every answer right exactly when it leaves the pids. -/
theorem ForkStep.right_iff {a : ForkAct} (h : ForkStep totalMemSize s a s')
    (hright : ForksRight s) : ForksRight s' ↔ LeavesPids s a := by
  constructor
  · intro hright' u call hcall _ pid hstores
    obtain ⟨-, hpid, hkeeps⟩ := h.stores _ pid hstores
    rw [← hpid, hright' u call (hkeeps u call hcall)]
  · intro hleaves u call hcall
    rcases h.fork u call hcall with hnew | ⟨before, hbefore, hnew, hpid⟩
    · exact hnew
    rw [← hnew, ← hpid]
    by_cases hstores : ∃ pid, StoresPid s before.new pid a
    · -- the page of a task is not stored to, so the child has exited
      obtain ⟨pid, hstores⟩ := hstores
      obtain ⟨hfree, hstored, -⟩ := h.stores _ pid hstores
      rw [hstored, hleaves u before hbefore hfree pid hstores]
    · rw [h.same _ fun pid hpid => hstores ⟨pid, hpid⟩, hright u before hbefore]

/-- A step that stores no pid. -/
theorem forkStep_quiet {a : ForkAct} (hquiet : ∀ t pid, ¬StoresPid s t pid a)
    (hinv : ForkInv totalMemSize s') (hpid : s'.pid = s.pid)
    (hfork : ∀ u call, s'.fork u = some call →
      ∃ before, s.fork u = some before ∧ before.new = call.new ∧ before.pid = call.pid) :
    ForkStep totalMemSize s a s' where
  inv := hinv
  stores t pid hstores := absurd hstores (hquiet t pid)
  same t _ := congrFun hpid t
  fork u call hcall := .inr (hfork u call hcall)

namespace ForkInv

/-- `kthread_create` takes a page that no task has and a number that no task has. -/
theorem kthreadCreate (h : ForkInv totalMemSize s) (htotal : totalMemSize ≤ 2 ^ 30)
    {prio ticks : UInt32}
    (hok : s.kthreadCreate prio ticks = .ok s') :
    ForkStep totalMemSize s (.kthreadCreate prio ticks) s' := by
  obtain ⟨⟨t, b⟩, hpage, hok⟩ := bind_eq_ok.mp hok
  obtain ⟨⟨pid, bmap⟩, hpid, hok⟩ := bind_eq_ok.mp hok
  cases hok
  obtain ⟨idx, rfl, hfree, howns, hcount⟩ := h.newPage htotal hpage
  have hself : Function.update s.pid (pageAddr idx) pid (pageAddr idx) = pid :=
    Function.update_self _ _ _
  rw [paddr2pg_pageAddr]
  refine ⟨⟨howns, hcount⟩, ?_, ?_, fun u call hcall => .inr ⟨call, hcall, rfl, rfl⟩⟩
  · rintro t pid' ⟨⟨b', hpage'⟩, bmap', hpid'⟩
    cases hpage.symm.trans hpage'
    cases hpid.symm.trans hpid'
    dsimp only
    exact ⟨hfree, hself, fun u call hcall => hcall⟩
  · intro t hother
    have hne : t ≠ pageAddr idx := fun heq => hother pid ⟨⟨b, heq ▸ hpage⟩, bmap, hpid⟩
    exact Function.update_of_ne hne _ _

/-- `do_fork` does the same for the child, and the call of the parent remembers the page of the
child. -/
theorem doFork (h : ForkInv totalMemSize s) (htotal : totalMemSize ≤ 2 ^ 30) (hruns : s.Runs)
    (hok : s.doFork = .ok s') : ForkStep totalMemSize s .doFork s' := by
  obtain ⟨⟨new, b⟩, hpage, hok⟩ := bind_eq_ok.mp hok
  obtain ⟨⟨pid, bmap⟩, hpid, hok⟩ := bind_eq_ok.mp hok
  cases hok
  replace hpid : s.allocPid = .ok (pid, bmap) := hpid
  obtain ⟨idx, rfl, hfree, howns, hcount⟩ := h.newPage htotal hpage
  have hself : Function.update s.pid (pageAddr idx) pid (pageAddr idx) = pid :=
    Function.update_self _ _ _
  rw [paddr2pg_pageAddr, Function.update_idem]
  refine ⟨⟨howns, hcount⟩, ?_, ?_, fun u call hcall => ?_⟩
  · rintro t pid' ⟨⟨b', hpage'⟩, bmap', hpid'⟩
    cases hpage.symm.trans hpage'
    cases hpid.symm.trans hpid'
    refine ⟨hfree, (by dsimp only [ForkState.setFork]; exact hself), fun u call hcall => ?_⟩
    -- The current task runs, so it is in no call of `fork`.
    have hne : u ≠ s.sched.current := by
      rintro rfl
      rw [ForkState.Runs, hcall] at hruns
      cases hruns
    rw [setFork_of_ne hne]
    exact hcall
  · intro t hother
    have hne : t ≠ pageAddr idx := fun heq => hother pid ⟨⟨b, heq ▸ hpage⟩, bmap, hpid⟩
    exact Function.update_of_ne hne _ _
  · by_cases hu : u = s.sched.current
    · subst hu
      rw [setFork_self] at hcall
      obtain rfl := Option.some.inj hcall
      left
      dsimp only [ForkState.setFork]
      exact hself
    · rw [setFork_of_ne hu] at hcall
      exact .inr ⟨call, hcall, rfl, rfl⟩

/-- Code that writes to its own page can change what the next owner of the page finds there, and
nothing that a task has. -/
theorem write (h : ForkInv totalMemSize s) (htotal : totalMemSize ≤ 2 ^ 30) {blk : Block}
    (hblk : blk ∈ s.others P) (hcovers : blk.Covers idx) (v : Nat) :
    ForkStep totalMemSize s (.write idx v)
      { s with pid := Function.update s.pid (pageAddr idx) v } := by
  have hself : Function.update s.pid (pageAddr idx) v (pageAddr idx) = v :=
    Function.update_self _ _ _
  refine ⟨⟨h.owns, h.count⟩, ?_, ?_, fun u call hcall => .inr ⟨call, hcall, rfl, rfl⟩⟩
  · intro t pid hstores
    obtain ⟨ht, hpid⟩ := hstores
    rw [ht, hpid]
    dsimp only
    exact ⟨h.not_isTask htotal hblk hcovers, hself, fun u call hcall => hcall⟩
  · intro t hother
    have hne : t ≠ pageAddr idx := fun heq => hother v ⟨heq, rfl⟩
    exact Function.update_of_ne hne _ _

/-- The parent gives the processor away in the middle of its call. The child stays what it is. -/
theorem forkSchedule (h : ForkInv totalMemSize s) (hok : s.forkSchedule = .ok s') :
    ForkStep totalMemSize s .forkSchedule s' := by
  obtain ⟨call, hderef, hok⟩ := bind_eq_ok.mp hok
  obtain ⟨sched, -, hok⟩ := bind_eq_ok.mp hok
  cases hok
  have hcall : s.fork s.sched.current = some call := deref_eq_ok.mp hderef
  refine forkStep_quiet (fun t pid hstores => hstores) ⟨h.owns, h.count⟩ rfl
    fun u call' hcall' => ?_
  by_cases hu : u = s.sched.current
  · subst hu
    rw [setFork_self] at hcall'
    obtain rfl := Option.some.inj hcall'
    exact ⟨call, hcall, rfl, rfl⟩
  · rw [setFork_of_ne hu] at hcall'
    exact ⟨call', hcall', rfl, rfl⟩

/-- The parent comes back and reads the number of the child from its page. The child may be gone by
then, and its page may have a new owner. -/
theorem forkReturn (h : ForkInv totalMemSize s) (hok : s.next .forkReturn = .ok s') :
    ForkStep totalMemSize s .forkReturn s' := by
  obtain ⟨⟨ret, s₁⟩, hret, hok⟩ := bind_eq_ok.mp hok
  obtain ⟨call, hcall, hret⟩ := bind_eq_ok.mp hret
  cases hret
  cases hok
  refine forkStep_quiet (fun t pid hstores => hstores) ⟨h.owns, h.count⟩ rfl
    fun u call' hcall' => ?_
  by_cases hu : u = s.sched.current
  · subst hu
    rw [setFork_self] at hcall'
    cases hcall'
  · rw [setFork_of_ne hu] at hcall'
    exact ⟨call', hcall', rfl, rfl⟩

/-- A task that exits gives its number and its page back. -/
theorem sysExit (h : ForkInv totalMemSize s) (htotal : totalMemSize ≤ 2 ^ 30)
    (htask : s.IsTask s.sched.current) (hok : s.sysExit = .ok s') :
      ForkStep totalMemSize s .sysExit s' := by
  obtain ⟨bmap, -, hok⟩ := bind_eq_ok.mp hok
  obtain ⟨b, hfree, hok⟩ := bind_eq_ok.mp hok
  obtain ⟨sched, -, hok⟩ := bind_eq_ok.mp hok
  cases hok
  obtain ⟨idx, hidx, hcur⟩ := htask
  rw [hcur] at hfree
  obtain ⟨howns, hcount⟩ := h.freePage htotal hidx hfree
  rw [hcur, paddr2pg_pageAddr]
  exact forkStep_quiet (fun t pid hstores => hstores) ⟨howns, hcount⟩ rfl
    fun u call hcall => ⟨call, hcall, rfl, rfl⟩

/-- The scheduler alone changes nothing here. -/
theorem setSched (h : ForkInv totalMemSize s) {a : ForkAct} (hquiet : ∀ t pid, ¬StoresPid s t pid a)
    (sched : SchedState) : ForkStep totalMemSize s a { s with sched } :=
  forkStep_quiet hquiet ⟨h.owns, h.count⟩ rfl fun _ call hcall => ⟨call, hcall, rfl, rfl⟩

/-- The step lemma. -/
theorem next (h : ForkInv totalMemSize s) (htotal : totalMemSize ≤ 2 ^ 30) {a : ForkAct}
    (ha : s.Enabled a) (hok : s.next a = .ok s') : ForkStep totalMemSize s a s' := by
  cases a with
  | timer | threadBlock | threadYield =>
      obtain ⟨sched, -, hok⟩ := bind_eq_ok.mp hok
      cases hok
      refine h.setSched ?_ sched
      exact fun t pid hstores => hstores
  | threadUnblock u =>
      cases hok
      refine h.setSched ?_ _
      exact fun t pid hstores => hstores
  | kthreadCreate prio ticks => exact h.kthreadCreate htotal hok
  | doFork => exact h.doFork htotal ha.1 hok
  | forkSchedule => exact h.forkSchedule hok
  | forkReturn => exact h.forkReturn hok
  | sysExit => exact h.sysExit htotal ha.2.2 hok
  | pages a =>
      obtain ⟨bs, hbs, hok⟩ := bind_eq_ok.mp hok
      cases hok
      exact forkStep_quiet (fun t pid hstores => hstores) (h.pages htotal ha.2 hbs) rfl
        fun u call hcall => ⟨call, hcall, rfl, rfl⟩
  | write idx v =>
      obtain ⟨-, P, blk, hblk, hcovers⟩ := ha
      cases hok
      exact h.write htotal hblk hcovers v

end ForkInv

/-- The invariant holds behind `thread_init`. -/
theorem forkInv_init (hinit : ForkState.Start totalMemSize s) : ForkInv totalMemSize s := by
  obtain ⟨idx, -, htasks, hcount, -⟩ := hinit.idle
  refine ⟨owns_of_reachable hinit.size.2 hinit.pages, fun i hi => ?_⟩
  rw [htasks, Multiset.mem_singleton] at hi
  rw [hi]
  exact hcount

/-- The run lemma, for runs that leave the pids of the children. -/
theorem forkSystem_inductive (htotal : totalMemSize ≤ 2 ^ 30) :
    ((forkSystem totalMemSize).restrict LeavesPids).Inductive fun s =>
      ForkInv totalMemSize s ∧ ForksRight s where
  init hinit := by
    refine ⟨forkInv_init hinit, fun u call hcall => ?_⟩
    rw [hinit.fork u] at hcall
    cases hcall
  step h ha hok := by
    have hstep := h.1.next htotal ha.1 hok
    exact ⟨hstep.inv, (hstep.right_iff h.2).mpr ha.2⟩

/-- In a run that leaves the pids of the children, `do_fork` returns the pid that `alloc_pid` gave
the child. It would return something else behind a step that does not leave them. -/
theorem fork_returns_pid (hs : ((forkSystem totalMemSize).restrict LeavesPids).Reachable s) :
    (∀ call, s.fork s.sched.current = some call → call.waits = true →
      s.forkReturn = .ok (call.pid, s.setFork s.sched.current none)) ∧
    ∀ a s', s.Enabled a → s.next a = .ok s' → (ForksRight s' ↔ LeavesPids s a) := by
  obtain ⟨s₀, hinit⟩ := hs.exists_init
  have htotal : totalMemSize ≤ 2 ^ 30 := hinit.size.2
  obtain ⟨h, hright⟩ := (forkSystem_inductive htotal).reachable hs
  constructor
  · intro call hcall _
    rw [ForkState.forkReturn, hcall, deref_some, ok_bind, hright _ call hcall]
    rfl
  · intro a s' ha hok
    exact (h.next htotal ha hok).right_iff hright

end

/-! ### A machine with 32 MiB -/

/-- The `task_struct` of the main task. -/
def MAIN : Tid := 0xc009e000

/-- The page allocator behind `buddy_init`. -/
def bootBuddy : Nat × Buddy := (zeroedBuddy.buddyInit POOL_START 0x2000000).toOption.getD
    (0, zeroedBuddy)

/-- The block that `pool_init` takes. -/
def tablesBlock : Nat × Buddy := (bootBuddy.2.allocPages KERNEL_POOL MAX_ORDER MAIN).toOption.getD
    (0, zeroedBuddy)

/-- The page of `idle`. -/
def idlePage : Nat × Buddy := (tablesBlock.2.allocPages KERNEL_POOL 0 MAIN).toOption.getD
    (0, zeroedBuddy)

/-- The bitmap of the numbers before `pid_init`. -/
def noPids : Bitmap := ⟨0, fun _ => 0, 0, mutexLockInit⟩

/-- All numbers are free. -/
def emptyPids : Bitmap := (bitmapInit noPids MAX_PID).toOption.getD noPids

/-- The first task takes the number 0. -/
def mainPid : Nat × Bitmap := (bitmapScanSet emptyPids MAIN).toOption.getD (0, noPids)

/-- The task `idle` takes the number 1. -/
def idlePid : Nat × Bitmap := (bitmapScanSet mainPid.2 MAIN).toOption.getD (0, noPids)

/-- After `thread_init`. -/
def bootFork : ForkState where
  sched := { bootState with
    current := MAIN, idle := some (pageAddr 1024), readyList := [pageAddr 1024]
    state := fun t =>
      if t = MAIN then some .RUNNING else if t = pageAddr 1024 then some .READY else none }
  buddy := idlePage.2
  pidBitmap := idlePid.2
  pid t := if t = pageAddr 1024 then 1 else 0
  fork _ := none
  tasks := {1024}
  others := bootLive

/-- The allocator is in a state of its runs when these two tasks have their pages. -/
theorem bootFork_pages :
    (buddySystem 0x2000000).Reachable ⟨idlePage.2, bootLive + pageBlock (taskPages {1024})⟩ := by
  have hboot : zeroedBuddy.buddyInit POOL_START 0x2000000 = .ok bootBuddy :=
    eq_ok_getD (by decide +kernel)
  have hinit : BuddyState.Init 0x2000000 ⟨bootBuddy.2, fun _ => 0⟩ :=
    ⟨⟨zeroedBuddy, bootBuddy.1, zeroedBuddy_zeroed, hboot⟩, fun _ => rfl⟩
  have htables : bootBuddy.2.allocPages KERNEL_POOL MAX_ORDER MAIN = .ok tablesBlock :=
    eq_ok_getD (by decide +kernel)
  have halloc : tablesBlock.2.allocPages KERNEL_POOL 0 MAIN = .ok idlePage :=
    eq_ok_getD (by decide +kernel)
  have hfirst : tablesBlock.1 = 0 := by decide +kernel
  have hidle : idlePage.1 = 1024 := by decide +kernel
  have hs : (buddySystem 0x2000000).Reachable ⟨tablesBlock.2, bootLive⟩ := by
    refine (System.Reachable.init hinit).step (a := .alloc KERNEL_POOL MAX_ORDER MAIN)
      (Nat.le_refl MAX_ORDER) ?_
    simp only [buddySystem, BuddyState.next, htables, ok_bind, hfirst]
    rfl
  have hlive : Function.update bootLive .kernel (⟨idlePage.1, 0⟩ ::ₘ bootLive .kernel)
      = bootLive + pageBlock (taskPages {1024}) := by
    rw [hidle]
    exact (others_firstOwn bootLive 1024).symm
  refine hs.step (a := .alloc KERNEL_POOL 0 MAIN) (Nat.zero_le MAX_ORDER) ?_
  rw [← hlive]
  simp only [buddySystem, BuddyState.next, halloc, ok_bind]
  rfl

/-- So is the bitmap of the numbers. -/
theorem bootFork_pids : (idSystem MAX_PID).Reachable ⟨idlePid.2, [1, 0]⟩ := by
  have hempty : bitmapInit noPids MAX_PID = .ok emptyPids := eq_ok_getD (by decide +kernel)
  have hmain : bitmapScanSet emptyPids MAIN = .ok mainPid := eq_ok_getD (by decide +kernel)
  have hidle : bitmapScanSet mainPid.2 MAIN = .ok idlePid := eq_ok_getD (by decide +kernel)
  have hzero : mainPid.1 = 0 := by decide +kernel
  have hone : idlePid.1 = 1 := by decide +kernel
  have hs : (idSystem MAX_PID).Reachable ⟨emptyPids, []⟩ := .init ⟨⟨noPids, hempty⟩, rfl⟩
  have hs₁ : (idSystem MAX_PID).Reachable ⟨mainPid.2, [mainPid.1]⟩ := by
    refine hs.step (a := .scanSet MAIN) trivial ?_
    simp only [idSystem, IdState.next, hmain, ok_bind]
    rfl
  have hs₂ : (idSystem MAX_PID).Reachable ⟨idlePid.2, [idlePid.1, mainPid.1]⟩ := by
    refine hs₁.step (a := .scanSet MAIN) trivial ?_
    simp only [idSystem, IdState.next, hidle, ok_bind]
    rfl
  rwa [hzero, hone] at hs₂

/-- A machine with 32 MiB behind boot is a start of the system. -/
theorem bootFork_start : bootFork.Start 0x2000000 := by
  have hcount : (idlePage.2.page 1024).count = 1 := by decide +kernel
  refine ⟨by decide, ?_, ⟨1024, rfl, rfl, ?_, rfl⟩, rfl, fun _ => rfl, ?_, ?_⟩
  · exact ⟨⟨pageAddr 1024, rfl, by decide, rfl, fun _ => rfl⟩, fun _ => rfl, fun _ =>
      rfl, fun _ => rfl, fun _ => rfl⟩
  · dsimp only [bootFork]
    exact hcount
  · dsimp only [bootFork]
    exact bootFork_pages
  · dsimp only [bootFork]
    exact bootFork_pids

/-- The child of the main task blocks. -/
theorem fork_returns_pid_child : ∃ s, ((forkSystem 0x2000000).restrict LeavesPids).Reachable s ∧
    s.forkReturn = .ok (2, s.setFork s.sched.current none) := by
  have hfork : LeavesPids bootFork .doFork := by
    intro u call hcall
    cases hcall
  have hquiet : ∀ s, LeavesPids s .forkSchedule ∧ LeavesPids s .threadBlock :=
    fun s => ⟨fun _ _ _ _ _ hstores => hstores.elim, fun _ _ _ _ _ hstores => hstores.elim⟩
  have hruns : ((forkSystem 0x2000000).restrict LeavesPids).Runs bootFork
      [.doFork, .forkSchedule, .threadBlock, .threadBlock] :=
    ⟨⟨⟨⟨rfl, by decide⟩, hfork⟩, by decide +kernel⟩,
      ⟨⟨⟨⟨pageAddr 1025, 2, false⟩, by decide +kernel, rfl⟩, (hquiet _).1⟩, by decide +kernel⟩,
      ⟨⟨show ForkState.Runs _ by decide +kernel, (hquiet _).2⟩, by decide +kernel⟩,
      ⟨⟨show ForkState.Runs _ by decide +kernel, (hquiet _).2⟩, by decide +kernel⟩, trivial⟩
  have hs := (System.Reachable.init bootFork_start).runs hruns
  exact ⟨_, hs, (fork_returns_pid hs).1 ⟨pageAddr 1025, 2, true⟩ (by decide +kernel) rfl⟩

/-- A thread forks, and its child exits. Then the main task gets the page of the child and clears
it, and `do_fork` returns 0 in the parent. -/
theorem fork_returns_zero : ¬∀ totalMemSize s, (forkSystem totalMemSize).Reachable s →
    ∀ call, s.fork s.sched.current = some call → call.waits = true →
      ∃ s', s.forkReturn = .ok (call.pid, s') := by
  intro hall
  have hruns : (forkSystem 0x2000000).Runs bootFork
      [.kthreadCreate 10 0, .threadYield, .threadBlock, .doFork, .forkSchedule, .sysExit,
        .pages (.alloc KERNEL_POOL 0 MAIN), .write 1026 0, .threadYield] :=
    ⟨⟨rfl, by decide +kernel⟩, ⟨show ForkState.Runs _ by decide +kernel, by decide +kernel⟩,
      ⟨show ForkState.Runs _ by decide +kernel, by decide +kernel⟩,
      ⟨⟨by decide +kernel, by decide +kernel⟩, by decide +kernel⟩,
      ⟨⟨⟨pageAddr 1026, 3, false⟩, by decide +kernel, rfl⟩, by decide +kernel⟩,
      ⟨⟨by decide +kernel, by decide +kernel, by decide +kernel⟩, by decide +kernel⟩,
      ⟨⟨by decide +kernel, Nat.zero_le MAX_ORDER⟩, by decide +kernel⟩,
      ⟨⟨by decide +kernel, .kernel, ⟨1026, 0⟩, by decide +kernel,
        Block.covers_idx _⟩, by decide +kernel⟩,
      ⟨show ForkState.Runs _ by decide +kernel, by decide +kernel⟩, trivial⟩
  obtain ⟨s, hs, hcall, hzero⟩ : ∃ s, (forkSystem 0x2000000).Reachable s ∧
      s.fork s.sched.current = some ⟨pageAddr 1026, 3, true⟩ ∧ s.pid (pageAddr 1026) = 0 :=
    ⟨_, (System.Reachable.init bootFork_start).runs hruns, by decide +kernel, by decide +kernel⟩
  obtain ⟨s', hret⟩ := hall _ s hs _ hcall rfl
  rw [ForkState.forkReturn, hcall, deref_some, ok_bind, hzero] at hret
  cases hret

end Fizzos.Proofs
