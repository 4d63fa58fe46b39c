import Fizzos.Kernel.PageFault
import Fizzos.Proofs.FileContent
import Fizzos.Proofs.ForkRuns
import Fizzos.Proofs.Vma

/-!
# `Fizzos.Proofs.FaultRuns`: page faults of a process in a run

A fault on a page that is not present returns when both pools have a page
(`CowInv.pageNotPresent_ok`). Then the process reads the content of the new page at each address of
the page (`pageNotPresent_userRead`).

`pageNotPresent_eq` takes `page_not_present` apart at `file_read`, as `cowSystem` does.
-/

set_option autoImplicit false

namespace Fizzos.Proofs

open Fizzos.Device
open Fizzos.Fs
open Fizzos.Kernel
open Fizzos.LibKernel
open Fizzos.Support

/-! ### The area of an address -/

/-- The area holds the address. -/
def Covers (vas : VmAreaStruct) (addr : Nat) : Prop := vas.vmStart ≤ addr ∧ addr < vas.vmEnd

section
variable {mm : MmStruct} {vas : VmAreaStruct} {addr : Nat}

/-- The area that holds an address is the one that `find_vma` finds. -/
theorem findVma_of_covers (hok : AreasOk mm.mmap) (hmem : vas ∈ mm.mmap) (hin : Covers vas addr) :
    findVma mm addr = some vas := by
  obtain ⟨before, behind, hlist⟩ := List.append_of_mem hmem
  have hsorted := hok.sorted
  rw [hlist, List.pairwise_append] at hsorted
  have hbefore : ∀ a ∈ before, ¬a.vmEnd > addr := by
    intro a ha
    have hle := hsorted.2.2 a ha vas List.mem_cons_self
    have hstart := hin.1
    omega
  rw [findVma, hlist, List.find?_append, List.find?_eq_none.mpr fun a ha => by
    simpa using hbefore a ha, Option.none_or, List.find?_cons_of_pos (by simpa using hin.2)]

theorem findVma_mem (h : findVma mm addr = some vas) : vas ∈ mm.mmap ∧ addr < vas.vmEnd :=
  ⟨List.mem_of_find?_eq_some h, by simpa using List.find?_some h⟩

/-- An address below an area has an area that ends behind it. -/
theorem exists_findVma (hok : AreasOk mm.mmap) (hmem : vas ∈ mm.mmap) (hlt : addr < vas.vmStart) :
    ∃ found, findVma mm addr = some found := by
  refine Option.isSome_iff_exists.mp (List.find?_isSome.mpr ⟨vas, hmem, ?_⟩)
  have hrange := hok.range vas hmem
  exact decide_eq_true (show vas.vmEnd > addr by omega)

end

/-! ### The three parts of a fault -/

/-- The content of a page behind `file_read`, which was `old` before. -/
def faultContent (f : Files) (vas : VmAreaStruct) (addr : Nat) (old : Nat → UInt8) (ioBuf : Bytes) :
    Except Halt (Nat → UInt8) :=
  match vas.vmFile with
  | some file => do
      let off := Vm.fileOff vas addr
      let bytes : Bytes := fun k => (old k).toBitVec
      let (_, _, page) ← fileRead f.fs (f.inode file) bytes PG_SIZE off ioBuf
      pure fun k => UInt8.ofBitVec (page k)
  | none => pure old

section
variable {f : Files} {vm vm' vm₁ : Vm} {mm : MmStruct} {vas : VmAreaStruct} {addr buf : Nat}
  {pgDir : Nat} {ioBuf : Bytes} {current : Tid} {content : Nat → UInt8}

/-- The loop of `page_not_present` stops where `find_vma` does. -/
theorem faultLoop_eq (areas : List VmAreaStruct) (h : findVma { mmap := areas, pgDir } addr
    = some vas) :
    f.faultLoop vm pgDir addr ioBuf current areas
      = f.faultArea vm pgDir vas addr ioBuf current := by
  induction areas with
  | nil => cases h
  | cons a rest ih =>
      rw [Files.faultLoop]
      by_cases hend : a.vmEnd > addr
      · rw [findVma, List.find?_cons_of_pos (by simpa using hend)] at h
        rw [if_pos hend, Option.some.inj h]
      · rw [findVma, List.find?_cons_of_neg (by simpa using hend)] at h
        rw [if_neg hend]
        exact ih h

theorem faultLoop_none (areas : List VmAreaStruct)
    (h : findVma { mmap := areas, pgDir } addr = none) :
    f.faultLoop vm pgDir addr ioBuf current areas = .error .assertFailed := by
  induction areas with
  | nil => rfl
  | cons a rest ih =>
      have hend : ¬a.vmEnd > addr := by simpa using List.find?_eq_none.mp h a List.mem_cons_self
      rw [findVma, List.find?_cons_of_neg (by simpa using hend)] at h
      rw [Files.faultLoop, if_neg hend]
      exact ih h

/-- An address of user memory passes the check of `page_not_present`. -/
theorem user_range (hlo : USER_VADDR_START ≤ addr) (hhi : addr < TASK_SIZE) :
    ¬(addr ≥ 0xc0000000 ∨ addr < 0x08048000) := by
  rw [USER_VADDR_START] at hlo
  rw [TASK_SIZE] at hhi
  omega

/-- A fault that returns has used the area that `find_vma` finds. -/
theorem pageNotPresent_area (h : f.pageNotPresent vm mm addr ioBuf current = .ok vm') :
    USER_VADDR_START ≤ addr ∧ addr < TASK_SIZE ∧ ∃ vas, findVma mm addr = some vas ∧
      f.faultArea vm mm.pgDir vas addr ioBuf current = .ok vm' := by
  rw [Files.pageNotPresent] at h
  split at h
  · cases h
  · rename_i hrange
    have hlo : USER_VADDR_START ≤ addr := Nat.le_of_not_lt fun hlt => hrange (.inr hlt)
    have hhi : addr < TASK_SIZE := Nat.lt_of_not_le fun hle => hrange (.inl hle)
    cases hfind : findVma mm addr with
    | none =>
        rw [faultLoop_none mm.mmap hfind] at h
        cases h
    | some vas => exact ⟨hlo, hhi, vas, rfl, faultLoop_eq mm.mmap hfind ▸ h⟩

theorem notPresentAlloc_eq (hlo : USER_VADDR_START ≤ addr) (hhi : addr < TASK_SIZE)
    (hvas : findVma mm addr = some vas) :
    vm.notPresentAlloc mm addr current
      = vm.openTable mm.pgDir addr current >>= fun vm => vm.getZeroedPage USER_POOL current := by
  have hsome : (findVma mm addr).isSome := by rw [hvas]; rfl
  rw [Vm.notPresentAlloc, if_neg (user_range hlo hhi), ASSERT_true hsome, ok_bind, Vm.openTable]
  dsimp only
  by_cases hempty : vm.table (vm.getPde mm.pgDir addr).1 (vm.getPde mm.pgDir addr).2 &&& 1 = 0
  · rw [if_pos hempty, if_pos hempty]
    cases vm.getZeroedPage KERNEL_POOL current with
    | error e => rfl
    | ok r => rfl
  · rw [if_neg hempty, if_neg hempty]

/-- The end of both branches, for a page with a content. -/
theorem notPresentMap_eq (hvas : findVma mm addr = some vas)
    (hread : vas.vmFile = none → content = vm.user buf) :
    vm.notPresentMap mm addr buf (fun _ _ => content)
      = ({ vm with user := Function.update vm.user buf content } : Vm).installPage mm.pgDir
      addr buf := by
  have hcontent : (Vm.pageContent mm addr fun _ _ => content).getD (vm.user buf) = content := by
    rw [Vm.pageContent, hvas, Option.bind_eq_bind, Option.bind_some]
    cases hfile : vas.vmFile with
    | none => exact (hread hfile).symm
    | some file => rfl
  rw [Vm.notPresentMap, hcontent]
  rfl

/-- The branch for an area with a file, behind the new page. -/
theorem faultArea_file {file : Nat} {vm₀ : Vm} (hfile : vas.vmFile = some file)
    (htable : vm.openTable pgDir addr current = .ok vm₀)
    (hpage : vm₀.getZeroedPage USER_POOL current = .ok (buf, vm₁)) :
    f.faultArea vm pgDir vas addr ioBuf current
      = faultContent f vas addr (vm₁.user buf) ioBuf >>= fun content =>
          ({ vm₁ with user := Function.update vm₁.user buf content } : Vm).installPage pgDir
          addr buf := by
  rw [Files.faultArea, faultContent, hfile]
  dsimp only
  have hbytes : vm₁.pageBytes buf = fun k => (vm₁.user buf k).toBitVec := rfl
  rw [htable, ok_bind, hpage, ok_bind]
  dsimp only
  rw [hbytes]
  cases fileRead f.fs (f.inode file) (fun k => (vm₁.user buf k).toBitVec) PG_SIZE
    (Vm.fileOff vas addr) ioBuf with
  | error e => rfl
  | ok r =>
      obtain ⟨count, pos, page⟩ := r
      rfl

/-- The branch for an area without a file, behind the new page. -/
theorem faultArea_anon {vm₀ : Vm} (hfile : vas.vmFile = none)
    (htable : vm.openTable pgDir addr current = .ok vm₀)
    (hpage : vm₀.getZeroedPage USER_POOL current = .ok (buf, vm₁)) :
    f.faultArea vm pgDir vas addr ioBuf current
      = faultContent f vas addr (vm₁.user buf) ioBuf >>= fun content =>
          ({ vm₁ with user := Function.update vm₁.user buf content } : Vm).installPage pgDir
          addr buf := by
  rw [Files.faultArea, faultContent, hfile]
  dsimp only
  rw [htable, ok_bind, hpage, ok_bind, pure_eq_ok, ok_bind, Function.update_eq_self]

/-- `page_not_present`, taken apart at `file_read`. -/
theorem pageNotPresent_eq (hlo : USER_VADDR_START ≤ addr) (hhi : addr < TASK_SIZE)
    (hvas : findVma mm addr = some vas) (halloc : vm.notPresentAlloc mm addr current
      = .ok (buf, vm₁)) :
    f.pageNotPresent vm mm addr ioBuf current
      = faultContent f vas addr (vm₁.user buf) ioBuf >>= fun content =>
          vm₁.notPresentMap mm addr buf fun _ _ => content := by
  rw [Files.pageNotPresent, if_neg (user_range hlo hhi), faultLoop_eq mm.mmap hvas]
  rw [notPresentAlloc_eq hlo hhi hvas] at halloc
  obtain ⟨vm₀, htable, hpage⟩ := bind_eq_ok.mp halloc
  cases hfile : vas.vmFile with
  | some file =>
      rw [faultArea_file hfile htable hpage]
      refine bind_congr fun content => (notPresentMap_eq hvas fun hnone => ?_).symm
      rw [hfile] at hnone
      cases hnone
  | none =>
      have hcontent : faultContent f vas addr (vm₁.user buf) ioBuf = .ok (vm₁.user buf) := by
        rw [faultContent, hfile]
        rfl
      rw [faultArea_anon hfile htable hpage, hcontent, ok_bind, ok_bind]
      exact (notPresentMap_eq hvas fun _ => rfl).symm

/-- A fault that returns has come through its three parts. -/
theorem pageNotPresent_parts (h : f.pageNotPresent vm mm addr ioBuf current = .ok vm') :
    USER_VADDR_START ≤ addr ∧ addr < TASK_SIZE ∧ ∃ vas buf vm₁ content,
      findVma mm addr = some vas ∧ vm.notPresentAlloc mm addr current = .ok (buf, vm₁) ∧
      faultContent f vas addr (vm₁.user buf) ioBuf = .ok content ∧
      vm₁.notPresentMap mm addr buf (fun _ _ => content) = .ok vm' := by
  obtain ⟨hlo, hhi, vas, hvas, harea⟩ := pageNotPresent_area h
  -- the handler takes the page before it reads the file
  obtain ⟨⟨buf, vm₁⟩, halloc⟩ : ∃ r, vm.notPresentAlloc mm addr current = .ok r := by
    rw [notPresentAlloc_eq hlo hhi hvas]
    rw [Files.faultArea] at harea
    cases hfile : vas.vmFile with
    | some file =>
        rw [hfile] at harea
        obtain ⟨vm₀, htable, harea⟩ := bind_eq_ok.mp harea
        obtain ⟨r, hpage, -⟩ := bind_eq_ok.mp harea
        exact ⟨r, by rw [htable, ok_bind, hpage]⟩
    | none =>
        rw [hfile] at harea
        obtain ⟨vm₀, htable, harea⟩ := bind_eq_ok.mp harea
        obtain ⟨r, hpage, -⟩ := bind_eq_ok.mp harea
        exact ⟨r, by rw [htable, ok_bind, hpage]⟩
  rw [pageNotPresent_eq hlo hhi hvas halloc] at h
  obtain ⟨content, hread, hmap⟩ := bind_eq_ok.mp h
  exact ⟨hlo, hhi, vas, buf, vm₁, content, hvas, halloc, hread, hmap⟩

end

/-! ### Faults in a run -/

section
variable {totalMemSize : Nat} {s : CowState} {own : Pool → Multiset Nat} {f : Files} {vm' : Vm}
  {vas : VmAreaStruct} {p addr buf : Nat} {ioBuf : Bytes} {current : Tid} {content : Nat → UInt8}

theorem getZeroedPage_ok {vm : Vm} {flag a : Nat} {b : Buddy}
    (hget : vm.buddy.getFreePage flag current = .ok (a, b)) :
    vm.getZeroedPage flag current = .ok (a, ({ vm with buddy := b } : Vm).zeroPage a) := by
  rw [Vm.getZeroedPage, Vm.getFreePage, hget]
  rfl

/-- A page has a content exactly when it is present. -/
theorem CowInv.eager_eq_none (h : CowInv totalMemSize s own) {slot : Nat × Nat}
    (hs : slot ∈ s.slots) : s.eager slot.1 slot.2 = none ↔ s.frame slot = none := by
  rw [h.eager slot hs]
  exact Option.map_eq_none_iff

/-- The page of a fault that waits for its file is full of zeros. -/
theorem CowInv.waits_zero (h : CowInv totalMemSize s own) (hp : p < s.procs)
    (hfault : (s.proc p).fault = some (addr, buf)) : s.vm.user buf = fun _ => 0 := by
  obtain ⟨-, -, g, -, rfl, -, hzero, -⟩ := h.waits p hp addr buf hfault
  exact hzero

/-- The entry of the page is empty until the fault has its file. -/
theorem CowInv.notPresentMap_returns (h : CowInv totalMemSize s own) (hp : p < s.procs)
    (hfault : (s.proc p).fault = some (addr, buf)) (hempty : s.frame (p, pageOf addr) = none)
    (content : Nat → UInt8) :
    ∃ vm', s.vm.notPresentMap (s.proc p).mm addr buf (fun _ _ => content) = .ok vm' := by
  obtain ⟨haddr, ⟨t, ht⟩, -⟩ := h.waits p hp addr buf hfault
  have hpte : ∀ user, ({ s.vm with user } : Vm).getPte (s.proc p).mm.pgDir addr
      = (pageAddr t, pageOf addr % 1024) :=
    fun _ => (getPte_of_table (h.spaces.space p hp) ht : s.vm.getPte (s.dir p) addr = _)
  have hzero : s.vm.table (pageAddr t) (pageOf addr % 1024) &&& 1 = 0 := by
    have hnone : presentPage (s.vm.pte (s.dir p) (pageOf addr)) = none := hempty
    rw [pte_of_some ht] at hnone
    exact presentPage_eq_none.mp hnone
  rw [Vm.notPresentMap, hpte]
  dsimp only
  rw [ASSERT_true hzero, ok_bind]
  exact ⟨_, rfl⟩

section
variable (h : CowInv totalMemSize s own) (htotal : totalMemSize ≤ 2 ^ 30) (hp : p < s.procs)
include h htotal hp

/-- The first part of a fault returns when both pools have a page. -/
theorem CowInv.notPresentAlloc_returns (hlo : USER_VADDR_START ≤ addr) (hhi : addr < TASK_SIZE)
    (hvas : findVma (s.proc p).mm addr = some vas) (hkernel : 0 < freeCount s.vm.buddy .kernel)
    (huser : 0 < freeCount s.vm.buddy .user) (current : Tid) :
    ∃ r, s.vm.notPresentAlloc (s.proc p).mm addr current = .ok r := by
  have hpool : poolOfFlag USER_POOL = .user := by decide
  -- a page for the process, after one for the table or without it
  have hpage : ∀ (vm : Vm) own', Owns totalMemSize vm.buddy s.others own' →
      0 < freeCount vm.buddy .user → ∃ r, vm.getZeroedPage USER_POOL current = .ok r := by
    intro vm own' howns hfree
    obtain ⟨⟨a, b⟩, hget⟩ := (getFreePage_iff howns htotal USER_POOL current).mpr
      (hpool.symm ▸ hasFree_of_freeCount hfree)
    exact ⟨_, getZeroedPage_ok hget⟩
  rw [notPresentAlloc_eq hlo hhi hvas, Vm.openTable]
  have hdir : s.vm.getPde (s.proc p).mm.pgDir addr = (s.dir p, pageOf addr / 1024) :=
    getPde_eq (h.spaces.space p hp) addr
  rw [hdir]
  dsimp only
  by_cases hempty : s.vm.table (s.dir p) (pageOf addr / 1024) &&& 1 = 0
  · rw [if_pos hempty]
    obtain ⟨a, b, hget, -, hsame⟩ := h.owns.kernelPage htotal hkernel current
    obtain ⟨t, rfl, -, -, howns, -⟩ := h.owns.getFreePage htotal hget
    rw [getZeroedPage_ok hget]
    exact hpage _ _ howns (hsame ▸ huser)
  · rw [if_neg hempty, pure_eq_ok, ok_bind]
    exact hpage s.vm own h.owns huser

end

/-- The two steps of a fault, from one part to the next. -/
theorem pageNotPresent_steps {vm₁ : Vm} (hs : (cowSystem totalMemSize).Reachable s)
    (hruns : s.Runs p) (hhi : addr < TASK_SIZE) (hwalk : s.vm.walk (s.dir p) addr = none)
    (halloc : s.vm.notPresentAlloc (s.proc p).mm addr current = .ok (buf, vm₁)) :
    ∃ s₁, (cowSystem totalMemSize).Reachable s₁ ∧ s₁.vm = vm₁ ∧ p < s₁.procs ∧ s₁.dir = s.dir ∧
      s₁.proc p = { s.proc p with fault := some (addr, buf) } ∧ s₁.eager = s.eager := by
  have hnext : s.next (.notPresent p addr current)
      = .ok ({ s with vm := vm₁ }.setProc p { s.proc p with fault := some (addr, buf) }) := by
    rw [CowState.next, halloc]
    rfl
  refine ⟨_, hs.step (a := .notPresent p addr current) ⟨hruns, hhi, hwalk⟩ hnext, rfl, hruns.1,
    dir_setProc rfl, Function.update_self _ _ _, rfl⟩

/-- A fault is two steps of a run, and the page has the content that `file_read` has given. -/
theorem pageNotPresent_reachable (hs : (cowSystem totalMemSize).Reachable s) (hruns : s.Runs p)
    (hwalk : s.vm.walk (s.dir p) addr = none)
    (hret : f.pageNotPresent s.vm (s.proc p).mm addr ioBuf current = .ok vm') :
    ∃ vas content s₂, findVma (s.proc p).mm addr = some vas ∧
      faultContent f vas addr (fun _ => 0) ioBuf = .ok content ∧
      (cowSystem totalMemSize).Reachable s₂ ∧ s₂.vm = vm' ∧ p < s₂.procs ∧ s₂.dir p = s.dir p ∧
      s₂.eager p (pageOf addr) = some content := by
  obtain ⟨hlo, hhi, vas, buf, vm₁, content, hvas, halloc, hread, hmap⟩ := pageNotPresent_parts hret
  obtain ⟨s₁, hs₁, rfl, hp₁, hdir₁, hproc₁, -⟩ := pageNotPresent_steps hs hruns hhi hwalk halloc
  have hfault₁ : (s₁.proc p).fault = some (addr, buf) := by rw [hproc₁]
  have hmm₁ : (s₁.proc p).mm = (s.proc p).mm := by rw [hproc₁]
  obtain ⟨own₁, h₁⟩ := exists_cowInv hs₁
  rw [h₁.waits_zero hp₁ hfault₁] at hread
  have hvas₁ := hvas
  rw [← hmm₁] at hmap hvas₁
  -- the second step
  have hnext : s₁.next (.mapped p fun _ _ => content)
      = .ok (({ s₁ with vm := vm' }.setProc p { s₁.proc p with fault := none }).setEager p
          (addr / PG_SIZE) ((Vm.pageContent (s₁.proc p).mm addr fun _ _ => content).getD
          fun _ => 0)) := by
    rw [CowState.next, hfault₁, deref_some, ok_bind]
    dsimp only
    rw [hmap]
    rfl
  have henabled : s₁.Enabled (.mapped p fun _ _ => content) := ⟨hp₁, by rw [hfault₁]; rfl⟩
  have hs₂ := hs₁.step (a := CowAct.mapped p fun _ _ => content) henabled hnext
  have hcontent : (Vm.pageContent (s₁.proc p).mm addr fun _ _ => content).getD (fun _ => 0)
      = content := by
    rw [Vm.pageContent, hvas₁, Option.bind_eq_bind, Option.bind_some]
    rw [faultContent] at hread
    cases hfile : vas.vmFile with
    | none =>
        rw [hfile] at hread
        exact Except.ok.inj hread
    | some file => rfl
  rw [hcontent] at hs₂
  refine ⟨vas, content, _, hvas, hread, hs₂, rfl, hp₁, ?_, ?_⟩
  · have hmm : ({ s₁.proc p with fault := none } : Proc).mm = (s₁.proc p).mm := rfl
    rw [← hdir₁]
    exact congrFun (dir_setProc (s := { s₁ with vm := vm' }) hmm) p
  · have heager := setEager_eager
      ({ s₁ with vm := vm' }.setProc p { s₁.proc p with fault := none }) p
      (addr / PG_SIZE) content (p, addr / PG_SIZE)
    rw [if_pos rfl] at heager
    exact heager

/-- After a fault the process reads the content that the fault has put into the page. -/
theorem pageNotPresent_userRead (hs : (cowSystem totalMemSize).Reachable s) (hruns : s.Runs p)
    (hwalk : s.vm.walk (s.dir p) addr = none)
    (hret : f.pageNotPresent s.vm (s.proc p).mm addr ioBuf current = .ok vm') :
    ∃ vas content, findVma (s.proc p).mm addr = some vas ∧
      faultContent f vas addr (fun _ => 0) ioBuf = .ok content ∧
      ∀ v, pageOf v = pageOf addr → vm'.userRead (s.dir p) v = some (content (v % PG_SIZE)) := by
  obtain ⟨vas, content, s₂, hvas, hread, hs₂, rfl, hp₂, hdir₂, heager⟩ :=
    pageNotPresent_reachable hs hruns hwalk hret
  refine ⟨vas, content, hvas, hread, fun v hv => ?_⟩
  have hhi := (pageNotPresent_area hret).2.1
  have hpage : v / PG_SIZE = addr / PG_SIZE := hv
  have hv' : v < TASK_SIZE := by
    rw [TASK_SIZE] at hhi ⊢
    rw [PG_SIZE] at hpage
    omega
  obtain ⟨own, h⟩ := exists_cowInv hs₂
  have hmain := h.userRead hp₂ hv'
  rw [hdir₂, show v / PG_SIZE = pageOf addr from hpage, heager] at hmain
  exact hmain

/-- A fault on a page that is not present returns, if both pools have a page and `file_read`
returns. -/
theorem pageNotPresent_returns (hs : (cowSystem totalMemSize).Reachable s) (hruns : s.Runs p)
    (hwalk : s.vm.walk (s.dir p) addr = none) (hlo : USER_VADDR_START ≤ addr)
    (hhi : addr < TASK_SIZE)
    (hvas : findVma (s.proc p).mm addr = some vas) (hkernel : 0 < freeCount s.vm.buddy .kernel)
    (huser : 0 < freeCount s.vm.buddy .user)
    (hread : faultContent f vas addr (fun _ => 0) ioBuf = .ok content) :
    ∃ vm', f.pageNotPresent s.vm (s.proc p).mm addr ioBuf current = .ok vm' := by
  obtain ⟨s₀, hinit⟩ := hs.exists_init
  obtain ⟨own, h⟩ := exists_cowInv hs
  obtain ⟨⟨buf, vm₁⟩, halloc⟩ :=
    h.notPresentAlloc_returns hinit.size.2 hruns.1 hlo hhi hvas hkernel huser current
  obtain ⟨s₁, hs₁, rfl, hp₁, hdir₁, hproc₁, heager₁⟩ :=
    pageNotPresent_steps hs hruns hhi hwalk halloc
  have hfault₁ : (s₁.proc p).fault = some (addr, buf) := by rw [hproc₁]
  have hmm₁ : (s₁.proc p).mm = (s.proc p).mm := by rw [hproc₁]
  obtain ⟨own₁, h₁⟩ := exists_cowInv hs₁
  -- the page of the address is still not present, since no process has got a page
  have hslot := mem_slots.mpr ⟨hp₁, pageOf_lt hhi⟩
  have hslot₀ : (p, pageOf addr) ∈ s.slots := mem_slots.mpr ⟨hruns.1, pageOf_lt hhi⟩
  have hempty : s₁.frame (p, pageOf addr) = none := by
    rw [← h₁.eager_eq_none hslot, heager₁, h.eager_eq_none hslot₀]
    exact walk_eq_none.mp hwalk
  obtain ⟨vm', hmap⟩ := h₁.notPresentMap_returns hp₁ hfault₁ hempty content
  rw [hmm₁] at hmap
  refine ⟨vm', ?_⟩
  rw [pageNotPresent_eq hlo hhi hvas halloc, h₁.waits_zero hp₁ hfault₁, hread, ok_bind]
  exact hmap

end

/-! ### A process without pages -/

/-- No file is open. -/
def noFiles : Files := { fs := smallFile 0 fun _ => 0, inode := fun _ => 0 }

/-- A process with the areas `areas`: the directory `d` leads to itself and to no page table. -/
def processWith (b : Buddy) (d : Nat) (areas : List VmAreaStruct) : CowState where
  vm := { buddy := b
          table := fun _ i =>
            if i = 1023 then paddrWord (pageAddr d) ||| (PG_SUPERVISOR ||| PG_P ||| PG_RWE) else 0
          user := fun _ _ => 0 }
  procs := 1
  proc := fun _ => { mm := { mmap := areas, pgDir := pageAddr d }, fault := none }
  others := bootLive
  eager := fun _ _ => none

section
variable {b : Buddy} {d page : Nat} {areas : List VmAreaStruct}

theorem processWith_tableIdx {i : Nat} (hi : i ≠ 1023) :
    (processWith b d areas).vm.tableIdx (pageAddr d) i = none := by
  simp [Vm.tableIdx, processWith, hi, presentPage]

theorem processWith_frame (hpage : page < USER_PAGES) :
    (processWith b d areas).vm.frame (pageAddr d) page = none :=
  frame_of_none (processWith_tableIdx (by
    have hdiv : page / 1024 < 768 := div_lt_fullLim hpage 0
    omega))

theorem processWith_init (hs : (buddySystem 0x2000000).Reachable
    ⟨b, Function.update bootLive .kernel (⟨d, 0⟩ ::ₘ bootLive .kernel)⟩) :
    CowState.Init 0x2000000 (processWith b d areas) := by
  have hblocks : bootLive + pageBlock (firstOwn d)
      = Function.update bootLive .kernel (⟨d, 0⟩ ::ₘ bootLive .kernel) := by
    exact others_firstOwn bootLive d
  rw [← hblocks] at hs
  have hmem : d ∈ firstOwn d .kernel := by simp [firstOwn]
  have hd : d < MAX_PAGES := (owns_of_reachable (by decide) hs).lt_maxPages (by decide) hmem
  have hself : (processWith b d areas).vm.tableIdx (pageAddr d) 1023 = some d :=
    presentPage_paddrWord hd (by decide) (by decide)
  refine ⟨by decide, rfl, rfl, ⟨firstOwn d, ⟨⟨d, hmem, rfl, hself⟩, fun i hi => ?_,
    fun page hpage => ?_⟩, hs⟩, fun i j t hi hj hti htj => ?_, fun page hpage f hf => ?_,
    fun page hpage => ?_⟩
  · have hne : i ≠ 1023 := by omega
    refine .inl ?_
    simp [processWith, hne]
  · have hdiv : page / 1024 ≠ 1023 := by omega
    have hpte : (processWith b d areas).vm.pte (pageAddr d) page = 0 :=
      pte_of_none (processWith_tableIdx hdiv)
    show PageEntry _ _ ((processWith b d areas).vm.pte (pageAddr d) page)
    rw [hpte]
    exact .inl (by decide)
  · -- only the entry 1023 is present
    have hlast : ∀ k, (processWith b d areas).vm.tableIdx (pageAddr d) k = some t → k = 1023 := by
      intro k hk
      by_contra hne
      rw [processWith_tableIdx hne] at hk
      exact absurd hk (by simp)
    rw [hlast i hti, hlast j htj]
  · have hnone : (processWith b d areas).frame (0, page) = none := processWith_frame hpage
    rw [hnone] at hf
    exact absurd hf (by simp)
  · have hnone : (processWith b d areas).frame (0, page) = none := processWith_frame hpage
    rw [hnone]
    rfl

end

/-- On a machine with 32 MiB, behind `pool_init`, there is a process with any areas and no page, and
both pools have pages. -/
theorem exists_process (areas : List VmAreaStruct) : ∃ s, (cowSystem 0x2000000).Reachable s ∧
    s.Runs 0 ∧ (s.proc 0).mm.mmap = areas ∧ (∀ addr < TASK_SIZE, s.vm.walk (s.dir 0) addr = none) ∧
    0 < freeCount s.vm.buddy .kernel ∧ 0 < freeCount s.vm.buddy .user := by
  have hpool : ∀ P, 0 < poolBlocks 0x2000000 P := by
    intro P
    cases P <;> decide
  obtain ⟨b₀, rest, -, hs₀, hinv⟩ := exists_boot hpool (by decide)
  have hkernel₀ := freeCount_eq hinv .kernel
  have huser₀ := freeCount_eq hinv .user
  rw [show Tiles.weight (bootLive .kernel) = 1024 by decide,
    show poolHi 0x2000000 .kernel - poolLo 0x2000000 .kernel = 2048 by decide] at hkernel₀
  rw [show Tiles.weight (bootLive .user) = 0 by decide,
    show poolHi 0x2000000 .user - poolLo 0x2000000 .user = 6144 by decide] at huser₀
  -- one page for the directory
  have hk : poolOfFlag KERNEL_POOL = .kernel := by decide
  obtain ⟨d, b, hs, -, -, -, hcount⟩ :=
    reachable_page hs₀ (by decide) KERNEL_POOL (by rw [hk]; omega)
  rw [hk] at hs hcount
  have hkernel := hcount .kernel
  have huser := hcount .user
  rw [if_pos rfl] at hkernel
  rw [if_neg (by decide)] at huser
  refine ⟨processWith b d areas, .init (processWith_init hs), ⟨Nat.one_pos, rfl⟩, rfl,
    fun addr haddr => ?_, ?_, ?_⟩
  · exact walk_of_none (processWith_frame (pageOf_lt haddr))
  · show 0 < freeCount b .kernel
    omega
  · show 0 < freeCount b .user
    omega

end Fizzos.Proofs
