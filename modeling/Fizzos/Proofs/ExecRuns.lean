import Fizzos.Proofs.ExecReads

/-!
# `Fizzos.Proofs.ExecRuns`: one program in two runs

`file_read` leaves `elf_head` behind the end of a short file alone, and the program headers can lie
behind `elf_head`. There `do_exec` finds what the run has left, so one file can load in two ways.

`ReadsOwn` says that the bytes that count come from the file. Then the load does not depend on the
run (`doExec_load`). Two copies of a file are different files to the areas that map them, so the
loads are compared without the names of the files (`unfiled`).
-/

set_option autoImplicit false

namespace Fizzos.Proofs

open Fizzos.Fs
open Fizzos.Kernel
open Fizzos.Lib
open Fizzos.Support

/-! ### Areas without their files -/

/-- The area. Its file stays a file, but not a certain one. -/
def unfiled (v : VmAreaStruct) : VmAreaStruct := { v with vmFile := v.vmFile.map fun _ => 0 }

/-- The areas, without the page directory. -/
def mmUnfiled (mm : MmStruct) : MmStruct := ⟨mm.mmap.map unfiled, 0⟩

/-- What a load makes: the areas and the entry point. -/
def load (x : Execed) : List VmAreaStruct × Nat := (x.mm.mmap.map unfiled, x.newEip)

@[simp] theorem unfiled_vmStart (v : VmAreaStruct) : (unfiled v).vmStart = v.vmStart := rfl

@[simp] theorem unfiled_vmEnd (v : VmAreaStruct) : (unfiled v).vmEnd = v.vmEnd := rfl

section
variable {mm : MmStruct} {mem : Bytes} {file : Nat}

/-- The search looks at the ends of the areas. -/
theorem mmapSearch_unfiled (len addr : Nat) (before behind : List VmAreaStruct)
    (vma : VmAreaStruct) :
    mmapSearch len addr (before.map unfiled) (unfiled vma) (behind.map unfiled)
      = let c := mmapSearch len addr before vma behind
        ⟨c.addr, c.before.map unfiled, unfiled c.vma, c.behind.map unfiled⟩ := by
  induction behind generalizing addr before vma with
  | nil => rfl
  | cons next behind ih =>
      rw [List.map_cons, mmapSearch, mmapSearch, unfiled_vmStart, unfiled_vmEnd]
      by_cases hgo : next.vmStart < addr ∨ sub32 next.vmStart (max vma.vmEnd addr) < len
      · have hrest := ih (max addr vma.vmEnd) (before ++ [vma]) next
        rw [List.map_append] at hrest
        rw [if_pos hgo, if_pos hgo]
        exact hrest
      · rw [if_neg hgo, if_neg hgo]
        rfl

/-- The place of a new area does not depend on the files of the others. -/
theorem mmapPlace_unfiled (mm : MmStruct) (addr len : Nat) :
    mmapPlace (mmUnfiled mm) addr len
      = (mmapPlace mm addr len).map fun r => (r.1, r.2.1.map unfiled, r.2.2.map unfiled) := by
  rw [mmapPlace, mmapPlace, mmUnfiled]
  cases mm.mmap with
  | nil => rfl
  | cons vma behind =>
      have hsearch := mmapSearch_unfiled len addr [] behind vma
      rw [List.map_nil] at hsearch
      simp only [List.map_cons, hsearch]
      generalize mmapSearch len addr [] vma behind = c
      have htouches : MmapCursor.Touches
          ⟨c.addr, c.before.map unfiled, unfiled c.vma, c.behind.map unfiled⟩ len
            ↔ c.Touches len := by
        rw [MmapCursor.Touches, MmapCursor.Touches]
        cases c.behind with
        | nil => simp
        | cons next rest => simp
      by_cases hend : add32 c.vma.vmEnd len ≥ 0xc0000000
      · rw [if_pos hend]
        exact if_pos hend
      · rw [if_neg hend, unfiled_vmEnd, if_neg hend]
        by_cases htouch : c.Touches len
        · rw [if_pos htouch, if_pos (htouches.mpr htouch)]
          rfl
        · rw [if_neg htouch, if_neg (mt htouches.mp htouch)]
          simp [Except.map, pure, Except.pure]

/-- `do_mmap` makes the same areas for every file. -/
theorem doMmap_unfiled (mm : MmStruct) (file : Option Nat) (addr len prot offset : Nat) :
    doMmap (mmUnfiled mm) (file.map fun _ => 0) addr len prot offset
      = (doMmap mm file addr len prot offset).map fun r => (r.1, mmUnfiled r.2) := by
  rw [doMmap, doMmap]
  split
  · rfl
  split
  · rfl
  split
  · rfl
  rw [mmapPlace_unfiled]
  cases mmapPlace mm addr len with
  | error e => rfl
  | ok r =>
      simp only [Except.map, ok_bind]
      by_cases hassert : r.1 ≥ USER_VADDR_START ∧ add32 r.1 len ≤ TASK_SIZE ∧ r.1 < add32 r.1 len
      · rw [ASSERT_true hassert, ok_bind, ok_bind]
        simp [mmUnfiled, unfiled, pure, Except.pure]
      · rw [ASSERT_false hassert]
        rfl

/-- Without the files, the areas of the segments are the same for every file. -/
theorem mmapSegments_unfiled (mm : MmStruct) (file : Nat) (gs : List Segment) :
    mmapSegments 0 gs (mmUnfiled mm) = (mmapSegments file gs mm).map mmUnfiled := by
  induction gs generalizing mm with
  | nil => rfl
  | cons g rest ih =>
      have hmap := doMmap_unfiled mm (some file) g.vaddr g.memsz 0 g.offset
      rw [Option.map_some] at hmap
      rw [mmapSegments, mmapSegments, hmap]
      cases doMmap mm (some file) g.vaddr g.memsz 0 g.offset with
      | error e => rfl
      | ok r => exact ih r.2

/-- So the loop over the headers gives the same areas. -/
theorem phdrLoop_unfiled (mem : Bytes) (file : Nat) (is : List Nat) (mm : MmStruct) :
    phdrLoop mem 0 is (mmUnfiled mm) = (phdrLoop mem file is mm).map mmUnfiled := by
  rw [phdrLoop_eq, phdrLoop_eq, mmapSegments_unfiled]

/-- The load is a function of `elf_head` and the memory behind it. -/
def loadOf (mem : Bytes) : Except Halt (List VmAreaStruct × Nat) :=
  (execMem 0 ⟨[], 0⟩ mem).map fun x => (x.mm.mmap, x.newEip)

/-- Neither the file nor the areas from before are in what is loaded. -/
theorem execMem_load (file : Nat) (mm : MmStruct) (mem : Bytes) :
    (execMem file mm mem).map load = loadOf mem := by
  rw [loadOf, execMem, execMem]
  by_cases hmagic : memcmp mem elfMagic 16 ≠ 0
  · rw [if_pos hmagic, if_pos hmagic]
    rfl
  rw [if_neg hmagic, if_neg hmagic]
  have hloop := phdrLoop_unfiled mem file (List.range (ePhnum mem)) { mm with mmap := [] }
  replace hloop : phdrLoop mem 0 (List.range (ePhnum mem)) ⟨[], 0⟩ = _ := hloop
  rw [hloop]
  cases phdrLoop mem file (List.range (ePhnum mem)) { mm with mmap := [] } with
  | error e => rfl
  | ok mm' =>
      -- the stack has no file
      have hstack := doMmap_unfiled mm' none (TASK_SIZE - PG_SIZE * 2) (PG_SIZE * 2) 0 0
      rw [Option.map_none] at hstack
      simp only [Except.map, ok_bind, hstack]
      cases doMmap mm' none (TASK_SIZE - PG_SIZE * 2) (PG_SIZE * 2) 0 0 with
      | error e => rfl
      | ok r => rfl

end

/-! ### What every run finds -/

/-- The byte `k` behind `file_read`, if it is the same in every run. It comes from the file, or it
is the last byte of `elf_head`, which `file_read` does not reach. -/
def runByte (size : Nat) (bytes : Bytes) (k : Nat) : Option (BitVec 8) :=
  if k < min 200 size then some (bytes k) else if k = 200 then some 0 else none

/-- No run finds `v` in the field at `o`. -/
def NeverHolds (size : Nat) (bytes : Bytes) (o v : Nat) : Prop :=
  ∃ j < 4, ∃ b ∈ runByte size bytes ((o + j) % 2 ^ 32), b ≠ byteLE v j

/-- The header `i` is for no segment in any run: its type is wrong, or its flags are. -/
def NeverMapped (size : Nat) (bytes : Bytes) (i : Nat) : Prop :=
  NeverHolds size bytes (pheadOff bytes i) ELF_LOAD ∨
    ∀ flags, MappedFlags flags → NeverHolds size bytes (pheadOff bytes i + 24) flags

/-- Every run finds the same fields in the header `i`. -/
def SameFields (size : Nat) (bytes : Bytes) (i : Nat) : Prop :=
  ∀ o, o < 12 ∨ 20 ≤ o ∧ o < 28 → (runByte size bytes ((pheadOff bytes i + o) % 2 ^ 32)).isSome

/-- The bytes that count come from the file: they show that it is not executable, or they are the
whole ELF header, and each program header that the loop comes to. -/
def ReadsOwn (size : Nat) (bytes : Bytes) : Prop :=
  (∃ k < min 16 size, bytes k ≠ elfMagic k) ∨
    46 ≤ size ∧ ∀ i < ePhnum bytes, Comes (elfHead size bytes fun _ => 0) 0 ⟨[], 0⟩ i →
      NeverMapped size bytes i ∨ SameFields size bytes i

/-- The rest of `do_exec` does not write there. -/
theorem execMem_mem {file : Nat} {mm : MmStruct} {mem : Bytes} {x : Execed}
    (h : execMem file mm mem = .ok x) : x.mem = mem := by
  rw [execMem] at h
  split at h
  · cases h
  · obtain ⟨mm₁, -, h⟩ := bind_eq_ok.mp h
    obtain ⟨r, -, h⟩ := bind_eq_ok.mp h
    cases h
    rfl

/-- No program changes the last byte of `elf_head`. -/
theorem execSystem_last : execSystem.Inductive fun mem => mem 200 = 0 where
  init h := h 200 (by decide)
  step := by
    intro mem mem' a hlast henabled hnext
    cases a with
    | other mem₁ =>
        cases hnext
        exact (henabled 200 (by decide)).trans hlast
    | exec s p file mm ioBuf =>
        replace hnext : (doExec s p file mm mem ioBuf).map Execed.mem = .ok mem' := hnext
        cases hread : fileRead s p mem 200 0 ioBuf with
        | error e =>
            rw [doExec, hread] at hnext
            cases hnext
        | ok r =>
            rw [doExec_eq hread] at hnext
            cases hexec : execMem file mm r.2.2 with
            | error e =>
                rw [hexec] at hnext
                cases hnext
            | ok x =>
                rw [hexec] at hnext
                cases hnext
                show x.mem 200 = 0
                rw [execMem_mem hexec]
                exact (fileRead_outside hread (Nat.le_refl _)).trans hlast

section
variable {size i k o v : Nat} {bytes mem mem₁ mem₂ : Bytes} {b : BitVec 8}

/-- The ELF header comes from the file. -/
theorem elfHead_own (hsize : 46 ≤ size) : ∀ k < 46, elfHead size bytes mem k = bytes k :=
  fun _ hk => if_pos (by omega)

/-- A byte that is the same in every run. -/
theorem elfHead_runByte (hrun : execSystem.Reachable mem) (hb : b ∈ runByte size bytes k) :
    elfHead size bytes mem k = b := by
  rw [runByte] at hb
  rw [elfHead]
  by_cases hfile : k < min 200 size
  · rw [if_pos hfile] at hb ⊢
    exact Option.some.inj hb
  · rw [if_neg hfile] at hb ⊢
    split at hb
    · rename_i hlast
      rw [hlast, execSystem_last.reachable hrun]
      exact Option.some.inj hb
    · cases hb

/-- A field that the file contradicts has another value in every run. -/
theorem NeverHolds.ne (h : NeverHolds size bytes o v) (hrun : execSystem.Reachable mem) :
    load32 (atHead (elfHead size bytes mem)) o ≠ v := by
  obtain ⟨j, hj, b, hb, hne⟩ := h
  intro heq
  apply hne
  rw [← heq, byteLE_loadLE hj]
  exact (elfHead_runByte hrun hb).symm

/-- A header that is for no segment. -/
theorem NeverMapped.segment (h : NeverMapped size bytes i) (hrun : execSystem.Reachable mem)
    (hoff : pheadOff (elfHead size bytes mem) i = pheadOff bytes i) :
    (phead (elfHead size bytes mem) i).segment = none := by
  rw [Phdr.segment]
  rcases h with htype | hflags
  · refine if_neg (mt And.left ?_)
    show load32 (atHead (elfHead size bytes mem)) (pheadOff (elfHead size bytes mem) i) ≠ ELF_LOAD
    rw [hoff]
    exact htype.ne hrun
  · refine if_neg fun hmapped => ?_
    refine (hflags _ hmapped.2).ne hrun ?_
    rw [← hoff]
    rfl

/-- Two runs find the same segment. -/
theorem segment_eq (h : NeverMapped size bytes i ∨ SameFields size bytes i)
    (h₁ : execSystem.Reachable mem₁) (h₂ : execSystem.Reachable mem₂) (hsize : 46 ≤ size) :
    (phead (elfHead size bytes mem₁) i).segment = (phead (elfHead size bytes mem₂) i).segment := by
  have hoff : ∀ mem, pheadOff (elfHead size bytes mem) i = pheadOff bytes i := by
    intro mem
    rw [pheadOff, pheadOff, ePhoff_congr (elfHead_own hsize)]
  rcases h with hnever | hsame
  · rw [hnever.segment h₁ (hoff _), hnever.segment h₂ (hoff _)]
  · congr 1
    refine phead_congr ((hoff _).trans (hoff _).symm) fun o ho => ?_
    rw [hoff]
    obtain ⟨b, hb⟩ := Option.isSome_iff_exists.mp (hsame o ho)
    exact (elfHead_runByte h₁ hb).trans (elfHead_runByte h₂ hb).symm

/-- The loop over the first program headers does the same in every run. -/
theorem phdrLoop_own (hsize : 46 ≤ size)
    (hown : ∀ i < k, Comes (elfHead size bytes fun _ => 0) 0 ⟨[], 0⟩ i →
      NeverMapped size bytes i ∨ SameFields size bytes i)
    (hrun : execSystem.Reachable mem) :
    phdrLoop (elfHead size bytes mem) 0 (List.range k) ⟨[], 0⟩
      = phdrLoop (elfHead size bytes fun _ => 0) 0 (List.range k) ⟨[], 0⟩ := by
  have hinit : execSystem.Reachable fun _ => 0 := .init fun _ _ => rfl
  induction k with
  | zero => rfl
  | succ k ih =>
      rw [List.range_succ, phdrLoop_append, phdrLoop_append,
        ih fun i hi hcomes => hown i (Nat.lt_succ_of_lt hi) hcomes]
      cases hloop : phdrLoop (elfHead size bytes fun _ => 0) 0 (List.range k) ⟨[], 0⟩ with
      | error e => rfl
      | ok mm =>
          -- the loop comes to the header `k`
          have hsegment := segment_eq (hown k (Nat.lt_succ_self k) ⟨mm, hloop⟩) hrun hinit hsize
          rw [ok_bind, ok_bind, phdrLoop_eq, phdrLoop_eq, List.filterMap_cons, List.filterMap_cons,
            hsegment]
          rfl

/-- The load is that of a run without programs. -/
theorem ReadsOwn.loadOf (hown : ReadsOwn size bytes) (hrun : execSystem.Reachable mem) :
    loadOf (elfHead size bytes mem) = loadOf (elfHead size bytes fun _ => 0) := by
  rw [Proofs.loadOf, Proofs.loadOf, execMem, execMem]
  rcases hown with ⟨k, hk, hno⟩ | ⟨hsize, hown⟩
  · -- the file is not executable
    have hpanic : ∀ mem, memcmp (elfHead size bytes mem) elfMagic 16 ≠ 0 := by
      intro mem hmagic
      have hbyte := (memcmp_magic _).mp hmagic k (by omega)
      rw [elfHead, if_pos (by omega)] at hbyte
      exact hno hbyte
    rw [if_pos (hpanic mem), if_pos (hpanic _)]
  · have hmagic : memcmp (elfHead size bytes mem) elfMagic 16 ≠ 0
        ↔ memcmp (elfHead size bytes fun _ => 0) elfMagic 16 ≠ 0 := by
      rw [Ne, Ne, memcmp_magic, memcmp_magic]
      refine not_congr (forall₂_congr fun k hk => ?_)
      rw [elfHead_own hsize k (by omega), elfHead_own hsize k (by omega)]
    have hphnum : ∀ mem, ePhnum (elfHead size bytes mem) = ePhnum bytes :=
      fun mem => ePhnum_congr (elfHead_own hsize)
    have hentry : ∀ mem, eEntry (elfHead size bytes mem) = eEntry bytes :=
      fun mem => eEntry_congr (elfHead_own hsize)
    by_cases hpanic : memcmp (elfHead size bytes fun _ => 0) elfMagic 16 ≠ 0
    · rw [if_pos hpanic, if_pos (hmagic.mpr hpanic)]
    · rw [if_neg hpanic, if_neg (mt hmagic.mp hpanic)]
      have hloop := phdrLoop_own hsize hown hrun
      rw [hphnum, hphnum, hentry, hentry, hloop]
      cases phdrLoop (elfHead size bytes fun _ => 0) 0 (List.range (ePhnum bytes)) ⟨[], 0⟩ with
      | error e => rfl
      | ok mm =>
          rw [ok_bind, ok_bind]
          cases doMmap mm none (TASK_SIZE - PG_SIZE * 2) (PG_SIZE * 2) 0 0 with
          | error e => rfl
          | ok r => rfl

/-- The load of a program is that of the header that the read leaves. -/
theorem load_run {s : FileSys} {p : Nat} (hc : HasContent s p size bytes) (file : Nat)
    (mm : MmStruct) (mem ioBuf : Bytes) :
    (doExec s p file mm mem ioBuf).map load = loadOf (elfHead size bytes mem) := by
  rw [doExec_eq (execRead hc mem ioBuf), execMem_load]

/-- Two runs load the same program from two copies of a file, if the bytes that count are its
own. -/
theorem doExec_load {s₁ s₂ : FileSys} {p₁ p₂ : Nat} (hown : ReadsOwn size bytes)
    (hc₁ : HasContent s₁ p₁ size bytes) (hc₂ : HasContent s₂ p₂ size bytes)
    (h₁ : execSystem.Reachable mem₁) (h₂ : execSystem.Reachable mem₂)
    (file₁ file₂ : Nat) (mm₁ mm₂ : MmStruct) (ioBuf₁ ioBuf₂ : Bytes) :
    (doExec s₁ p₁ file₁ mm₁ mem₁ ioBuf₁).map load
      = (doExec s₂ p₂ file₂ mm₂ mem₂ ioBuf₂).map load := by
  rw [load_run hc₁, load_run hc₂, hown.loadOf h₁, hown.loadOf h₂]

end

/-- A program without program headers runs in every state. -/
theorem execMem_noHeaders (file : Nat) (mm : MmStruct) (mem : Bytes) :
    ∃ x, execMem file mm (elfHead 4096 (emptyHeaders 0) mem) = .ok x := by
  have hmagic : memcmp (elfHead 4096 (emptyHeaders 0) mem) elfMagic 16 = 0 := rfl
  have hphnum : ePhnum (elfHead 4096 (emptyHeaders 0) mem) = 0 := rfl
  rw [execMem, if_neg (not_not_intro hmagic), hphnum]
  exact ⟨_, rfl⟩

/-- What the program without program headers leaves in `elf_head`. -/
theorem noHeaders_reachable :
    execSystem.Reachable (elfHead 4096 (emptyHeaders 0) fun _ => 0) := by
  refine .step (a := .exec (smallFile 4096 (emptyHeaders 0)) 0 0 ⟨[], 0⟩ fun _ => 0)
    (.init fun _ _ => rfl) trivial ?_
  obtain ⟨x, hexec⟩ := execMem_noHeaders 0 ⟨[], 0⟩ fun _ => 0
  have hret : doExec (smallFile 4096 (emptyHeaders 0)) 0 0 ⟨[], 0⟩ (fun _ => 0) (fun _ => 0)
      = .ok x := by
    rw [doExec_eq (execRead (emptyHeaders_content 0) _ _)]
    exact hexec
  show (doExec (smallFile 4096 (emptyHeaders 0)) 0 0 ⟨[], 0⟩ (fun _ => 0) fun _ => 0).map
    Execed.mem = _
  rw [hret, ← execMem_mem hexec]
  rfl

/-- A program of 4096 bytes with four headers in the first 200 of them. -/
theorem doExec_load_four :
    (doExec (smallFile 4096 (emptyHeaders 4)) 0 1 ⟨[], 0⟩ (fun _ => 0) fun _ => 0).map load
      = (doExec (smallFile 4096 (emptyHeaders 4)) 0 2 ⟨[], 0⟩
          (elfHead 4096 (emptyHeaders 0) fun _ => 0) fun _ => 0).map load := by
  refine doExec_load (.inr ⟨by omega, fun i hi _ => .inl (.inl ?_)⟩) (emptyHeaders_content 4)
    (emptyHeaders_content 4) (.init fun _ _ => rfl) noHeaders_reachable 1 2 _ _ _ _
  -- the type of every header is 0
  have hphnum : ePhnum (emptyHeaders 4) = 4 := by decide +kernel
  have htype : ∀ i < 4,
      0 ∈ runByte 4096 (emptyHeaders 4) ((pheadOff (emptyHeaders 4) i + 0) % 2 ^ 32) := by
    decide +kernel
  exact ⟨0, by omega, 0, htype i (hphnum ▸ hi), by decide⟩

/-- An empty file is not executable at first. Behind a program it is this program, since `file_read`
leaves the buffer alone and nothing clears it in between. -/
theorem doExec_load_empty :
    ¬∀ (size : Nat) (bytes mem₁ mem₂ : Bytes) (s₁ s₂ : FileSys) (p₁ p₂ file₁ file₂ : Nat)
      (mm₁ mm₂ : MmStruct) (ioBuf₁ ioBuf₂ : Bytes),
      HasContent s₁ p₁ size bytes → HasContent s₂ p₂ size bytes →
      execSystem.Reachable mem₁ → execSystem.Reachable mem₂ →
      (doExec s₁ p₁ file₁ mm₁ mem₁ ioBuf₁).map load
        = (doExec s₂ p₂ file₂ mm₂ mem₂ ioBuf₂).map load := by
  intro hall
  have hempty : HasContent (smallFile 0 fun _ => 0) 0 0 fun _ => 0 := smallFile_content (by omega)
  have hsame := hall 0 (fun _ => 0) (fun _ => 0) (elfHead 4096 (emptyHeaders 0) fun _ => 0) _ _ 0 0
    0 0 ⟨[], 0⟩ ⟨[], 0⟩ (fun _ => 0) (fun _ => 0) hempty hempty (.init fun _ _ => rfl)
    noHeaders_reachable
  obtain ⟨x, hexec⟩ := execMem_noHeaders 0 ⟨[], 0⟩ fun _ => 0
  have hpanic : memcmp (elfHead 0 (fun _ => 0) fun _ => 0) elfMagic 16 ≠ 0 := by decide +kernel
  have hstop : loadOf (elfHead 0 (fun _ => 0) fun _ => 0) = .error .panic := by
    rw [loadOf, execMem, if_pos hpanic]
    rfl
  rw [load_run hempty, load_run hempty, hstop] at hsame
  have hprev : elfHead 0 (fun _ => 0) (elfHead 4096 (emptyHeaders 0) fun _ => 0)
      = elfHead 4096 (emptyHeaders 0) fun _ => 0 := rfl
  rw [hprev, loadOf, hexec] at hsame
  cases hsame

end Fizzos.Proofs
