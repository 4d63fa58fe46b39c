import Fizzos.Proofs.ExecAreas
import Fizzos.Proofs.FaultRuns
import Mathlib.Data.List.Find

/-!
# `Fizzos.Proofs.DemandPaging`: what a program sees of its file

`page_not_present` computes the place in the file from the distance to the start of the area,
rounded down to pages. The page itself is rounded down from the address. For a segment whose address
is not page-aligned the two do not fit together: the page shows the bytes at the distance
`p_vaddr % 4096` behind the right ones, or 4096 bytes before that (`fileOff_area`).

`showsFile_iff` says when the program sees the bytes of its file anyway. `do_exec` maps no area for
a segment with other flags than `R`, `RW` and `RX`, and a fault there takes the next area.

The program headers are those that `do_exec` reads.
-/

set_option autoImplicit false

namespace Fizzos.Proofs

open Fizzos.Device
open Fizzos.Fs
open Fizzos.Kernel
open Fizzos.Lib
open Fizzos.Support

/-! ### The segments of an ELF file -/

/-- `(phead + i)->p_filesz`. -/
def pFilesz (mem : Bytes) (i : Nat) : Nat := load32 (atHead mem) (pheadOff mem i + 16)

/-- What the ELF format says about the segments of a program. -/
structure ElfOk (mem : Bytes) : Prop where
  ascending : ∀ i j, i < j → j < ePhnum mem → (phead mem i).pType = ELF_LOAD →
    (phead mem j).pType = ELF_LOAD →
    (phead mem i).pVaddr + (phead mem i).pMemsz ≤ (phead mem j).pVaddr
  filesz : ∀ i < ePhnum mem, (phead mem i).pType = ELF_LOAD → pFilesz mem i ≤ (phead mem i).pMemsz

section
variable {mem : Bytes} {ph : Phdr} {g : Segment} {i : Nat}

theorem segment_eq_some (h : ph.segment = some g) : ph.pType = ELF_LOAD ∧ g.vaddr = ph.pVaddr ∧
    g.memsz = ph.pMemsz ∧ g.offset = ph.pOffset ∧ MappedFlags ph.pFlags := by
  rw [Phdr.segment] at h
  split at h
  · rename_i hmapped
    obtain rfl := Option.some.inj h
    exact ⟨hmapped.1, rfl, rfl, rfl, hmapped.2⟩
  · cases h

/-- The segments of an ELF file are in order. -/
theorem ElfOk.segmentsOk (h : ElfOk mem) : SegmentsOk (segments mem) := by
  constructor
  · have hrange : (List.range (ePhnum mem)).Pairwise fun i j => i < j ∧ j < ePhnum mem := by
      refine List.pairwise_lt_range.imp_of_mem fun _ hj hlt => ⟨hlt, List.mem_range.mp hj⟩
    refine hrange.filterMap _ fun i j hij g hg g' hg' => ?_
    obtain ⟨hload, hvaddr, hmemsz, -⟩ := segment_eq_some hg
    obtain ⟨hload', hvaddr', -⟩ := segment_eq_some hg'
    rw [hvaddr, hmemsz, hvaddr']
    exact h.ascending i j hij.1 hij.2 hload hload'
  · intro g hg
    obtain ⟨i, -, hi⟩ := List.mem_filterMap.mp hg
    obtain ⟨-, hvaddr, hmemsz, -⟩ := segment_eq_some hi
    rw [hvaddr, hmemsz]
    exact ⟨loadLE_lt 4 _ _, loadLE_lt 4 _ _⟩

theorem mem_segments (hi : i < ePhnum mem) (h : (phead mem i).segment = some g) :
    g ∈ segments mem := List.mem_filterMap.mpr ⟨i, List.mem_range.mpr hi, h⟩

end

/-! ### What a page shows -/

/-- A byte of a file, with zeros behind its end. -/
def fileByte (size : Nat) (bytes : Bytes) (x : Nat) : BitVec 8 := if x < size then bytes x else 0

/-- The byte `k` of a page that a fault at the address `a` of an area gets. -/
def shownByte (size : Nat) (bytes : Bytes) (vas : VmAreaStruct) (a k : Nat) : BitVec 8 :=
  match vas.vmFile with
  | some _ => fileByte size bytes (Vm.fileOff vas a + k)
  | none => 0

/-- The fault at `a` finds the area, and `file_read` does not start behind the end of the file. -/
structure Faults (size : Nat) (mm : MmStruct) (a : Nat) (vas : VmAreaStruct) : Prop where
  range : USER_VADDR_START ≤ a ∧ a < TASK_SIZE
  found : findVma mm a = some vas
  inside : vas.vmFile ≠ none → Vm.fileOff vas a ≤ size

/-- The file of a program, as the kernel has it open: the areas with a file have this one. -/
structure ProgramFile (f : Files) (mm : MmStruct) (size : Nat) (bytes : Bytes) : Prop where
  content : ∀ vas ∈ mm.mmap, ∀ file, vas.vmFile = some file →
    HasContent f.fs (f.inode file) size bytes

section
variable {f : Files} {mm : MmStruct} {size a : Nat} {bytes ioBuf : Bytes} {vas : VmAreaStruct}
  {content : Nat → UInt8}

/-- `file_read` of a page returns from a place in the file only, with the bytes of the file. -/
theorem ProgramFile.faultContent (h : ProgramFile f mm size bytes) (hmem : vas ∈ mm.mmap) :
    ((vas.vmFile ≠ none → Vm.fileOff vas a ≤ size) →
      ∃ content, Proofs.faultContent f vas a (fun _ => 0) ioBuf = .ok content) ∧
    ∀ content, Proofs.faultContent f vas a (fun _ => 0) ioBuf = .ok content →
      (vas.vmFile ≠ none → Vm.fileOff vas a ≤ size) ∧
      ∀ k < PG_SIZE, content k = UInt8.ofBitVec (shownByte size bytes vas a k) := by
  rw [Proofs.faultContent]
  unfold shownByte
  cases hfile : vas.vmFile with
  | none =>
      refine ⟨fun _ => ⟨_, rfl⟩, fun content hread => ⟨fun hne => absurd rfl hne, fun k _ => ?_⟩⟩
      rw [← Except.ok.inj hread]
      rfl
  | some file =>
      have hc := h.content vas hmem file hfile
      dsimp only
      by_cases hoff : Vm.fileOff vas a ≤ size
      · obtain ⟨dest, hret, hdest⟩ := hc.fileRead hoff (fun k => (0 : UInt8).toBitVec) ioBuf PG_SIZE
        rw [hret, ok_bind]
        refine ⟨fun _ => ⟨_, rfl⟩, fun content hread => ⟨fun _ => hoff, fun k hk => ?_⟩⟩
        rw [← Except.ok.inj hread]
        show UInt8.ofBitVec (dest k) = _
        rw [hdest, fileByte]
        -- Behind the end of the file the page keeps its zeros.
        by_cases hin : Vm.fileOff vas a + k < size
        · rw [if_pos (by omega), if_pos hin]
        · rw [if_neg (by omega), if_neg hin]
          rfl
      · rw [hc.fileRead_behind (Nat.lt_of_not_le hoff)]
        exact ⟨fun hle => absurd (hle (by simp)) hoff, fun content hread => by cases hread⟩

end

/-! ### What a program sees -/

/-- A fault at `a`, anywhere in the segment, and an address `v` of the same page in the part that
comes from the file. -/
structure SamePage (ph : Phdr) (filesz a v : Nat) : Prop where
  fault : ph.pVaddr ≤ a ∧ a < ph.pVaddr + ph.pMemsz
  addr : ph.pVaddr ≤ v ∧ v < ph.pVaddr + filesz
  page : pageOf v = pageOf a

/-- After the first fault in a page of the segment, its bytes are those of the file. A process in a
run has the areas of the program, and the page is not present before the fault. -/
def ShowsFile (mm : MmStruct) (size : Nat) (bytes : Bytes) (ph : Phdr) (filesz : Nat) : Prop :=
  ∀ (f : Files) (totalMemSize : Nat) (t : CowState) (q a v : Nat) (ioBuf : Bytes) (current : Tid)
    (vm' : Vm), ProgramFile f mm size bytes → (cowSystem totalMemSize).Reachable t → t.Runs q →
    (t.proc q).mm.mmap = mm.mmap → t.vm.walk (t.dir q) a = none → SamePage ph filesz a v →
    f.pageNotPresent t.vm (t.proc q).mm a ioBuf current = .ok vm' →
    vm'.userRead (t.dir q) v
      = some (UInt8.ofBitVec (bytes (ph.pOffset + (v - ph.pVaddr))))

/-- The byte that a fault at `a` puts at `v` is the one of the file. -/
def ShownRight (mm : MmStruct) (size : Nat) (bytes : Bytes) (ph : Phdr) (filesz : Nat) : Prop :=
  ∀ a v vas, SamePage ph filesz a v → Faults size mm a vas →
    shownByte size bytes vas a (v % PG_SIZE) = bytes (ph.pOffset + (v - ph.pVaddr))

section
variable {f : Files} {mm : MmStruct} {size filesz : Nat} {bytes : Bytes} {ph : Phdr}

theorem showsFile_iff_shown (hf : ProgramFile f mm size bytes) :
    ShowsFile mm size bytes ph filesz ↔ ShownRight mm size bytes ph filesz := by
  constructor
  · intro hshows a v vas hsame hfault
    -- a process without pages takes the fault
    obtain ⟨t, ht, hruns, hmmap, hwalk, hkernel, huser⟩ := exists_process mm.mmap
    have hvas : findVma (t.proc 0).mm a = some vas := by
      rw [findVma, hmmap]
      exact hfault.found
    have hmem := (findVma_mem hfault.found).1
    obtain ⟨content, hread⟩ :
        ∃ content, Proofs.faultContent f vas a (fun _ => 0) (fun _ => 0) = .ok content :=
      (hf.faultContent hmem).1 hfault.inside
    obtain ⟨vm', hret⟩ : ∃ vm', f.pageNotPresent t.vm (t.proc 0).mm a (fun _ => 0) 0 = .ok vm' :=
      pageNotPresent_returns ht hruns (hwalk a hfault.range.2) hfault.range.1 hfault.range.2 hvas
        hkernel huser hread
    have hright := hshows f _ t 0 a v _ _ vm' hf ht hruns hmmap (hwalk a hfault.range.2) hsame hret
    obtain ⟨vas', content', hvas', hread', hseen⟩ := pageNotPresent_userRead ht hruns
      (hwalk a hfault.range.2) hret
    obtain rfl := Option.some.inj (hvas.symm.trans hvas')
    rw [hseen v hsame.page,
      ((hf.faultContent hmem).2 content' hread').2 _ (Nat.mod_lt _ (by decide))] at hright
    exact congrArg UInt8.toBitVec (Option.some.inj hright)
  · intro hshown f' totalMemSize t q a v ioBuf current vm' hf' ht hruns hmmap hwalk hsame hret
    obtain ⟨vas, content, hvas, hread, hseen⟩ := pageNotPresent_userRead ht hruns hwalk hret
    obtain ⟨hlo, hhi, -⟩ := pageNotPresent_area hret
    have hfound : findVma mm a = some vas := by
      rw [findVma, ← hmmap]
      exact hvas
    have hmem := (findVma_mem hfound).1
    obtain ⟨hinside, hcontent⟩ := (hf'.faultContent hmem).2 content hread
    rw [hseen v hsame.page, hcontent _ (Nat.mod_lt _ (by decide)),
      hshown a v vas hsame ⟨⟨hlo, hhi⟩, hfound, hinside⟩]

end

/-! ### The two roundings -/

section
variable {V r ra : Nat}

/-- A fault at a distance of whole pages from the start of the segment. -/
theorem round_own (V r : Nat) :
    (V + r) / PG_SIZE = (V + (V % PG_SIZE + r) / PG_SIZE * PG_SIZE) / PG_SIZE ∧
      (V % PG_SIZE + r) / PG_SIZE * PG_SIZE + (V + r) % PG_SIZE = V % PG_SIZE + r ∧
      (V % PG_SIZE + r) / PG_SIZE * PG_SIZE / PG_SIZE * PG_SIZE
        = (V % PG_SIZE + r) / PG_SIZE * PG_SIZE := by
  rw [PG_SIZE]
  omega

/-- A fault at the start of the page. -/
theorem round_start (halign : ¬PG_SIZE ∣ V) (h : PG_SIZE ≤ V % PG_SIZE + r) :
    ∃ ra ≤ r, (V + r) / PG_SIZE = (V + ra) / PG_SIZE ∧
      ra / PG_SIZE * PG_SIZE + (V + r) % PG_SIZE = V % PG_SIZE + r - PG_SIZE := by
  rw [PG_SIZE] at *
  exact ⟨(V % 4096 + r) / 4096 * 4096 - V % 4096, by omega, by omega, by omega⟩

/-- A fault in the page of a byte rounds to the page of the byte, or to the one before. -/
theorem round_fault (h : (V + r) / PG_SIZE = (V + ra) / PG_SIZE) :
    ra / PG_SIZE * PG_SIZE = (V % PG_SIZE + r) / PG_SIZE * PG_SIZE ∧
        ra / PG_SIZE * PG_SIZE + (V + r) % PG_SIZE = V % PG_SIZE + r ∨
      ¬PG_SIZE ∣ V ∧ PG_SIZE ≤ V % PG_SIZE + r ∧
        ra / PG_SIZE * PG_SIZE + (V + r) % PG_SIZE = V % PG_SIZE + r - PG_SIZE := by
  rw [PG_SIZE] at *
  omega

end

/-! ### Where the bytes come from -/

/-- The area of the next segment with an area, or else the stack. -/
def nextArea (mem : Bytes) (file : Nat) (ph : Phdr) : VmAreaStruct :=
  (((segments mem).find? fun g => decide (ph.pVaddr < g.vaddr)).map
    (Segment.area file)).getD stackOf

/-- The file repeats itself: a byte of the segment is the one at the distance `p_vaddr % 4096`
behind it, and 4096 bytes before that one. The first needs a fault that starts in the page. -/
def Repeats (size : Nat) (bytes : Bytes) (ph : Phdr) (filesz : Nat) : Prop :=
  ∀ r < filesz,
    let k := ph.pVaddr % PG_SIZE + r
    let base := k / PG_SIZE * PG_SIZE
    (base < ph.pMemsz → ph.pOffset + base ≤ size →
      fileByte size bytes (ph.pOffset + k) = bytes (ph.pOffset + r)) ∧
    (PG_SIZE ≤ k → bytes (ph.pOffset + (k - PG_SIZE)) = bytes (ph.pOffset + r))

/-- A segment with an area starts at a page, or its file repeats itself. A segment without an area
has the bytes of the next area. -/
def ShownAs (mem : Bytes) (file size : Nat) (bytes : Bytes) (ph : Phdr) (filesz : Nat) : Prop :=
  if MappedFlags ph.pFlags then PG_SIZE ∣ ph.pVaddr ∨ Repeats size bytes ph filesz
  else ∀ a v, USER_VADDR_START ≤ a → a < TASK_SIZE → SamePage ph filesz a v →
    ((nextArea mem file ph).vmFile ≠ none → Vm.fileOff (nextArea mem file ph) a ≤ size) →
      shownByte size bytes (nextArea mem file ph) a (v % PG_SIZE)
        = bytes (ph.pOffset + (v - ph.pVaddr))

section
variable {s : FileSys} {p file size a filesz i : Nat} {mm : MmStruct} {mem bytes ioBuf : Bytes}
  {x : Execed} {g : Segment} {ph : Phdr}

/-- In the area of a segment the place in the file does not wrap around. -/
theorem fileOff_area (hin : g.vaddr ≤ a) (hlt : a < TASK_SIZE) (hoff : g.offset ≤ 512 * INDEX) :
    Vm.fileOff (Segment.area file g) a = g.offset + (a - g.vaddr) / PG_SIZE * PG_SIZE := by
  have htask : TASK_SIZE = 0xc0000000 := rfl
  have hpage : PG_SIZE = 4096 := rfl
  have hindex : INDEX = 140 := rfl
  show (g.offset + (a + 2 ^ 32 - g.vaddr) % 2 ^ 32 / PG_SIZE * PG_SIZE) % 2 ^ 32 = _
  have hdist : (a + 2 ^ 32 - g.vaddr) % 2 ^ 32 = a - g.vaddr := sub32_eq hin (by omega)
  rw [hdist, Nat.mod_eq_of_lt]
  have hle := Nat.div_mul_le_self (a - g.vaddr) PG_SIZE
  omega

/-- The areas of a program end where its segments end. -/
theorem area_end (hok : AreasOk x.mm.mmap) (hmem : Segment.area file g ∈ x.mm.mmap)
    (hfits : g.vaddr < 2 ^ 32 ∧ g.memsz < 2 ^ 32) :
    (Segment.area file g).vmEnd = g.vaddr + g.memsz ∧ g.vaddr + g.memsz ≤ TASK_SIZE ∧ 0 < g.memsz ∧
      USER_VADDR_START ≤ g.vaddr := by
  obtain ⟨hstart, hlt, hend⟩ := hok.range _ hmem
  replace hstart : USER_VADDR_START ≤ g.vaddr := hstart
  replace hlt : g.vaddr < add32 g.vaddr g.memsz := hlt
  replace hend : add32 g.vaddr g.memsz ≤ TASK_SIZE := hend
  have hnowrap : g.vaddr + g.memsz < 2 ^ 32 := by
    by_contra hwrap
    have hsmall := add32_lt hfits.1 hfits.2 (by omega)
    omega
  rw [add32_eq hnowrap] at hlt hend
  exact ⟨add32_eq hnowrap, hend, by omega, hstart⟩

/-- A fault in a segment with an area takes this area. -/
theorem found_segment (hret : doExec s p file mm mem ioBuf = .ok x) (helf : ElfOk x.mem)
    (hmem : g ∈ segments x.mem) (hin : g.vaddr ≤ a) (hlt : a < g.vaddr + g.memsz) :
    findVma x.mm a = some (Segment.area file g) := by
  obtain ⟨hareas, hok⟩ := doExec_areas hret helf.segmentsOk
  have harea : Segment.area file g ∈ x.mm.mmap := by
    rw [hareas]
    exact List.mem_append_left _ (List.mem_map_of_mem hmem)
  have hend := (area_end hok harea (helf.segmentsOk.fits g hmem)).1
  exact findVma_of_covers hok harea ⟨hin, by rw [hend]; exact hlt⟩

/-- A fault in a segment without an area takes the next area. -/
theorem found_next (hret : doExec s p file mm mem ioBuf = .ok x) (helf : ElfOk x.mem)
    (hi : i < ePhnum x.mem) (hload : (phead x.mem i).pType = ELF_LOAD)
    (hflags : ¬MappedFlags (phead x.mem i).pFlags) (hin : (phead x.mem i).pVaddr ≤ a)
    (hlt : a < (phead x.mem i).pVaddr + (phead x.mem i).pMemsz) (hhi : a < TASK_SIZE) :
    findVma x.mm a = some (nextArea x.mem file (phead x.mem i)) := by
  obtain ⟨hareas, hok⟩ := doExec_areas hret helf.segmentsOk
  -- the segments before this one end before the address, and the others start behind it
  have hends : ∀ g ∈ segments x.mem, a < (Segment.area file g).vmEnd ↔
      (phead x.mem i).pVaddr < g.vaddr := by
    intro g hg
    have harea : Segment.area file g ∈ x.mm.mmap := by
      rw [hareas]
      exact List.mem_append_left _ (List.mem_map_of_mem hg)
    obtain ⟨hend, -, hpos, -⟩ := area_end hok harea (helf.segmentsOk.fits g hg)
    obtain ⟨j, hj, hseg⟩ := List.mem_filterMap.mp hg
    obtain ⟨hloadj, hvaddr, hmemsz, -, hflagsj⟩ := segment_eq_some hseg
    have hne : j ≠ i := by
      rintro rfl
      exact hflags hflagsj
    rw [hend]
    rcases Nat.lt_or_gt_of_ne hne with hji | hij
    · have hle := helf.ascending j i hji hi hloadj hload
      omega
    · have hle := helf.ascending i j hij (List.mem_range.mp hj) hload hloadj
      omega
  have hstack : stackOf.vmEnd = TASK_SIZE := by decide
  rw [findVma, hareas, List.find?_append, List.find?_map, nextArea]
  have hsame : (segments x.mem).find? ((fun vma => decide (vma.vmEnd > a)) ∘ Segment.area file)
      = (segments x.mem).find? fun g => decide ((phead x.mem i).pVaddr < g.vaddr) :=
    List.find?_congr fun g hg => decide_eq_decide.mpr (hends g hg)
  rw [hsame]
  cases (segments x.mem).find? fun g => decide ((phead x.mem i).pVaddr < g.vaddr) with
  | some g => rfl
  | none =>
      rw [Option.map_none, Option.none_or, Option.getD_none]
      exact List.find?_cons_of_pos (by simpa [hstack] using hhi)

/-- A segment with an area. -/
theorem shownRight_area (hret : doExec s p file mm mem ioBuf = .ok x)
    (hsize : size ≤ 512 * INDEX) (helf : ElfOk x.mem) (hi : i < ePhnum x.mem)
    (hg : (phead x.mem i).segment = some g)
    (hin : (phead x.mem i).pOffset + pFilesz x.mem i ≤ size) :
    ShownRight x.mm size bytes (phead x.mem i) (pFilesz x.mem i)
      ↔ PG_SIZE ∣ (phead x.mem i).pVaddr
        ∨ Repeats size bytes (phead x.mem i) (pFilesz x.mem i) := by
  obtain ⟨hload, hvaddr, hmemsz, hoffset, -⟩ := segment_eq_some hg
  have hmem := mem_segments hi hg
  obtain ⟨hareas, hok⟩ := doExec_areas hret helf.segmentsOk
  have harea : Segment.area file g ∈ x.mm.mmap := by
    rw [hareas]
    exact List.mem_append_left _ (List.mem_map_of_mem hmem)
  obtain ⟨-, htop, -, hbottom⟩ := area_end hok harea (helf.segmentsOk.fits g hmem)
  have hfilesz := helf.filesz i hi hload
  generalize phead x.mem i = ph at *
  generalize pFilesz x.mem i = filesz at *
  rw [hvaddr] at htop hbottom
  rw [hmemsz] at htop
  -- the byte of a fault, and when there is one
  have hplace : ∀ ra < ph.pMemsz, Vm.fileOff (Segment.area file g) (ph.pVaddr + ra)
      = ph.pOffset + ra / PG_SIZE * PG_SIZE := by
    intro ra hra
    rw [fileOff_area (by omega) (by omega) (by omega), hoffset, hvaddr, Nat.add_sub_cancel_left]
  have hfound : ∀ ra < ph.pMemsz,
      findVma x.mm (ph.pVaddr + ra) = some (Segment.area file g) := by
    intro ra hra
    exact found_segment hret helf hmem (by omega) (by omega)
  have hfault : ∀ ra < ph.pMemsz, ph.pOffset + ra / PG_SIZE * PG_SIZE ≤ size →
      Faults size x.mm (ph.pVaddr + ra) (Segment.area file g) := by
    intro ra hra hinside
    exact ⟨by omega, hfound ra hra, fun _ => by rw [hplace ra hra]; exact hinside⟩
  constructor
  · intro hright
    by_cases halign : PG_SIZE ∣ ph.pVaddr
    · exact .inl halign
    refine .inr fun r hr => ⟨fun hbase hinside => ?_, fun hk => ?_⟩
    · obtain ⟨hpage, hindex, hwhole⟩ := round_own ph.pVaddr r
      have hpart := hfault _ hbase (by rw [hwhole]; exact hinside)
      have hshown := hright (ph.pVaddr + (ph.pVaddr % PG_SIZE + r) / PG_SIZE * PG_SIZE)
        (ph.pVaddr + r) _ ⟨by omega, by omega, hpage⟩ hpart
      replace hshown : fileByte size bytes (Vm.fileOff (Segment.area file g) _ + _) = _ := hshown
      rw [hplace _ hbase, hwhole, Nat.add_assoc, hindex, Nat.add_sub_cancel_left] at hshown
      exact hshown
    · obtain ⟨ra, hra, hpage, hindex⟩ := round_start halign hk
      have hlt : ph.pVaddr % PG_SIZE < PG_SIZE := Nat.mod_lt _ (by decide)
      have hshown := hright (ph.pVaddr + ra) (ph.pVaddr + r) _ ⟨by omega, by omega, hpage⟩
        (hfault ra (by omega) (by omega))
      replace hshown : fileByte size bytes (Vm.fileOff (Segment.area file g) _ + _) = _ := hshown
      rw [hplace ra (by omega), Nat.add_assoc, hindex, Nat.add_sub_cancel_left, fileByte,
        if_pos (by omega)] at hshown
      exact hshown
  · intro hcond a v vas hsame hfaults
    obtain ⟨⟨hlo, hhi⟩, ⟨hlov, hhiv⟩, hpage⟩ := hsame
    obtain ⟨ra, rfl⟩ := Nat.exists_eq_add_of_le hlo
    obtain ⟨r, rfl⟩ := Nat.exists_eq_add_of_le hlov
    obtain rfl := Option.some.inj (hfaults.found.symm.trans (hfound ra (by omega)))
    have hinside := hfaults.inside (by simp [Segment.area, newArea])
    rw [hplace ra (by omega)] at hinside
    show fileByte size bytes (Vm.fileOff (Segment.area file g) _ + _) = _
    rw [hplace ra (by omega), Nat.add_assoc, Nat.add_sub_cancel_left]
    have hlt : ph.pVaddr % PG_SIZE < PG_SIZE := Nat.mod_lt _ (by decide)
    have hle := Nat.div_mul_le_self ra PG_SIZE
    rcases round_fault hpage with ⟨hbase, hindex⟩ | ⟨halign, hk, hindex⟩
    · rw [hindex]
      rcases hcond with halign | hrepeats
      · rw [Nat.mod_eq_zero_of_dvd halign, Nat.zero_add, fileByte, if_pos (by omega)]
      · exact (hrepeats r (by omega)).1 (by omega) (by omega)
    · rw [hindex, fileByte, if_pos (by omega)]
      exact (hcond.resolve_left halign r (by omega)).2 hk

/-- A segment without an area. -/
theorem shownRight_next (hret : doExec s p file mm mem ioBuf = .ok x) (helf : ElfOk x.mem)
    (hi : i < ePhnum x.mem) (hload : (phead x.mem i).pType = ELF_LOAD)
    (hflags : ¬MappedFlags (phead x.mem i).pFlags) :
    ShownRight x.mm size bytes (phead x.mem i) (pFilesz x.mem i)
      ↔ ShownAs x.mem file size bytes (phead x.mem i) (pFilesz x.mem i) := by
  rw [ShownAs, if_neg hflags]
  constructor
  · intro hright a v hlo hhi hsame hinside
    have hfault := hsame.fault
    exact hright a v _ hsame
      ⟨⟨hlo, hhi⟩, found_next hret helf hi hload hflags hfault.1 hfault.2 hhi, hinside⟩
  · intro hnext a v vas hsame hfault
    have hrange := hsame.fault
    obtain rfl := Option.some.inj (hfault.found.symm.trans
      (found_next hret helf hi hload hflags hrange.1 hrange.2 hfault.range.2))
    exact hnext a v hfault.range.1 hfault.range.2 hsame hfault.inside

/-- The program sees the bytes of a segment at `p_vaddr` exactly when `ShownAs` holds: for a segment
that gets an area, when it begins at a page or the file repeats itself at this distance. Without an
area, the faults go to what lies above. -/
theorem showsFile_iff (hret : doExec s p file mm mem ioBuf = .ok x) (hc : HasContent s p size bytes)
    (helf : ElfOk x.mem) (hi : i < ePhnum x.mem) (hload : (phead x.mem i).pType = ELF_LOAD)
    (hin : (phead x.mem i).pOffset + pFilesz x.mem i ≤ size) :
    ShowsFile x.mm size bytes (phead x.mem i) (pFilesz x.mem i)
      ↔ ShownAs x.mem file size bytes (phead x.mem i) (pFilesz x.mem i) := by
  have hf : ProgramFile ⟨s, fun _ => p⟩ x.mm size bytes := ⟨fun _ _ _ _ => hc⟩
  rw [showsFile_iff_shown hf]
  by_cases hflags : MappedFlags (phead x.mem i).pFlags
  · have hsize := hc.allocated.size_le
    rw [hc.size_eq] at hsize
    have hg : (phead x.mem i).segment = some
        ⟨(phead x.mem i).pVaddr, (phead x.mem i).pMemsz, (phead x.mem i).pOffset⟩ := by
      rw [Phdr.segment, if_pos ⟨hload, hflags⟩]
    rw [shownRight_area hret hsize helf hi hg hin, ShownAs, if_pos hflags]
  · exact shownRight_next hret helf hi hload hflags

end

/-! ### A program with one segment -/

/-- A program of 4096 bytes. Its one segment has 200 bytes from `off` on, for the address
`vaddr`. -/
def oneSegment (vaddr off : Nat) : Bytes := fun k =>
  ([0x7f, 0x45, 0x4c, 0x46, 1, 1, 1, 0, 0, 0, 0, 0, 0, 0, 0, 0,
    2, 0, 3, 0, 1, 0, 0, 0, byteLE vaddr 0, byteLE vaddr 1, byteLE vaddr 2, byteLE vaddr 3,
    52, 0, 0, 0, 0, 0, 0, 0, 0, 0, 0, 0, 52, 0, 32, 0, 1, 0, 0, 0, 0, 0, 0, 0,
    1, 0, 0, 0, byteLE off 0, byteLE off 1, byteLE off 2, byteLE off 3,
    byteLE vaddr 0, byteLE vaddr 1, byteLE vaddr 2, byteLE vaddr 3, 0, 0, 0, 0,
    200, 0, 0, 0, 200, 0, 0, 0, 4, 0, 0, 0] : List (BitVec 8)).getD k (BitVec.ofNat 8 k)

/-- The program is loaded at `vaddr`. -/
structure OneLoaded (x : Execed) (vaddr off : Nat) : Prop where
  exec : doExec (smallFile 4096 (oneSegment vaddr off)) 0 0 ⟨[], 0⟩
    (fun _ => 0) (fun _ => 0) = .ok x
  phnum : ePhnum x.mem = 1
  head : phead x.mem 0 = ⟨ELF_LOAD, off, vaddr, 200, ELF_READ⟩
  filesz : pFilesz x.mem 0 = 200

/-- The array `elf_head` with the program. -/
def oneSegmentHead (vaddr off : Nat) : Bytes := elfHead 4096 (oneSegment vaddr off) fun _ => 0

/-- What the load of the program leaves. -/
def oneSegmentExeced (vaddr off : Nat) : Execed where
  newEip := eEntry (oneSegmentHead vaddr off)
  mm := ⟨[Segment.area 0 ⟨vaddr, 200, off⟩, stackOf], 0⟩
  mem := oneSegmentHead vaddr off

theorem oneLoaded {vaddr off : Nat}
    (hmagic : memcmp (oneSegmentHead vaddr off) elfMagic 16 = 0)
    (hphnum : ePhnum (oneSegmentHead vaddr off) = 1)
    (hhead : phead (oneSegmentHead vaddr off) 0 = ⟨ELF_LOAD, off, vaddr, 200, ELF_READ⟩)
    (hfilesz : pFilesz (oneSegmentHead vaddr off) 0 = 200)
    (hmap : doMmap ⟨[], 0⟩ (some 0) vaddr 200 0 off
      = .ok (0, ⟨[Segment.area 0 ⟨vaddr, 200, off⟩], 0⟩))
    (hstack : doMmap ⟨[Segment.area 0 ⟨vaddr, 200, off⟩], 0⟩ none (TASK_SIZE - PG_SIZE * 2)
        (PG_SIZE * 2) 0 0
      = .ok (0, (oneSegmentExeced vaddr off).mm)) :
    OneLoaded (oneSegmentExeced vaddr off) vaddr off := by
  have hc : HasContent (smallFile 4096 (oneSegment vaddr off)) 0 4096 (oneSegment vaddr off) :=
    smallFile_content (by decide)
  refine ⟨(doExec_eq (execRead hc _ _)).trans ?_, hphnum, hhead, hfilesz⟩
  have hsegment : (phead (oneSegmentHead vaddr off) 0).segment = some ⟨vaddr, 200, off⟩ := by
    rw [hhead]
    rfl
  have hloop : phdrLoop (oneSegmentHead vaddr off) 0 (List.range 1) ⟨[], 0⟩
      = .ok ⟨[Segment.area 0 ⟨vaddr, 200, off⟩], 0⟩ := by
    rw [phdrLoop_eq, List.range_one, List.filterMap_cons, hsegment]
    dsimp only
    rw [List.filterMap_nil, mmapSegments, hmap]
    rfl
  show execMem 0 ⟨[], 0⟩ (oneSegmentHead vaddr off) = _
  rw [execMem, if_neg (not_not_intro hmagic), hphnum, hloop, ok_bind, hstack]
  rfl

theorem OneLoaded.elfOk {x : Execed} {vaddr off : Nat} (h : OneLoaded x vaddr off) :
    ElfOk x.mem where
  ascending i j hij hj _ _ := by
    have hphnum := h.phnum
    omega
  filesz i hi _ := by
    obtain rfl : i = 0 := by
      have hphnum := h.phnum
      omega
    rw [h.filesz, h.head]

/-- The program is loaded at the start of a page, and at 16 bytes in the page. -/
theorem oneLoaded_page : OneLoaded (oneSegmentExeced 0x8048000 0) 0x8048000 0 :=
  oneLoaded (by decide +kernel) (by decide +kernel) (by decide +kernel)
    (by decide +kernel) (by decide) (by decide)

theorem oneLoaded_inPage : OneLoaded (oneSegmentExeced 0x8048010 0x10) 0x8048010 0x10 :=
  oneLoaded (by decide +kernel) (by decide +kernel) (by decide +kernel)
    (by decide +kernel) (by decide) (by decide)

/-- At the start of a page the program sees its file. -/
theorem showsFile_page :
    let x := oneSegmentExeced 0x8048000 0
    ShowsFile x.mm 4096 (oneSegment 0x8048000 0) (phead x.mem 0) 200 := by
  intro x
  have h : OneLoaded x 0x8048000 0 := oneLoaded_page
  have hc : HasContent (smallFile 4096 (oneSegment 0x8048000 0)) 0 4096 (oneSegment 0x8048000 0) :=
    smallFile_content (by decide)
  have hi : 0 < ePhnum x.mem := by
    rw [h.phnum]
    decide
  have hiff := showsFile_iff h.exec hc h.elfOk hi (by rw [h.head])
      (by rw [h.head, h.filesz]; decide)
  rw [h.filesz] at hiff
  refine hiff.mpr ?_
  rw [ShownAs, h.head, if_pos (by decide)]
  exact .inl (by decide)

/-- At 16 bytes in the page it sees the bytes 16 bytes behind the right ones. The offset in the file
is rounded down to pages, and the start of the area is not. -/
theorem showsFile_shifted :
    ¬∀ (s : FileSys) (p file size i : Nat) (bytes mem ioBuf : Bytes) (mm : MmStruct) (x : Execed),
      doExec s p file mm mem ioBuf = .ok x → HasContent s p size bytes → ElfOk x.mem →
      i < ePhnum x.mem → (phead x.mem i).pType = ELF_LOAD →
      (phead x.mem i).pVaddr % PG_SIZE = (phead x.mem i).pOffset % PG_SIZE →
      (phead x.mem i).pOffset + pFilesz x.mem i ≤ size →
      ShowsFile x.mm size bytes (phead x.mem i) (pFilesz x.mem i) := by
  intro hall
  have h := oneLoaded_inPage
  have hc : HasContent (smallFile 4096 (oneSegment 0x8048010 0x10)) 0 4096
      (oneSegment 0x8048010 0x10) :=
    smallFile_content (by decide)
  have hshows := hall _ 0 0 4096 0 _ _ _ _ _ h.exec hc h.elfOk (by rw [h.phnum]; decide)
      (by rw [h.head])
    (by rw [h.head]; decide) (by rw [h.head, h.filesz]; decide)
  have hf : ProgramFile ⟨smallFile 4096 (oneSegment 0x8048010 0x10), fun _ => 0⟩
      (oneSegmentExeced 0x8048010 0x10).mm 4096 (oneSegment 0x8048010 0x10) := ⟨fun _ _ _ _ => hc⟩
  rw [showsFile_iff_shown hf, h.head, h.filesz] at hshows
  -- the fault at the start of the segment shows the byte at 32 of the file, not the one at 16
  have hbyte := hshows 0x8048010 0x8048010 (Segment.area 0 ⟨0x8048010, 200, 0x10⟩)
    ⟨by decide, by decide, rfl⟩ ⟨by decide, by decide, fun _ => by decide⟩
  exact absurd hbyte (by decide +kernel)

end Fizzos.Proofs
