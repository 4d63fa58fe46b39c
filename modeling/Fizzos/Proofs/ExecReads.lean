import Fizzos.Proofs.Exec

/-!
# `Fizzos.Proofs.ExecReads`: the program headers in `elf_head`

`e_phoff` and `e_phnum` come from the file, and no check compares them with the 200 bytes that
`file_read` fills. The loop goes up from header to header, so the last header that it comes to
decides (`execReads_inside_iff`).

`phdrReads` lists the fields that the loop reads. `phdrLoop_congr` says that it depends on no
others.
-/

set_option autoImplicit false

namespace Fizzos.Proofs

open Fizzos.Fs
open Fizzos.Kernel
open Fizzos.Lib
open Fizzos.Support

/-- The four bytes of a field, with addresses that wrap around, are some of the 200 bytes. -/
def FieldInside (o : Nat) : Prop := ∀ j < 4, (o + j) % 2 ^ 32 < 200

/-- `do_exec` reads the program headers from the 200 bytes that `file_read` fills. -/
def ReadsInside (s : FileSys) (p file : Nat) (mm : MmStruct) (mem ioBuf : Bytes) : Prop :=
  ∀ o ∈ execReads s p file mm mem ioBuf, FieldInside o

/-- The loop of `do_exec` comes to the header `l`: `do_mmap` takes the segments before it. -/
def Comes (mem : Bytes) (file : Nat) (mm : MmStruct) (l : Nat) : Prop :=
  ∃ mm', phdrLoop mem file (List.range l) mm = .ok mm'

/-- The last header that the loop comes to. -/
structure LastHeader (mem : Bytes) (file : Nat) (mm : MmStruct) (l : Nat) : Prop where
  lt : l < ePhnum mem
  comes : Comes mem file mm l
  last : l + 1 = ePhnum mem ∨ ¬Comes mem file mm (l + 1)

/-- `p_type` of the last header lies in the 200 bytes, and so does `p_flags` for a segment to
load. -/
def LastInside (mem : Bytes) (file : Nat) (mm : MmStruct) : Prop :=
  ∀ l, LastHeader mem file mm l → ePhoff mem + 32 * l + 4 ≤ 200 ∧
    ((phead mem l).pType = ELF_LOAD → ePhoff mem + 32 * l + 28 ≤ 200)

section
variable {mem mem' : Bytes} {file o off l n : Nat} {is : List Nat} {mm : MmStruct} {ph ph' : Phdr}

/-! ### The reads of the loop -/

theorem mem_phdrFields_type : off ∈ phdrFields off ph := by
  rw [phdrFields]
  split
  · split <;> exact List.mem_cons_self
  · exact List.mem_cons_self

theorem mem_phdrFields_flags (hload : ph.pType = ELF_LOAD) : off + 24 ∈ phdrFields off ph := by
  rw [phdrFields, if_pos hload]
  split <;> exact List.mem_cons_of_mem _ List.mem_cons_self

/-- A field lies in the header, and behind `p_type` only for a segment to load. -/
theorem phdrFields_range (h : o ∈ phdrFields off ph) :
    off ≤ o ∧ (o = off ∨ ph.pType = ELF_LOAD ∧ o ≤ off + 24) := by
  rw [phdrFields] at h
  split at h
  · rename_i hload
    split at h <;> simp only [List.mem_cons, List.not_mem_nil, or_false] at h <;> omega
  · rw [List.mem_singleton] at h
    omega

/-- The body of the loop depends on the fields that it reads. -/
theorem mmapPhdr_congr {i : Nat} (hpos : pheadOff mem' i = pheadOff mem i)
    (h : ∀ o ∈ phdrFields (pheadOff mem i) (phead mem i),
      load32 (atHead mem') o = load32 (atHead mem) o) :
    mmapPhdr mm file (phead mem' i) = mmapPhdr mm file (phead mem i) := by
  have hfield : ∀ d, pheadOff mem i + d ∈ phdrFields (pheadOff mem i) (phead mem i) →
      load32 (atHead mem') (pheadOff mem' i + d) = load32 (atHead mem) (pheadOff mem i + d) := by
    intro d hd
    rw [hpos]
    exact h _ hd
  have htype : (phead mem' i).pType = (phead mem i).pType := hfield 0 mem_phdrFields_type
  rw [mmapPhdr, mmapPhdr, htype]
  by_cases hload : (phead mem i).pType = ELF_LOAD
  · have hflags : (phead mem' i).pFlags = (phead mem i).pFlags :=
      hfield 24 (mem_phdrFields_flags hload)
    rw [if_pos hload, if_pos hload, hflags]
    rw [phdrFields, if_pos hload] at hfield
    -- The other three fields are read for the flags that the source knows.
    by_cases hmaps : (phead mem i).pFlags = ELF_READ ∨
      (phead mem i).pFlags = ELF_READ ||| ELF_WRITE ∨
        (phead mem i).pFlags = ELF_READ ||| ELF_EXEC
    · rw [if_pos hmaps] at hfield
      have hvaddr : (phead mem' i).pVaddr = (phead mem i).pVaddr := hfield 8 (by simp)
      have hmemsz : (phead mem' i).pMemsz = (phead mem i).pMemsz := hfield 20 (by simp)
      have hoffset : (phead mem' i).pOffset = (phead mem i).pOffset := hfield 4 (by simp)
      rw [hvaddr, hmemsz, hoffset]
    · push Not at hmaps
      rw [if_neg hmaps.1, if_neg hmaps.2.1, if_neg hmaps.2.2, if_neg hmaps.1, if_neg hmaps.2.1,
        if_neg hmaps.2.2]
  · rw [if_neg hload, if_neg hload]

/-- The loop depends on the fields that it reads. -/
theorem phdrLoop_congr (hoff : ePhoff mem' = ePhoff mem)
    (h : ∀ o ∈ phdrReads mem file is mm, load32 (atHead mem') o = load32 (atHead mem) o) :
    phdrLoop mem' file is mm = phdrLoop mem file is mm := by
  induction is generalizing mm with
  | nil => rfl
  | cons i rest ih =>
      have hpos : pheadOff mem' i = pheadOff mem i := by rw [pheadOff, pheadOff, hoff]
      have hbody : mmapPhdr mm file (phead mem' i) = mmapPhdr mm file (phead mem i) :=
        mmapPhdr_congr hpos fun o ho => h o (List.mem_append_left _ ho)
      rw [phdrLoop, phdrLoop, hbody]
      cases hmap : mmapPhdr mm file (phead mem i) with
      | error e => rfl
      | ok mm₁ =>
          refine ih fun o ho => h o (List.mem_append_right _ ?_)
          rw [hmap]
          exact ho

theorem phdrLoop_append (is is' : List Nat) :
    phdrLoop mem file (is ++ is') mm
      = phdrLoop mem file is mm >>= fun mm => phdrLoop mem file is' mm := by
  rw [phdrLoop_eq, phdrLoop_eq, List.filterMap_append, mmapSegments_append]
  exact bind_congr fun mm => (phdrLoop_eq mem file is' mm).symm

/-- What the loop reads: the fields of the headers that it comes to. -/
theorem mem_phdrReads : o ∈ phdrReads mem file is mm ↔ ∃ l, ∃ h : l < is.length,
    (∃ mm', phdrLoop mem file (is.take l) mm = .ok mm') ∧
      o ∈ phdrFields (pheadOff mem is[l]) (phead mem is[l]) := by
  induction is generalizing mm with
  | nil =>
      rw [phdrReads]
      constructor
      · intro h
        cases h
      · rintro ⟨l, h, -⟩
        cases h
  | cons i rest ih =>
      rw [phdrReads, List.mem_append]
      constructor
      · rintro (h | h)
        · exact ⟨0, Nat.zero_lt_succ _, ⟨mm, rfl⟩, h⟩
        · -- A header is read when all headers before it are mapped.
          cases hmap : mmapPhdr mm file (phead mem i) with
          | error e =>
              rw [hmap] at h
              cases h
          | ok mm₁ =>
              rw [hmap] at h
              obtain ⟨l, hl, ⟨mm', hloop⟩, hmem⟩ := ih.mp h
              refine ⟨l + 1, Nat.succ_lt_succ hl, ⟨mm', ?_⟩, hmem⟩
              rw [List.take_succ_cons, phdrLoop, hmap, ok_bind, hloop]
      · rintro ⟨l, hl, ⟨mm', hloop⟩, hmem⟩
        cases l with
        | zero => exact .inl hmem
        | succ l =>
            rw [List.take_succ_cons, phdrLoop] at hloop
            obtain ⟨mm₁, hmap, hloop⟩ := bind_eq_ok.mp hloop
            rw [hmap]
            exact .inr (ih.mpr ⟨l, Nat.lt_of_succ_lt_succ hl, ⟨mm', hloop⟩, hmem⟩)

theorem mem_phdrReads_range : o ∈ phdrReads mem file (List.range n) mm ↔
    ∃ l < n, Comes mem file mm l ∧ o ∈ phdrFields (pheadOff mem l) (phead mem l) := by
  rw [mem_phdrReads]
  constructor
  · rintro ⟨l, hl, hcomes, hmem⟩
    rw [List.length_range] at hl
    rw [List.take_range, Nat.min_eq_left (by omega)] at hcomes
    rw [List.getElem_range] at hmem
    exact ⟨l, hl, hcomes, hmem⟩
  · rintro ⟨l, hl, hcomes, hmem⟩
    refine ⟨l, by rw [List.length_range]; exact hl, ?_, by rw [List.getElem_range]; exact hmem⟩
    rw [List.take_range, Nat.min_eq_left (by omega)]
    exact hcomes

/-! ### The last header -/

theorem Comes.zero : Comes mem file mm 0 := ⟨mm, rfl⟩

/-- Behind each header that the loop comes to there is a last one. -/
theorem Comes.exists_last (h : Comes mem file mm l) (hl : l < ePhnum mem) :
    ∃ k, l ≤ k ∧ LastHeader mem file mm k := by
  induction hn : ePhnum mem - l generalizing l with
  | zero => omega
  | succ n ih =>
      by_cases hlast : l + 1 = ePhnum mem ∨ ¬Comes mem file mm (l + 1)
      · exact ⟨l, Nat.le_refl l, hl, h, hlast⟩
      · push Not at hlast
        obtain ⟨k, hle, hk⟩ := ih hlast.2 (by omega) (by omega)
        exact ⟨k, by omega, hk⟩

/-- A field that ends in the 200 bytes, for an offset that does not wrap around. -/
theorem fieldInside_iff (h : o + 4 ≤ 2 ^ 32) : FieldInside o ↔ o + 4 ≤ 200 := by
  constructor
  · intro hin
    have hlast := hin 3 (by omega)
    rw [Nat.mod_eq_of_lt (by omega)] at hlast
    omega
  · intro hle j hj
    rw [Nat.mod_eq_of_lt (by omega)]
    omega

/-- The reads of the loop lie in the 200 bytes. -/
theorem phdrReads_inside_iff :
    (∀ o ∈ phdrReads mem file (List.range (ePhnum mem)) mm, FieldInside o) ↔
      LastInside mem file mm := by
  have hphoff : ePhoff mem < 2 ^ 32 := loadLE_lt 4 _ _
  have hphnum : ePhnum mem < 2 ^ 16 := loadLE_lt 2 _ _
  have hpos : ∀ l, pheadOff mem l = ePhoff mem + 32 * l := by
    intro l
    rw [pheadOff, SIZEOF_PHDR, Nat.mul_comm]
  constructor
  · intro hall l hlast
    have hread : ∀ d, pheadOff mem l + d ∈ phdrFields (pheadOff mem l) (phead mem l) →
        FieldInside (pheadOff mem l + d) :=
      fun d hd => hall _ (mem_phdrReads_range.mpr ⟨l, hlast.lt, hlast.comes, hd⟩)
    -- the first header excludes an offset that wraps around
    have hfirst := hall _ (mem_phdrReads_range.mpr
      ⟨0, Nat.zero_lt_of_lt hlast.lt, Comes.zero, mem_phdrFields_type⟩) 0 (by omega)
    have hlt := hlast.lt
    rw [hpos 0, Nat.mod_eq_of_lt (by omega)] at hfirst
    have htype := hread 0 mem_phdrFields_type
    rw [fieldInside_iff (by rw [hpos]; omega), hpos] at htype
    refine ⟨htype, fun hload => ?_⟩
    have hflags := hread 24 (mem_phdrFields_flags hload)
    rw [fieldInside_iff (by rw [hpos]; omega), hpos] at hflags
    omega
  · intro hlast o ho
    obtain ⟨l, hl, hcomes, hmem⟩ := mem_phdrReads_range.mp ho
    obtain ⟨k, hle, hk⟩ := hcomes.exists_last hl
    obtain ⟨htype, hflags⟩ := hlast k hk
    have hrange := phdrFields_range hmem
    rw [hpos] at hrange
    have hend : o + 4 ≤ 200 := by
      rcases Nat.eq_or_lt_of_le hle with rfl | hlt
      · rcases hrange.2 with rfl | ⟨hload, hoff⟩
        · exact htype
        · have hin := hflags hload
          omega
      · omega
    exact (fieldInside_iff (by omega)).mpr hend

end

/-! ### `do_exec` -/

section
variable {s : FileSys} {p file size : Nat} {mm : MmStruct} {mem ioBuf bytes : Bytes}

theorem execReads_eq (hc : HasContent s p size bytes)
    (hmagic : ∀ k < 16, elfHead size bytes mem k = elfMagic k) :
    execReads s p file mm mem ioBuf = phdrReads (elfHead size bytes mem) file
      (List.range (ePhnum (elfHead size bytes mem))) ⟨[], mm.pgDir⟩ := by
  rw [execReads, execRead hc]
  dsimp only
  rw [if_neg (not_not_intro ((memcmp_magic _).mpr hmagic))]

/-- `do_exec` stays in the 200 bytes that it has read, if the last header that it comes to is in
them. Nothing compares `e_phoff` and `e_phnum` with this size. -/
theorem execReads_inside_iff (hc : HasContent s p size bytes)
    (hmagic : ∀ k < 16, elfHead size bytes mem k = elfMagic k) :
    ReadsInside s p file mm mem ioBuf
      ↔ LastInside (elfHead size bytes mem) file ⟨[], mm.pgDir⟩ := by
  rw [ReadsInside, execReads_eq hc hmagic]
  exact phdrReads_inside_iff

/-- A program with `n` empty program headers at 52, which is where a compiler puts them. -/
def emptyHeaders (n : Nat) : Bytes := fun k =>
  ([0x7f, 0x45, 0x4c, 0x46, 1, 1, 1, 0, 0, 0, 0, 0, 0, 0, 0, 0,
    2, 0, 3, 0, 1, 0, 0, 0, 0, 0, 0, 0, 52, 0, 0, 0, 0, 0, 0, 0, 0, 0, 0, 0, 52, 0, 32, 0,
    byteLE n 0, byteLE n 1] : List (BitVec 8)).getD k 0

theorem emptyHeaders_content (n : Nat) :
    HasContent (smallFile 4096 (emptyHeaders n)) 0 4096 (emptyHeaders n) :=
  smallFile_content (by decide)

/-- Four headers are in the 200 bytes. -/
theorem execReads_four :
    ReadsInside (smallFile 4096 (emptyHeaders 4)) 0 0 ⟨[], 0⟩ (fun _ => 0) fun _ => 0 := by
  refine (execReads_inside_iff (emptyHeaders_content 4) (by decide +kernel)).mpr ?_
  intro l hlast
  have hlt := hlast.lt
  have hphoff : ePhoff (elfHead 4096 (emptyHeaders 4) fun _ => 0) = 52 := by decide +kernel
  have hphnum : ePhnum (elfHead 4096 (emptyHeaders 4) fun _ => 0) = 4 := by decide +kernel
  rw [hphoff]
  omega

/-- The sixth header is behind them: its first field is 12 bytes behind the end of the buffer. -/
theorem execReads_six :
    ¬∀ (s : FileSys) (p file size : Nat) (mm : MmStruct) (mem ioBuf bytes : Bytes),
      HasContent s p size bytes → (∀ k < 16, elfHead size bytes mem k = elfMagic k) →
      ReadsInside s p file mm mem ioBuf := by
  intro hall
  have hmagic : ∀ k < 16, elfHead 4096 (emptyHeaders 6) (fun _ => 0) k = elfMagic k := by
    decide +kernel
  have hphoff : ePhoff (elfHead 4096 (emptyHeaders 6) fun _ => 0) = 52 := by decide +kernel
  have hphnum : ePhnum (elfHead 4096 (emptyHeaders 6) fun _ => 0) = 6 := by decide +kernel
  have hinside := hall _ 0 0 4096 ⟨[], 0⟩ _ (fun _ => 0) _ (emptyHeaders_content 6) hmagic
  rw [ReadsInside, execReads_eq (emptyHeaders_content 6) hmagic, phdrReads_inside_iff] at hinside
  -- `do_mmap` is not called for the headers before it
  have hnone : (List.range 5).filterMap
      (fun i => (phead (elfHead 4096 (emptyHeaders 6) fun _ => 0) i).segment)
        = [] := by decide +kernel
  have hcomes : Comes (elfHead 4096 (emptyHeaders 6) fun _ => 0) 0 ⟨[], 0⟩ 5 := by
    refine ⟨⟨[], 0⟩, ?_⟩
    rw [phdrLoop_eq, hnone]
    rfl
  have hlast := (hinside 5 ⟨by omega, hcomes, .inl (by omega)⟩).1
  omega

end

end Fizzos.Proofs
