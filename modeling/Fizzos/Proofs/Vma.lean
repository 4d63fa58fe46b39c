import Fizzos.Kernel.Vma

/-!
# `Fizzos.Proofs.Vma`: where `do_mmap` puts an area

The areas of an address space are in order and do not overlap (`AreasOk`). The loop of `do_mmap`
stops at an area `vma` whose gap to the next one is long enough, and links the new area behind
it. But it puts the new area at `addr`, which is behind `vma` only if the request was
(`mmapSearch_spec`). So the result is right exactly when the requested range is free and does
not lie before all areas (`doMmap_iff`).

A range that does not fit into 32 bits never gets through, since the end of the new area would
be before its start.
-/

set_option autoImplicit false

namespace Fizzos.Proofs

open Fizzos.Kernel

/-- The areas are in order and disjoint, none is empty, and they lie in user memory. -/
structure AreasOk (mmap : List VmAreaStruct) : Prop where
  range : ∀ a ∈ mmap, USER_VADDR_START ≤ a.vmStart ∧ a.vmStart < a.vmEnd ∧ a.vmEnd ≤ TASK_SIZE
  sorted : mmap.Pairwise fun a b => a.vmEnd ≤ b.vmStart

/-- One new area of `len` bytes, at `addr` or behind, and everything else as before. -/
def Inserted (mm mm' : MmStruct) (addr len : Nat) : Prop :=
  ∃ v before behind, mm.mmap = before ++ behind ∧ mm' = { mm with mmap := before ++ v :: behind } ∧
    addr ≤ v.vmStart ∧ v.vmEnd = v.vmStart + len ∧ AreasOk mm'.mmap

/-! ### 32-bit arithmetic -/

theorem add32_eq {a b : Nat} (h : a + b < 2 ^ 32) : add32 a b = a + b := Nat.mod_eq_of_lt h

theorem sub32_eq {a b : Nat} (hba : b ≤ a) (ha : a < 2 ^ 32) : sub32 a b = a - b := by
  have hsub : a + 2 ^ 32 - b = a - b + 2 ^ 32 := by omega
  rw [sub32, hsub, Nat.add_mod_right, Nat.mod_eq_of_lt (by omega)]

/-- A sum that wraps around is smaller than its parts. -/
theorem add32_lt {a b : Nat} (ha : a < 2 ^ 32) (hb : b < 2 ^ 32) (h : 2 ^ 32 ≤ a + b) :
    add32 a b < a := by
  rw [add32, Nat.mod_eq_sub_mod h, Nat.mod_eq_of_lt (by omega)]
  omega

/-! ### The search -/

theorem taskSize_lt : TASK_SIZE < 2 ^ 32 := by decide

section
variable {mmap before behind : List VmAreaStruct} {vma next : VmAreaStruct} {addr len : Nat}

/-- What the loop of `do_mmap` knows about `addr`, the request `addr₀` and the areas before. -/
structure Searching (addr₀ addr : Nat) (before : List VmAreaStruct) : Prop where
  le : addr₀ ≤ addr
  ends : ∀ a ∈ before, a.vmEnd ≤ addr
  eq : addr = addr₀ ∨ ∃ a ∈ before, addr = a.vmEnd

theorem Searching.step {addr₀ : Nat} (h : Searching addr₀ addr before) :
    Searching addr₀ (max addr vma.vmEnd) (before ++ [vma]) where
  le := h.le.trans (Nat.le_max_left _ _)
  ends a ha := by
    rcases List.mem_append.mp ha with ha | ha
    · exact (h.ends a ha).trans (Nat.le_max_left _ _)
    · rw [List.mem_singleton.mp ha]
      exact Nat.le_max_right _ _
  eq := by
    rcases Nat.le_total vma.vmEnd addr with hle | hle
    · rw [Nat.max_eq_left hle]
      exact h.eq.imp_right fun ⟨a, ha, heq⟩ => ⟨a, List.mem_append_left _ ha, heq⟩
    · rw [Nat.max_eq_right hle]
      exact .inr ⟨vma, by simp, rfl⟩

/-- The loop stops at an area of the list. The next area leaves `len` bytes behind `vma` and
`addr`. -/
theorem mmapSearch_spec (len : Nat) {addr₀ : Nat} (h : Searching addr₀ addr before)
    (hok : AreasOk (before ++ vma :: behind)) :
    let c := mmapSearch len addr before vma behind
    c.before ++ c.vma :: c.behind = before ++ vma :: behind ∧
      Searching addr₀ c.addr c.before ∧
      ∀ n ∈ c.behind.head?, c.addr ≤ n.vmStart ∧
        (c.vma.vmEnd ≤ c.addr → c.addr + len ≤ n.vmStart) := by
  induction behind generalizing addr before vma with
  | nil => exact ⟨rfl, h, by simp [mmapSearch]⟩
  | cons next behind ih =>
      rw [mmapSearch]
      split
      · have hassoc : before ++ vma :: next :: behind = before ++ [vma] ++ next :: behind := by simp
        rw [hassoc] at hok ⊢
        exact ih h.step hok
      · rename_i hstop
        rw [not_or] at hstop
        refine ⟨rfl, h, fun n hn => ?_⟩
        obtain rfl : next = n := by simpa using hn
        refine ⟨Nat.le_of_not_lt hstop.1, fun hle => ?_⟩
        replace hle : vma.vmEnd ≤ addr := hle
        show addr + len ≤ next.vmStart
        have hnext := (hok.range next (by simp)).2
        have hlt := taskSize_lt
        have hsub := hstop.2
        rw [Nat.max_eq_right hle, sub32_eq (by omega) (by omega)] at hsub
        omega

/-- When the requested range is free and not before all areas, the loop leaves `addr` alone and
stops at the last area before it. -/
theorem mmapSearch_free (hok : AreasOk (before ++ vma :: behind)) (hvma : vma.vmEnd ≤ addr)
    (hfree : ∀ b ∈ behind, b.vmEnd ≤ addr ∨ addr + len ≤ b.vmStart) :
    let c := mmapSearch len addr before vma behind
    c.addr = addr ∧ c.vma.vmEnd ≤ addr := by
  induction behind generalizing before vma with
  | nil => exact ⟨rfl, hvma⟩
  | cons next behind ih =>
      have hnext := (hok.range next (by simp)).2
      have hlt := taskSize_lt
      rw [mmapSearch]
      rcases hfree next List.mem_cons_self with hend | hstart
      · -- `next` lies before the request, too
        rw [if_pos (.inl (by omega)), Nat.max_eq_left hvma]
        refine ih ?_ hend fun b hb => hfree b (List.mem_cons_of_mem _ hb)
        simpa using hok
      · rw [if_neg]
        · exact ⟨rfl, hvma⟩
        · rw [Nat.max_eq_right hvma, sub32_eq (by omega) (by omega)]
          omega

/-- `find_inter_section` finds nothing exactly where the range is free. -/
theorem findInterSection_eq_none {mm : MmStruct} (hok : AreasOk mm.mmap) {lo hi : Nat} :
    findInterSection mm lo hi = none ↔ ∀ b ∈ mm.mmap, b.vmEnd ≤ lo ∨ hi ≤ b.vmStart := by
  unfold findInterSection
  cases hfind : findVma mm lo with
  | none =>
      have hnone := List.find?_eq_none.mp hfind
      exact iff_of_true rfl fun b hb => .inl (by simpa using hnone b hb)
  | some vma =>
      obtain ⟨hend, before, behind, hlist, hbefore⟩ := List.find?_eq_some_iff_append.mp hfind
      replace hend : lo < vma.vmEnd := by simpa using hend
      have hsorted := hok.sorted
      rw [hlist, List.pairwise_append, List.pairwise_cons] at hsorted
      by_cases hhi : hi ≤ vma.vmStart
      · simp only [if_pos hhi]
        refine iff_of_true trivial fun b hb => ?_
        rw [hlist, List.mem_append, List.mem_cons] at hb
        rcases hb with hb | rfl | hb
        · exact .inl (by simpa using hbefore b hb)
        · exact .inr hhi
        · have hvma := hok.range vma (by rw [hlist]; simp)
          have hnext := hsorted.2.1.1 b hb
          exact .inr (by omega)
      · simp only [if_neg hhi]
        refine iff_of_false (by simp) fun hfree => ?_
        rcases hfree vma (by rw [hlist]; simp) with h | h <;> omega

/-! ### The new area -/

/-- An area behind `vma` and before the next one keeps the areas in order. -/
theorem AreasOk.insert {v : VmAreaStruct} (hok : AreasOk (before ++ vma :: behind))
    (hv : USER_VADDR_START ≤ v.vmStart ∧ v.vmStart < v.vmEnd ∧ v.vmEnd ≤ TASK_SIZE)
    (hvma : vma.vmEnd ≤ v.vmStart) (hnext : ∀ n ∈ behind.head?, v.vmEnd ≤ n.vmStart) :
    AreasOk (before ++ [vma] ++ v :: behind) := by
  have hsorted := hok.sorted
  rw [List.pairwise_append, List.pairwise_cons] at hsorted
  obtain ⟨hbefore, ⟨hbehind, hrest⟩, hcross⟩ := hsorted
  have hvmaRange := hok.range vma (by simp)
  -- By the order it is enough that the two neighbours are clear of the new area.
  have hbelow : ∀ a ∈ before, a.vmEnd ≤ v.vmStart := fun a ha => by
    have hle := hcross a ha vma List.mem_cons_self
    omega
  have habove : ∀ b ∈ behind, v.vmEnd ≤ b.vmStart := by
    intro b hb
    cases behind with
    | nil => exact absurd hb (by simp)
    | cons n behind =>
        have hn := hnext n rfl
        rcases List.mem_cons.mp hb with rfl | hb
        · exact hn
        · have hrange := hok.range n (by simp)
          have hle := (List.pairwise_cons.mp hrest).1 b hb
          omega
  constructor
  · intro a ha
    rw [List.append_assoc, List.mem_append, List.mem_append, List.mem_singleton,
      List.mem_cons] at ha
    rcases ha with ha | rfl | rfl | ha
    · exact hok.range a (by simp [ha])
    · exact hvmaRange
    · exact hv
    · exact hok.range a (by simp [ha])
  · rw [List.append_assoc, List.pairwise_append]
    refine ⟨hbefore, ?_, fun a ha b hb => ?_⟩
    · rw [List.singleton_append, List.pairwise_cons, List.pairwise_cons]
      refine ⟨fun b hb => ?_, habove, hrest⟩
      rcases List.mem_cons.mp hb with rfl | hb
      · exact hvma
      · exact hbehind b hb
    · rw [List.mem_append, List.mem_singleton, List.mem_cons] at hb
      rcases hb with rfl | rfl | hb
      · exact hcross a ha _ List.mem_cons_self
      · exact hbelow a ha
      · exact hcross a ha b (List.mem_cons_of_mem _ hb)

/-- Where `do_mmap` goes on after its search. -/
theorem mmapPlace_ok {mm : MmStruct} {a : Nat}
    (h : mmapPlace mm addr len = .ok (a, before, behind)) :
    (mm.mmap = [] ∧ a = addr ∧ before = [] ∧ behind = []) ∨
    ∃ first rest, mm.mmap = first :: rest ∧
      let c := mmapSearch len addr [] first rest
      a = c.addr ∧ before = c.before ++ [c.vma] ∧ behind = c.behind := by
  unfold mmapPlace at h
  cases hlist : mm.mmap with
  | nil =>
      rw [hlist] at h
      obtain ⟨rfl, rfl, rfl⟩ : addr = a ∧ [] = before ∧ [] = behind := by simpa using h
      exact .inl ⟨rfl, rfl, rfl, rfl⟩
  | cons first rest =>
      rw [hlist] at h
      simp only at h
      split at h
      · exact absurd h (by simp [PANIC])
      · split at h
        · exact absurd h (by simp [PANIC])
        · cases h
          exact .inr ⟨first, rest, rfl, rfl, rfl, rfl⟩

/-- The area that `do_mmap` makes. -/
def newArea (file : Option Nat) (addr len prot offset : Nat) : VmAreaStruct where
  vmStart := addr
  vmEnd := add32 addr len
  vmPageProt := prot
  vmFlags := VM_READ ||| VM_WRITE ||| VM_EXEC
  vmPgoff := offset
  vmFile := file

/-- `do_mmap` that returns has linked its area, and its `ASSERT` holds. -/
theorem doMmap_area {mm mm' : MmStruct} {file : Option Nat} {prot offset : Nat} {ret : Int}
    (h : doMmap mm file addr len prot offset = .ok (ret, mm')) :
    len ≠ 0 ∧ ∃ a before behind, mmapPlace mm addr len = .ok (a, before, behind) ∧
      mm' = { mm with mmap := before ++ newArea file a len prot offset :: behind } ∧
      USER_VADDR_START ≤ a ∧ a < add32 a len ∧ add32 a len ≤ TASK_SIZE := by
  unfold doMmap at h
  split at h
  · exact absurd h (by simp [PANIC])
  · rename_i hlen
    split at h
    · exact absurd h (by simp [PANIC])
    · split at h
      · exact absurd h (by simp [PANIC])
      · simp only [bind_eq_ok, ASSERT_eq_ok] at h
        obtain ⟨⟨a, before, behind⟩, hplace, _, ⟨hstart, hend, hlt⟩, hret⟩ := h
        cases hret
        exact ⟨hlen, a, before, behind, hplace, rfl, hstart, hlt, hend⟩

theorem doMmap_ok {mm mm' : MmStruct} {file : Option Nat} {prot offset : Nat} {ret : Int}
    (h : doMmap mm file addr len prot offset = .ok (ret, mm')) :
    len ≠ 0 ∧ ∃ a before behind v, mmapPlace mm addr len = .ok (a, before, behind) ∧
      mm' = { mm with mmap := before ++ v :: behind } ∧ v.vmStart = a ∧ v.vmEnd = add32 a len ∧
      USER_VADDR_START ≤ v.vmStart ∧ v.vmStart < v.vmEnd ∧ v.vmEnd ≤ TASK_SIZE := by
  obtain ⟨hlen, a, before, behind, hplace, hmm, hv⟩ := doMmap_area h
  exact ⟨hlen, a, before, behind, _, hplace, hmm, rfl, rfl, hv⟩

/-- The search ends behind `vma` exactly when the requested range is free and some area lies
before it. -/
theorem mmapSearch_behind_iff {mm : MmStruct} {c : MmapCursor} (hok : AreasOk mm.mmap)
    (hlist : mm.mmap = vma :: behind) (hc : mmapSearch len addr [] vma behind = c) :
    c.vma.vmEnd ≤ c.addr ↔
      findInterSection mm addr (addr + len) = none ∧ ∃ a ∈ mm.mmap, a.vmEnd ≤ addr := by
  have hok' : AreasOk ([] ++ vma :: behind) := hlist ▸ hok
  have hstart : Searching addr addr [] := ⟨Nat.le_refl _, by simp, .inl rfl⟩
  have hspec := mmapSearch_spec len hstart hok'
  rw [hc] at hspec
  obtain ⟨hsame, hsearch, hgap⟩ := hspec
  have hmm : mm.mmap = c.before ++ c.vma :: c.behind := hlist.trans hsame.symm
  have hsorted := hok.sorted
  rw [hmm, List.pairwise_append, List.pairwise_cons] at hsorted
  obtain ⟨-, ⟨hvmaBehind, hbehind⟩, hcross⟩ := hsorted
  have hrange : ∀ a ∈ mm.mmap, a.vmStart < a.vmEnd := fun a ha => (hok.range a ha).2.1
  have hvma := hrange c.vma (by rw [hmm]; simp)
  rw [findInterSection_eq_none hok]
  constructor
  · intro hle
    -- no area before `vma` ends at `addr`, so the search has not moved it
    have haddr : c.addr = addr := by
      refine hsearch.eq.resolve_right ?_
      rintro ⟨p, hp, heq⟩
      have hbefore := hcross p hp c.vma List.mem_cons_self
      omega
    refine ⟨fun b hb => ?_, c.vma, by rw [hmm]; simp, haddr ▸ hle⟩
    rw [hmm, List.mem_append, List.mem_cons] at hb
    rcases hb with hb | rfl | hb
    · exact .inl (haddr ▸ hsearch.ends b hb)
    · exact .inl (haddr ▸ hle)
    · right
      cases hcase : c.behind with
      | nil =>
          rw [hcase] at hb
          exact absurd hb (by simp)
      | cons n tail =>
          have hn := (hgap n (by rw [hcase]; rfl)).2 hle
          rw [hcase] at hb hbehind
          rcases List.mem_cons.mp hb with rfl | hb
          · exact haddr ▸ hn
          · have hnext := (List.pairwise_cons.mp hbehind).1 b hb
            have hnrange := hrange n (by rw [hmm, hcase]; simp)
            omega
  · rintro ⟨hfree, a, ha, hend⟩
    rw [hlist] at hfree ha
    have hfirst : vma.vmEnd ≤ addr := by
      rcases List.mem_cons.mp ha with rfl | ha
      · exact hend
      · have hle := (List.pairwise_cons.mp (hlist ▸ hok.sorted)).1 a ha
        have halt := hrange a (by rw [hlist]; exact List.mem_cons_of_mem _ ha)
        omega
    have hstops := mmapSearch_free hok' hfirst fun b hb => hfree b (List.mem_cons_of_mem _ hb)
    rw [hc] at hstops
    exact hstops.2.trans hstops.1.ge

end

/-- When `do_mmap` is right. If it returns, the range fits into 32 bits, and the new area is
where it should be exactly when there were no areas, or the requested range is free and some
area lies before it. -/
theorem doMmap_iff {mm mm' : MmStruct} {file : Option Nat} {addr len prot offset : Nat}
    (hok : AreasOk mm.mmap) (haddr : addr < 2 ^ 32) (hlen : len < 2 ^ 32)
    (hret : doMmap mm file addr len prot offset = .ok (0, mm')) :
    addr + len < 2 ^ 32 ∧
    (Inserted mm mm' addr len ↔ mm.mmap = [] ∨
      (findInterSection mm addr (addr + len) = none ∧ ∃ a ∈ mm.mmap, a.vmEnd ≤ addr)) := by
  obtain ⟨hpos, a, before, behind, v, hplace, rfl, hstart, hend, hv⟩ := doMmap_ok hret
  have htask := taskSize_lt
  -- the assertion on the ends excludes a sum that wraps around
  have hfits : a < 2 ^ 32 → a + len < 2 ^ 32 ∧ v.vmEnd = a + len := by
    intro ha
    by_cases hwrap : a + len < 2 ^ 32
    · exact ⟨hwrap, hend.trans (add32_eq hwrap)⟩
    · have hlt := add32_lt ha hlen (by omega)
      omega
  rcases mmapPlace_ok hplace with ⟨hnil, rfl, rfl, rfl⟩ | ⟨first, rest, hlist, rfl, rfl, rfl⟩
  · obtain ⟨hlt, hvend⟩ := hfits haddr
    refine ⟨hlt, iff_of_true ⟨v, [], [], hnil, rfl, hstart.ge, by omega, ?_⟩ (.inl hnil)⟩
    exact ⟨fun b hb => by rw [List.mem_singleton.mp hb]; exact hv, List.pairwise_singleton _ _⟩
  · have hok' : AreasOk ([] ++ first :: rest) := hlist ▸ hok
    have hstart' : Searching addr addr [] := ⟨Nat.le_refl _, by simp, .inl rfl⟩
    have hspec := mmapSearch_spec len hstart' hok'
    generalize hsearch : mmapSearch len addr [] first rest = c at *
    obtain ⟨hsame, hfound, hgap⟩ := hspec
    have hmm : mm.mmap = c.before ++ c.vma :: c.behind := hlist.trans hsame.symm
    have hc : c.addr < 2 ^ 32 := by
      rcases hfound.eq with heq | ⟨p, hp, heq⟩
      · exact heq.trans_lt haddr
      · have hprange := hok.range p (by rw [hmm]; simp [hp])
        omega
    obtain ⟨hlt, hvend⟩ := hfits hc
    have hle := hfound.le
    refine ⟨by omega, ?_⟩
    have hcons : mm.mmap ≠ [] := by simp [hlist]
    rw [or_iff_right hcons, ← mmapSearch_behind_iff hok hlist hsearch]
    constructor
    · rintro ⟨-, -, -, -, -, -, -, hnew⟩
      -- the new list is in order at the new area
      have hsorted := hnew.sorted
      rw [List.append_assoc, List.singleton_append, List.pairwise_append,
        List.pairwise_cons] at hsorted
      exact (hsorted.2.1.1 v List.mem_cons_self).trans hstart.le
    · intro hbehind
      refine ⟨v, c.before ++ [c.vma], c.behind, by simp [hmm], rfl, hstart ▸ hle, by omega, ?_⟩
      refine (hmm ▸ hok).insert hv (hstart ▸ hbehind) fun n hn => ?_
      have hn := (hgap n hn).2 hbehind
      omega

/-- One page above the area `[0x9000000, 0x9001000)`, with a gap between. -/
theorem doMmap_iff_page :
    let a : VmAreaStruct := ⟨0x9000000, 0x9001000, 0, 0, 0, none⟩
    let v : VmAreaStruct := ⟨0x9002000, 0x9003000, 0, 7, 0, none⟩
    Inserted ⟨[a], 0⟩ ⟨[a, v], 0⟩ 0x9002000 0x1000 := by
  intro a v
  have hok : AreasOk (MmStruct.mk [a] 0).mmap :=
    ⟨fun b hb => by rw [List.mem_singleton.mp hb]; decide, List.pairwise_singleton _ _⟩
  have hret : doMmap ⟨[a], 0⟩ none 0x9002000 0x1000 0 0 = .ok (0, ⟨[a, v], 0⟩) := by decide
  exact (doMmap_iff hok (by decide) (by decide) hret).2.mpr
    (.inr ⟨by decide, a, List.mem_singleton_self a, by decide⟩)

/-- A request inside the last area: the new area lies in the old one. The loop compares the request
with the areas behind only, and there are none. -/
theorem doMmap_overlaps :
    ¬∀ (mm mm' : MmStruct) (file : Option Nat) (addr len prot offset : Nat),
      AreasOk mm.mmap → addr < 2 ^ 32 → len < 2 ^ 32 →
      doMmap mm file addr len prot offset = .ok (0, mm') → Inserted mm mm' addr len := by
  intro hall
  let a : VmAreaStruct := ⟨0x9000000, 0x9002000, 0, 0, 0, none⟩
  let v : VmAreaStruct := ⟨0x9001000, 0x9002000, 0, 7, 0, none⟩
  have hok : AreasOk [a] :=
    ⟨fun b hb => by rw [List.mem_singleton.mp hb]; decide, List.pairwise_singleton _ _⟩
  have hret : doMmap ⟨[a], 0⟩ none 0x9001000 0x1000 0 0 = .ok (0, ⟨[a, v], 0⟩) := by decide
  obtain ⟨-, -, -, -, -, -, -, hnew⟩ :=
    hall ⟨[a], 0⟩ ⟨[a, v], 0⟩ none 0x9001000 0x1000 0 0 hok (by decide) (by decide) hret
  have hle : a.vmEnd ≤ v.vmStart := (List.pairwise_cons.mp hnew.sorted).1 v List.mem_cons_self
  exact absurd hle (by decide)

end Fizzos.Proofs
