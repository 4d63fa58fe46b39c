import Fizzos.Proofs.Cow
import Mathlib.Data.Nat.Count

/-!
# `Fizzos.Proofs.Fork`: `copy_pt` shares all frames

`CopyInv` is the invariant of the two loops of `copy_pt`. The first `shared` user pages of the
parent are shared: they are read-only, and their frames have one more reference for each of
them. The first `done` entries of the new directory are set up, and the pages behind them map
what the parent maps. The other entries still are those of the parent, whose directory was
copied first.

The inner loop moves `shared` (`CopyInv.shareTable`) and the body of the outer loop moves
`done` (`CopyInv.copyPde`).
-/

set_option autoImplicit false

namespace Fizzos.Proofs

open Fizzos.Kernel
open Fizzos.LibKernel
open Fizzos.Support

/-! ### One entry -/

section
variable (vm : Vm) (pt j : Nat)

theorem shareEntry_table : (vm.shareEntry pt j).table
    = (vm.setEntry pt j (shareWord (vm.table pt j))).table := by
  unfold Vm.shareEntry shareWord
  split
  · rfl
  · rw [Vm.setEntry_table, Function.update_eq_self, Function.update_eq_self]

theorem shareEntry_user : (vm.shareEntry pt j).user = vm.user := by
  unfold Vm.shareEntry
  split <;> rfl

/-- A reference more for the frame of the entry. -/
theorem shareEntry_buddy : (vm.shareEntry pt j).buddy
    = if vm.table pt j &&& 0b11 ≠ 0 then
        vm.buddy.setPage (entryPage (vm.table pt j))
          { vm.buddy.page (entryPage (vm.table pt j)) with
            count := atomicInc (vm.buddy.page (entryPage (vm.table pt j))).count }
      else vm.buddy := by
  unfold Vm.shareEntry
  split
  · simp only [Vm.incCount, Vm.setEntry_self, Function.update_self, Vm.setEntry_buddy,
      entryPage_clear]
  · rfl

theorem shareTable_zero : vm.shareTable pt 0 = vm := rfl

/-- The inner loop of `copy_pt`, one round more. -/
theorem shareTable_succ : vm.shareTable pt (j + 1) = (vm.shareTable pt j).shareEntry pt j := by
  rw [Vm.shareTable, Vm.shareTable, List.range_succ, List.foldl_append]
  rfl

end

/-- The outer loop of `copy_pt`, one round more. -/
theorem copyPdes_succ (vm : Vm) (oldPgdir newPgdir n : Nat) (current : Tid) :
    vm.copyPdes oldPgdir newPgdir (n + 1) current
      = (vm.copyPdes oldPgdir newPgdir n current
          >>= fun vm => vm.copyPde oldPgdir newPgdir n current) := by
  rw [Vm.copyPdes, Vm.copyPdes, List.range_succ, List.foldlM_append]
  simp only [List.foldlM_cons, List.foldlM_nil, bind_pure]

/-! ### The loops -/

/-- The directories with the one of the new process. -/
def forkDir (s : CowState) (d : Nat) : Nat → Nat := Function.update s.dir s.procs (pageAddr d)

/-- The number of pages of a process below `n` that map a frame. -/
def countPages (s : CowState) (p f n : Nat) : Nat :=
  Nat.count (fun page => s.frame (p, page) = some f) n

/-- The memory while `copy_pt` copies the address space of `p`, which starts in `s`. -/
structure CopyInv (totalMemSize : Nat) (s : CowState) (own : Pool → Multiset Nat)
    (p d shared done : Nat) (vm : Vm) (own' : Pool → Multiset Nat) : Prop where
  owns : Owns totalMemSize vm.buddy s.others own'
  spaces : Spaces vm (s.procs + 1) (forkDir s d) (Function.update fullLim s.procs done) own'
  own_sub : ∀ P, ∀ idx ∈ own P, idx ∈ own' P
  dir : ∀ q < s.procs, vm.table (s.dir q) = s.vm.table (s.dir q)
  pte : ∀ slot ∈ s.slots, vm.pte (s.dir slot.1) slot.2
    = if slot.1 = p ∧ slot.2 < shared then shareWord (s.vm.pte (s.dir slot.1) slot.2)
      else s.vm.pte (s.dir slot.1) slot.2
  newPte : ∀ page < done * 1024,
    vm.pte (pageAddr d) page = shareWord (s.vm.pte (s.dir p) page)
  newDir : ∀ i, done ≤ i → i < 768 → vm.table (pageAddr d) i = s.vm.table (s.dir p) i
  content : ∀ f ∈ own .user, contentOf vm f = contentOf s.vm f
  count : ∀ f ∈ own .user, countOf vm f = countOf s.vm f + countPages s p f shared

section
variable {totalMemSize : Nat} {s : CowState} {own own' : Pool → Multiset Nat} {vm vm' : Vm}
  {p d i j shared done : Nat}

theorem forkDir_old (d : Nat) {q : Nat} (hq : q < s.procs) : forkDir s d q = s.dir q :=
  Function.update_of_ne hq.ne _ _

theorem forkDir_new (d : Nat) : forkDir s d s.procs = pageAddr d := Function.update_self _ _ _

theorem forkLim_old (n : Nat) {q : Nat} (hq : q < s.procs) :
    Function.update fullLim s.procs n q = fullLim q := Function.update_of_ne hq.ne _ _

/-- A process cannot map a frame more often than all processes. -/
theorem countPages_le (hp : p < s.procs) {n : Nat} (hn : n ≤ USER_PAGES) (f : Nat) :
    countPages s p f n ≤ (sharing s.vm s.procs s.dir).refs f := by
  rw [countPages, Nat.count_eq_card_filter_range]
  refine Finset.card_le_card_of_injOn (fun page => (p, page)) (fun page hpage => ?_)
    fun a _ b _ hab => congrArg Prod.snd hab
  obtain ⟨hlt, hf⟩ := Finset.mem_filter.mp (Finset.mem_coe.mp hpage)
  have hslot : (p, page) ∈ s.slots := mem_slots.mpr ⟨hp, (Finset.mem_range.mp hlt).trans_le hn⟩
  exact Finset.mem_coe.mpr (Sharing.mem_users.mpr ⟨hslot, hf⟩)

namespace CopyInv

/-- The entry of the parent that the inner loop looks at. -/
theorem parent_pte (h : CopyInv totalMemSize s own p d shared done vm own') (hp : p < s.procs)
    {page : Nat} (hpage : page < USER_PAGES) (hle : shared ≤ page) :
    vm.pte (s.dir p) page = s.vm.pte (s.dir p) page := by
  have hne : ¬(p = p ∧ page < shared) := fun hlt => Nat.not_lt.mpr hle hlt.2
  rw [h.pte (p, page) (mem_slots.mpr ⟨hp, hpage⟩), if_neg hne]

theorem tableIdx_old (h : CopyInv totalMemSize s own p d shared done vm own') {q : Nat}
    (hq : q < s.procs) (i : Nat) : vm.tableIdx (s.dir q) i = s.vm.tableIdx (s.dir q) i := by
  rw [Vm.tableIdx, h.dir q hq]
  rfl

/-- The body of the inner loop. -/
theorem shareEntry (h : CopyInv totalMemSize s own p d (i * 1024 + j) i vm own')
    (hinv : CowInv totalMemSize s own) (htotal : totalMemSize ≤ 2 ^ 30) (hp : p < s.procs)
    (hi : i < 768) (hj : j < 1024) {t : Nat} (ht : s.vm.tableIdx (s.dir p) i = some t) :
    CopyInv totalMemSize s own p d (i * 1024 + (j + 1)) i (vm.shareEntry (pageAddr t) j) own' := by
  obtain ⟨page, hpage⟩ : ∃ page, page = i * 1024 + j := ⟨_, rfl⟩
  have hdiv : page / 1024 = i := by omega
  have hmod : page % 1024 = j := by omega
  have hlt : page < USER_PAGES := by simp only [USER_PAGES]; omega
  rw [← hpage] at h
  rw [← Nat.add_assoc, ← hpage]
  have hslot : (p, page) ∈ s.slots := mem_slots.mpr ⟨hp, hlt⟩
  -- the entry before, which the loop has not reached
  have ht' : vm.tableIdx (forkDir s d p) (page / 1024) = some t := by
    rw [forkDir_old d hp, h.tableIdx_old hp, hdiv, ht]
  have hw : vm.table (pageAddr t) j = s.vm.pte (s.dir p) page := by
    rw [← h.parent_pte hp hlt (Nat.le_refl _), ← forkDir_old d hp, pte_of_some ht', hmod]
  have hp' : p < s.procs + 1 := Nat.lt_succ_of_lt hp
  have hlim : page < Function.update fullLim s.procs i p * 1024 := by
    rw [forkLim_old i hp]
    exact lt_fullLim hlt p
  have hentry := (hinv.spaces.space p hp).pte page hlt
  have htable : (vm.shareEntry (pageAddr t) j).table
      = (vm.setEntry (pageAddr t) (page % 1024) (shareWord (s.vm.pte (s.dir p) page))).table := by
    rw [shareEntry_table, hw, hmod]
  have hpte : ∀ q < s.procs + 1, ∀ k < Function.update fullLim s.procs i q * 1024,
      (vm.shareEntry (pageAddr t) j).pte (forkDir s d q) k
        = if q = p ∧ k = page then shareWord (s.vm.pte (s.dir p) page)
          else vm.pte (forkDir s d q) k := by
    intro q hq k hk
    rw [← h.spaces.pte_setEntry hp' hlim ht' (shareWord (s.vm.pte (s.dir p) page)) hq hk]
    simp only [Vm.pte, Vm.tableIdx, htable]
  have hdir : ∀ q < s.procs + 1,
      (vm.shareEntry (pageAddr t) j).table (forkDir s d q) = vm.table (forkDir s d q) := by
    intro q hq
    rw [htable]
    exact h.spaces.table_setEntry hp' (div_lt_of_page hlim) ht' _ _ hq
  have hshare : PageEntry (PG_P ||| PG_USER) (own' .user) (shareWord (s.vm.pte (s.dir p) page)) :=
    PageEntry.mono (PageEntry.share hentry) (h.own_sub .user)
  constructor
  · rw [shareEntry_buddy]
    split
    · exact h.owns.setCount _ _
    · exact h.owns
  · exact (h.spaces.setEntry hp' hlim ht' hshare).congr (fun u _ => by rw [htable])
      fun _ _ hmem => hmem
  · exact h.own_sub
  · intro q hq
    rw [← forkDir_old d hq, hdir q (Nat.lt_succ_of_lt hq), forkDir_old d hq]
    exact h.dir q hq
  · intro slot hs
    obtain ⟨hq, hk⟩ := mem_slots.mp hs
    have hk' : slot.2 < Function.update fullLim s.procs i slot.1 * 1024 := by
      rw [forkLim_old i hq]
      exact lt_fullLim hk _
    rw [← forkDir_old d hq, hpte slot.1 (Nat.lt_succ_of_lt hq) slot.2 hk', forkDir_old d hq,
      h.pte slot hs]
    by_cases heq : slot.1 = p ∧ slot.2 = page
    · rw [if_pos heq, if_pos ⟨heq.1, by omega⟩, heq.1, heq.2]
    · rw [if_neg heq]
      refine if_congr ⟨fun hlt => ⟨hlt.1, by omega⟩, fun hlt => ⟨hlt.1, ?_⟩⟩ rfl rfl
      have hne : slot.2 ≠ page := fun hpg => heq ⟨hlt.1, hpg⟩
      omega
  · intro k hk
    have hk' : k < Function.update fullLim s.procs i s.procs * 1024 := by
      rwa [Function.update_self]
    have hne : ¬(s.procs = p ∧ k = page) := fun heq => by omega
    rw [← forkDir_new d, hpte s.procs (Nat.lt_succ_self _) k hk', if_neg hne, forkDir_new d]
    exact h.newPte k hk
  · intro k hk hk'
    rw [← forkDir_new d, hdir s.procs (Nat.lt_succ_self _), forkDir_new d]
    exact h.newDir k hk hk'
  · intro f hf
    rw [contentOf_congr (shareEntry_user vm _ j)]
    exact h.content f hf
  · intro f hf
    have hold := h.count f hf
    have hsucc : countPages s p f (page + 1)
        = countPages s p f page + if s.frame (p, page) = some f then 1 else 0 :=
      Nat.count_succ _ _
    rw [countOf, shareEntry_buddy, hw, hsucc]
    by_cases hempty : s.vm.pte (s.dir p) page &&& 0b11 ≠ 0
    · have hframe : s.frame (p, page) = some (entryPage (s.vm.pte (s.dir p) page)) :=
        PageEntry.present hentry (by decide) hempty
      rw [if_pos hempty, hframe]
      by_cases hfe : f = entryPage (s.vm.pte (s.dir p) page)
      · -- the count of a frame is far from an overflow
        have hrange := hinv.count_range htotal hslot (hfe ▸ hframe)
        have hle : countPages s p f page ≤ 2 ^ 28 := by
          have hrefs := countPages_le (s := s) hp hlt.le f
          have hcount := hinv.counted.eq_refs _ hslot f (hfe ▸ hframe)
          omega
        rw [← hfe, if_pos rfl, Buddy.setPage_page, Function.update_self]
        show atomicInc (countOf vm f) = _
        rw [atomicInc, hold, wrap32_eq (by omega) (by omega)]
        push_cast
        omega
      · have hne : ¬some (entryPage (s.vm.pte (s.dir p) page)) = some f := fun heq =>
          hfe (Option.some.inj heq).symm
        rw [if_neg hne, Buddy.setPage_page, Function.update_of_ne hfe]
        exact hold
    · have hframe : s.frame (p, page) = none := presentPage_of_empty (not_not.mp hempty)
      rw [if_neg hempty, hframe, if_neg (by simp)]
      exact hold

/-- The inner loop shares all pages of a table. -/
theorem shareTable (hinv : CowInv totalMemSize s own) (htotal : totalMemSize ≤ 2 ^ 30)
    (hp : p < s.procs) (hi : i < 768) {t : Nat} (ht : s.vm.tableIdx (s.dir p) i = some t)
    (h : CopyInv totalMemSize s own p d (i * 1024) i vm own') (n : Nat) :
    n ≤ 1024 →
      CopyInv totalMemSize s own p d (i * 1024 + n) i (vm.shareTable (pageAddr t) n) own' := by
  induction n with
  | zero =>
      intro _
      rw [Nat.add_zero, shareTable_zero]
      exact h
  | succ n ih =>
      intro hn
      rw [shareTable_succ]
      exact (ih (Nat.le_of_succ_le hn)).shareEntry hinv htotal hp hi hn ht

/-- A directory entry without a table stays as it was copied. -/
theorem skipPde (h : CopyInv totalMemSize s own p d (i * 1024) i vm own') (hi : i < 768)
    (hempty : s.vm.table (s.dir p) i &&& 0b11 = 0) :
    CopyInv totalMemSize s own p d ((i + 1) * 1024) (i + 1) vm own' := by
  have hnone : s.vm.tableIdx (s.dir p) i = none := presentPage_of_empty hempty
  -- no page behind the entry is present
  have hpte : ∀ page, page / 1024 = i → s.vm.pte (s.dir p) page = 0 := fun page hpage =>
    pte_of_none (by rw [hpage, hnone])
  have hzero : shareWord 0 = 0 := by decide
  have hnew : vm.table (pageAddr d) i &&& 0b11 = 0 := by
    rw [h.newDir i (Nat.le_refl _) hi]
    exact hempty
  have hlim : Function.update fullLim s.procs i s.procs = i := Function.update_self _ _ _
  have hspaces := h.spaces.extend (p := s.procs) (by rw [hlim]; exact hi)
    (by rw [forkDir_new, hlim]; exact hnew)
  rw [hlim, Function.update_idem] at hspaces
  refine ⟨h.owns, hspaces, h.own_sub, h.dir, fun slot hs => ?_, fun page hpage => ?_,
    fun j hj hj' => h.newDir j (Nat.le_of_succ_le hj) hj', h.content, fun f hf => ?_⟩
  · rw [h.pte slot hs]
    by_cases heq : slot.1 = p ∧ slot.2 / 1024 = i
    · have hsame := hpte slot.2 heq.2
      rw [heq.1, hsame, hzero, ite_self, ite_self]
    · refine if_congr ⟨fun hlt => ⟨hlt.1, by omega⟩, fun hlt => ⟨hlt.1, ?_⟩⟩ rfl rfl
      have hne : slot.2 / 1024 ≠ i := fun hdiv => heq ⟨hlt.1, hdiv⟩
      omega
  · by_cases hdiv : page / 1024 = i
    · have htable : vm.tableIdx (pageAddr d) (page / 1024) = none := by
        rw [hdiv]
        exact presentPage_of_empty hnew
      rw [pte_of_none htable, hpte page hdiv, hzero]
    · exact h.newPte page (page_lt_of_div_ne hpage hdiv)
  · have hsame : countPages s p f ((i + 1) * 1024) = countPages s p f (i * 1024) := by
      rw [Nat.succ_mul, countPages, Nat.count_add]
      have hcount : Nat.count (fun k => s.frame (p, i * 1024 + k) = some f) 1024 = 0 := by
        refine Nat.count_of_forall_not fun k hk hf => ?_
        have hframe : s.frame (p, i * 1024 + k) = none := by
          rw [CowState.frame, Vm.frame, hpte _ (by omega)]
          decide
        rw [hframe] at hf
        exact absurd hf (by simp)
      rw [hcount]
      rfl
    rw [hsame]
    exact h.count f hf

/-- A directory entry with a table gets a new table with the same entries. -/
theorem newPde (h : CopyInv totalMemSize s own p d ((i + 1) * 1024) i vm own')
    (htotal : totalMemSize ≤ 2 ^ 30) (hp : p < s.procs) (hi : i < 768) {t newPt : Nat} {vm₂ : Vm}
    {current : Tid} (ht : s.vm.tableIdx (s.dir p) i = some t)
    (hget : vm.getFreePage KERNEL_POOL current = .ok (newPt, vm₂))
    (hvm : vm' = (vm₂.copyPage newPt (pageAddr t)).setEntry (pageAddr d) i
      (paddrWord newPt ||| PG_P ||| PG_RWE ||| PG_USER)) :
    ∃ own'', CopyInv totalMemSize s own p d ((i + 1) * 1024) (i + 1) vm' own'' := by
  obtain ⟨b, hbuddy, rfl⟩ := getFreePage_ok hget
  obtain ⟨t', rfl, hlt, hfresh, howns, hpage⟩ := h.owns.getFreePage htotal hbuddy
  have hpool : poolOfFlag KERNEL_POOL = .kernel := by decide
  rw [hpool] at howns
  rw [or_flags_eq t' rfl] at hvm
  have hsame : SameOwn own' vm ({ vm with buddy := b }.copyPage (pageAddr t') (pageAddr t)) := by
    refine .of_fresh hfresh (fun a ha => ?_) (fun a ha => ?_) fun g hg => ?_
    · exact Vm.copyPage_table_of_ne _ _ ha
    · exact Vm.copyPage_user_of_ne _ _ ha
    · exact (congrFun hpage g).trans (Function.update_of_ne hg _ _)
  have hcopy : ({ vm with buddy := b }.copyPage (pageAddr t') (pageAddr t)).table (pageAddr t')
      = vm.table (pageAddr t) := Vm.copyPage_table_self _ _ _
  have hb : ({ vm with buddy := b }.copyPage (pageAddr t') (pageAddr t)).buddy = b := rfl
  generalize { vm with buddy := b }.copyPage (pageAddr t') (pageAddr t) = vmc
    at hsame hcopy hb hvm
  have hn : s.procs < s.procs + 1 := Nat.lt_succ_self _
  have hp' : p < s.procs + 1 := Nat.lt_succ_of_lt hp
  have hdir : pageAddr d ≠ pageAddr t' := by
    obtain ⟨d', hd', hdir', -⟩ := h.spaces.self hn
    rw [forkDir_new] at hdir'
    rw [hdir']
    exact fun heq => hfresh .kernel (pageAddr_inj heq ▸ hd')
  have hinstall : Spaces.Installs vm vm' own' (forkDir s d s.procs) i t' (frameWord t')
      (vm.table (pageAddr t)) := by
    refine ⟨hfresh .kernel, frameWord_present hlt, frameWord_rights t', ?_, ?_, fun u hu hne => ?_⟩
    · rw [hvm, forkDir_new, Vm.setEntry_self, ← forkDir_new (s := s) d,
        h.spaces.table_dir (hsame.table .kernel) hn]
    · rw [hvm, Vm.setEntry_of_ne _ _ _ hdir.symm, hcopy]
    · rw [forkDir_new] at hne
      rw [hvm, Vm.setEntry_of_ne _ _ _ hne, hsame.table .kernel u hu]
  -- the new table has the entries of the parent's table
  have ht' : vm.tableIdx (s.dir p) i = some t := (h.tableIdx_old hp i).trans ht
  have hentry : ∀ page, page / 1024 = i →
      vm.table (pageAddr t) (page % 1024) = vm.pte (s.dir p) page := fun page hdiv =>
    (pte_of_some (by rw [hdiv, ht'])).symm
  have hcontent : ∀ j < 1024,
      PageEntry (PG_P ||| PG_USER) (own' .user) (vm.table (pageAddr t) j) := by
    intro j hj
    have hdiv : (i * 1024 + j) / 1024 = i := by omega
    have hmod : (i * 1024 + j) % 1024 = j := by omega
    have hpage' : i * 1024 + j < Function.update fullLim s.procs i p * 1024 := by
      rw [forkLim_old i hp]
      exact page_lt_of_div (hdiv.symm ▸ hi)
    have hparent := (h.spaces.space p hp').pte _ hpage'
    rwa [forkDir_old d hp, ← hentry _ hdiv, hmod] at hparent
  have hlim : Function.update fullLim s.procs i s.procs = i := Function.update_self _ _ _
  have hmore : ∀ P, ∀ idx ∈ own' P, idx ∈ addPage own' .kernel t' P :=
    fun P idx hidx => mem_addPage hidx
  have hspaces := h.spaces.install hn hinstall (Nat.le_of_eq hlim.symm) hi hcontent hmore
    mem_addPage_self
  have hpte := fun q hq k => h.spaces.pte_install hn hinstall (Nat.le_of_eq hlim.symm)
    (q := q) hq (k := k)
  rw [hlim, Nat.max_eq_right (Nat.le_succ i), Function.update_idem] at hspaces hpte
  refine ⟨addPage own' .kernel t', ?_, hspaces, fun P idx hidx =>
    mem_addPage (h.own_sub P idx hidx),
    fun q hq => ?_, fun slot hs => ?_, fun page hpage' => ?_, fun j hj hj' => ?_, fun f hf => ?_,
    fun f hf => ?_⟩
  · rw [hvm, Vm.setEntry_buddy, hb]
    exact howns
  · rw [← forkDir_old d hq, h.spaces.table_install_of_ne hn hinstall (Nat.lt_succ_of_lt hq) hq.ne,
      forkDir_old d hq]
    exact h.dir q hq
  · obtain ⟨hq, hk⟩ := mem_slots.mp hs
    have hk' : slot.2 < Function.update fullLim s.procs (i + 1) slot.1 * 1024 := by
      rw [forkLim_old _ hq]
      exact lt_fullLim hk _
    rw [← forkDir_old d hq, hpte slot.1 (Nat.lt_succ_of_lt hq) slot.2 hk',
      if_neg fun heq => hq.ne heq.1, forkDir_old d hq]
    exact h.pte slot hs
  · have hk' : page < Function.update fullLim s.procs (i + 1) s.procs * 1024 := by
      rwa [Function.update_self]
    rw [← forkDir_new d, hpte s.procs hn page hk', forkDir_new d]
    by_cases hdiv : page / 1024 = i
    · have hslot : (p, page) ∈ s.slots :=
        mem_slots.mpr ⟨hp, page_lt_of_div (n := 768) (hdiv.symm ▸ hi)⟩
      rw [if_pos ⟨rfl, hdiv⟩, hentry page hdiv, h.pte (p, page) hslot, if_pos ⟨rfl, hpage'⟩]
    · rw [if_neg fun heq => hdiv heq.2]
      exact h.newPte page (page_lt_of_div_ne hpage' hdiv)
  · have hji : j ≠ i := by omega
    rw [← forkDir_new (s := s) d, hinstall.dir, Function.update_of_ne hji, forkDir_new]
    exact h.newDir j (Nat.le_of_succ_le hj) hj'
  · have hcong : contentOf vm' = contentOf vmc := contentOf_congr (by rw [hvm, Vm.setEntry_user])
    rw [hcong]
    exact (hsame.user .user f (h.own_sub .user f hf)).trans (h.content f hf)
  · have hcong : countOf vm' f = countOf vmc f := by rw [hvm, countOf, Vm.setEntry_buddy]; rfl
    rw [hcong]
    exact (hsame.count .user f (h.own_sub .user f hf)).trans (h.count f hf)

/-- The body of the outer loop. -/
theorem copyPde (h : CopyInv totalMemSize s own p d (i * 1024) i vm own')
    (hinv : CowInv totalMemSize s own) (htotal : totalMemSize ≤ 2 ^ 30) (hp : p < s.procs)
    (hi : i < 768) {current : Tid}
    (hok : vm.copyPde (s.dir p) (pageAddr d) i current = .ok vm') :
    ∃ own'', CopyInv totalMemSize s own p d ((i + 1) * 1024) (i + 1) vm' own'' := by
  unfold Vm.copyPde at hok
  rw [h.dir p hp] at hok
  by_cases hempty : s.vm.table (s.dir p) i &&& 0b11 ≠ 0
  · rw [if_pos hempty] at hok
    obtain ⟨⟨newPt, vm₂⟩, hget, hret⟩ := bind_eq_ok.mp hok
    have ht : s.vm.tableIdx (s.dir p) i = some (entryPage (s.vm.table (s.dir p) i)) :=
      PageEntry.present ((hinv.spaces.space p hp).pde i hi) (by decide) hempty
    rw [entryAddr_eq] at hget hret
    have hshared := h.shareTable hinv htotal hp hi ht 1024 (Nat.le_refl _)
    rw [← Nat.succ_mul] at hshared
    exact hshared.newPde htotal hp hi ht hget (Except.ok.inj hret).symm
  · rw [if_neg hempty] at hok
    obtain rfl := Except.ok.inj hok
    exact ⟨own', h.skipPde hi (not_not.mp hempty)⟩

/-- The outer loop sets up the new directory. -/
theorem copyPdes (hinv : CowInv totalMemSize s own) (htotal : totalMemSize ≤ 2 ^ 30)
    (hp : p < s.procs) {current : Tid} (h : CopyInv totalMemSize s own p d 0 0 vm own') (n : Nat) :
    ∀ {vm'}, n ≤ 768 → vm.copyPdes (s.dir p) (pageAddr d) n current = .ok vm' →
      ∃ own'', CopyInv totalMemSize s own p d (n * 1024) n vm' own'' := by
  induction n with
  | zero =>
      intro vm' _ hok
      obtain rfl : vm = vm' := Except.ok.inj hok
      rw [Nat.zero_mul]
      exact ⟨own', h⟩
  | succ n ih =>
      intro vm' hn hok
      rw [copyPdes_succ] at hok
      obtain ⟨vm₁, hloop, hbody⟩ := bind_eq_ok.mp hok
      obtain ⟨own₁, h₁⟩ := ih (Nat.le_of_succ_le hn) hloop
      exact h₁.copyPde hinv htotal hp hn hbody

end CopyInv

/-! ### Fork -/

/-- The new directory before the loops: a copy of the parent's, with an entry for itself. -/
theorem CowInv.copyInv_init (h : CowInv totalMemSize s own) (htotal : totalMemSize ≤ 2 ^ 30)
    {pgDir : Nat} {vm₁ : Vm} {current : Tid}
    (hget : s.vm.getFreePage KERNEL_POOL current = .ok (pgDir, vm₁)) :
    ∃ d own', pgDir = pageAddr d ∧
      CopyInv totalMemSize s own p d 0 0 ((vm₁.copyPage pgDir (s.dir p)).setEntry pgDir 1023
        (paddrWord pgDir ||| PG_SUPERVISOR ||| PG_P ||| PG_RWE)) own' := by
  obtain ⟨d, rfl, hd, hfresh, hvm₁, hnew⟩ := h.freshPage htotal hget
  have hpool : poolOfFlag KERNEL_POOL = .kernel := by decide
  rw [hpool] at hnew
  obtain ⟨vm', hvm⟩ : ∃ vm', vm' = (vm₁.copyPage (pageAddr d) (s.dir p)).setEntry (pageAddr d) 1023
      (paddrWord (pageAddr d) ||| PG_SUPERVISOR ||| PG_P ||| PG_RWE) := ⟨_, rfl⟩
  rw [← hvm]
  have htable : vm'.table (pageAddr d) = Function.update (s.vm.table (s.dir p)) 1023
      (paddrWord (pageAddr d) ||| PG_SUPERVISOR ||| PG_P ||| PG_RWE) := by
    rw [hvm, Vm.setEntry_self, Vm.copyPage_table_self, (hvm₁ _).1]
  obtain ⟨hsame, -, hinv⟩ := hnew vm' (by rw [hvm]; rfl) fun a ha => by
    rw [hvm, Vm.setEntry_of_ne _ _ _ ha, Vm.setEntry_user]
    exact ⟨Vm.copyPage_table_of_ne _ _ ha, Vm.copyPage_user_of_ne _ _ ha⟩
  -- The last entry names the directory itself, as in every directory.
  have hself : vm'.tableIdx (pageAddr d) 1023 = some d := by
    have hflags : (PG_SUPERVISOR ||| PG_P ||| PG_RWE) >>> 12 = 0 := by decide
    rw [Vm.tableIdx, htable, Function.update_self, BitVec.or_assoc, BitVec.or_assoc,
      ← BitVec.or_assoc PG_SUPERVISOR]
    exact presentPage_paddrWord hd hflags (by decide)
  have hmore : ∀ P, ∀ idx ∈ own P, idx ∈ addPage own .kernel d P :=
    fun P idx hidx => mem_addPage hidx
  have hspaces := h.spaces.addDir (hsame.table .kernel) (hfresh .kernel) hself hmore
    mem_addPage_self
  refine ⟨d, addPage own .kernel d, rfl, hinv.owns, hspaces, fun P idx hidx => mem_addPage hidx,
    fun q hq => h.spaces.table_dir (hsame.table .kernel) hq, fun slot hs => ?_,
    fun page hpage => absurd hpage (by simp), fun i _ hi => ?_, fun f hf => hsame.user .user f hf,
    fun f hf => ?_⟩
  · rw [if_neg fun hlt => Nat.not_lt_zero _ hlt.2]
    exact h.pte_same hsame hs
  · rw [htable, Function.update_of_ne (by omega)]
  · rw [hsame.count .user f hf, countPages, Nat.count_zero]
    simp

/-- The slots of the new process. -/
def childSlots (s : CowState) : Finset (Nat × Nat) := {s.procs} ×ˢ Finset.range USER_PAGES

theorem mem_childSlots {slot : Nat × Nat} :
    slot ∈ childSlots s ↔ slot.1 = s.procs ∧ slot.2 < USER_PAGES := by
  rw [childSlots, Finset.mem_product, Finset.mem_singleton, Finset.mem_range]

/-- The references of the new process are those of its parent. -/
theorem card_childSlots (f : Nat) :
    ((childSlots s).filter fun slot => s.frame (p, slot.2) = some f).card
      = countPages s p f USER_PAGES := by
  rw [countPages, Nat.count_eq_card_filter_range]
  refine Finset.card_bij (fun slot _ => slot.2) (fun slot hs => ?_) (fun a ha b hb hab => ?_)
    fun page hpage => ?_
  · obtain ⟨hmem, hf⟩ := Finset.mem_filter.mp hs
    exact Finset.mem_filter.mpr ⟨Finset.mem_range.mpr (mem_childSlots.mp hmem).2, hf⟩
  · have ha' := (mem_childSlots.mp (Finset.mem_filter.mp ha).1).1
    have hb' := (mem_childSlots.mp (Finset.mem_filter.mp hb).1).1
    exact Prod.ext (ha'.trans hb'.symm) hab
  · obtain ⟨hlt, hf⟩ := Finset.mem_filter.mp hpage
    exact ⟨(s.procs, page), Finset.mem_filter.mpr
      ⟨mem_childSlots.mpr ⟨rfl, Finset.mem_range.mp hlt⟩, hf⟩, rfl⟩

/-- A finished copy is a new process that shares all frames of its parent. -/
theorem CopyInv.finish (h : CopyInv totalMemSize s own p d USER_PAGES 768 vm own')
    (hinv : CowInv totalMemSize s own) (hp : p < s.procs) {child : Proc}
    (hdir : child.mm.pgDir = pageAddr d) (hfault : child.fault = none) :
    CowInv totalMemSize { s with
      vm, procs := s.procs + 1
      proc := Function.update s.proc s.procs child
      eager := Function.update s.eager s.procs (s.eager p) } own' := by
  have hslots : ∀ slot : Nat × Nat, slot ∈ Finset.range (s.procs + 1) ×ˢ Finset.range USER_PAGES ↔
      slot ∈ s.slots ∨ slot ∈ childSlots s := by
    intro slot
    rw [mem_childSlots, CowState.slots, Finset.mem_product, Finset.mem_product, Finset.mem_range,
      Finset.mem_range, Finset.mem_range]
    omega
  have hdirs : (fun q => (Function.update s.proc s.procs child q).mm.pgDir) = forkDir s d := by
    funext q
    by_cases hq : q = s.procs
    · subst hq
      rw [Function.update_self, forkDir_new, hdir]
    · rw [Function.update_of_ne hq, forkDir, Function.update_of_ne hq]
      rfl
  have hold : ∀ slot ∈ s.slots, vm.frame (forkDir s d slot.1) slot.2 = s.frame slot := by
    intro slot hs
    rw [forkDir_old d (mem_slots.mp hs).1, Vm.frame, h.pte slot hs]
    split
    · exact presentPage_share _
    · rfl
  have hchild : ∀ slot ∈ childSlots s,
      vm.pte (forkDir s d slot.1) slot.2 = shareWord (s.vm.pte (s.dir p) slot.2) := by
    intro slot hs
    obtain ⟨hq, hk⟩ := mem_childSlots.mp hs
    rw [hq, forkDir_new]
    exact h.newPte slot.2 hk
  have hnew : ∀ slot ∈ childSlots s,
      vm.frame (forkDir s d slot.1) slot.2 = s.frame (p, slot.2) := fun slot hs => by
    rw [Vm.frame, hchild slot hs]
    exact presentPage_share _
  have horig : ∀ slot ∈ childSlots s, (p, slot.2) ∈ s.slots := fun slot hs =>
    mem_slots.mpr ⟨hp, (mem_childSlots.mp hs).2⟩
  have hdisj : Disjoint s.slots (childSlots s) := Finset.disjoint_left.mpr fun slot hs hc =>
    (mem_slots.mp hs).1.ne (mem_childSlots.mp hc).1
  have hfork : ((sharing s.vm s.procs s.dir).fork (childSlots s) fun slot => (p, slot.2)).Counted
      (countOf vm) := hinv.counted.fork hdisj horig fun slot hs f hf => by
    rw [h.count f (hinv.frame_mem hs hf)]
    exact congrArg (countOf s.vm f + ·) (congrArg Nat.cast (card_childSlots f).symm)
  have hdomain : Finset.range (s.procs + 1) ×ˢ Finset.range USER_PAGES
      = s.slots ∪ childSlots s := by
    ext slot
    rw [hslots slot, Finset.mem_union]
  constructor
  · exact h.owns
  · show Spaces vm (s.procs + 1) (fun q => (Function.update s.proc s.procs child q).mm.pgDir)
      fullLim own'
    have hlim : Function.update fullLim s.procs 768 = fullLim := Function.update_eq_self _ _
    rw [hdirs, ← hlim]
    exact h.spaces
  · show (sharing vm (s.procs + 1)
      fun q => (Function.update s.proc s.procs child q).mm.pgDir).Counted _
    rw [hdirs]
    refine hfork.congr hdomain (fun slot hs => ?_) (fun slot hs hw => ?_) fun _ _ _ _ => rfl
    · by_cases hc : slot ∈ childSlots s
      · rw [Sharing.fork_frame_mem _ hc]
        exact hnew slot hc
      · rw [Sharing.fork_frame_notMem _ hc]
        exact hold slot ((Finset.mem_union.mp hs).resolve_right hc)
    · -- the parent's and the child's entries are read-only
      have hnot : slot ∉ childSlots s := fun hc => hw (by
        show vm.pte (forkDir s d slot.1) slot.2 &&& PG_RWE = 0
        rw [hchild slot hc, share_and_rwe])
      have hslot := (Finset.mem_union.mp hs).resolve_right hnot
      obtain ⟨hq, hk⟩ := mem_slots.mp hslot
      have hpte := h.pte slot hslot
      rw [← forkDir_old d hq] at hpte
      by_cases heq : slot.1 = p ∧ slot.2 < USER_PAGES
      · rw [if_pos heq] at hpte
        have hro : vm.pte (forkDir s d slot.1) slot.2 &&& PG_RWE = 0 := by
          rw [hpte, share_and_rwe]
        exact (hw hro).elim
      · rw [if_neg heq] at hpte
        refine ⟨hnot, fun himage => ?_, ?_⟩
        · obtain ⟨c, -, rfl⟩ := Finset.mem_image.mp himage
          exact heq ⟨rfl, hk⟩
        · show s.vm.pte (s.dir slot.1) slot.2 &&& PG_RWE ≠ 0
          rw [← forkDir_old d hq, ← hpte]
          exact hw
  · intro q hq addr buf hbuf
    by_cases hqn : q = s.procs
    · rw [hqn] at hbuf
      simp only [Function.update_self, hfault] at hbuf
      exact absurd hbuf (by simp)
    · have hlt : q < s.procs := Nat.lt_of_le_of_ne (Nat.le_of_lt_succ hq) hqn
      simp only [Function.update_of_ne hqn] at hbuf
      obtain ⟨haddr, ⟨t, ht⟩, f, hf, hpage, hcount, hzero, hnone⟩ :=
        hinv.waits q hlt addr buf hbuf
      have hcount' : countPages s p f USER_PAGES = 0 := Nat.count_of_forall_not fun page hk =>
        hnone (p, page) (mem_slots.mpr ⟨hp, hk⟩)
      refine ⟨haddr, ⟨t, ?_⟩, f, h.own_sub .user f hf, hpage, ?_, (h.content f hf).trans hzero,
        fun slot hs heq => ?_⟩
      · show vm.tableIdx ((fun q => (Function.update s.proc s.procs child q).mm.pgDir) q) _ = _
        rw [hdirs, forkDir_old d hlt, h.tableIdx_old hlt, ht]
      · show countOf vm f = 1
        rw [h.count f hf, hcount, hcount']
        rfl
      · have heq' : vm.frame (forkDir s d slot.1) slot.2 = some f := by
          rw [← hdirs]
          exact heq
        rcases (hslots slot).mp hs with hs | hs
        · exact hnone slot hs ((hold slot hs).symm.trans heq')
        · exact hnone _ (horig slot hs) ((hnew slot hs).symm.trans heq')
  · intro q hq r hr addr addr' buf hbuf hbuf'
    -- the child does not wait
    have hlt : ∀ q < s.procs + 1, ∀ a,
        (Function.update s.proc s.procs child q).fault = some (a, buf) →
          q < s.procs ∧ (s.proc q).fault = some (a, buf) := by
      intro q hq a ha
      have hqn : q ≠ s.procs := fun hqn => by
        rw [hqn, Function.update_self, hfault] at ha
        exact absurd ha (by simp)
      rw [Function.update_of_ne hqn] at ha
      exact ⟨Nat.lt_of_le_of_ne (Nat.le_of_lt_succ hq) hqn, ha⟩
    obtain ⟨hq', hbuf⟩ := hlt q hq addr hbuf
    obtain ⟨hr', hbuf'⟩ := hlt r hr addr' hbuf'
    exact hinv.waits_inj q hq' r hr' addr addr' buf hbuf hbuf'
  · intro slot hs
    have hview : ∀ orig ∈ s.slots, s.eager orig.1 orig.2 = (s.frame orig).map (contentOf vm) := by
      intro orig hs
      rw [hinv.eager orig hs]
      show (s.frame orig).map _ = _
      cases hf : s.frame orig with
      | none => rfl
      | some f => exact congrArg some (h.content f (hinv.frame_mem hs hf)).symm
    show Function.update s.eager s.procs (s.eager p) slot.1 slot.2
      = (vm.frame ((fun q => (Function.update s.proc s.procs child q).mm.pgDir) slot.1)
          slot.2).map (contentOf vm)
    rw [hdirs]
    rcases (hslots slot).mp hs with hs | hs
    · rw [Function.update_of_ne (mem_slots.mp hs).1.ne, hold slot hs, hview slot hs]
    · rw [(mem_childSlots.mp hs).1, Function.update_self, ← (mem_childSlots.mp hs).1, hnew slot hs]
      exact hview (p, slot.2) (horig slot hs)

/-- Behind a fork, all pages have been copied to the directory of the child. -/
theorem CowInv.fork_copied (h : CowInv totalMemSize s own) (htotal : totalMemSize ≤ 2 ^ 30)
    {current : Tid} (hp : p < s.procs) {s' : CowState}
    (hok : s.next (.fork p current) = .ok s') :
    ∃ d vm own', CopyInv totalMemSize s own p d USER_PAGES 768 vm own' ∧
      s' = { s with
        vm, procs := s.procs + 1
        proc := Function.update s.proc s.procs
          { mm := { (s.proc p).mm with pgDir := pageAddr d }, fault := none }
        eager := Function.update s.eager s.procs (s.eager p) } := by
  obtain ⟨⟨mm, vm'⟩, hcopy, hret⟩ := bind_eq_ok.mp hok
  obtain rfl := Except.ok.inj hret
  obtain ⟨⟨pgDir, vm₁⟩, hget, hcopy⟩ := bind_eq_ok.mp hcopy
  obtain ⟨vm₂, hloop, hret⟩ := bind_eq_ok.mp hcopy
  obtain ⟨rfl, rfl⟩ : { (s.proc p).mm with pgDir } = mm ∧ vm₂ = vm' := by simpa using hret
  obtain ⟨d, own₀, rfl, hinit⟩ := h.copyInv_init htotal hget
  rw [Vm.copyPt] at hloop
  obtain ⟨own', hdone⟩ := hinit.copyPdes h htotal hp 768 (Nat.le_refl _) hloop
  have hpages : 768 * 1024 = USER_PAGES := rfl
  rw [hpages] at hdone
  exact ⟨d, vm₂, own', hdone, rfl⟩

/-- Fork: the parent and the child read the same, and nobody else notices. -/
theorem CowInv.fork (h : CowInv totalMemSize s own) (htotal : totalMemSize ≤ 2 ^ 30)
    {current : Tid} (hp : p < s.procs) {s' : CowState}
    (hok : s.next (.fork p current) = .ok s') : ∃ own', CowInv totalMemSize s' own' := by
  obtain ⟨d, vm, own', hdone, rfl⟩ := h.fork_copied htotal hp hok
  exact ⟨own', hdone.finish h hp rfl rfl⟩

end

end Fizzos.Proofs
