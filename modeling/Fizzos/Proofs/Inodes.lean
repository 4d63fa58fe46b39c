import Fizzos.Fs.Inode
import Fizzos.Proofs.BitmapIds
import Fizzos.Proofs.List

/-!
# `Fizzos.Proofs.Inodes`: the table of open inodes

`InodesOk` is the state of the table between two calls. The inodes on the list have different
numbers, and the bit of each number is set in the inode bitmap. `inode_alloc` keeps this, since
it takes a number whose bit is clear, and so a number that no inode on the list has. `inode_open`
keeps it, since it makes a new inode only when its walk finds none with the number.
`inode_delete` clears a bit that only its own inode needs.

An `i_count` is an `atomic_t`, so the count of an inode that is opened `2 ^ 31` times wraps
around.
-/

set_option autoImplicit false

namespace Fizzos.Proofs

open Fizzos.Fs
open Fizzos.Kernel
open Fizzos.LibKernel
open Fizzos.Support

/-! ### The walk -/

/-- The walk of `inode_open` finds the first inode with the number. -/
theorem findInode_spec {inode : Nat → Inode} {tags : Links Nat} {ps : List Nat} {iNo n : Nat}
    (hl : Linked tags ps) (hn : ps.length ≤ n) :
    findInode inode tags iNo n ps.head?
      = .ok (ps.find? fun p => decide ((inode p).iNo = iNo)) := by
  induction ps generalizing n with
  | nil => cases n <;> rfl
  | cons p ps ih =>
      cases n with
      | zero => exact absurd hn (Nat.not_succ_le_zero _)
      | succ n =>
          rw [List.head?_cons, findInode, List.find?_cons]
          by_cases hp : (inode p).iNo = iNo
          · simp [hp]
          · rw [if_neg hp, decide_eq_false hp, hl.next_head]
            exact ih hl.tail (Nat.le_of_succ_le_succ hn)

/-- `inode_open` of a number in use gives an inode with the number. -/
theorem inodeOpen_number {s : FileSys} {ps : List Nat} {p iNo : Nat}
    (hlist : IsList s.inodeTag s.part.openInodes ps) (hlen : ps.length ≤ LIST_WALK) (hnew : p ∉ ps)
    (hno : iNo < 4096) (hset : bitmapIsSet s.part.inodeBitmap iNo = true) :
    ∃ r s', inodeOpen s iNo p = .ok (r, s') ∧ (s'.inode r).iNo = iNo := by
  rw [inodeOpen, ASSERT_true hno, ok_bind, ASSERT_true hset, ok_bind, hlist.head,
    findInode_spec hlist.linked hlen, ok_bind]
  cases hres : ps.find? fun q => decide ((s.inode q).iNo = iNo) with
  | some q =>
      refine ⟨q, _, rfl, ?_⟩
      rw [FileSys.setInode_self]
      exact of_decide_eq_true (List.find?_some (p := fun q => decide ((s.inode q).iNo = iNo)) hres)
  | none =>
      obtain ⟨openInodes, inodeTag, hpush, -⟩ := listPushFront_spec hlist hnew
      simp only [FileSys.setInode, hpush, ok_bind, pure_eq_ok]
      refine ⟨p, _, rfl, ?_⟩
      show (Function.update s.inode p (inodeFromDisk s.part.sb s.disk iNo) p).iNo = iNo
      rw [Function.update_self]
      rfl

/-! ### The table -/

/-- The numbers of some inodes. -/
abbrev numbers (s : FileSys) (ps : List Nat) : List Nat := ps.map fun p => (s.inode p).iNo

/-- The table between two calls. The inodes `ps` are on the list. -/
structure InodesOk (s : FileSys) (ps : List Nat) : Prop where
  isList : IsList s.inodeTag s.part.openInodes ps
  pointer : ∀ p ∈ ps, p < 2 ^ 32
  lock : s.part.inodeBitmap.lock = mutexLockInit
  nodup : (numbers s ps).Nodup
  bits : ∀ p ∈ ps, s.part.inodeBitmap.bit (s.inode p).iNo = true
  count : ∀ p ∈ ps, -2 ^ 31 ≤ (s.inode p).iCount ∧ (s.inode p).iCount < 2 ^ 31

namespace InodesOk

variable {s : FileSys} {ps : List Nat} {p : Nat}

theorem length_le (h : InodesOk s ps) : ps.length ≤ LIST_WALK :=
  length_le_listWalk h.isList.linked h.pointer

/-- The list, as a walk sees it. -/
theorem openList (h : InodesOk s ps) : s.openList = .ok ps := by
  rw [FileSys.openList, h.isList.head]
  exact nodesFrom_eq h.isList.linked h.length_le

theorem isOpen_iff (h : InodesOk s ps) : s.IsOpen p ↔ p ∈ ps := by
  constructor
  · rintro ⟨ps', hps', hp⟩
    obtain rfl := Except.ok.inj (hps'.symm.trans h.openList)
    exact hp
  · exact fun hp => ⟨ps, h.openList, hp⟩

/-- Two open inodes with one number are the same. -/
theorem eq_of_iNo (h : InodesOk s ps) {q : Nat} (hp : p ∈ ps) (hq : q ∈ ps)
    (heq : (s.inode p).iNo = (s.inode q).iNo) : p = q :=
  List.inj_on_of_nodup_map h.nodup hp hq heq

/-- The list gets a new first inode. -/
theorem push (h : InodesOk s ps) {i : Inode} {b : Bitmap} {openInodes : KList Nat}
    {inodeTag : Links Nat} (hp : p < 2 ^ 32) (hnew : p ∉ ps)
    (hlist : IsList inodeTag openInodes (p :: ps)) (hlock : b.lock = mutexLockInit)
    (hnumber : i.iNo ∉ numbers s ps) (hbit : b.bit i.iNo = true)
    (hbits : ∀ q ∈ ps, b.bit (s.inode q).iNo = true)
    (hcount : i.iCount = 0 ∨ i.iCount = 1) :
    InodesOk { s.setInode p i with
      part := { s.part with inodeBitmap := b, openInodes }, inodeTag } (p :: ps) := by
  have hold : ∀ q ∈ ps, (s.setInode p i).inode q = s.inode q := by
    intro q hq
    refine s.setInode_of_ne i ?_
    rintro rfl
    exact hnew hq
  -- The numbers of the others are as before, and the new one is none of them.
  have hsame : numbers (s.setInode p i) ps = numbers s ps :=
    List.map_congr_left fun q hq => by rw [hold q hq]
  refine ⟨hlist, List.forall_mem_cons.mpr ⟨hp, h.pointer⟩, hlock, ?_, ?_, ?_⟩
  · show (((s.setInode p i).inode p).iNo :: numbers (s.setInode p i) ps).Nodup
    rw [FileSys.setInode_self, hsame, List.nodup_cons]
    exact ⟨hnumber, h.nodup⟩
  · refine List.forall_mem_cons.mpr ⟨?_, fun q hq => ?_⟩
    · show b.bit ((s.setInode p i).inode p).iNo = true
      rw [FileSys.setInode_self]
      exact hbit
    · show b.bit ((s.setInode p i).inode q).iNo = true
      rw [hold q hq]
      exact hbits q hq
  · refine List.forall_mem_cons.mpr ⟨?_, fun q hq => ?_⟩
    · show _ ≤ ((s.setInode p i).inode p).iCount ∧ ((s.setInode p i).inode p).iCount < _
      rw [FileSys.setInode_self]
      omega
    · show _ ≤ ((s.setInode p i).inode q).iCount ∧ ((s.setInode p i).inode q).iCount < _
      rw [hold q hq]
      exact h.count q hq

/-- An inode gets another count. -/
theorem setCount (h : InodesOk s ps) (c : Int) :
    InodesOk (s.setInode p ((s.inode p).setCount (wrap32 c))) ps := by
  have hno : ∀ q, ((s.setInode p ((s.inode p).setCount (wrap32 c))).inode q).iNo
      = (s.inode q).iNo := by
    intro q
    by_cases hq : q = p
    · subst hq
      rw [FileSys.setInode_self, Inode.setCount]
    · rw [FileSys.setInode_of_ne _ _ hq]
  have hnumbers : numbers (s.setInode p ((s.inode p).setCount (wrap32 c))) ps = numbers s ps :=
    List.map_congr_left fun q _ => hno q
  refine ⟨h.isList, h.pointer, h.lock, hnumbers ▸ h.nodup, fun q hq => ?_, fun q hq => ?_⟩
  · rw [hno q]
    exact h.bits q hq
  · by_cases hqp : q = p
    · subst hqp
      rw [FileSys.setInode_self]
      exact wrap32_range c
    · rw [FileSys.setInode_of_ne _ _ hqp]
      exact h.count q hq

/-- An inode leaves the list. The bits of the others stay set. -/
theorem erase (h : InodesOk s ps) {b : Bitmap} {openInodes : KList Nat} {inodeTag : Links Nat}
    (hlist : IsList inodeTag openInodes (ps.erase p)) (hlock : b.lock = mutexLockInit)
    (hbits : ∀ q ∈ ps, q ≠ p → b.bit (s.inode q).iNo = true) :
    InodesOk { s with part := { s.part with inodeBitmap := b, openInodes }, inodeTag }
      (ps.erase p) where
  isList := hlist
  pointer q hq := h.pointer q (List.mem_of_mem_erase hq)
  lock := hlock
  nodup := h.nodup.sublist (List.erase_sublist.map _)
  bits q hq := by
    have hmem := (h.isList.linked.nodup.mem_erase_iff).mp hq
    exact hbits q hmem.2 hmem.1
  count q hq := h.count q (List.mem_of_mem_erase hq)

/-! ### The calls -/

/-- `inode_alloc` takes the least number whose bit is clear. -/
theorem alloc (h : InodesOk s ps) {current : Tid} {s' : FileSys} (hp : p < 2 ^ 32) (hnew : p ∉ ps)
    (hok : inodeAlloc s p current = .ok s') :
    ∃ idx, s.part.inodeBitmap.bit idx = false ∧
      s'.part.inodeBitmap = Bitmap.set s.part.inodeBitmap idx true ∧
      (s'.inode p).iNo = idx ∧ (s'.inode p).iCount = 0 ∧
      (∀ q, q ≠ p → s'.inode q = s.inode q) ∧ s'.disk = s.disk ∧
      s'.part = { s.part with
        inodeBitmap := s'.part.inodeBitmap, openInodes := s'.part.openInodes } ∧
      InodesOk s' (p :: ps) := by
  rw [inodeAlloc, bitmapScanSet_eq h.lock] at hok
  cases hidx : bitmapScanIndex s.part.inodeBitmap with
  | none =>
      rw [hidx] at hok
      cases hok
  | some idx =>
      have hclear := (bitmapScanIndex_eq_some hidx).2.1
      obtain ⟨openInodes, inodeTag, hpush, hlist, -⟩ := listPushFront_spec h.isList hnew
      rw [hidx] at hok
      simp only [ok_bind, FileSys.setInode, hpush, pure_eq_ok, Except.ok.injEq] at hok
      subst hok
      refine ⟨idx, hclear, rfl, ?_, ?_, fun q hq => Function.update_of_ne hq _ _, rfl, rfl, ?_⟩
      · simp
      · simp
      · -- a number on the list has its bit set already
        refine h.push hp hnew hlist h.lock ?_ ?_ ?_ (.inl rfl)
        · intro hmem
          obtain ⟨q, hq, heq⟩ := List.mem_map.mp hmem
          have hset := h.bits q hq
          rw [heq, hclear] at hset
          cases hset
        · rw [Bitmap.bit_set, if_pos rfl]
        · intro q hq
          rw [Bitmap.bit_set]
          split
          · rfl
          · exact h.bits q hq

/-- `inode_alloc` returns when a number is free. -/
theorem alloc_returns (h : InodesOk s ps) (hnew : p ∉ ps)
    (hfree : bitmapScanIndex s.part.inodeBitmap ≠ none) (current : Tid) :
    ∃ s', inodeAlloc s p current = .ok s' := by
  obtain ⟨idx, hidx⟩ := Option.ne_none_iff_exists'.mp hfree
  obtain ⟨openInodes, inodeTag, hpush, -⟩ := listPushFront_spec h.isList hnew
  rw [inodeAlloc, bitmapScanSet_eq h.lock, hidx]
  simp only [ok_bind, FileSys.setInode, hpush, pure_eq_ok]
  exact ⟨_, rfl⟩

/-- `inode_open` of a number on the list takes another reference. -/
theorem open_found (h : InodesOk s ps) (hp : p ∈ ps) (hno : (s.inode p).iNo < 4096) (q : Nat) :
    inodeOpen s (s.inode p).iNo q
      = .ok (p, s.setInode p ((s.inode p).setCount (wrap32 ((s.inode p).iCount + 1)))) := by
  have hset : bitmapIsSet s.part.inodeBitmap (s.inode p).iNo = true := by
    rw [bitmapIsSet_eq]
    exact h.bits p hp
  have hfind : (ps.find? fun r => decide ((s.inode r).iNo = (s.inode p).iNo)) = some p := by
    cases hres : ps.find? fun r => decide ((s.inode r).iNo = (s.inode p).iNo) with
    | none =>
        have hnone := List.find?_eq_none.mp hres p hp
        simp at hnone
    | some r =>
        have hr := List.find?_some hres
        rw [h.eq_of_iNo (List.mem_of_find?_eq_some hres) hp (of_decide_eq_true hr)]
  rw [inodeOpen, ASSERT_true hno, ok_bind, ASSERT_true hset, ok_bind, h.isList.head,
    findInode_spec h.isList.linked h.length_le, hfind, ok_bind]
  rfl

/-- `inode_open` finds the inode among the open ones, or it reads the inode and puts it in front. -/
theorem open_cases (h : InodesOk s ps) {iNo r : Nat} {s' : FileSys} (hp : p < 2 ^ 32)
    (hnew : p ∉ ps) (hok : inodeOpen s iNo p = .ok (r, s')) :
    (r ∈ ps ∧ ∃ c, s' = s.setInode r ((s.inode r).setCount (wrap32 c))) ∨
      (r = p ∧ InodesOk s' (p :: ps) ∧ s'.disk = s.disk ∧
        s'.part = { s.part with openInodes := s'.part.openInodes } ∧
        ∀ q, q ≠ p → s'.inode q = s.inode q) := by
  simp only [inodeOpen, bind_eq_ok, ASSERT_eq_ok] at hok
  obtain ⟨-, -, -, hset, found, hfind, hok⟩ := hok
  rw [h.isList.head, findInode_spec h.isList.linked h.length_le] at hfind
  obtain rfl := Except.ok.inj hfind
  cases hres : ps.find? fun q => decide ((s.inode q).iNo = iNo) with
  | some q =>
      rw [hres] at hok
      cases hok
      exact .inl ⟨List.mem_of_find?_eq_some hres, _, rfl⟩
  | none =>
      obtain ⟨openInodes, inodeTag, hpush, hlist, -⟩ := listPushFront_spec h.isList hnew
      rw [hres] at hok
      simp only [FileSys.setInode, hpush, ok_bind, pure_eq_ok] at hok
      cases hok
      rw [bitmapIsSet_eq] at hset
      -- no open inode has the number
      have hnumber : iNo ∉ numbers s ps := by
        intro hmem
        obtain ⟨q, hq, heq⟩ := List.mem_map.mp hmem
        exact List.find?_eq_none.mp hres q hq (decide_eq_true heq)
      exact .inr ⟨rfl, h.push hp hnew hlist h.lock hnumber hset h.bits (.inr rfl), rfl, rfl,
        fun q hq => Function.update_of_ne hq _ _⟩

/-- `inode_open` keeps the table in order. -/
theorem open_ok (h : InodesOk s ps) {iNo r : Nat} {s' : FileSys} (hp : p < 2 ^ 32) (hnew : p ∉ ps)
    (hok : inodeOpen s iNo p = .ok (r, s')) : ∃ ps', InodesOk s' ps' := by
  rcases h.open_cases hp hnew hok with ⟨-, c, rfl⟩ | ⟨-, hinodes, -⟩
  · exact ⟨ps, h.setCount c⟩
  · exact ⟨p :: ps, hinodes⟩

/-- `inode_open` of a number in use gives an inode with the number. -/
theorem open_number (h : InodesOk s ps) {iNo : Nat} (hnew : p ∉ ps) (hno : iNo < 4096)
    (hset : bitmapIsSet s.part.inodeBitmap iNo = true) :
    ∃ r s', inodeOpen s iNo p = .ok (r, s') ∧ (s'.inode r).iNo = iNo :=
  inodeOpen_number h.isList h.length_le hnew hno hset

/-- `inode_close` drops a reference, and the inode with the last one. -/
theorem close (h : InodesOk s ps) {s' : FileSys} (hp : p ∈ ps) (hok : inodeClose s p = .ok s') :
    ∃ ps', InodesOk s' ps' := by
  have hcount := h.setCount (p := p) ((s.inode p).iCount - 1)
  simp only [inodeClose, atomicDecAndSetg, decide_eq_true_eq] at hok
  by_cases hpos : (s.inode p).iCount - 1 > 0
  · rw [if_pos hpos] at hok
    cases hok
    exact ⟨ps, hcount⟩
  · rw [if_neg hpos] at hok
    obtain ⟨openInodes, inodeTag, hdelete, hlist, -⟩ := listDelete_spec h.isList hp h.length_le
    simp only [FileSys.setInode, hdelete, ok_bind, pure_eq_ok] at hok
    cases hok
    exact ⟨ps.erase p, hcount.erase hlist h.lock fun q hq _ => hcount.bits q hq⟩

/-- `inode_delete` takes the inode off the list and clears its bit. -/
theorem delete (h : InodesOk s ps) (hp : p ∈ ps) (hzero : (s.inode p).iCount = 0)
    (current : Tid) :
    ∃ s', inodeDelete s p current = .ok s' ∧ InodesOk s' (ps.erase p) ∧
      s'.inode = s.inode ∧ s'.disk = s.disk ∧
      s'.part = { s.part with
        inodeBitmap := Bitmap.set s.part.inodeBitmap (s.inode p).iNo false
        openInodes := s'.part.openInodes } := by
  obtain ⟨openInodes, inodeTag, hdelete, hlist, -⟩ := listDelete_spec h.isList hp h.length_le
  simp only [inodeDelete, ASSERT_true hzero, ok_bind, hdelete,
    bitmapReset_eq h.lock (h.bits p hp), pure_eq_ok]
  refine ⟨_, rfl, ?_, rfl, rfl, rfl⟩
  refine h.erase hlist h.lock fun q hq hne => ?_
  have hno : (s.inode q).iNo ≠ (s.inode p).iNo := fun heq => hne (h.eq_of_iNo hq hp heq)
  rw [Bitmap.bit_set, if_neg hno]
  exact h.bits q hq

/-- Every call keeps the table in order. -/
theorem next (h : InodesOk s ps) {a : InodeAct} {s' : FileSys} (henabled : s.Enabled a)
    (hnext : s.next a = .ok s') : ∃ ps', InodesOk s' ps' := by
  cases a with
  | alloc p current =>
      obtain ⟨hp, hnew⟩ := henabled
      obtain ⟨_, -, -, -, -, -, -, -, hok⟩ := h.alloc hp (mt h.isOpen_iff.mpr hnew) hnext
      exact ⟨_, hok⟩
  | «open» iNo p =>
      obtain ⟨-, hp, hnew⟩ := henabled
      obtain ⟨⟨r, s''⟩, hopen, hret⟩ := bind_eq_ok.mp hnext
      cases hret
      exact h.open_ok hp (mt h.isOpen_iff.mpr hnew) hopen
  | close p => exact h.close (h.isOpen_iff.mp henabled.1) hnext
  | delete p current =>
      obtain ⟨s'', hdelete, hok, -⟩ := h.delete (h.isOpen_iff.mp henabled.1) henabled.2 current
      obtain rfl := Except.ok.inj (hdelete.symm.trans hnext)
      exact ⟨_, hok⟩

end InodesOk

theorem inodeSystem_inductive : inodeSystem.Inductive fun s => ∃ ps, InodesOk s ps where
  init := by
    rintro s ⟨hlist, hlock⟩
    refine ⟨[], ?_, by simp, hlock, List.nodup_nil, by simp, by simp⟩
    rw [hlist]
    exact IsList.init _
  step := by
    rintro s s' a ⟨ps, h⟩ henabled hnext
    exact h.next henabled hnext

/-- The table of open inodes, for every partition and every run. No two inodes on the list have
the same number, and the bit of each is set. `inode_open` of a number on the list returns that
inode, and its count is one higher as long as an `int` can hold it. `inode_alloc` followed by
`inode_delete` leaves the bitmap, the list and the other inodes as they were. -/
theorem inodeSystem_unique {s : FileSys} (hs : inodeSystem.Reachable s) :
    ∃ ps, s.openList = .ok ps ∧ (ps.map fun p => (s.inode p).iNo).Nodup ∧
    (∀ p ∈ ps, bitmapIsSet s.part.inodeBitmap (s.inode p).iNo = true) ∧
    (∀ p ∈ ps, ∀ q, (s.inode p).iNo < 4096 → (s.inode p).iCount < 2 ^ 31 - 1 →
      inodeOpen s (s.inode p).iNo q
        = .ok (p, s.setInode p ((s.inode p).setCount ((s.inode p).iCount + 1)))) ∧
    ∀ p current s₁, s.Fresh p → inodeAlloc s p current = .ok s₁ → ∀ current',
      ∃ s₂, inodeDelete s₁ p current' = .ok s₂ ∧ s₂.part = s.part ∧ s₂.openList = .ok ps ∧
        ∀ q ∈ ps, s₂.inode q = s.inode q := by
  obtain ⟨ps, h⟩ := inodeSystem_inductive.reachable hs
  refine ⟨ps, h.openList, h.nodup, fun p hp => ?_, fun p hp q hno hcount => ?_,
    fun p current s₁ hfresh halloc current' => ?_⟩
  · rw [bitmapIsSet_eq]
    exact h.bits p hp
  · have hrange := h.count p hp
    rw [h.open_found hp hno q, wrap32_eq (by omega) (by omega)]
  · have hnew : p ∉ ps := mt h.isOpen_iff.mpr hfresh.2
    obtain ⟨idx, hclear, hset, hno, hzero, hinodes, -, hpart, h₁⟩ := h.alloc hfresh.1 hnew halloc
    obtain ⟨s₂, hdelete, h₂, hinodes₂, -, hpart₂⟩ := h₁.delete List.mem_cons_self hzero current'
    rw [List.erase_cons_head] at h₂
    refine ⟨s₂, hdelete, ?_, h₂.openList, fun q hq => ?_⟩
    · -- The bit was clear, so to set and to clear it gives the bitmap back.
      have hbitmap : Bitmap.set s₁.part.inodeBitmap (s₁.inode p).iNo false
          = s.part.inodeBitmap := by
        rw [hset, hno]
        exact Bitmap.set_set hclear
      have hlist : s₂.part.openInodes = s.part.openInodes := h₂.isList.header_unique h.isList
      rw [hpart₂, hbitmap, hlist, hpart]
    · have hqp : q ≠ p := by
        rintro rfl
        exact hnew hq
      rw [hinodes₂, hinodes q hqp]

/-! ### An inode that is opened over and over -/

/-- A partition whose root inode is in use, and nothing open. -/
def rootOnly : FileSys :=
  { disk := fun _ _ => 0
    part :=
      { sb := ⟨2, 1, 3, 1, 4, 516⟩
        blockBitmap := ⟨0, fun _ => 0, 512, mutexLockInit⟩
        inodeBitmap := ⟨0, fun k => if k = 0 then 1 else 0, 512, mutexLockInit⟩
        openInodes := listInit }
    inode := fun _ => ⟨0, 0, 0, 0, rwlockInit, 0, fun _ => 0⟩
    inodeTag := fun _ => ⟨none, none⟩ }

/-- An address that is not on the list. -/
theorem fresh_of_openList {s : FileSys} {ps : List Nat} {p : Nat} (hlist : s.openList = .ok ps)
    (hlt : p < 2 ^ 32) (hp : p ∉ ps) : s.Fresh p := by
  refine ⟨hlt, ?_⟩
  rintro ⟨qs, hqs, hmem⟩
  exact hp (Except.ok.inj (hlist.symm.trans hqs) ▸ hmem)

/-- The root inode is opened `k + 1` times. -/
theorem exists_opened (k : Nat) (hk : (k : Int) < 2 ^ 31 - 1) :
    ∃ s, inodeSystem.Reachable s ∧ InodesOk s [16] ∧ (s.inode 16).iNo = 0 ∧
      (s.inode 16).iCount = k + 1 := by
  induction k with
  | zero =>
      obtain ⟨s, hnext, hlist, hno, hcount⟩ : ∃ s, inodeSystem.next rootOnly (.open 0 16) = .ok s ∧
          s.openList = .ok [16] ∧ (s.inode 16).iNo = 0 ∧ (s.inode 16).iCount = 1 :=
        ⟨_, rfl, rfl, rfl, rfl⟩
      have hempty : rootOnly.openList = .ok [] := rfl
      have henabled : inodeSystem.enabled rootOnly (.open 0 16) :=
        ⟨rfl, fresh_of_openList hempty (by decide) (by decide)⟩
      have hinit : inodeSystem.init rootOnly := ⟨rfl, rfl⟩
      have hs := System.Reachable.step (.init hinit) henabled hnext
      obtain ⟨ps, h⟩ := inodeSystem_inductive.reachable hs
      obtain rfl := Except.ok.inj (h.openList.symm.trans hlist)
      exact ⟨s, hs, h, hno, hcount⟩
  | succ k ih =>
      obtain ⟨s, hs, h, hno, hcount⟩ := ih (by omega)
      have hmem : 16 ∈ [16] := List.mem_singleton_self 16
      -- The inode is on the list, so `inode_open` only counts.
      have hopen := h.open_found hmem (by rw [hno]; decide) 32
      rw [hno] at hopen
      have hset : bitmapIsSet s.part.inodeBitmap 0 = true := by
        rw [bitmapIsSet_eq, ← hno]
        exact h.bits 16 hmem
      have hfresh : s.Fresh 32 := fresh_of_openList h.openList (by decide) (by decide)
      have henabled : inodeSystem.enabled s (.open 0 32) := ⟨hset, hfresh⟩
      have hnext : inodeSystem.next s (.open 0 32)
          = .ok (s.setInode 16 ((s.inode 16).setCount (wrap32 ((s.inode 16).iCount + 1)))) := by
        simp only [inodeSystem, FileSys.next, hopen, ok_bind, pure_eq_ok]
      refine ⟨_, .step hs henabled hnext, h.setCount _, ?_, ?_⟩
      · rw [FileSys.setInode_self]
        exact hno
      · rw [FileSys.setInode_self]
        show wrap32 ((s.inode 16).iCount + 1) = _
        rw [hcount, wrap32_eq (by omega) (by omega)]
        omega

/-- The root inode is opened, a new inode is made and opened, and the root inode is opened again. -/
theorem exists_reopened : ∃ s, inodeSystem.Reachable s ∧ s.openList = .ok [32, 16] ∧
    (s.inode 16).iNo = 0 ∧ (s.inode 16).iCount = 2 ∧ (s.inode 32).iNo = 1 ∧
    (s.inode 32).iCount = 1 ∧ ∃ s₁, inodeAlloc s 64 0 = .ok s₁ := by
  obtain ⟨s₁, s₂, s₃, s₄, h₁, l₁, h₂, l₂, b₂, h₃, l₃, b₃, h₄, l₄, hroot, hcount, hno,
    hone, halloc⟩ :
      ∃ s₁ s₂ s₃ s₄, inodeSystem.next rootOnly (.open 0 16) = .ok s₁ ∧ s₁.openList = .ok [16] ∧
        inodeSystem.next s₁ (.alloc 32 0) = .ok s₂ ∧ s₂.openList = .ok [32, 16] ∧
        bitmapIsSet s₂.part.inodeBitmap 1 = true ∧
        inodeSystem.next s₂ (.open 1 48) = .ok s₃ ∧ s₃.openList = .ok [32, 16] ∧
        bitmapIsSet s₃.part.inodeBitmap 0 = true ∧
        inodeSystem.next s₃ (.open 0 48) = .ok s₄ ∧ s₄.openList = .ok [32, 16] ∧
        (s₄.inode 16).iNo = 0 ∧ (s₄.inode 16).iCount = 2 ∧ (s₄.inode 32).iNo = 1 ∧
        (s₄.inode 32).iCount = 1 ∧ ∃ s₅, inodeAlloc s₄ 64 0 = .ok s₅ :=
    ⟨_, _, _, _, rfl, rfl, rfl, rfl, rfl, rfl, rfl, rfl, rfl, rfl, rfl, rfl, rfl, rfl, _, rfl⟩
  have e₁ : inodeSystem.enabled rootOnly (.open 0 16) :=
    ⟨rfl, fresh_of_openList (show rootOnly.openList = .ok [] from rfl) (by decide) (by decide)⟩
  have e₂ : inodeSystem.enabled s₁ (.alloc 32 0) := fresh_of_openList l₁ (by decide) (by decide)
  have e₃ : inodeSystem.enabled s₂ (.open 1 48) :=
    ⟨b₂, fresh_of_openList l₂ (by decide) (by decide)⟩
  have e₄ : inodeSystem.enabled s₃ (.open 0 48) :=
    ⟨b₃, fresh_of_openList l₃ (by decide) (by decide)⟩
  have hr₄ : inodeSystem.Reachable s₄ :=
    .step (.step (.step (.step (.init ⟨rfl, rfl⟩) e₁ h₁) e₂ h₂) e₃ h₃) e₄ h₄
  exact ⟨s₄, hr₄, l₄, hroot, hcount, hno, hone, halloc⟩

/-- With the root inode open twice and the inode 1 once, opening the root inode counts to 3, and a
new inode leaves nothing behind. -/
theorem inodeSystem_unique_reopened : ∃ s, inodeSystem.Reachable s ∧ s.openList = .ok [32, 16] ∧
    (([32, 16] : List Nat).map fun p => (s.inode p).iNo).Nodup ∧
    inodeOpen s 0 48 = .ok (16, s.setInode 16 ((s.inode 16).setCount 3)) ∧
    ∃ s₁ s₂, inodeAlloc s 64 0 = .ok s₁ ∧ inodeDelete s₁ 64 0 = .ok s₂ ∧ s₂.part = s.part ∧
      s₂.openList = .ok [32, 16] := by
  obtain ⟨s, hs, hlist, hroot, hcount, -, -, s₁, halloc⟩ := exists_reopened
  obtain ⟨ps, hps, hnodup, -, hopen, hnew⟩ := inodeSystem_unique hs
  obtain rfl : [32, 16] = ps := Except.ok.inj (hlist.symm.trans hps)
  have hreopen := hopen 16 (by decide) 48 (by rw [hroot]; decide) (by rw [hcount]; decide)
  rw [hroot, hcount] at hreopen
  obtain ⟨s₂, hdelete, hpart, hlist₂, -⟩ :=
    hnew 64 0 s₁ (fresh_of_openList hlist (by decide) (by decide)) halloc 0
  exact ⟨s, hs, hlist, hnodup, hreopen, s₁, s₂, halloc, hdelete, hpart, hlist₂⟩

/-- The count of an inode that is opened `2 ^ 31` times is negative, since `i_count` is an `int` and
nothing limits how often it is opened. -/
theorem inodeSystem_count_wraps :
    ¬∀ s, inodeSystem.Reachable s → ∀ ps, s.openList = .ok ps → ∀ p ∈ ps, ∀ q,
      s.Enabled (.open (s.inode p).iNo q) →
      ∃ s', inodeOpen s (s.inode p).iNo q = .ok (p, s') ∧
        (s'.inode p).iCount = (s.inode p).iCount + 1 := by
  intro hall
  obtain ⟨s, hs, h, hno, hcount⟩ := exists_opened (2 ^ 31 - 2) (by decide)
  have hmem : 16 ∈ [16] := List.mem_singleton_self 16
  have hset : bitmapIsSet s.part.inodeBitmap (s.inode 16).iNo = true := by
    rw [bitmapIsSet_eq]
    exact h.bits 16 hmem
  have hfresh : s.Fresh 32 := fresh_of_openList h.openList (by decide) (by decide)
  obtain ⟨s', hopen, hone⟩ := hall s hs [16] h.openList 16 hmem 32 ⟨hset, hfresh⟩
  have hfound := h.open_found hmem (by rw [hno]; decide) 32
  obtain ⟨-, rfl⟩ := Prod.mk.inj (Except.ok.inj (hfound.symm.trans hopen))
  rw [FileSys.setInode_self] at hone
  have hwrap := wrap32_lt ((s.inode 16).iCount + 1)
  have hvalue : wrap32 ((s.inode 16).iCount + 1) = (s.inode 16).iCount + 1 := hone
  omega

end Fizzos.Proofs
