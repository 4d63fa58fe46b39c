import Fizzos.Proofs.GetPath
import Fizzos.Proofs.Metadata

/-!
# `Fizzos.Proofs.CacheTree`: the cached dentries along a path

`search_dentry` puts a dentry in front of the list of its parent when it finds the name on the disk,
and `dir_write` does so for a new entry. `TreeOk` says that the dentries are a tree and that their
inodes are open. Each lookup keeps this (`TreeOk.search`), so a walk does (`TreeOk.walks`).

The tree only grows, and a name that was looked up is in it. So another walk along the names finds
the same dentries, and does not read the disk (`NameTree.leads_walks`).
-/

set_option autoImplicit false

namespace Fizzos.Proofs

open Fizzos.Device
open Fizzos.Fs
open Fizzos.Kernel
open Fizzos.Lib
open Fizzos.LibKernel
open Fizzos.Support

/-! ### The tree -/

/-- The dentries in memory, their children and their names. -/
structure CacheTree where
  node : Nat → Prop
  kids : Nat → List Nat
  nm : Nat → List (BitVec 8)

/-- The dentries are a tree, and their inodes are among the open ones `ps`. -/
structure TreeOk (s : DirSys) (root : Nat) (T : CacheTree) (ps : List Nat) : Prop where
  tree : NameTree s root T.node T.kids T.nm
  inodes : InodesOk s.fs ps
  opened : ∀ d, T.node d → (s.dentry d).inode ∈ ps

/-- What `kmalloc` promises of the addresses of new inodes and dentries. -/
structure FreshAddrs (T : CacheTree) (ps : List Nat) (news : List (Nat × Nat)) : Prop where
  inode : ∀ a ∈ news, a.1 < 2 ^ 32 ∧ a.1 ∉ ps
  dentry : ∀ a ∈ news, a.2 < 2 ^ 32 ∧ ¬T.node a.2
  apart : news.Pairwise fun a b => b.1 ≠ a.1 ∧ b.2 ≠ a.2

/-- The tree `T'` of the state `s'` has the one of the state `s` in it. -/
structure Extends (s s' : DirSys) (T T' : CacheTree) : Prop where
  node : ∀ d, T.node d → T'.node d
  kids : ∀ d, T.node d → ∀ c ∈ T.kids d, c ∈ T'.kids d
  nm : ∀ d, T.node d → T'.nm d = T.nm d
  dParent : ∀ d, T.node d → (s'.dentry d).dParent = (s.dentry d).dParent

/-- The disk and both bitmaps are the same, and the open inodes are but for their counts. -/
structure SameFiles (s s' : FileSys) (ps ps' : List Nat) : Prop where
  opened : ∀ q ∈ ps, q ∈ ps'
  disk : s'.disk = s.disk
  part : s'.part = { s.part with openInodes := s'.part.openInodes }
  inode : ∀ q ∈ ps, SameInode (s'.inode q) (s.inode q)

/-- A name in the directory `d` of the tree. -/
def Finds (s : DirSys) (T : CacheTree) (d : Nat) (name : List (BitVec 8)) (c : Nat) : Prop :=
  (name = [DOT] ∧ c = d) ∨ (name = [DOT, DOT] ∧ c = (s.dentry d).dParent) ∨
    (c ∈ T.kids d ∧ T.nm c = name)

/-- A name that is not in the directory `d` of the tree. -/
structure Misses (T : CacheTree) (d : Nat) (name : List (BitVec 8)) : Prop where
  dot : name ≠ [DOT]
  dots : name ≠ [DOT, DOT]
  kids : ∀ c ∈ T.kids d, T.nm c ≠ name

/-- The names lead from `d` to `c` in the tree. -/
def Leads (s : DirSys) (T : CacheTree) (c : Nat) : Nat → List (List (BitVec 8)) → Prop
  | d, [] => c = d
  | d, name :: rest => ∃ e, T.node e ∧ Finds s T d name e ∧ Leads s T c e rest

/-- The tree with a new first child of `d`. -/
def CacheTree.push (T : CacheTree) (d x : Nat) (name : List (BitVec 8)) : CacheTree where
  node y := y = x ∨ T.node y
  kids := Function.update (Function.update T.kids x []) d (x :: T.kids d)
  nm := Function.update T.nm x name

/-- The new child is the first one of its parent. -/
theorem CacheTree.push_kids (T : CacheTree) (d x : Nat) (name : List (BitVec 8)) :
    (T.push d x name).kids d = x :: T.kids d := Function.update_self _ _ _

/-- It is a child of its parent. -/
theorem CacheTree.mem_push_kids (T : CacheTree) (d x : Nat) (name : List (BitVec 8)) :
    x ∈ (T.push d x name).kids d := by
  rw [T.push_kids]
  exact List.mem_cons_self

/-- It has the name that it was made with. -/
theorem CacheTree.push_nm (T : CacheTree) (d x : Nat) (name : List (BitVec 8)) :
    (T.push d x name).nm x = name := Function.update_self _ _ _

section
variable {s s' s'' : DirSys} {T T' T'' : CacheTree} {d c : Nat} {name : List (BitVec 8)}

theorem Extends.refl (s : DirSys) (T : CacheTree) : Extends s s T T :=
  ⟨fun _ h => h, fun _ _ _ h => h, fun _ _ => rfl, fun _ _ => rfl⟩

theorem Extends.trans (h : Extends s s' T T') (h' : Extends s' s'' T' T'') :
    Extends s s'' T T'' where
  node d hd := h'.node d (h.node d hd)
  kids d hd c hc := h'.kids d (h.node d hd) c (h.kids d hd c hc)
  nm d hd := (h'.nm d (h.node d hd)).trans (h.nm d hd)
  dParent d hd := (h'.dParent d (h.node d hd)).trans (h.dParent d hd)

theorem SameFiles.refl (s : FileSys) (ps : List Nat) : SameFiles s s ps ps :=
  ⟨fun _ h => h, rfl, rfl, fun _ _ => SameInode.refl _⟩

theorem SameFiles.trans {s s' s'' : FileSys} {ps ps' ps'' : List Nat} (h : SameFiles s s' ps ps')
    (h' : SameFiles s' s'' ps' ps'') : SameFiles s s'' ps ps'' where
  opened q hq := h'.opened q (h.opened q hq)
  disk := h'.disk.trans h.disk
  part := by rw [h'.part, h.part]
  inode q hq := (h'.inode q (h.opened q hq)).trans (h.inode q hq)

/-- A name stays where it is when the tree grows. -/
theorem Finds.mono (hfinds : Finds s T d name c) (h : Extends s s' T T') (hd : T.node d)
    (hc : T.node c) : Finds s' T' d name c := by
  rcases hfinds with hdot | ⟨hdots, hup⟩ | ⟨hkid, hname⟩
  · exact .inl hdot
  · exact .inr (.inl ⟨hdots, hup.trans (h.dParent d hd).symm⟩)
  · exact .inr (.inr ⟨h.kids d hd c hkid, (h.nm c hc).trans hname⟩)

/-- A path that leads to a dentry leads to it when the cache has grown. -/
theorem Leads.mono {names : List (List (BitVec 8))} (hleads : Leads s T c d names)
    (h : Extends s s' T T') (hd : T.node d) : Leads s' T' c d names := by
  induction names generalizing d with
  | nil => exact hleads
  | cons name rest ih =>
      obtain ⟨e, he, hfinds, hrest⟩ := hleads
      exact ⟨e, h.node e he, hfinds.mono h hd he, ih hrest he⟩

end

/-! ### A new child -/

/-- `list_push_front` of the new dentry `y` at `x`, when the children of `d` are `xs`. -/
structure Pushed (s s' : DirSys) (d x : Nat) (y : Dentry) (xs : List Nat) : Prop where
  fs : s'.fs = s.fs
  new : s'.dentry x = y
  parent : ∃ dSubdirs, s'.dentry d = { s.dentry d with dSubdirs }
  other : ∀ e, e ≠ d → e ≠ x → s'.dentry e = s.dentry e
  list : IsList s'.dChild (s'.dentry d).dSubdirs (x :: xs)
  links : ∀ e, e ≠ x → e ∉ xs → s'.dChild e = s.dChild e

/-- A dentry that is on no list becomes the first child of its parent. -/
theorem pushChild_pushed {s : DirSys} {d x : Nat} {xs : List Nat} (y : Dentry)
    (hlist : IsList s.dChild (s.dentry d).dSubdirs xs) (hx : x ∉ xs) (hne : x ≠ d) :
    ∃ s', (s.setDentry x y).pushChild d x = .ok s' ∧ Pushed s s' d x y xs := by
  obtain ⟨dSubdirs, dChild, hpush, hnew, hframe⟩ := listPushFront_spec hlist hx
  have hold : (s.setDentry x y).dentry d = s.dentry d := Function.update_of_ne hne.symm _ _
  have hlinks : (s.setDentry x y).dChild = s.dChild := rfl
  rw [DirSys.pushChild, hold, hlinks, hpush, ok_bind]
  refine ⟨_, rfl, rfl, ?_, ?_, fun e hed hex => ?_, ?_, hframe⟩
  · show Function.update (Function.update s.dentry x y) d _ x = y
    rw [Function.update_of_ne hne, Function.update_self]
  · exact ⟨dSubdirs, Function.update_self _ _ _⟩
  · show Function.update (Function.update s.dentry x y) d _ e = _
    rw [Function.update_of_ne hed, Function.update_of_ne hex]
  · show IsList dChild (Function.update (Function.update s.dentry x y) d _ d).dSubdirs (x :: xs)
    rw [Function.update_self]
    exact hnew

namespace Pushed

variable {s s' : DirSys} {d x : Nat} {y : Dentry} {xs : List Nat}

/-- The fields of the old dentries, apart from the list of `d`. -/
theorem keeps (h : Pushed s s' d x y xs) {e : Nat} (he : e ≠ x) :
    ∃ dSubdirs, s'.dentry e = { s.dentry e with dSubdirs } := by
  by_cases hed : e = d
  · rw [hed]
    exact h.parent
  · exact ⟨_, h.other e hed he⟩

theorem dParent (h : Pushed s s' d x y xs) {e : Nat} (he : e ≠ x) :
    (s'.dentry e).dParent = (s.dentry e).dParent := by
  obtain ⟨dSubdirs, heq⟩ := h.keeps he
  rw [heq]

theorem inode (h : Pushed s s' d x y xs) {e : Nat} (he : e ≠ x) :
    (s'.dentry e).inode = (s.dentry e).inode := by
  obtain ⟨dSubdirs, heq⟩ := h.keeps he
  rw [heq]

end Pushed

namespace NameTree

variable {s s' : DirSys} {root : Nat} {T : CacheTree} {d c x : Nat} {y : Dentry}
  {name : List (BitVec 8)}

/-- The tree with the new dentry contains the old one. -/
theorem pushed_extends (name : List (BitVec 8)) (hx : ¬T.node x)
    (hpush : Pushed s s' d x y (T.kids d)) : Extends s s' T (T.push d x name) where
  node _ he := .inr he
  kids e he c hc := by
    have hex : e ≠ x := fun heq => hx (heq ▸ he)
    show c ∈ Function.update (Function.update T.kids x []) d (x :: T.kids d) e
    by_cases hed : e = d
    · subst hed
      rw [Function.update_self]
      exact List.mem_cons_of_mem _ hc
    · rw [Function.update_of_ne hed, Function.update_of_ne hex]
      exact hc
  nm e he := Function.update_of_ne (fun heq : e = x => hx (heq ▸ he)) _ _
  dParent e he := hpush.dParent fun (heq : e = x) => hx (heq ▸ he)

/-- The dentries are a tree with the new one. -/
theorem push (h : NameTree s root T.node T.kids T.nm) (hd : T.node d) (hx : ¬T.node x)
    (hlt : x < 2 ^ 32) (hnul : 0 ∉ name) (hmiss : Misses T d name)
    (hpush : Pushed s s' d x y (T.kids d)) (hparent : y.dParent = d)
    (hfname : IsString y.fname name) (hlen : y.fnameLen = name.length)
    (hsubdirs : y.dSubdirs = listInit) :
    NameTree s' root (T.push d x name).node (T.push d x name).kids (T.push d x name).nm := by
  have hne : ∀ e, T.node e → e ≠ x := fun e he heq => hx (heq ▸ he)
  have hkids : ∀ e, T.node e → ∀ c ∈ T.kids e, c ≠ x := fun e he c hc => hne c (h.below e he c hc)
  have hkids_x : (T.push d x name).kids x = [] := by
    show Function.update (Function.update T.kids x []) d _ x = []
    rw [Function.update_of_ne (hne d hd).symm, Function.update_self]
  have hkids_d : (T.push d x name).kids d = x :: T.kids d := T.push_kids d x name
  have hkids_e : ∀ e, T.node e → e ≠ d → (T.push d x name).kids e = T.kids e := by
    intro e he hed
    show Function.update (Function.update T.kids x []) d _ e = T.kids e
    rw [Function.update_of_ne hed, Function.update_of_ne (hne e he)]
  have hnm_x : (T.push d x name).nm x = name := T.push_nm d x name
  have hnm : ∀ e, e ≠ x → (T.push d x name).nm e = T.nm e :=
    fun e he => Function.update_of_ne he _ _
  -- the children of an old dentry: its own, and the new one
  have hcases : ∀ e, T.node e → ∀ c ∈ (T.push d x name).kids e, (c = x ∧ e = d) ∨ c ∈ T.kids e := by
    intro e he c hc
    by_cases hed : e = d
    · subst hed
      rw [hkids_d] at hc
      exact (List.mem_cons.mp hc).imp_left fun heq => ⟨heq, rfl⟩
    · rw [hkids_e e he hed] at hc
      exact .inr hc
  refine ⟨.inr h.top, ?_, ?_, ?_, ?_, ?_, ?_⟩
  · rw [hpush.dParent (hne root h.top)]
    exact h.self
  · rintro e (rfl | he)
    · rw [hpush.new, hparent]
      exact .inr hd
    · rw [hpush.dParent (hne e he)]
      exact .inr (h.up e he)
  · rintro e (rfl | he)
    · rw [hkids_x, hpush.new, hsubdirs]
      exact IsList.init _
    · by_cases hed : e = d
      · rw [hed, hkids_d]
        exact hpush.list
      · rw [hkids_e e he hed, hpush.other e hed (hne e he)]
        refine (h.children e he).congr fun c hc => hpush.links c (hkids e he c hc) fun hcd => hed ?_
        -- a dentry has one parent
        exact (h.kid e he c hc).parent.symm.trans (h.kid d hd c hcd).parent
  · rintro e (rfl | he) c hc
    · rw [hkids_x] at hc
      exact absurd hc List.not_mem_nil
    · rcases hcases e he c hc with ⟨rfl, rfl⟩ | hc
      · refine ⟨?_, hne e he |>.symm, hlt, ?_, ?_, ?_, ?_, ?_⟩
        · rw [hpush.new, hparent]
        · rw [hnm_x]
          exact hnul
        · rw [hnm_x]
          exact hmiss.dot
        · rw [hnm_x]
          exact hmiss.dots
        · rw [hnm_x, hpush.new]
          exact hfname
        · rw [hnm_x, hpush.new]
          exact hlen
      · have hkid := h.kid e he c hc
        have hcx := hkids e he c hc
        obtain ⟨dSubdirs, hkeep⟩ := hpush.keeps hcx
        refine ⟨(hpush.dParent hcx).trans hkid.parent, hkid.ne, hkid.pointer, ?_, ?_, ?_, ?_, ?_⟩
        · rw [hnm c hcx]
          exact hkid.nul
        · rw [hnm c hcx]
          exact hkid.dot
        · rw [hnm c hcx]
          exact hkid.dots
        · rw [hnm c hcx, hkeep]
          exact hkid.fname
        · rw [hnm c hcx, hkeep]
          exact hkid.fnameLen
  · rintro e (rfl | he) c hc
    · rw [hkids_x] at hc
      exact absurd hc List.not_mem_nil
    · rcases hcases e he c hc with ⟨rfl, -⟩ | hc
      · exact .inl rfl
      · exact .inr (h.below e he c hc)
  · rintro e (rfl | he) c hc c' hc' heq
    · rw [hkids_x] at hc
      exact absurd hc List.not_mem_nil
    · rcases hcases e he c hc with ⟨rfl, rfl⟩ | hold
      · rcases hcases e he c' hc' with ⟨rfl, -⟩ | hold'
        · rfl
        · rw [hnm_x, hnm c' (hkids e he c' hold')] at heq
          exact absurd heq.symm (hmiss.kids c' hold')
      · rw [hnm c (hkids e he c hold)] at heq
        rcases hcases e he c' hc' with ⟨rfl, rfl⟩ | hold'
        · rw [hnm_x] at heq
          exact absurd heq (hmiss.kids c hold)
        · rw [hnm c' (hkids e he c' hold')] at heq
          exact h.distinct e he c hold c' hold' heq

end NameTree

/-! ### A lookup -/

/-- Two states that differ in the counts of dentries. -/
structure OnlyCounts (s s' : DirSys) : Prop where
  fs : s'.fs = s.fs
  dChild : s'.dChild = s.dChild
  dentry : ∀ d, ∃ count, s'.dentry d = { s.dentry d with count }

namespace OnlyCounts

variable {s s' s'' : DirSys}

theorem refl (s : DirSys) : OnlyCounts s s := ⟨rfl, rfl, fun _ => ⟨_, rfl⟩⟩

theorem trans (h : OnlyCounts s s') (h' : OnlyCounts s' s'') : OnlyCounts s s'' where
  fs := h'.fs.trans h.fs
  dChild := h'.dChild.trans h.dChild
  dentry d := by
    obtain ⟨count, hd⟩ := h.dentry d
    obtain ⟨count', hd'⟩ := h'.dentry d
    exact ⟨count', by rw [hd', hd]⟩

/-- A new count changes nothing else. -/
theorem setCount (s : DirSys) (d : Nat) (count : Int) :
    OnlyCounts s (s.setDentry d { s.dentry d with count }) := by
  refine ⟨rfl, rfl, fun e => ?_⟩
  by_cases he : e = d
  · subst he
    exact ⟨count, Function.update_self _ _ _⟩
  · exact ⟨_, Function.update_of_ne he _ _⟩

theorem dParent (h : OnlyCounts s s') (d : Nat) :
    (s'.dentry d).dParent = (s.dentry d).dParent := by
  obtain ⟨count, hd⟩ := h.dentry d
  rw [hd]

/-- The tree stays. -/
theorem tree_extends (h : OnlyCounts s s') (T : CacheTree) : Extends s s' T T :=
  ⟨fun _ h => h, fun _ _ _ h => h, fun _ _ => rfl, fun d _ => h.dParent d⟩

/-- The inodes of the dentries are the same. -/
theorem inodeOf_eq (h : OnlyCounts s s') (d : Nat) : inodeOf s' d = inodeOf s d := by
  obtain ⟨count, hd⟩ := h.dentry d
  rw [inodeOf, inodeOf, hd, h.fs]

/-- So are the parents, the names and the lists of children. -/
theorem same (h : OnlyCounts s s') : SameDentries s s' := by
  refine ⟨h.dChild, fun d => ?_, h.dParent, fun d => ?_, fun d => ?_⟩
  all_goals
    obtain ⟨count, hd⟩ := h.dentry d
    rw [hd]

/-- The tree does not mention the counts. -/
theorem treeOk (h : OnlyCounts s s') {root : Nat} {T : CacheTree} {ps : List Nat}
    (hs : TreeOk s root T ps) : TreeOk s' root T ps where
  tree := hs.tree.congr h.same
  inodes := h.fs ▸ hs.inodes
  opened d hd := by
    obtain ⟨count, heq⟩ := h.dentry d
    rw [heq]
    exact hs.opened d hd

end OnlyCounts

namespace NameTree

variable {s s' : DirSys} {root : Nat} {T : CacheTree} {d c : Nat} {name : List (BitVec 8)}

/-- The cache has no other children than the tree. -/
theorem findCached_misses (h : NameTree s root T.node T.kids T.nm) (hd : T.node d)
    (hnul : 0 ∉ name) (hmiss : Misses T d name) :
    findCached s.dentry s.dChild (charsAt name) name.length LIST_WALK (s.dentry d).dSubdirs.head
      = .ok none := by
  have hlist := h.children d hd
  have hpointer : ∀ c ∈ T.kids d, c < 2 ^ 32 := fun c hc => (h.kid d hd c hc).pointer
  rw [hlist.head, findCached_spec hlist.linked (length_le_listWalk hlist.linked hpointer)]
  congr 1
  rw [List.find?_eq_none]
  intro c hc hmatch
  have hkid := h.kid d hd c hc
  exact hmiss.kids c hc ((hkid.fname.strncmp_iff (isString_cstring name) hkid.nul
    hnul).mp (of_decide_eq_true hmatch))

/-- A name in the tree is found in the cache. -/
theorem search_finds (h : NameTree s root T.node T.kids T.nm) (hd : T.node d)
    (hfinds : Finds s T d name c) (buf : Bytes) (i x : Nat) :
    ∃ s', searchDentry s d (charsAt name) name.length buf i x = .ok (some c, s') ∧
      OnlyCounts s s' := by
  rcases hfinds with ⟨rfl, rfl⟩ | ⟨rfl, rfl⟩ | ⟨hc, rfl⟩
  · exact ⟨s, rfl, .refl s⟩
  · exact ⟨s, rfl, .refl s⟩
  · have hkid := h.kid d hd c hc
    have hs : IsString (charsAt (T.nm c)) (T.nm c) := isString_cstring (T.nm c)
    obtain ⟨hno1, hno2⟩ := not_dots hs fun hdots => hdots.elim hkid.dot hkid.dots
    rw [searchDentry, if_neg hno1, if_neg hno2, h.findCached_kid hd hc, ok_bind]
    exact ⟨_, rfl, .setCount s c _⟩

/-- What a search finds in a directory of the tree is in the tree. -/
theorem node_of_finds (h : NameTree s root T.node T.kids T.nm) (hd : T.node d)
    (hfinds : Finds s T d name c) : T.node c := by
  rcases hfinds with ⟨-, rfl⟩ | ⟨-, rfl⟩ | ⟨hc, -⟩
  · exact hd
  · exact h.up d hd
  · exact h.below d hd c hc

/-- A name is in the tree, or it is not. -/
theorem finds_or_misses (T : CacheTree) (s : DirSys) (d : Nat) (name : List (BitVec 8)) :
    (∃ c, Finds s T d name c) ∨ Misses T d name := by
  by_cases hdot : name = [DOT]
  · exact .inl ⟨d, .inl ⟨hdot, rfl⟩⟩
  by_cases hdots : name = [DOT, DOT]
  · exact .inl ⟨_, .inr (.inl ⟨hdots, rfl⟩)⟩
  by_cases hkid : ∃ c ∈ T.kids d, T.nm c = name
  · obtain ⟨c, hc⟩ := hkid
    exact .inl ⟨c, .inr (.inr hc)⟩
  · exact .inr ⟨hdot, hdots, fun c hc heq => hkid ⟨c, hc, heq⟩⟩

end NameTree

/-! ### Opening an inode -/

/-- The open inodes after `inode_open`, in a state of `InodesOk`. -/
theorem InodesOk.open_files {s s' : FileSys} {ps : List Nat} (h : InodesOk s ps) {p iNo r : Nat}
    (hp : p < 2 ^ 32) (hnew : p ∉ ps) (hok : inodeOpen s iNo p = .ok (r, s')) :
    ∃ ps', InodesOk s' ps' ∧ SameFiles s s' ps ps' ∧ r ∈ ps' ∧ ∀ q ∈ ps', q = p ∨ q ∈ ps := by
  rcases h.open_cases hp hnew hok with ⟨hr, c, rfl⟩ | ⟨rfl, hinodes, hdisk, hpart, hother⟩
  · refine ⟨ps, h.setCount c, ⟨fun _ h => h, rfl, rfl, fun q _ => ?_⟩, hr, fun _ h => .inr h⟩
    by_cases hq : q = r
    · subst hq
      rw [FileSys.setInode_self]
      exact ⟨rfl, rfl, rfl, rfl, fun _ _ => rfl⟩
    · rw [FileSys.setInode_of_ne _ _ hq]
      exact .refl _
  · refine ⟨r :: ps, hinodes, ⟨fun _ hq => List.mem_cons_of_mem _ hq, hdisk, hpart, fun q hq => ?_⟩,
      List.mem_cons_self, fun _ hq => List.mem_cons.mp hq⟩
    rw [hother q fun heq => hnew (heq ▸ hq)]
    exact .refl _

/-! ### One lookup and many -/

/-- What `search_dentry` answers of the tree that it leaves. -/
def Answered (s : DirSys) (T : CacheTree) (d : Nat) (name : List (BitVec 8)) : Option Nat → Prop
  | none => Misses T d name
  | some c => T.node c ∧ Finds s T d name c

/-- The addresses for the lookups of a path, and the addresses `news` behind them. -/
def newAddrs (addrs : Nat → Nat × Nat) (news : List (Nat × Nat)) : Nat → List (Nat × Nat)
  | 0 => news
  | n + 1 => addrs n :: newAddrs addrs news n

/-- The name in the new dentry is the name that was looked for. -/
theorem isString_strncpy {name : List (BitVec 8)} (hnul : 0 ∉ name) :
    IsString (strncpy (fun _ => 0) 0 (charsAt name) name.length) name := by
  intro k hk
  rcases Nat.lt_or_ge k name.length with hlt | hge
  · refine strncpy_at (fun i hi => ?_) (Nat.zero_le _) (by omega)
    exact getD_ne_zero hnul hi
  · rw [strncpy_of_ne (.inr (by omega)), List.getD_eq_default _ _ hge]

namespace FreshAddrs

variable {T T' : CacheTree} {ps ps' : List Nat} {a : Nat × Nat} {news : List (Nat × Nat)}

/-- One of the addresses is in use now. -/
theorem tail (h : FreshAddrs T ps (a :: news)) (hnode : ∀ d, T'.node d → d = a.2 ∨ T.node d)
    (hps : ∀ q ∈ ps', q = a.1 ∨ q ∈ ps) : FreshAddrs T' ps' news := by
  obtain ⟨hapart, hrest⟩ := List.pairwise_cons.mp h.apart
  refine ⟨fun b hb => ?_, fun b hb => ?_, hrest⟩
  · have hold := h.inode b (List.mem_cons_of_mem _ hb)
    exact ⟨hold.1, fun hmem => (hps _ hmem).elim (hapart b hb).1 hold.2⟩
  · have hold := h.dentry b (List.mem_cons_of_mem _ hb)
    exact ⟨hold.1, fun hmem => (hnode _ hmem).elim (hapart b hb).2 hold.2⟩

/-- Fewer addresses are fresh as well. -/
theorem sublist {news' : List (Nat × Nat)} (h : FreshAddrs T ps news) (hsub : news'.Sublist news) :
    FreshAddrs T ps news' :=
  ⟨fun a ha => h.inode a (hsub.subset ha), fun a ha => h.dentry a (hsub.subset ha),
    h.apart.sublist hsub⟩

/-- The last addresses are not in use when the lookups are done. -/
theorem last {addrs : Nat → Nat × Nat} {n : Nat} (h : FreshAddrs T ps (newAddrs addrs news n)) :
    FreshAddrs T ps news := by
  induction n with
  | zero => exact h
  | succ n ih => exact ih (h.tail (fun _ hd => .inr hd) (fun _ hq => .inr hq))

end FreshAddrs

namespace TreeOk

variable {s s' : DirSys} {root : Nat} {T : CacheTree} {ps : List Nat} {a : Nat × Nat}
  {news : List (Nat × Nat)} {d : Nat} {name : List (BitVec 8)} {buf : Bytes} {r : Option Nat}

/-- A lookup keeps the tree, and puts what it found in it. -/
theorem search (h : TreeOk s root T ps) (hd : T.node d) (hnul : 0 ∉ name)
    (hfresh : FreshAddrs T ps (a :: news))
    (hok : searchDentry s d (charsAt name) name.length buf a.1 a.2 = .ok (r, s')) :
    ∃ T' ps', TreeOk s' root T' ps' ∧ Extends s s' T T' ∧ SameFiles s.fs s'.fs ps ps' ∧
      FreshAddrs T' ps' news ∧ Answered s' T' d name r := by
  have hs : IsString (charsAt name) name := isString_cstring name
  have hrest : FreshAddrs T ps news := hfresh.tail (fun _ h => .inr h) (fun _ h => .inr h)
  rcases NameTree.finds_or_misses T s d name with ⟨c, hfinds⟩ | hmiss
  · obtain ⟨s₁, hok₁, hcounts⟩ := h.tree.search_finds hd hfinds buf a.1 a.2
    rw [hok] at hok₁
    cases hok₁
    have hextends : Extends s s' T T := hcounts.tree_extends T
    have hc := h.tree.node_of_finds hd hfinds
    refine ⟨T, ps, hcounts.treeOk h, hextends, ?_, hrest, hc, hfinds.mono hextends hd hc⟩
    rw [hcounts.fs]
    exact .refl _ _
  · have hcache := h.tree.findCached_misses hd hnul hmiss
    have hdots : ¬(name = [DOT] ∨ name = [DOT, DOT]) := fun hor => hor.elim hmiss.dot hmiss.dots
    cases hdisk : (searchDisk s.fs.disk (inodeOf s d) (charsAt name) name.length buf).1 with
    | none =>
        rw [searchDentry_missing hs hdots hcache hdisk] at hok
        cases hok
        exact ⟨T, ps, h, .refl _ _, .refl _ _, hrest, hmiss⟩
    | some iNo =>
        rw [searchDentry_disk hs hdots hcache hdisk] at hok
        obtain ⟨⟨i, fs⟩, hopen, hok⟩ := bind_eq_ok.mp hok
        obtain ⟨s₁, hpush, hok⟩ := bind_eq_ok.mp hok
        cases hok
        obtain ⟨hi, hinew⟩ := hfresh.inode a List.mem_cons_self
        obtain ⟨hx, hxnew⟩ := hfresh.dentry a List.mem_cons_self
        obtain ⟨ps', hinodes, hfiles, hmem, hps'⟩ := h.inodes.open_files hi hinew hopen
        -- the new dentry goes in front of the list of `d`
        obtain ⟨s₂, hpush', hpushed⟩ := pushChild_pushed (s := DirSys.mk fs s.dentry s.dChild)
          { fname := strncpy (fun _ => 0) 0 (charsAt name) name.length
            fnameLen := name.length, count := 1, inode := i, dParent := d, dSubdirs := listInit }
          (h.tree.children d hd) (fun hkid => hxnew (h.tree.below d hd _ hkid))
          (fun heq => hxnew (heq ▸ hd))
        rw [hpush] at hpush'
        cases hpush'
        have hsame : SameDentries s (DirSys.mk fs s.dentry s.dChild) :=
          ⟨rfl, fun _ => rfl, fun _ => rfl, fun _ => rfl, fun _ => rfl⟩
        have htree := (h.tree.congr hsame).push hd hxnew hx hnul hmiss hpushed rfl
          (isString_strncpy hnul) rfl rfl
        have hopened : Extends s (DirSys.mk fs s.dentry s.dChild) T T :=
          ⟨fun _ h => h, fun _ _ _ h => h, fun _ _ => rfl, fun _ _ => rfl⟩
        have hextends := hopened.trans (NameTree.pushed_extends name hxnew hpushed)
        refine ⟨T.push d a.2 name, ps', ⟨htree, ?_, ?_⟩, hextends, ?_, ?_, .inl rfl, ?_⟩
        · rw [hpushed.fs]
          exact hinodes
        · rintro e (rfl | he)
          · rw [hpushed.new]
            exact hmem
          · rw [hpushed.inode fun heq => hxnew (heq ▸ he)]
            exact hfiles.opened _ (h.opened e he)
        · rw [hpushed.fs]
          exact hfiles
        · exact hfresh.tail (fun _ h => h) hps'
        · exact .inr (.inr ⟨T.mem_push_kids d a.2 name, T.push_nm d a.2 name⟩)

/-- A walk keeps the tree, and its names are in the tree afterwards. -/
theorem walks {bufs : Nat → Bytes} {addrs : Nat → Nat × Nat} {n k d' : Nat}
    {names : List (List (BitVec 8))} (h : TreeOk s root T ps) (hd : T.node d)
    (hnames : ∀ name ∈ names, 0 ∉ name) (hfresh : FreshAddrs T ps (newAddrs addrs news n))
    (hwalk : Walks bufs addrs n s d names k s' d') :
    ∃ T' ps', TreeOk s' root T' ps' ∧ Extends s s' T T' ∧ SameFiles s.fs s'.fs ps ps' ∧
      FreshAddrs T' ps' (newAddrs addrs news k) ∧ T'.node d' ∧ Leads s' T' d' d names := by
  induction hwalk generalizing T ps with
  | nil n s d => exact ⟨T, ps, h, .refl _ _, .refl _ _, hfresh, hd, rfl⟩
  | @cons n k d c d' s s₁ s' name rest hlook _ ih =>
      obtain ⟨T₁, ps₁, h₁, hextends₁, hfiles₁, hfresh₁, hc, hfinds⟩ :=
        h.search hd (hnames _ List.mem_cons_self) hfresh hlook
      obtain ⟨T', ps', h', hextends, hfiles, hfresh', hd', hleads⟩ :=
        ih h₁ hc (fun name h => hnames name (List.mem_cons_of_mem _ h)) hfresh₁
      exact ⟨T', ps', h', hextends₁.trans hextends, hfiles₁.trans hfiles, hfresh', hd', c,
        hextends.node c hc, hfinds.mono hextends (hextends₁.node d hd) hc, hleads⟩

end TreeOk

/-- Names that lead through the tree are found in the cache. -/
theorem NameTree.leads_walks {s : DirSys} {root : Nat} {T : CacheTree} {d c : Nat}
    {names : List (List (BitVec 8))} (h : NameTree s root T.node T.kids T.nm) (hd : T.node d)
    (hleads : Leads s T c d names) (bufs : Nat → Bytes) (addrs : Nat → Nat × Nat) (k : Nat) :
    ∃ s', Walks bufs addrs (k + names.length) s d names k s' c ∧ OnlyCounts s s' := by
  induction names generalizing s d with
  | nil =>
      obtain rfl : c = d := hleads
      exact ⟨s, .nil _ _ _, .refl s⟩
  | cons name rest ih =>
      obtain ⟨e, he, hfinds, hrest⟩ := hleads
      obtain ⟨s₁, hlook, hcounts⟩ := h.search_finds hd hfinds (bufs (k + rest.length))
        (addrs (k + rest.length)).1 (addrs (k + rest.length)).2
      have hextends : Extends s s₁ T T := hcounts.tree_extends T
      obtain ⟨s', hwalk, hcounts'⟩ := ih (h.congr hcounts.same) he (hrest.mono hextends he)
      exact ⟨s', .cons hlook hwalk, hcounts.trans hcounts'⟩

/-! ### Paths -/

/-- The names of a path are strings. -/
theorem components_nul {path : Path} {name : List (BitVec 8)}
    (hname : name ∈ components (behindRoot path.chars)) : 0 ∉ name := fun hzero =>
  (behindRoot_sub path).1 ((mem_components hname).1 0 hzero)

section
variable {s s₁ s' : DirSys} {root cwd : Nat} {path : Path} {bufs : Nat → Bytes}
  {addrs : Nat → Nat × Nat}

/-- A lookup that finds nothing changes nothing. -/
theorem searchDentry_none {d i x n : Nat} {dname buf : Bytes}
    (hok : searchDentry s d dname n buf i x = .ok (none, s')) : s' = s := by
  rw [searchDentry] at hok
  split at hok
  · cases hok
  split at hok
  · cases hok
  obtain ⟨found, -, hok⟩ := bind_eq_ok.mp hok
  cases found with
  | some subdir => cases hok
  | none =>
      dsimp only at hok
      split at hok
      next =>
        cases hok
        rfl
      next =>
        obtain ⟨⟨inode, fs⟩, -, hok⟩ := bind_eq_ok.mp hok
        obtain ⟨s₂, -, hok⟩ := bind_eq_ok.mp hok
        cases hok

/-- `search_dentry` leaves the partition alone, but for the open inodes. -/
theorem searchDentry_part {d i x n : Nat} {dname buf : Bytes} {r : Option Nat}
    (hok : searchDentry s d dname n buf i x = .ok (r, s')) :
    s'.fs.part = { s.fs.part with openInodes := s'.fs.part.openInodes } := by
  rw [searchDentry] at hok
  split at hok
  · cases hok
    rfl
  split at hok
  · cases hok
    rfl
  obtain ⟨found, -, hok⟩ := bind_eq_ok.mp hok
  cases found with
  | some subdir =>
      cases hok
      rfl
  | none =>
      dsimp only at hok
      split at hok
      next =>
        cases hok
        rfl
      next =>
        -- Only a name on the disk opens an inode, and only one that is not open yet joins the list.
        obtain ⟨⟨inode, fs⟩, hopen, hok⟩ := bind_eq_ok.mp hok
        obtain ⟨s₂, hpush, hok⟩ := bind_eq_ok.mp hok
        cases hok
        rw [pushChild_fs hpush]
        simp only [inodeOpen, bind_eq_ok, ASSERT_eq_ok] at hopen
        obtain ⟨-, -, -, -, found, -, hopen⟩ := hopen
        cases found with
        | some q =>
            cases hopen
            rfl
        | none =>
            obtain ⟨⟨openInodes, inodeTag⟩, -, hopen⟩ := bind_eq_ok.mp hopen
            cases hopen
            rfl

/-- A walk opens inodes, and changes nothing else of the partition. -/
theorem Walks.part {bufs : Nat → Bytes} {addrs : Nat → Nat × Nat} {n k d d' : Nat}
    {names : List (List (BitVec 8))} (hwalk : Walks bufs addrs n s d names k s' d') :
    s'.fs.part = { s.fs.part with openInodes := s'.fs.part.openInodes } := by
  induction hwalk with
  | nil n s d => rfl
  | cons hlook _ ih => rw [ih, searchDentry_part hlook]

/-- Only a path relative to a file is `-ENOTDIR`. -/
theorem parsePath_fdcwd {found : Option SearchRes}
    (hpath : parsePath s root cwd .fdcwd path bufs addrs = .ok (found, s₁)) :
    ∃ res, found = some res := by
  rw [parsePath, pathStart_fdcwd] at hpath
  obtain ⟨⟨res, s₂⟩, -, hres⟩ := bind_eq_ok.mp hpath
  cases hres
  exact ⟨res, rfl⟩

/-- Where `parse_path` stops: at the start, or behind the lookup of a name. -/
theorem parsePath_names {res : SearchRes}
    (hpath : parsePath s root cwd .fdcwd path bufs addrs = .ok (some res, s₁)) :
    (s₁ = s ∧ res.parent = startOf path.chars root cwd ∧
      res.child = some (startOf path.chars root cwd) ∧ behindRoot path.chars = []) ∨
    ∃ before name after k s₂, components (behindRoot path.chars) = before ++ name :: after ∧
      Walks bufs addrs path.chars.length s (startOf path.chars root cwd) before
        (k + 1) s₂ res.parent ∧
      searchDentry s₂ res.parent (charsAt name) res.curdirLen (bufs k) (addrs k).1 (addrs k).2
        = .ok (res.child, s₁) ∧ StopsAt (behindRoot path.chars) name after res := by
  obtain ⟨hnul, hlen⟩ := behindRoot_sub path
  rw [parsePath, pathStart_fdcwd] at hpath
  obtain ⟨⟨res', s₂⟩, hloop, hres⟩ := bind_eq_ok.mp hpath
  cases hres
  by_cases hcur : behindRoot path.chars = []
  · rw [hcur, parseLoop_stop (.inr (.inr rfl))] at hloop
    cases hloop
    exact .inl ⟨rfl, rfl, rfl, hcur⟩
  · exact .inr (parseLoop_names hcur hnul (Nat.le_trans hlen path.le) hlen rfl rfl hloop)

/-- So does `parse_path`, which is a walk. -/
theorem parsePath_part {res : SearchRes}
    (hpath : parsePath s root cwd .fdcwd path bufs addrs = .ok (some res, s₁)) :
    s₁.fs.part = { s.fs.part with openInodes := s₁.fs.part.openInodes } := by
  obtain ⟨rfl, -⟩ | ⟨before, name, after, k, s₂, -, hwalk, hlook, -⟩ := parsePath_names hpath
  · rfl
  · rw [searchDentry_part hlook, hwalk.part]

section
variable {T : CacheTree} {ps : List Nat} {news : List (Nat × Nat)} (h : TreeOk s root T ps)
  (hcwd : T.node cwd)

include h hcwd

/-- The walk starts in the tree: at the root or at the current directory. -/
theorem TreeOk.start (path : Path) : T.node (startOf path.chars root cwd) := by
  rw [startOf]
  split
  · exact h.tree.top
  · exact hcwd

variable (hfresh : FreshAddrs T ps (newAddrs addrs news path.chars.length))

include hfresh

/-- The tree behind the lookup of a name of the path. -/
theorem TreeOk.stops {before after : List (List (BitVec 8))} {name : List (BitVec 8)} {k p : Nat}
    {s₂ : DirSys} {child : Option Nat}
    (hcomp : components (behindRoot path.chars) = before ++ name :: after)
    (hwalk : Walks bufs addrs path.chars.length s (startOf path.chars root cwd) before (k + 1) s₂ p)
    (hlook : searchDentry s₂ p (charsAt name) name.length (bufs k) (addrs k).1 (addrs k).2
      = .ok (child, s₁)) :
    ∃ T₁ ps₁, TreeOk s₁ root T₁ ps₁ ∧ SameFiles s.fs s₁.fs ps ps₁ ∧ FreshAddrs T₁ ps₁ news ∧
      T₁.node p ∧ T₁.node (startOf path.chars root cwd) ∧
      Leads s₁ T₁ p (startOf path.chars root cwd) before ∧ Answered s₁ T₁ p name child := by
  have hok : ∀ name' ∈ before ++ name :: after, 0 ∉ name' :=
    fun name' hmem => components_nul (hcomp ▸ hmem)
  have hstart := h.start hcwd path
  obtain ⟨T₂, ps₂, h₂, hextends₂, hfiles₂, hfresh₂, hp, hleads⟩ :=
    h.walks hstart (fun name' hmem => hok name' (List.mem_append_left _ hmem)) hfresh hwalk
  obtain ⟨T₁, ps₁, h₁, hextends, hfiles, hfresh₁, hanswer⟩ :=
    h₂.search hp (hok name (List.mem_append_right _ List.mem_cons_self)) hfresh₂ hlook
  have hstart₂ := hextends₂.node _ hstart
  exact ⟨T₁, ps₁, h₁, hfiles₂.trans hfiles, hfresh₁.last, hextends.node p hp,
    hextends.node _ hstart₂, hleads.mono hextends hstart₂, hanswer⟩

/-- The tree behind `parse_path`. A dentry that was found has a name that fits into `fname`. -/
theorem TreeOk.parsed {res : SearchRes}
    (hfits : res.child ≠ none → res.curdirLen ≤ MAX_FILE_NAME_LEN + 1)
    (hpath : parsePath s root cwd .fdcwd path bufs addrs = .ok (some res, s₁)) :
    ∃ T₁ ps₁, TreeOk s₁ root T₁ ps₁ ∧ FreshAddrs T₁ ps₁ news ∧ T₁.node res.parent ∧
      ∀ c, res.child = some c → T₁.node c := by
  have hstart := h.start hcwd path
  obtain ⟨rfl, hparent, hchild, -⟩ | ⟨before, name, after, k, s₂, hcomp, hwalk, hlook, hstop⟩ :=
    parsePath_names hpath
  · refine ⟨T, ps, h, hfresh.last, hparent ▸ hstart, fun c hc => ?_⟩
    rw [hchild] at hc
    exact Option.some.inj hc ▸ hstart
  · cases hchild : res.child with
    | none =>
        -- the last lookup has changed nothing
        rw [hchild] at hlook
        obtain rfl := searchDentry_none hlook
        obtain ⟨T₂, ps₂, h₂, -, -, hfresh₂, hp, -⟩ := h.walks hstart
          (fun name' hmem => components_nul (hcomp ▸ List.mem_append_left _ hmem)) hfresh hwalk
        exact ⟨T₂, ps₂, h₂, hfresh₂.last, hp, fun c hc => by cases hc⟩
    | some c =>
        have hshort := hstop.short (Nat.lt_of_le_of_lt (hfits (by simp [hchild])) (by decide))
        rw [hstop.curdirLen hshort] at hlook
        obtain ⟨T₁, ps₁, h₁, -, hfresh₁, hp, -, -, hanswer⟩ := h.stops hcwd hfresh hcomp hwalk hlook
        rw [hchild] at hanswer
        refine ⟨T₁, ps₁, h₁, hfresh₁, hp, fun c' hc => ?_⟩
        cases hc
        exact hanswer.1

end

end

end Fizzos.Proofs
