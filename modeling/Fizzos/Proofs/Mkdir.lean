import Fizzos.Fs.PathCalls
import Fizzos.Proofs.CacheTree
import Fizzos.Proofs.Create

/-!
# `Fizzos.Proofs.Mkdir`: `sys_mkdirat` and a name that is missing inside of the path

`filp_openat` looks at `nextdir` when `child` is `NULL`. `sys_mkdirat` does not: it makes the first
name that is missing, and returns 0 (`mkdir_last`). Only a directory of the largest size refuses the
entry.

When the last name is the missing one, the new directory is in the tree of cached dentries
(`TreeOk.create`), and the path leads to it (`NameTree.parsePath_child`).
-/

set_option autoImplicit false

namespace Fizzos.Proofs

open Fizzos.Device
open Fizzos.Fs
open Fizzos.Kernel
open Fizzos.Lib
open Fizzos.LibKernel
open Fizzos.Support

/-! ### What the call owes -/

/-- The lookups of the path `cur` from `start` come to the directory `p`, and the next name is not
there. It is not the last one. The state is `s₁` then. -/
def MissesInside (m : OpenMem) (n : Nat) (s : DirSys) (start : Nat) (cur : List (BitVec 8))
    (p : Nat) (s₁ : DirSys) : Prop :=
  ∃ before name after k s₂, components cur = before ++ name :: after ∧ after ≠ [] ∧
    Walks m.bufs m.addrs n s start before (k + 1) s₂ p ∧
    searchDentry s₂ p (charsAt name) name.length (m.bufs k) (m.addrs k).1 (m.addrs k).2
      = .ok (none, s₁)

/-- The directories on the disk and in memory, and both bitmaps, are the same. -/
structure TreeKept (s s' : FileSys) (ps : List Nat) : Prop where
  disk : s'.disk = s.disk
  blockBitmap : s'.part.blockBitmap = s.part.blockBitmap
  inodeBitmap : ∀ k, s'.part.inodeBitmap.bit k = s.part.inodeBitmap.bit k
  inode : ∀ q ∈ ps, SameInode (s'.inode q) (s.inode q)

/-- The path leads to a directory, and its inode number was free. -/
def FindsNew (s s' : DirSys) (root cwd : Nat) (path : Path) (bufs : Nat → Bytes)
    (addrs : Nat → Nat × Nat) : Prop :=
  ∃ res s'' d, parsePath s' root cwd .fdcwd path bufs addrs = .ok (some res, s'') ∧
    res.child = some d ∧ (inodeOf s'' d).iMode &&& 0xf000 = FT_DIR ∧
    s.fs.part.inodeBitmap.bit (inodeOf s'' d).iNo = false

/-- `sys_mkdirat` makes the last name of the path, and no other. -/
structure MakesLast (s : DirSys) (root cwd : Nat) (path : Path) (mode : Nat) (m : OpenMem)
    (current : Tid) (ps : List Nat) : Prop where
  missing : ∀ p s₁, MissesInside m path.chars.length s (startOf path.chars root cwd)
      (behindRoot path.chars) p s₁ →
    ∃ ret s', sysMkdirat s root cwd .fdcwd path mode m current = .ok (ret, s') ∧ ret < 0 ∧
      TreeKept s.fs s'.fs ps
  made : ∀ s', sysMkdirat s root cwd .fdcwd path mode m current = .ok (0, s') →
    ∀ bufs addrs, FindsNew s s' root cwd path bufs addrs

/-- Where a name is missing inside of the path, the directory takes no entry, and an inode is free
for the attempt. -/
def RefusesInside (s : DirSys) (root cwd : Nat) (path : Path) (m : OpenMem) : Prop :=
  ∀ p s₁, MissesInside m path.chars.length s (startOf path.chars root cwd)
      (behindRoot path.chars) p s₁ →
    (inodeOf s₁ p).iSize = MAX_FILE_SIZE ∧ bitmapScanIndex s.fs.part.inodeBitmap ≠ none

/-- The name that is missing fits into the `fname` of a new dentry, or the directory takes no
entry. -/
def NewNameFits (s : DirSys) (root cwd : Nat) (path : Path) (m : OpenMem) : Prop :=
  ∀ res s₁, parsePath s root cwd .fdcwd path m.bufs m.addrs = .ok (some res, s₁) →
    res.child = none → res.curdirLen ≤ MAX_FILE_NAME_LEN + 1 ∨
      (inodeOf s₁ res.parent).iSize = MAX_FILE_SIZE

/-! ### The path -/

section
variable {s s₁ s' : DirSys} {root cwd p : Nat} {path : Path} {m : OpenMem}

theorem mkdirRelative_fdcwd (path : List (BitVec 8)) : mkdirRelative .fdcwd path = .ok () := by
  rw [mkdirRelative]
  split <;> rfl

/-- `parse_path` stops at a name that is missing inside of the path. -/
theorem MissesInside.stops (h : MissesInside m path.chars.length s
      (startOf path.chars root cwd) (behindRoot path.chars) p s₁) :
    ∃ res, parsePath s root cwd .fdcwd path m.bufs m.addrs = .ok (some res, s₁) ∧
      res.parent = p ∧ res.child = none := by
  obtain ⟨before, name, after, k, s₂, hcomp, hafter, hwalk, hlook⟩ := h
  obtain ⟨hnul, hlen⟩ := behindRoot_sub path
  obtain ⟨res, hloop, hparent, hchild, -⟩ := parseLoop_of_walks
    ⟨startOf path.chars root cwd, some (startOf path.chars root cwd), behindRoot path.chars, 0,
      some (behindRoot path.chars)⟩
    hnul (Nat.le_trans hlen path.le) hcomp hwalk (.inr hafter) hlook (.inl rfl) rfl rfl
  rw [parsePath, pathStart_fdcwd]
  dsimp only
  rw [hloop]
  exact ⟨res, rfl, hparent, hchild⟩

theorem MissesInside.part (h : MissesInside m path.chars.length s
      (startOf path.chars root cwd) (behindRoot path.chars) p s₁) :
    s₁.fs.part = { s.fs.part with openInodes := s₁.fs.part.openInodes } := by
  obtain ⟨before, name, after, k, s₂, -, -, hwalk, hlook⟩ := h
  rw [searchDentry_part hlook, hwalk.part]

/-- The call, behind `parse_path`. -/
theorem sysMkdirat_found {res : SearchRes} {mode : Nat} {current : Tid}
    (hpath : parsePath s root cwd .fdcwd path m.bufs m.addrs = .ok (some res, s₁))
    (hchild : res.child = none) :
    sysMkdirat s root cwd .fdcwd path mode m current =
      dirCreate s₁ res.parent mode m.buf (charsAt res.curdir) res.curdirLen m.inode m.dentry m.pad
        current := by
  rw [sysMkdirat, mkdirRelative_fdcwd, ok_bind, hpath, ok_bind]
  dsimp only
  rw [Option.getD_some, mkdirFound, ASSERT_true hchild, ok_bind]

end

/-! ### A refused entry -/

/-- `dir_create` returns an error for a directory of the largest size only. -/
theorem dirCreate_negative {s s' : DirSys} {res : SearchRes} {mode i dm : Nat} {buf pad : Bytes}
    {current : Tid} {ret : Int} (hlock : s.fs.part.inodeBitmap.lock = mutexLockInit)
    (hok : dirCreate s res.parent mode buf (charsAt res.curdir) res.curdirLen i dm pad current
      = .ok (ret, s')) (hret : ret < 0) :
    (inodeOf s res.parent).iSize = MAX_FILE_SIZE ∧
    bitmapScanIndex s.fs.part.inodeBitmap ≠ none := by
  simp only [dirCreate, bind_eq_ok] at hok
  obtain ⟨fs, halloc, ⟨d, buf', s₂⟩, hwrite, hok⟩ := hok
  obtain rfl : d = none := by
    cases d with
    | none => rfl
    | some d =>
        obtain ⟨⟨disk, inodeBitmap⟩, -, hok⟩ := bind_eq_ok.mp hok
        cases hok
        exact absurd hret (by decide)
  have hsize := (dirWrite_none hwrite).mp rfl
  refine ⟨?_, by rw [inodeAlloc_number hlock halloc]; exact Option.some_ne_none _⟩
  by_cases hi : i = (s.dentry res.parent).inode
  · -- the new inode is empty
    simp only [inodeAlloc, bind_eq_ok, pure_eq_ok] at halloc
    obtain ⟨⟨iNo, inodeBitmap⟩, -, ⟨openInodes, inodeTag⟩, -, halloc⟩ := halloc
    cases halloc
    rw [inodeOf, ← hi] at hsize
    dsimp only at hsize
    rw [FileSys.setInode_self, FileSys.setInode_self] at hsize
    have hzero : (0 : Nat) = MAX_FILE_SIZE := hsize
    exact absurd hzero (by decide)
  · rw [inodeOf] at hsize
    dsimp only at hsize
    rw [FileSys.setInode_of_ne _ _ (Ne.symm hi), (inodeAlloc_frame halloc).2.2.2 _
      (Ne.symm hi)] at hsize
    exact hsize

theorem InodesOk.setMode {s : FileSys} {ps : List Nat} (h : InodesOk s ps) (p iMode : Nat) :
    InodesOk (s.setInode p { s.inode p with iMode }) ps := by
  have hsame : ∀ q, ((s.setInode p { s.inode p with iMode }).inode q).iNo = (s.inode q).iNo ∧
      ((s.setInode p { s.inode p with iMode }).inode q).iCount = (s.inode q).iCount := by
    intro q
    by_cases hq : q = p
    · subst hq
      rw [FileSys.setInode_self]
      exact ⟨rfl, rfl⟩
    · rw [FileSys.setInode_of_ne _ _ hq]
      exact ⟨rfl, rfl⟩
  have hnumbers : numbers (s.setInode p { s.inode p with iMode }) ps = numbers s ps :=
    List.map_congr_left fun q _ => (hsame q).1
  refine ⟨h.isList, h.pointer, h.lock, hnumbers ▸ h.nodup, fun q hq => ?_, fun q hq => ?_⟩
  · rw [(hsame q).1]
    exact h.bits q hq
  · rw [(hsame q).2]
    exact h.count q hq

/-- A directory of the largest size refuses the entry, and the inode is given back. -/
theorem dirCreate_full {s : DirSys} {ps : List Nat} (h : InodesOk s.fs ps) {parent i : Nat}
    (hparent : (s.dentry parent).inode ∈ ps) (hi : i < 2 ^ 32) (hnew : i ∉ ps)
    (hsize : (inodeOf s parent).iSize = MAX_FILE_SIZE)
    (hfree : bitmapScanIndex s.fs.part.inodeBitmap ≠ none) (mode : Nat) (buf fname : Bytes)
    (n dm : Nat) (pad : Bytes) (current : Tid) :
    ∃ s', dirCreate s parent mode buf fname n i dm pad current = .ok (-1, s') ∧
      TreeKept s.fs s'.fs ps := by
  obtain ⟨fs, halloc⟩ := h.alloc_returns hnew hfree current
  obtain ⟨idx, hclear, hset, hno, hzero, hothers, hdisk, hpart, hinodes⟩ := h.alloc hi hnew halloc
  have hne : i ≠ (s.dentry parent).inode := fun heq => hnew (heq ▸ hparent)
  have hmode := hinodes.setMode i ((mode &&& 0x0fff) ||| FT_DIR)
  have hcount : ((fs.setInode i { fs.inode i with iMode := (mode &&& 0x0fff) ||| FT_DIR }).inode
      i).iCount = 0 := by
    rw [FileSys.setInode_self]
    exact hzero
  obtain ⟨fs', hdelete, -, hinode', hdisk', hpart'⟩ :=
    hmode.delete List.mem_cons_self hcount current
  -- `dir_write` tests the size in front of everything else.
  have hfull : dirWrite (DirSys.mk (fs.setInode i { fs.inode i with
        iMode := (mode &&& 0x0fff) ||| FT_DIR }) s.dentry s.dChild) parent i buf fname n dm current
      = .ok (none, buf, DirSys.mk (fs.setInode i { fs.inode i with
        iMode := (mode &&& 0x0fff) ||| FT_DIR }) s.dentry s.dChild) := by
    rw [inodeOf] at hsize
    rw [dirWrite]
    dsimp only
    rw [FileSys.setInode_of_ne _ _ hne.symm, hothers _ hne.symm, if_pos hsize]
    rfl
  rw [dirCreate, halloc, ok_bind]
  dsimp only
  rw [hfull, ok_bind]
  dsimp only
  rw [hdelete, ok_bind]
  refine ⟨_, rfl, ?_, ?_, fun k => ?_, fun q hq => ?_⟩
  · exact hdisk'.trans hdisk
  · show fs'.part.blockBitmap = _
    rw [hpart']
    show fs.part.blockBitmap = _
    rw [hpart]
  · -- the bit of the inode is set and cleared again
    show fs'.part.inodeBitmap.bit k = _
    rw [hpart', FileSys.setInode_self]
    show (Bitmap.set fs.part.inodeBitmap (fs.inode i).iNo false).bit k = _
    rw [Bitmap.bit_set, hset, Bitmap.bit_set, hno]
    by_cases hk : k = idx
    · rw [if_pos hk, hk, hclear]
    · rw [if_neg hk, if_neg hk]
  · have hqi : q ≠ i := fun heq => hnew (heq ▸ hq)
    show SameInode (fs'.inode q) _
    rw [hinode', FileSys.setInode_of_ne _ _ hqi, hothers q hqi]
    exact SameInode.refl _

/-! ### A new directory -/

/-- The dentry of `dir_write` in the state `s'`, and what it leaves of the new inode. -/
theorem dirWrite_pushed {s s' : DirSys} {parent i n dm d : Nat} {xs : List Nat}
    {buf buf' filename : Bytes} {current : Tid}
    (hlist : IsList s.dChild (s.dentry parent).dSubdirs xs) (hdm : dm ∉ xs) (hdm' : dm ≠ parent)
    (hok : dirWrite s parent i buf filename n dm current = .ok (some d, buf', s')) :
    d = dm ∧ ∃ fs s₁, Pushed (DirSys.mk fs s.dentry s.dChild) s₁ parent dm
        { dParent := parent, fname := strncpy (fun _ => 0) 0 filename n, fnameLen := n, inode := i
          count := 1, dSubdirs := listInit } xs ∧
      s'.dentry = s₁.dentry ∧ s'.dChild = s₁.dChild := by
  rw [dirWrite] at hok
  dsimp only at hok
  split at hok
  · cases hok
  · simp only [bind_eq_ok, pure_eq_ok] at hok
    obtain ⟨place, -, ⟨c, inode⟩, -, s₁, hpush, hok⟩ := hok
    cases hok
    obtain ⟨s₂, hpush', hpushed⟩ := pushChild_pushed (s := DirSys.mk (FileSys.setInode
        { s.fs with
          disk := c.disk
          part := { s.fs.part with blockBitmap := c.blockBitmap } } i inode)
      s.dentry s.dChild) (d := parent) (x := dm)
      { dParent := parent, fname := strncpy (fun _ => 0) 0 filename n, fnameLen := n, inode := i
        count := 1, dSubdirs := listInit } hlist hdm hdm'
    rw [hpush] at hpush'
    cases hpush'
    exact ⟨rfl, _, s₁, hpushed, rfl, rfl⟩

/-- The calls of `dir_create` when it returns 0. -/
theorem dirCreate_made {s s' : DirSys} {parent mode i dm n : Nat} {buf pad fname : Bytes}
    {current : Tid}
    (hok : dirCreate s parent mode buf fname n i dm pad current = .ok (0, s')) :
    ∃ fs d buf' s₂ count, inodeAlloc s.fs i current = .ok fs ∧
      dirWrite (DirSys.mk (fs.setInode i { fs.inode i with iMode := (mode &&& 0x0fff) ||| FT_DIR })
        s.dentry s.dChild) parent i buf fname n dm current = .ok (some d, buf', s₂) ∧
      s'.dentry = Function.update s₂.dentry d { s₂.dentry d with inode := i } ∧
      s'.dChild = s₂.dChild ∧ s'.fs.inode i = (s₂.fs.inode i).setCount count := by
  simp only [dirCreate, bind_eq_ok] at hok
  obtain ⟨fs, halloc, ⟨d, buf', s₂⟩, hwrite, hok⟩ := hok
  cases d with
  | none =>
      obtain ⟨fs', -, hok⟩ := bind_eq_ok.mp hok
      cases hok
  | some d =>
      obtain ⟨⟨disk, inodeBitmap⟩, -, hok⟩ := bind_eq_ok.mp hok
      cases hok
      exact ⟨fs, d, buf', s₂, _, halloc, hwrite, rfl, rfl, FileSys.setInode_self _ _ _⟩

/-- `dir_create` puts the new directory in the tree. -/
theorem TreeOk.create {s s' : DirSys} {root p : Nat} {T : CacheTree} {ps : List Nat}
    {name : List (BitVec 8)} {mode i dm : Nat} {buf pad : Bytes} {current : Tid}
    (h : TreeOk s root T ps) (hp : T.node p) (hnul : 0 ∉ name) (hmiss : Misses T p name)
    (hfresh : FreshAddrs T ps [(i, dm)])
    (hok : dirCreate s p mode buf (charsAt name) name.length i dm pad current = .ok (0, s')) :
    NameTree s' root (T.push p dm name).node (T.push p dm name).kids (T.push p dm name).nm ∧
      Extends s s' T (T.push p dm name) ∧ (inodeOf s' dm).iMode = (mode &&& 0x0fff) ||| FT_DIR ∧
      s.fs.part.inodeBitmap.bit (inodeOf s' dm).iNo = false := by
  obtain ⟨hi, hinew⟩ := hfresh.inode _ List.mem_cons_self
  obtain ⟨hdm, hdmnew⟩ := hfresh.dentry _ List.mem_cons_self
  obtain ⟨fs, d, buf', s₂, count, halloc, hwrite, hdentry, hlinks, hinode⟩ := dirCreate_made hok
  obtain ⟨idx, hclear, -, hidx, -, -, -, -, -⟩ := h.inodes.alloc hi hinew halloc
  have hne : i ≠ (s.dentry p).inode := fun heq => hinew (heq ▸ h.opened p hp)
  have hdmkid : dm ∉ T.kids p := fun hkid => hdmnew (h.tree.below p hp _ hkid)
  have hdmp : dm ≠ p := fun heq => hdmnew (heq ▸ hp)
  obtain ⟨rfl, fs₁, s₁, hpushed, hdentry₂, hlinks₂⟩ := dirWrite_pushed
    (s := DirSys.mk (fs.setInode i _) s.dentry s.dChild) (h.tree.children p hp) hdmkid hdmp hwrite
  obtain ⟨place, c, inode, -, hput, -, -, -, hinode₂⟩ :=
    dirWrite_ok (s := DirSys.mk (fs.setInode i _) s.dentry s.dChild) hne hwrite
  obtain ⟨hno, hmode⟩ := putEntry_keeps hput
  have hmid : SameDentries s (DirSys.mk fs₁ s.dentry s.dChild) :=
    ⟨rfl, fun _ => rfl, fun _ => rfl, fun _ => rfl, fun _ => rfl⟩
  have htree := (h.tree.congr hmid).push hp hdmnew hdm hnul hmiss hpushed rfl
    (isString_strncpy hnul) rfl rfl
  have hpush := NameTree.pushed_extends name hdmnew hpushed
  -- `dir_create` stores the inode in the dentry once more
  have hsame : s'.dentry = s₁.dentry := by
    rw [hdentry, hdentry₂]
    refine Function.update_eq_self_iff.mpr ?_
    rw [hpushed.new]
  have hnew : inodeOf s' d = inode.setCount count := by
    rw [inodeOf, hsame, hpushed.new, ← hinode₂]
    exact hinode
  have hdentries : SameDentries s₁ s' :=
    ⟨hlinks.trans hlinks₂, fun _ => by rw [hsame], fun _ => by rw [hsame], fun _ => by rw [hsame],
      fun _ => by rw [hsame]⟩
  refine ⟨htree.congr hdentries, ⟨hpush.node, hpush.kids, hpush.nm, fun e he => ?_⟩, ?_, ?_⟩
  · rw [hsame]
    exact hpush.dParent e he
  · rw [hnew]
    show inode.iMode = _
    rw [hmode, FileSys.setInode_self]
  · rw [hnew]
    show s.fs.part.inodeBitmap.bit inode.iNo = false
    rw [hno, FileSys.setInode_self]
    show s.fs.part.inodeBitmap.bit (fs.inode i).iNo = false
    rw [hidx]
    exact hclear

/-- A directory of the largest size gets no new one. -/
theorem TreeOk.create_size {s s' : DirSys} {root p : Nat} {T : CacheTree} {ps : List Nat}
    {name : List (BitVec 8)} {mode i dm n : Nat} {buf pad : Bytes} {current : Tid}
    (h : TreeOk s root T ps) (hp : T.node p) (hfresh : FreshAddrs T ps [(i, dm)])
    (hok : dirCreate s p mode buf (charsAt name) n i dm pad current = .ok (0, s')) :
    (inodeOf s p).iSize ≠ MAX_FILE_SIZE := by
  intro hsize
  obtain ⟨hi, hinew⟩ := hfresh.inode _ List.mem_cons_self
  obtain ⟨fs, d, buf', s₂, count, halloc, hwrite, -⟩ := dirCreate_made hok
  have hne : i ≠ (s.dentry p).inode := fun heq => hinew (heq ▸ h.opened p hp)
  have hsame : SameDir s (DirSys.mk (fs.setInode i { fs.inode i with
      iMode := (mode &&& 0x0fff) ||| FT_DIR }) s.dentry s.dChild) p :=
        sameDir_of_alloc hne halloc rfl
  rw [← hsame.inode] at hsize
  have hnone := (dirWrite_none hwrite).mpr hsize
  cases hnone

/-- A path leads to a child when the names in front lead to its parent. -/
theorem NameTree.parsePath_child {s : DirSys} {root cwd p c : Nat} {T : CacheTree} {path : Path}
    {before : List (List (BitVec 8))} (h : NameTree s root T.node T.kids T.nm)
    (hstart : T.node (startOf path.chars root cwd))
    (hleads : Leads s T p (startOf path.chars root cwd) before) (hp : T.node p) (hc : c ∈ T.kids p)
    (hcomp : components (behindRoot path.chars) = before ++ [T.nm c])
    (hshort : (T.nm c).length < 100) (bufs : Nat → Bytes)
    (addrs : Nat → Nat × Nat) :
    ∃ res s', parsePath s root cwd .fdcwd path bufs addrs = .ok (some res, s') ∧
      res.child = some c ∧ OnlyCounts s s' := by
  obtain ⟨hnul, hlen⟩ := behindRoot_sub path
  obtain ⟨k, hk⟩ : ∃ k, path.chars.length = k + 1 + before.length := by
    have hcount := components_length (behindRoot path.chars)
    rw [hcomp, List.length_append, List.length_singleton] at hcount
    exact ⟨path.chars.length - before.length - 1, by omega⟩
  obtain ⟨s₁, hwalk, hcounts⟩ := h.leads_walks hstart hleads bufs addrs (k + 1)
  have hextends : Extends s s₁ T T := hcounts.tree_extends T
  obtain ⟨s', hlook, hcounts'⟩ := (h.congr hcounts.same).search_finds hp
    (.inr (.inr ⟨hc, rfl⟩)) (bufs k) (addrs k).1 (addrs k).2
  rw [← hk] at hwalk
  obtain ⟨res, hloop, -, hchild, -⟩ := parseLoop_of_walks
    ⟨startOf path.chars root cwd, some (startOf path.chars root cwd), behindRoot path.chars, 0,
      some (behindRoot path.chars)⟩
    hnul (Nat.le_trans hlen path.le) hcomp hwalk (.inl hshort) hlook (.inr rfl) rfl rfl
  rw [parsePath, pathStart_fdcwd]
  dsimp only
  rw [hloop]
  exact ⟨res, s', rfl, hchild, hcounts.trans hcounts'⟩

/-! ### The call -/

section
variable {s s' : DirSys} {root cwd : Nat} {T : CacheTree} {ps : List Nat} {path : Path} {mode : Nat}
  {m : OpenMem} {current : Tid}

/-- The calls of `sys_mkdirat` when it returns. -/
theorem sysMkdirat_ok {ret : Int}
    (hok : sysMkdirat s root cwd .fdcwd path mode m current = .ok (ret, s')) :
    ∃ res s₁, parsePath s root cwd .fdcwd path m.bufs m.addrs = .ok (some res, s₁) ∧
      res.child = none ∧ dirCreate s₁ res.parent mode m.buf
        (charsAt res.curdir) res.curdirLen m.inode m.dentry m.pad current = .ok (ret, s') := by
  rw [sysMkdirat, mkdirRelative_fdcwd, ok_bind] at hok
  obtain ⟨⟨found, s₁⟩, hfound, hok⟩ := bind_eq_ok.mp hok
  obtain ⟨res, rfl⟩ := parsePath_fdcwd hfound
  simp only [mkdirFound, bind_eq_ok, ASSERT_eq_ok, Option.getD_some] at hok
  obtain ⟨-, hchild, hok⟩ := hok
  exact ⟨res, s₁, hfound, hchild, hok⟩

/-- A call that keeps the promise has refused the entry. -/
theorem MakesLast.refuses (h : MakesLast s root cwd path mode m current ps)
    (hlock : s.fs.part.inodeBitmap.lock = mutexLockInit) : RefusesInside s root cwd path m := by
  intro p s₁ hmiss
  obtain ⟨ret, s', hok, hret, -⟩ := h.missing p s₁ hmiss
  obtain ⟨res, hpath, rfl, hchild⟩ := hmiss.stops
  rw [sysMkdirat_found hpath hchild] at hok
  have hpart := hmiss.part
  have hbitmap : s₁.fs.part.inodeBitmap = s.fs.part.inodeBitmap := by rw [hpart]
  have hres := dirCreate_negative (by rw [hbitmap]; exact hlock) hok hret
  rw [hbitmap] at hres
  exact hres

section
variable (h : TreeOk s root T ps) (hcwd : T.node cwd)
  (hfresh : FreshAddrs T ps (newAddrs m.addrs [(m.inode, m.dentry)] path.chars.length))

include h hcwd hfresh

/-- A refused entry leaves everything as it was. -/
theorem TreeOk.mkdir_refused {p : Nat} {s₁ : DirSys} (hrefuses : RefusesInside s root cwd path m)
    (hmiss : MissesInside m path.chars.length s (startOf path.chars root cwd)
    (behindRoot path.chars)
      p s₁) :
    ∃ ret s', sysMkdirat s root cwd .fdcwd path mode m current = .ok (ret, s') ∧ ret < 0 ∧
      TreeKept s.fs s'.fs ps := by
  obtain ⟨hsize, hfree⟩ := hrefuses p s₁ hmiss
  obtain ⟨res, hpath, rfl, hchild⟩ := hmiss.stops
  have hpart := hmiss.part
  obtain ⟨before, name, after, k, s₂, hcomp, -, hwalk, hlook⟩ := hmiss
  obtain ⟨T₁, ps₁, h₁, hfiles, hfresh₁, hp, -⟩ :=
    h.stops hcwd hfresh hcomp hwalk hlook
  obtain ⟨hi, hinew⟩ := hfresh₁.inode _ List.mem_cons_self
  have hbitmap : s₁.fs.part.inodeBitmap = s.fs.part.inodeBitmap := by rw [hpart]
  have hblocks : s₁.fs.part.blockBitmap = s.fs.part.blockBitmap := by rw [hpart]
  obtain ⟨s', hok, hkept⟩ := dirCreate_full h₁.inodes (h₁.opened _ hp) hi hinew hsize
    (by rw [hbitmap]; exact hfree) mode m.buf
    (charsAt res.curdir) res.curdirLen m.dentry m.pad current
  rw [sysMkdirat_found hpath hchild]
  refine ⟨-1, s', hok, by decide, hkept.disk.trans hfiles.disk, hkept.blockBitmap.trans hblocks,
    fun j => ?_, fun q hq => ?_⟩
  · rw [hkept.inodeBitmap j, hbitmap]
  · exact (hkept.inode q (hfiles.opened q hq)).trans (hfiles.inode q hq)

/-- A directory that was made is the one that the path leads to. -/
theorem TreeOk.mkdir_made (hfits : NewNameFits s root cwd path m)
    (hrefuses : RefusesInside s root cwd path m)
    (hok : sysMkdirat s root cwd .fdcwd path mode m current = .ok (0, s')) (bufs : Nat → Bytes)
    (addrs : Nat → Nat × Nat) : FindsNew s s' root cwd path bufs addrs := by
  obtain ⟨res, s₁, hpath, hchild, hcreate⟩ := sysMkdirat_ok hok
  obtain ⟨T₀, ps₀, h₀, hfresh₀, hparent, -⟩ :=
    h.parsed hcwd hfresh (fun hne => absurd hchild hne) hpath
  have hsize := h₀.create_size hparent hfresh₀ hcreate
  have hle := (hfits res s₁ hpath hchild).resolve_right hsize
  obtain ⟨-, -, hstart, -⟩ | ⟨before, name, after, k, s₂, hcomp, hwalk, hlook, hstop⟩ :=
    parsePath_names hpath
  · -- the empty path leads to its start
    rw [hchild] at hstart
    cases hstart
  rw [hchild] at hlook
  have hnul : 0 ∉ name := components_nul (hcomp ▸ List.mem_append_right _ List.mem_cons_self)
  have hshort := hstop.short (Nat.lt_of_le_of_lt hle (by decide))
  have hlen : res.curdirLen = name.length := hstop.curdirLen hshort
  rw [hlen] at hlook
  obtain ⟨T₁, ps₁, h₁, -, hfresh₁, hp, hstart, hleads, hmiss⟩ :=
    h.stops hcwd hfresh hcomp hwalk hlook
  rw [hstop.curdir, hlen] at hcreate
  -- The tree has the new directory as a child of the one where the search stopped.
  obtain ⟨htree, hextends, hmode, hbit⟩ := h₁.create hp hnul hmiss hfresh₁ hcreate
  by_cases hafter : after = []
  · have hcomp' : components (behindRoot path.chars)
        = before ++ [(T₁.push res.parent m.dentry name).nm m.dentry] := by
      rw [hcomp, hafter, T₁.push_nm]
    obtain ⟨res', s'', hfound, hchild', hcounts⟩ := htree.parsePath_child (hextends.node _ hstart)
      (hleads.mono hextends hstart) (hextends.node _ hp) (T₁.mem_push_kids _ _ _) hcomp'
      (by rw [T₁.push_nm]; exact hshort) bufs addrs
    refine ⟨res', s'', m.dentry, hfound, hchild', ?_, ?_⟩
    · rw [hcounts.inodeOf_eq, hmode, Nat.and_or_distrib_right, Nat.and_assoc]
      show mode &&& 0 ||| FT_DIR &&& 0xf000 = FT_DIR
      rw [Nat.and_zero, Nat.zero_or]
      rfl
    · have hbitmap : s₁.fs.part.inodeBitmap = s.fs.part.inodeBitmap := by
        rw [searchDentry_part hlook, hwalk.part]
      rw [hcounts.inodeOf_eq, ← hbitmap]
      exact hbit
  · -- the directory takes no entry there
    have hinside : MissesInside m path.chars.length s (startOf path.chars root cwd)
        (behindRoot path.chars) res.parent s₁ :=
      ⟨before, name, after, k, s₂, hcomp, hafter, hwalk, hlook⟩
    exact absurd (hrefuses _ _ hinside).1 hsize

end

end

/-- `sys_mkdirat` makes the last name of a path and no other only if the directory where a name is
missing inside of the path takes no entry. When a new name fits into a dentry, it does so then. -/
theorem mkdir_last {s : DirSys} {root cwd : Nat} {T : CacheTree} {ps : List Nat} {path : Path}
    {m : OpenMem} (h : TreeOk s root T ps) (hcwd : T.node cwd)
    (hfresh : FreshAddrs T ps (newAddrs m.addrs [(m.inode, m.dentry)] path.chars.length))
    (mode : Nat) (current : Tid) :
    (MakesLast s root cwd path mode m current ps → RefusesInside s root cwd path m) ∧
      (NewNameFits s root cwd path m → RefusesInside s root cwd path m →
        MakesLast s root cwd path mode m current ps) := by
  refine ⟨fun hmakes => hmakes.refuses h.inodes.lock, fun hfits hrefuses => ⟨?_, ?_⟩⟩
  · intro p s₁ hmiss
    exact h.mkdir_refused hcwd hfresh hrefuses hmiss
  · intro s' hok bufs addrs
    exact h.mkdir_made hcwd hfresh hfits hrefuses hok bufs addrs

/-! ### A directory with one file -/

/-- The dentries of `rootSys`. -/
def rootTree : CacheTree where
  node d := d = 64 ∨ d = 96
  kids d := if d = 64 then [96] else []
  nm _ := longName

/-- Memory for a path in `rootSys`. -/
def rootMem : OpenMem where
  bufs _ _ := 0
  addrs n := (200 + n, 400 + n)
  res := ⟨64, some 64, [], 0, none⟩
  buf _ := 0
  inode := 112
  dentry := 128
  pad _ := 0

theorem rootTree_kids {d c : Nat} (hc : c ∈ rootTree.kids d) : d = 64 ∧ c = 96 := by
  by_cases hd : d = 64
  · subst hd
    exact ⟨rfl, List.mem_singleton.mp hc⟩
  · have hnil : rootTree.kids d = [] := if_neg hd
    rw [hnil] at hc
    exact absurd hc List.not_mem_nil

theorem rootSys_treeOk : TreeOk rootSys 64 rootTree [48, 16] where
  tree :=
    { top := .inl rfl
      self := rfl
      up := by
        rintro d (rfl | rfl)
        · exact .inl rfl
        · exact .inl rfl
      children := by
        rintro d (rfl | rfl)
        · exact rootSys_state.children
        · exact IsList.init _
      -- The one file in the root has a name of 24 characters.
      kid := by
        intro d _ c hc
        obtain ⟨rfl, rfl⟩ := rootTree_kids hc
        exact ⟨rfl, by decide, by decide, nameOk_longName.nul, by decide, by decide,
          isString_cstring _, rfl⟩
      below := by
        intro d _ c hc
        exact .inr (rootTree_kids hc).2
      distinct := by
        intro d _ c hc c' hc' _
        rw [(rootTree_kids hc).2, (rootTree_kids hc').2] }
  inodes := rootSys_state.inodes
  opened := by
    rintro d (rfl | rfl)
    · decide
    · decide

theorem rootMem_fresh :
    FreshAddrs rootTree [48, 16] (newAddrs rootMem.addrs [(rootMem.inode, rootMem.dentry),
    (0, 0)] 3) := by
  have hnews : newAddrs rootMem.addrs [(rootMem.inode, rootMem.dentry), (0, 0)] 3
      = [(202, 402), (201, 401), (200, 400), (112, 128), (0, 0)] := rfl
  have hdentry : ∀ a ∈ [(202, 402), (201, 401), (200, 400), (112, 128), (0, 0)],
      a.2 < 2 ^ 32 ∧ ¬(a.2 = 64 ∨ a.2 = 96) := by decide
  rw [hnews]
  exact ⟨by decide, hdentry, by decide⟩

/-- The directory `b` in the root directory. -/
theorem mkdir_last_root : MakesLast rootSys 64 64 ⟨[0x62], by decide, by decide⟩ 0x1ed rootMem 0
    [48, 16] := by
  have hpath : parsePath rootSys 64 64 .fdcwd ⟨[0x62], by decide, by decide⟩ rootMem.bufs
      rootMem.addrs = .ok (some ⟨64, none, [0x62], 1, none⟩, rootSys) := rfl
  have hfits : NewNameFits rootSys 64 64 ⟨[0x62], by decide, by decide⟩ rootMem := by
    intro res s₁ hok _
    rw [hpath] at hok
    cases hok
    exact .inl (by decide)
  refine (mkdir_last rootSys_treeOk (.inl rfl)
    (rootMem_fresh.sublist (by decide)) 0x1ed 0).2 hfits ?_
  -- the only name is the last one
  rintro p s₁ ⟨before, name, after, k, s₂, hcomp, hafter, -⟩
  have hlen : 1 = (before ++ name :: after).length := congrArg List.length hcomp
  rw [List.length_append, List.length_cons] at hlen
  exact absurd (List.length_eq_zero_iff.mp (by omega)) hafter

example : ∃ s', sysMkdirat rootSys 64 64 .fdcwd ⟨[0x62], by decide, by decide⟩ 0x1ed rootMem 0
    = .ok (0, s') := ⟨_, rfl⟩

/-- For the path `b/c` the directory `b` is made, and not `c` in it. `sys_mkdirat` does not look at
`nextdir`, which says that there is one more name. -/
theorem mkdir_makes_inside :
    ¬∀ s root cwd T ps path m, TreeOk s root T ps → T.node cwd →
      FreshAddrs T ps (newAddrs m.addrs [(m.inode, m.dentry)] path.chars.length) → ∀ mode current,
      MakesLast s root cwd path mode m current ps := by
  intro hall
  have hmakes := hall rootSys 64 64 rootTree [48, 16]
      ⟨[0x62, 0x2f, 0x63], by decide, by decide⟩ rootMem
    rootSys_treeOk (.inl rfl) (rootMem_fresh.sublist (by decide)) 0x1ed 0
  have hname : NameOk [0x62] := ⟨by decide, by decide, by decide, by decide⟩
  have hcache : findCached rootSys.dentry rootSys.dChild (charsAt [0x62]) 1 LIST_WALK
      (rootSys.dentry 64).dSubdirs.head = .ok none :=
    rootSys_treeOk.tree.findCached_misses (.inl rfl) hname.nul
      ⟨by decide, by decide, fun _ _ => (by decide : longName ≠ [0x62])⟩
  have hdisk := rootSys_state.directory.searchDisk_missing hname (isString_cstring [0x62])
    (fun e he heq => absurd (List.mem_map.mpr ⟨e, he, heq⟩) (by decide)) (rootMem.bufs 2)
  rw [if_neg (by decide)] at hdisk
  have hlook : searchDentry rootSys 64 (charsAt [0x62]) 1 (rootMem.bufs 2) 202 402
      = .ok (none, rootSys) :=
    searchDentry_missing (isString_cstring [0x62]) (by decide) hcache hdisk
  obtain ⟨hsize, -⟩ := hmakes.refuses rfl 64 rootSys
    ⟨[], [0x62], [[0x63]], 2, rootSys, rfl, by decide, .nil _ _ _, hlook⟩
  exact absurd hsize (by decide)

end Fizzos.Proofs
