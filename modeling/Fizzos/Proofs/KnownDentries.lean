import Fizzos.Fs.PathCalls
import Fizzos.Proofs.Create
import Mathlib.Data.Set.Insert

/-!
# `Fizzos.Proofs.KnownDentries`: the dentries that a lookup can come to

A lookup follows `d_parent`, `d_subdirs` and `d_child`. `Known s K` says that from a dentry of the
set `K` these pointers lead to dentries of `K` only, and that `NULL` is not in `K`. It does not say
that the dentries are a tree, so it does not matter what names a path has and which addresses
`kmalloc` returns, as long as these are not `NULL`.

`Known.opened` is the effect of `filp_openat`: the slot of a file that it opens was free, and then
has a dentry of a set that is known.
-/

set_option autoImplicit false

namespace Fizzos.Proofs

open Fizzos.Fs
open Fizzos.Kernel
open Fizzos.LibKernel
open Fizzos.Support

/-- The pointers of the dentries in `K` lead to dentries in `K`. -/
structure Known (s : DirSys) (K : Set Nat) : Prop where
  null : 0 ∉ K
  parent : ∀ d ∈ K, (s.dentry d).dParent ∈ K
  head : ∀ d ∈ K, ∀ c, (s.dentry d).dSubdirs.head = some c → c ∈ K
  next : ∀ d ∈ K, ∀ c, (s.dChild d).next = some c → c ∈ K

section
variable {s s' : DirSys} {K : Set Nat} {parent d i : Nat}

/-- The files, and the names and counts of dentries, do not matter. -/
theorem Known.congr (h : Known s K) (hparent : ∀ d, (s'.dentry d).dParent = (s.dentry d).dParent)
    (hsubdirs : ∀ d, (s'.dentry d).dSubdirs = (s.dentry d).dSubdirs)
    (hlinks : s'.dChild = s.dChild) : Known s' K where
  null := h.null
  parent d hd := by
    rw [hparent]
    exact h.parent d hd
  head d hd := by
    rw [hsubdirs]
    exact h.head d hd
  next d hd := by
    rw [hlinks]
    exact h.next d hd

/-- A dentry that keeps its pointers. -/
theorem Known.setDentry (h : Known s K) {x : Dentry} (hparent : x.dParent = (s.dentry d).dParent)
    (hsubdirs : x.dSubdirs = (s.dentry d).dSubdirs) : Known (s.setDentry d x) K := by
  refine h.congr (fun e => ?_) (fun e => ?_) rfl
  · show (Function.update s.dentry d x e).dParent = _
    by_cases hed : e = d
    · rw [hed, Function.update_self, hparent]
    · rw [Function.update_of_ne hed]
  · show (Function.update s.dentry d x e).dSubdirs = _
    by_cases hed : e = d
    · rw [hed, Function.update_self, hsubdirs]
    · rw [Function.update_of_ne hed]

/-! ### A new dentry -/

/-- `list_push_front` makes the element the head, and leads from it to the old head. -/
theorem listPushFront_next {list list' : KList Nat} {h h' : Links Nat} {x : Nat}
    (hok : listPushFront list x h = .ok (list', h')) :
    list'.head = some x ∧ ∀ y, (h' y).next = if y = x then list.head else (h y).next := by
  rw [listPushFront] at hok
  split at hok
  next hnil =>
    cases hok
    refine ⟨rfl, fun y => ?_⟩
    rw [LinkHeap.setNext_next, LinkHeap.setPrev_next, hnil.1]
  next =>
    obtain ⟨head, -, hok⟩ := bind_eq_ok.mp hok
    cases hok
    refine ⟨rfl, fun y => ?_⟩
    rw [LinkHeap.setPrev_next, LinkHeap.setNext_next, LinkHeap.setPrev_next]

/-- `pushChild` in fields. -/
theorem pushChild_eq_ok (hok : s.pushChild parent d = .ok s') :
    (∀ e, (s'.dentry e).dParent = (s.dentry e).dParent) ∧
    (s'.dentry parent).dSubdirs.head = some d ∧
    (∀ e, e ≠ parent → (s'.dentry e).dSubdirs = (s.dentry e).dSubdirs) ∧
    ∀ e, (s'.dChild e).next
      = if e = d then (s.dentry parent).dSubdirs.head else (s.dChild e).next := by
  obtain ⟨⟨dSubdirs, dChild⟩, hpush, hok⟩ := bind_eq_ok.mp hok
  cases hok
  obtain ⟨hhead, hnext⟩ := listPushFront_next hpush
  refine ⟨fun e => ?_, ?_, fun e he => ?_, hnext⟩
  · show (Function.update s.dentry parent _ e).dParent = _
    by_cases he : e = parent
    · rw [he, Function.update_self]
    · rw [Function.update_of_ne he]
  · show (Function.update s.dentry parent _ parent).dSubdirs.head = _
    rw [Function.update_self]
    exact hhead
  · show (Function.update s.dentry parent _ e).dSubdirs = _
    rw [Function.update_of_ne he]

/-- A new dentry has its parent and no children, and goes in front of the parent's children. -/
theorem Known.push (h : Known s K) (hparent : parent ∈ K) (hd : d ≠ 0) {x : Dentry}
    (hx : x.dParent = parent) (hempty : x.dSubdirs = listInit)
    (hok : (s.setDentry d x).pushChild parent d = .ok s') : Known s' (insert d K) := by
  obtain ⟨hup, hhead, hsubdirs, hnext⟩ := pushChild_eq_ok hok
  have hself : (s.setDentry d x).dentry d = x := Function.update_self _ _ _
  have hother : ∀ e, e ≠ d → (s.setDentry d x).dentry e = s.dentry e := fun e he =>
    Function.update_of_ne he _ _
  -- the heads before the push
  have hold : ∀ e ∈ insert d K, ∀ c, ((s.setDentry d x).dentry e).dSubdirs.head
      = some c → c ∈ K := by
    intro e he c hc
    by_cases hed : e = d
    · rw [hed, hself, hempty] at hc
      cases hc
    · rw [hother e hed] at hc
      exact h.head e (he.resolve_left hed) c hc
  constructor
  -- `NULL` is neither the new dentry nor an old one
  · rintro (hzero | hzero)
    · exact hd hzero.symm
    · exact h.null hzero
  · intro e he
    rw [hup]
    by_cases hed : e = d
    · rw [hed, hself, hx]
      exact .inr hparent
    · rw [hother e hed]
      exact .inr (h.parent e (he.resolve_left hed))
  · intro e he c hc
    -- the head of the parent is the new dentry, every other head is as it was
    by_cases hep : e = parent
    · rw [hep, hhead] at hc
      exact .inl (Option.some.inj hc).symm
    · rw [hsubdirs e hep] at hc
      exact .inr (hold e he c hc)
  · intro e he c hc
    rw [hnext] at hc
    by_cases hed : e = d
    · -- the new dentry leads to the old head of the parent
      rw [if_pos hed] at hc
      exact .inr (hold parent (.inr hparent) c hc)
    · rw [if_neg hed] at hc
      exact .inr (h.next e (he.resolve_left hed) c hc)

/-! ### A lookup -/

/-- The dentry that the walk over the cached children finds. -/
theorem Known.findCached (h : Known s K) {dname : Bytes} {n : Nat} :
    ∀ {fuel : Nat} {start : Option Nat}, (∀ c, start = some c → c ∈ K) →
      ∀ {found : Option Nat}, findCached s.dentry s.dChild dname n fuel start = .ok found →
        ∀ c, found = some c → c ∈ K := by
  intro fuel
  -- By induction along the list: each next one is known when the one before is.
  induction fuel with
  | zero =>
      intro start hstart found hok c hc
      cases start with
      | none =>
          cases hok
          cases hc
      | some e => cases hok
  | succ fuel ih =>
      intro start hstart found hok c hc
      cases start with
      | none =>
          cases hok
          cases hc
      | some e =>
          have he : e ∈ K := hstart e rfl
          rw [Fs.findCached] at hok
          split at hok
          next =>
            cases hok
            cases hc
            exact he
          next => exact ih (h.next e he) hok c hc

/-- `search_dentry` finds a known dentry, or makes a new one known. -/
theorem Known.search (h : Known s K) (hparent : parent ∈ K) (hd : d ≠ 0) {dname buf : Bytes}
    {n : Nat} {child : Option Nat}
    (hok : searchDentry s parent dname n buf i d = .ok (child, s')) :
    ∃ K', K ⊆ K' ∧ Known s' K' ∧ ∀ c, child = some c → c ∈ K' := by
  rw [searchDentry] at hok
  split at hok
  next =>
    -- `.`
    cases hok
    exact ⟨K, subset_rfl, h, fun c hc => Option.some.inj hc ▸ hparent⟩
  split at hok
  next =>
    -- `..`
    cases hok
    exact ⟨K, subset_rfl, h, fun c hc => Option.some.inj hc ▸ h.parent parent hparent⟩
  -- a name: the cached children first, then the directory on the disk
  obtain ⟨found, hfind, hok⟩ := bind_eq_ok.mp hok
  cases found with
  | some subdir =>
      cases hok
      refine ⟨K, subset_rfl, h.setDentry rfl rfl, fun c hc => ?_⟩
      exact h.findCached (h.head parent hparent) hfind c hc
  | none =>
      dsimp only at hok
      split at hok
      next =>
        cases hok
        refine ⟨K, subset_rfl, h, fun c hc => ?_⟩
        cases hc
      next =>
        obtain ⟨⟨inode, fs⟩, -, hok⟩ := bind_eq_ok.mp hok
        obtain ⟨s₁, hpush, hok⟩ := bind_eq_ok.mp hok
        cases hok
        have hfs : Known { s with fs } K := h.congr (fun _ => rfl) (fun _ => rfl) rfl
        refine ⟨insert d K, Set.subset_insert d K, hfs.push hparent hd rfl rfl hpush,
          fun c hc => ?_⟩
        exact .inl (Option.some.inj hc).symm

/-! ### A path -/

/-- What `parse_path` has found so far. -/
structure KnownRes (res : SearchRes) (K : Set Nat) : Prop where
  parent : res.parent ∈ K
  child : ∀ c, res.child = some c → c ∈ K

theorem Known.parseLoop {bufs : Nat → Bytes} {addrs : Nat → Nat × Nat}
    (haddrs : ∀ n, (addrs n).2 ≠ 0) (n : Nat) :
    ∀ {s s' : DirSys} {K : Set Nat} {res res' : SearchRes}, Known s K → KnownRes res K →
      parseLoop bufs addrs n s res = .ok (res', s') → ∃ K',
      K ⊆ K' ∧ Known s' K' ∧ KnownRes res' K' := by
  induction n with
  | zero =>
      intro s s' K res res' h hres hok
      cases hok
      exact ⟨K, subset_rfl, h, hres⟩
  | succ n ih =>
      intro s s' K res res' h hres hok
      rw [Fs.parseLoop] at hok
      split at hok
      next parent _ hchild =>
        obtain ⟨⟨child, s₁⟩, hsearch, hok⟩ := bind_eq_ok.mp hok
        have hparent : parent ∈ K := hres.child parent hchild
        obtain ⟨K₁, hsub, h₁, hfound⟩ := h.search hparent (haddrs n) hsearch
        obtain ⟨K', hsub', h', hres'⟩ := ih h₁ ⟨hsub hparent, hfound⟩ hok
        exact ⟨K', hsub.trans hsub', h', hres'⟩
      next =>
        cases hok
        exact ⟨K, subset_rfl, h, hres⟩

/-- The start of a path is one of three dentries. -/
theorem pathStart_mem {root cwd start : Nat} {dirfd : DirFd} {path cur : List (BitVec 8)}
    (hroot : root ∈ K) (hcwd : cwd ∈ K) (hdirfd : ∀ f, dirfd = .file f → f ∈ K)
    (hstart : pathStart s root cwd dirfd path = some (start, cur)) : start ∈ K := by
  unfold pathStart at hstart
  split at hstart
  next =>
    cases hstart
    exact hroot
  cases dirfd with
  | fdcwd =>
      cases hstart
      exact hcwd
  | file f =>
      dsimp only at hstart
      split at hstart
      next => cases hstart
      next =>
        cases hstart
        exact hdirfd _ rfl

/-- A path that starts at a known dentry. -/
theorem Known.parsePath (h : Known s K) {root cwd : Nat} {dirfd : DirFd} {path : Path}
    {bufs : Nat → Bytes} {addrs : Nat → Nat × Nat} (haddrs : ∀ n, (addrs n).2 ≠ 0)
    (hroot : root ∈ K) (hcwd : cwd ∈ K) (hdirfd : ∀ f, dirfd = .file f → f ∈ K)
    {found : Option SearchRes}
    (hok : parsePath s root cwd dirfd path bufs addrs = .ok (found, s')) :
    ∃ K', K ⊆ K' ∧ Known s' K' ∧ ∀ res, found = some res → KnownRes res K' := by
  rw [Fs.parsePath] at hok
  split at hok
  next =>
    cases hok
    refine ⟨K, subset_rfl, h, fun res hres => ?_⟩
    cases hres
  next parent cur hstart =>
    obtain ⟨⟨res, s₁⟩, hloop, hok⟩ := bind_eq_ok.mp hok
    cases hok
    have hparent : parent ∈ K := pathStart_mem hroot hcwd hdirfd hstart
    have hres₀ : KnownRes ⟨parent, some parent, cur, 0, some cur⟩ K :=
      ⟨hparent, fun c hc => Option.some.inj hc ▸ hparent⟩
    obtain ⟨K', hsub, h', hres⟩ := Known.parseLoop haddrs path.chars.length h hres₀ hloop
    exact ⟨K', hsub, h', fun res' hres' => Option.some.inj hres' ▸ hres⟩

end

/-! ### A file -/

/-- What opening a file leaves: the slot that is returned was free, and has a known dentry. An error
and `NULL` leave every slot alone. -/
structure SlotTaken (t t' : FileTable) (opened : OpenedFile) (K : Set Nat) : Prop where
  known : Known t'.dirs K
  taken : ∀ f, opened = .file f → (t.file f).count = 0 ∧
    ∃ pos, ∃ d ∈ K, t'.file = Function.update t.file f ⟨atomicInc (t.file f).count, pos, d⟩
  other : (∀ f, opened ≠ .file f) → t'.file = t.file

section
variable {s s' : DirSys} {t t' : FileTable} {K : Set Nat} {parent i dm n : Nat}
  {buf pad filename : Bytes} {current : Tid}

/-- `dir_write` makes the new dentry known. -/
theorem Known.dirWrite (h : Known s K) (hparent : parent ∈ K) (hdm : dm ≠ 0) {buf' : Bytes}
    {new : Option Nat} (hok : dirWrite s parent i buf filename n dm current = .ok (new, buf', s')) :
    ∃ K', K ⊆ K' ∧ Known s' K' ∧ ∀ d, new = some d → d = dm ∧ d ∈ K' := by
  unfold Fs.dirWrite at hok
  dsimp only at hok
  split at hok
  next =>
    cases hok
    refine ⟨K, subset_rfl, h, fun d hd => ?_⟩
    cases hd
  next =>
    obtain ⟨place, -, hok⟩ := bind_eq_ok.mp hok
    obtain ⟨⟨c, inode⟩, -, hok⟩ := bind_eq_ok.mp hok
    obtain ⟨s₁, hpush, hok⟩ := bind_eq_ok.mp hok
    cases hok
    have hfs : ∀ fs : FileSys, Known { s with fs } K := fun fs =>
      h.congr (fun _ => rfl) (fun _ => rfl) rfl
    have h₁ : Known s₁ (insert dm K) := (hfs _).push hparent hdm rfl rfl hpush
    refine ⟨insert dm K, Set.subset_insert dm K, h₁.congr (fun _ => rfl) (fun _ => rfl) rfl, ?_⟩
    intro d hd
    exact ⟨(Option.some.inj hd).symm, .inl (Option.some.inj hd).symm⟩

/-- `file_create` with a slot, or `NULL`. -/
theorem Known.fileCreate (h : Known t.dirs K) (hparent : parent ∈ K) (hdm : dm ≠ 0)
    {f : Option Nat}
    (hok : fileCreate t filename n parent buf i dm pad current = .ok (f, t')) :
    ∃ K', K ⊆ K' ∧ SlotTaken t t' (f.elim .null .file) K' := by
  simp only [Fs.fileCreate, bind_eq_ok] at hok
  obtain ⟨fs, -, ⟨new, buf', s₂⟩, hwrite, hok⟩ := hok
  have hfs : ∀ fs : FileSys, Known { t.dirs with fs } K := fun fs =>
    h.congr (fun _ => rfl) (fun _ => rfl) rfl
  obtain ⟨K', hsub, h₂, hnew⟩ := (hfs _).dirWrite hparent hdm hwrite
  refine ⟨K', hsub, ?_⟩
  cases new with
  | none =>
      obtain ⟨fs', -, hok⟩ := bind_eq_ok.mp hok
      cases hok
      refine ⟨h₂.congr (fun _ => rfl) (fun _ => rfl) rfl, fun f hf => ?_, fun _ => rfl⟩
      cases hf
  | some d =>
      obtain ⟨rfl, hd⟩ := hnew d rfl
      -- the slot is dereferenced, so `get_free_file_of_table` has found one
      obtain ⟨slot, hslot, hok⟩ := bind_eq_ok.mp hok
      obtain ⟨⟨disk, inodeBitmap⟩, -, hok⟩ := bind_eq_ok.mp hok
      cases hok
      have hset : Known (s₂.setDentry d { s₂.dentry d with inode := i }) K' := h₂.setDentry rfl rfl
      refine ⟨hset.congr (fun _ => rfl) (fun _ => rfl) rfl, fun f hf => ?_, fun hno => ?_⟩
      · cases hf
        exact ⟨(getFreeFileOfTable_some (deref_eq_ok.mp hslot)).2, 0, d, hd, rfl⟩
      · exact absurd rfl (hno slot)

/-- `filp_openat` behind `parse_path`. -/
theorem Known.openFound (h : Known t.dirs K) {res : SearchRes} (hres : KnownRes res K) {flags : Nat}
    {m : OpenMem} (hdm : m.dentry ≠ 0) {opened : OpenedFile}
    (hok : openFound t res flags m current = .ok (opened, t')) :
    ∃ K', K ⊆ K' ∧ SlotTaken t t' opened K' := by
  rw [Fs.openFound] at hok
  split at hok
  next =>
    obtain ⟨⟨f, t₁⟩, hcreate, hok⟩ := bind_eq_ok.mp hok
    obtain ⟨K', hsub, htaken⟩ := h.fileCreate hres.parent hdm hcreate
    cases f with
    | some f =>
        cases hok
        exact ⟨K', hsub, htaken⟩
    | none =>
        cases hok
        exact ⟨K', hsub, htaken⟩
  -- Without a child there is nothing to open.
  split at hok
  next =>
    cases hok
    refine ⟨K, subset_rfl, h, fun f hf => ?_, fun _ => rfl⟩
    cases hf
  next child hchild =>
    split at hok
    next =>
      obtain ⟨slot, hslot, hok⟩ := bind_eq_ok.mp hok
      cases hok
      refine ⟨K, subset_rfl, h, fun f hf => ?_, fun hno => ?_⟩
      · cases hf
        exact ⟨(getFreeFileOfTable_some (deref_eq_ok.mp hslot)).2, 0, child,
          hres.child child hchild, rfl⟩
      · exact absurd rfl (hno slot)
    next => cases hok

/-- `filp_openat` of a path that starts at a known directory. -/
theorem Known.opened (h : Known t.dirs K) {root cwd : Nat} {dirfd : DirFd} {path : Path}
    {flags : Nat} {m : OpenMem} (hroot : root ∈ K) (hcwd : cwd ∈ K)
    (hdirfd : ∀ f, dirfd = .file f → f ∈ K)
    (hstart : pathStart t.dirs root cwd dirfd path.chars ≠ none) (hdm : m.dentry ≠ 0)
    (haddrs : ∀ n, (m.addrs n).2 ≠ 0) {opened : OpenedFile}
    (hok : filpOpenat t root cwd dirfd path flags m current = .ok (opened, t')) :
    ∃ K', K ⊆ K' ∧ SlotTaken t t' opened K' := by
  rw [filpOpenat_eq] at hok
  obtain ⟨⟨found, s⟩, hpath, hok⟩ := bind_eq_ok.mp hok
  obtain ⟨K₁, hsub₁, h₁, hfound⟩ := h.parsePath haddrs hroot hcwd hdirfd hpath
  -- `parse_path` does not return `-ENOTDIR`
  obtain ⟨res, rfl⟩ : ∃ res, found = some res := by
    obtain ⟨⟨parent, cur⟩, hsome⟩ := Option.ne_none_iff_exists'.mp hstart
    rw [Fs.parsePath, hsome] at hpath
    obtain ⟨⟨res, s₁⟩, -, hres⟩ := bind_eq_ok.mp hpath
    cases hres
    exact ⟨res, rfl⟩
  have h₁' : Known ({ t with dirs := s } : FileTable).dirs K₁ := h₁
  obtain ⟨K', hsub', htaken⟩ := h₁'.openFound (hfound res rfl) hdm hok
  exact ⟨K', hsub₁.trans hsub', htaken.known, htaken.taken, htaken.other⟩

end

end Fizzos.Proofs
