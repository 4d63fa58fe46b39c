import Fizzos.Fs.Cwd
import Fizzos.Proofs.ParsePath

/-!
# `Fizzos.Proofs.GetPath`: the path that `get_path` builds

`Climbs dentry d names` says that `names` lead from the root to `d`. `get_path` puts `absPath names`
in front of `*buffer`, whatever room there is (`getPath_eq`).

`DentryTree` is a tree of cached dentries. A walk along the names of a dentry comes back to it, so
`parse_path` undoes `get_path` (`getPath_parsePath`).

The buffer of `sys_getcwd` has 128 bytes. Each call of `sys_mkdir` and `sys_chdir` goes down by at
most 127 characters, and nothing limits how often. `getcwd_inside_iff` says which directories have a
path that fits.
-/

set_option autoImplicit false

namespace Fizzos.Proofs

open Fizzos.Fs
open Fizzos.Kernel
open Fizzos.Lib
open Fizzos.LibKernel
open Fizzos.Support

/-! ### The string -/

/-- The characters of a dentry's name. -/
def dentryChars (x : Dentry) : List (BitVec 8) := (List.range x.fnameLen).map x.fname

/-- The names with a `'/'` in front of each. -/
def slashed (names : List (List (BitVec 8))) : List (BitVec 8) :=
  names.flatMap fun name => SLASH :: name

/-- The path from the root along `names`. -/
def absPath (names : List (List (BitVec 8))) : List (BitVec 8) :=
  if names = [] then [SLASH] else slashed names

/-- The way up from `d` ends at a dentry that is its own parent, and `names` lead from there to
`d`. -/
inductive Climbs (dentry : Nat → Dentry) : Nat → List (List (BitVec 8)) → Prop
  | root {d : Nat} (self : (dentry d).dParent = d) : Climbs dentry d []
  | up {d : Nat} {names : List (List (BitVec 8))} (other : (dentry d).dParent ≠ d)
      (climb : Climbs dentry (dentry d).dParent names) :
      Climbs dentry d (names ++ [dentryChars (dentry d)])

/-- The characters in front of `*buffer`. -/
def putChars (b : PathBuf) (chars : List (BitVec 8)) : PathBuf :=
  prepend b (charsAt chars) chars.length

section
variable {b : PathBuf} {chars front : List (BitVec 8)} {a : Int}

/-- The string lies in front of what is in the buffer. -/
theorem putChars_buffer : (putChars b chars).buffer = b.buffer - chars.length := rfl

/-- The room goes down by its length, below 0 if it has to. -/
theorem putChars_buflen : (putChars b chars).buflen = b.buflen - chars.length := rfl

/-- The memory around the characters. -/
theorem putChars_of_ne (ha : a < b.buffer - chars.length ∨ b.buffer ≤ a) :
    (putChars b chars).mem a = b.mem a := by
  rw [putChars, prepend]
  exact if_neg (by omega)

/-- A character of the string is at its place. -/
theorem putChars_at {k : Nat} (hk : k < chars.length) :
    (putChars b chars).mem (b.buffer - chars.length + k) = chars.getD k 0 := by
  rw [putChars, prepend]
  dsimp only
  rw [if_pos (by omega), charsAt,
    show (b.buffer - chars.length + k - (b.buffer - chars.length)).toNat = k by omega]

/-- `prepend` of a name puts its characters in front. -/
theorem prepend_eq (b : PathBuf) (x : Dentry) :
    prepend b x.fname x.fnameLen = putChars b (dentryChars x) := by
  have hlen : (dentryChars x).length = x.fnameLen := by rw [dentryChars, List.length_map,
      List.length_range]
  rw [putChars, prepend, prepend, hlen]
  congr 1
  funext a
  split
  next hin =>
    rw [charsAt, List.getD_eq_getElem _ _ (by omega)]
    simp only [dentryChars, List.getElem_map, List.getElem_range]
  next => rfl

/-- `prepend` of the slash puts one character in front. -/
theorem prepend_slash (b : PathBuf) : prepend b slashStr 1 = putChars b [SLASH] := by
  rw [putChars, prepend, prepend]
  congr 1
  funext a
  rw [List.length_singleton]
  split
  next hin =>
    rw [show (a - (b.buffer - (1 : Nat))).toNat = 0 by omega]
    rfl
  next => rfl

/-- Two strings, one in front of the other. -/
theorem putChars_putChars (b : PathBuf) (front chars : List (BitVec 8)) :
    putChars (putChars b chars) front = putChars b (front ++ chars) := by
  have hlen : ((front ++ chars).length : Int) = front.length + chars.length := by
    rw [List.length_append]
    exact Int.natCast_add _ _
  have hbuffer : (putChars (putChars b chars) front).buffer
      = (putChars b (front ++ chars)).buffer := by
    rw [putChars_buffer, putChars_buffer, putChars_buffer, hlen]
    omega
  have hbuflen : (putChars (putChars b chars) front).buflen
      = (putChars b (front ++ chars)).buflen := by
    rw [putChars_buflen, putChars_buflen, putChars_buflen, hlen]
    omega
  have hmem : (putChars (putChars b chars) front).mem = (putChars b (front ++ chars)).mem := by
    funext a
    by_cases hin : b.buffer - (front.length + chars.length) ≤ a ∧ a < b.buffer
    · obtain ⟨k, hk⟩ : ∃ k : Nat, a = b.buffer - (front.length + chars.length) + k :=
        ⟨(a - (b.buffer - (front.length + chars.length))).toNat, by omega⟩
      have hat : a = b.buffer - (front ++ chars).length + k := by rw [hlen]; exact hk
      rw [hat, putChars_at (by rw [List.length_append]; omega)]
      -- A place is in the first string, in the second one, or beside both.
      rcases Nat.lt_or_ge k front.length with hlt | hge
      · rw [List.getD_append _ _ _ _ hlt,
          show b.buffer - ((front ++ chars).length : Int) + k
            = (putChars b chars).buffer - front.length + k by rw [putChars_buffer, hlen]; omega,
          putChars_at hlt]
      · rw [List.getD_append_right _ _ _ _ hge,
          putChars_of_ne (by rw [putChars_buffer, hlen]; omega),
          show b.buffer - ((front ++ chars).length : Int) + k
            = b.buffer - chars.length + (k - front.length : Nat) by rw [hlen]; omega,
          putChars_at (by omega)]
    · rw [putChars_of_ne (by rw [putChars_buffer]; omega), putChars_of_ne (by omega),
        putChars_of_ne (by rw [hlen]; omega)]
  exact PathBuf.ext hmem hbuffer hbuflen

end

section
variable {dentry : Nat → Dentry} {d n : Nat} {names : List (List (BitVec 8))}

/-- The names of a path, each with a slash in front. -/
theorem slashed_append (xs ys : List (List (BitVec 8))) :
    slashed (xs ++ ys) = slashed xs ++ slashed ys := List.flatMap_append

/-- An empty string changes nothing. -/
theorem putChars_nil (b : PathBuf) : putChars b [] = b := by
  rw [putChars, prepend]
  congr 1
  · funext a
    exact if_neg (by rw [List.length_nil]; omega)
  · rw [List.length_nil]
    omega
  · rw [List.length_nil]
    omega

/-- The loop of `get_path`: the names from the last to the first. -/
theorem getPathLoop_eq (h : Climbs dentry d names) (hn : names.length ≤ n) (b : PathBuf) :
    getPathLoop dentry n d b = .ok (putChars b (slashed names)) := by
  induction h generalizing n b with
  | root hself =>
      have hnil : slashed [] = [] := rfl
      rw [hnil, putChars_nil]
      cases n with
      | zero =>
          rw [getPathLoop, if_pos hself]
          rfl
      | succ n =>
          rw [getPathLoop, if_pos hself]
          rfl
  | @up d names hother _ ih =>
      rw [List.length_append, List.length_singleton] at hn
      cases n with
      | zero => exact absurd hn (Nat.not_succ_le_zero _)
      | succ n =>
          have hlast : slashed [dentryChars (dentry d)] = [SLASH] ++ dentryChars (dentry d) := by
            rw [slashed, List.flatMap_singleton]
            rfl
          rw [getPathLoop, if_neg hother]
          dsimp only
          rw [prepend_eq, prepend_slash, putChars_putChars, ih (Nat.le_of_succ_le_succ hn),
            putChars_putChars, slashed_append, hlast]

/-- `get_path` puts the path in front of `*buffer`. -/
theorem getPath_eq (h : Climbs dentry d names) (hn : names.length ≤ n) (b : PathBuf) :
    getPath dentry n d b = .ok (putChars b (absPath names)) := by
  cases h with
  | root hself =>
      rw [getPath, if_pos hself, prepend_slash]
      rfl
  | up hother hclimb =>
      rw [getPath, if_neg hother, getPathLoop_eq (.up hother hclimb) hn, absPath, if_neg (by simp)]

end

/-! ### A tree of cached dentries -/

/-- The dentry `c` is a child of `d` with the name `nm c`. -/
structure Kid (s : DirSys) (nm : Nat → List (BitVec 8)) (d c : Nat) : Prop where
  parent : (s.dentry c).dParent = d
  ne : c ≠ d
  pointer : c < 2 ^ 32
  nul : 0 ∉ nm c
  dot : nm c ≠ [DOT]
  dots : nm c ≠ [DOT, DOT]
  fname : IsString (s.dentry c).fname (nm c)
  fnameLen : (s.dentry c).fnameLen = (nm c).length

/-- The dentries `node` are a tree: `kids` are their children, and `nm` their names. -/
structure NameTree (s : DirSys) (root : Nat) (node : Nat → Prop) (kids : Nat → List Nat)
    (nm : Nat → List (BitVec 8)) : Prop where
  top : node root
  self : (s.dentry root).dParent = root
  up : ∀ d, node d → node (s.dentry d).dParent
  children : ∀ d, node d → IsList s.dChild (s.dentry d).dSubdirs (kids d)
  kid : ∀ d, node d → ∀ c ∈ kids d, Kid s nm d c
  below : ∀ d, node d → ∀ c ∈ kids d, node c
  distinct : ∀ d, node d → ∀ c ∈ kids d, ∀ c' ∈ kids d, nm c = nm c' → c = c'

/-- A tree with names that are short enough for an entry on the disk, and not empty. -/
structure DentryTree (s : DirSys) (root : Nat) (node : Nat → Prop) (kids : Nat → List Nat)
    (nm : Nat → List (BitVec 8)) : Prop extends NameTree s root node kids nm where
  names : ∀ d, node d → ∀ c ∈ kids d, NameOk (nm c)

/-- The names `names` lead from the root to `d`. -/
inductive InTree (kids : Nat → List Nat) (nm : Nat → List (BitVec 8)) (root : Nat) :
    Nat → List (List (BitVec 8)) → Prop
  | root : InTree kids nm root root []
  | kid {d c : Nat} {names : List (List (BitVec 8))} (above : InTree kids nm root d names)
      (mem : c ∈ kids d) : InTree kids nm root c (names ++ [nm c])

/-- Two states with the same links, parents and names. -/
structure SameDentries (s s' : DirSys) : Prop where
  dChild : s'.dChild = s.dChild
  dSubdirs : ∀ d, (s'.dentry d).dSubdirs = (s.dentry d).dSubdirs
  dParent : ∀ d, (s'.dentry d).dParent = (s.dentry d).dParent
  fname : ∀ d, (s'.dentry d).fname = (s.dentry d).fname
  fnameLen : ∀ d, (s'.dentry d).fnameLen = (s.dentry d).fnameLen

/-- Only the count of a dentry changes. -/
theorem sameDentries_count (s : DirSys) (d : Nat) (count : Int) :
    SameDentries s (s.setDentry d { s.dentry d with count }) := by
  constructor
  case dChild => rfl
  all_goals
    intro d'
    rw [DirSys.setDentry]
    dsimp only
    by_cases hd : d' = d
    · rw [hd, Function.update_self]
    · rw [Function.update_of_ne hd]

namespace NameTree

variable {s s' : DirSys} {root : Nat} {node : Nat → Prop} {kids : Nat → List Nat}
  {nm : Nat → List (BitVec 8)} {d c : Nat} {names : List (List (BitVec 8))}

/-- The tree depends on the parents, the names and the children. -/
theorem congr (h : NameTree s root node kids nm) (hsame : SameDentries s s') :
    NameTree s' root node kids nm where
  top := h.top
  self := (hsame.dParent root).trans h.self
  up d hd := (hsame.dParent d).symm ▸ h.up d hd
  children d hd := by
    rw [hsame.dChild, hsame.dSubdirs]
    exact h.children d hd
  kid d hd c hc := by
    have hkid := h.kid d hd c hc
    exact ⟨(hsame.dParent c).trans hkid.parent, hkid.ne, hkid.pointer, hkid.nul,
      hkid.dot, hkid.dots,
      (hsame.fname c).symm ▸ hkid.fname, (hsame.fnameLen c).trans hkid.fnameLen⟩
  below := h.below
  distinct := h.distinct

/-- A dentry that the names lead to is in the tree. -/
theorem node_of (h : NameTree s root node kids nm) (hd : InTree kids nm root d names) : node d := by
  induction hd with
  | root => exact h.top
  | kid _ hc ih => exact h.below _ ih _ hc

/-- The cache finds the child with the name, and no other. -/
theorem findCached_kid (h : NameTree s root node kids nm) (hd : node d) (hc : c ∈ kids d) :
    findCached s.dentry s.dChild (charsAt (nm c)) (nm c).length LIST_WALK (s.dentry d).dSubdirs.head
      = .ok (some c) := by
  have hkids := h.children d hd
  have hpointer : ∀ c' ∈ kids d, c' < 2 ^ 32 := fun c' hc' => (h.kid d hd c' hc').pointer
  rw [hkids.head, findCached_spec hkids.linked (length_le_listWalk hkids.linked hpointer)]
  have hnul := (h.kid d hd c hc).nul
  -- the characters and the `'\0'` behind them are compared, so a prefix of the name does not match
  have hcmp : ∀ c' ∈ kids d, strncmp (s.dentry c').fname (charsAt (nm c)) (nm c).length = 0 →
      c' = c := by
    intro c' hc' hzero
    have hkid := h.kid d hd c' hc'
    exact h.distinct d hd c' hc' c hc
      ((hkid.fname.strncmp_iff (isString_cstring _) hkid.nul hnul).mp hzero)
  have hself : strncmp (s.dentry c).fname (charsAt (nm c)) (nm c).length = 0 :=
    ((h.kid d hd c hc).fname.strncmp_iff (isString_cstring _) hnul hnul).mpr rfl
  cases hfind : (kids d).find? fun c' =>
      decide (strncmp (s.dentry c').fname (charsAt (nm c)) (nm c).length = 0) with
  | none => exact absurd (decide_eq_true hself) (List.find?_eq_none.mp hfind c hc)
  | some c' =>
      have hzero := of_decide_eq_true (List.find?_some
        (p := fun c' => decide
          (strncmp (s.dentry c').fname (charsAt (nm c)) (nm c).length = 0)) hfind)
      rw [hcmp c' (List.mem_of_find?_eq_some hfind) hzero]

/-- `search_dentry` finds a child by its name. -/
theorem search_kid (h : NameTree s root node kids nm) (hd : node d) (hc : c ∈ kids d) (buf : Bytes)
    (i x : Nat) : ∃ s', searchDentry s d (charsAt (nm c)) (nm c).length buf i x = .ok (some c, s') ∧
      SameDentries s s' := by
  have hkid := h.kid d hd c hc
  have hs : IsString (charsAt (nm c)) (nm c) := isString_cstring (nm c)
  obtain ⟨hno1, hno2⟩ := not_dots hs fun hdots => hdots.elim hkid.dot hkid.dots
  rw [searchDentry, if_neg hno1, if_neg hno2, h.findCached_kid hd hc, ok_bind]
  exact ⟨_, rfl, sameDentries_count s c _⟩

end NameTree

/-- A walk with one more name at its end. -/
theorem Walks.snoc {bufs : Nat → Bytes} {addrs : Nat → Nat × Nat} {n k d p c : Nat}
    {s s₁ s₂ : DirSys} {before : List (List (BitVec 8))} {name : List (BitVec 8)}
    (hwalk : Walks bufs addrs n s d before (k + 1) s₁ p)
    (hlook : searchDentry s₁ p (charsAt name) name.length (bufs k) (addrs k).1 (addrs k).2
      = .ok (some c, s₂)) : Walks bufs addrs n s d (before ++ [name]) k s₂ c := by
  generalize hm : k + 1 = m at hwalk
  induction hwalk with
  | nil n s d =>
      subst hm
      exact .cons hlook (.nil _ _ _)
  | cons hfirst _ ih => exact .cons hfirst (ih hlook hm)

namespace NameTree

variable {s : DirSys} {root : Nat} {node : Nat → Prop} {kids : Nat → List Nat}
  {nm : Nat → List (BitVec 8)} {d c : Nat} {names : List (List (BitVec 8))}

/-- The lookups of the names of a dentry come to it. -/
theorem walks (h : NameTree s root node kids nm) (hd : InTree kids nm root d names)
    (bufs : Nat → Bytes) (addrs : Nat → Nat × Nat) (k : Nat) :
    ∃ s', Walks bufs addrs (k + names.length) s root names k s' d ∧ SameDentries s s' := by
  induction hd generalizing k with
  | root => exact ⟨s, .nil _ _ _, ⟨rfl, fun _ => rfl, fun _ => rfl, fun _ => rfl, fun _ => rfl⟩⟩
  | kid hd hc ih =>
      obtain ⟨s₁, hwalk, hsame⟩ := ih (k + 1)
      obtain ⟨s₂, hlook, hsame'⟩ :=
        (h.congr hsame).search_kid (h.node_of hd) hc (bufs k) (addrs k).1 (addrs k).2
      refine ⟨s₂, ?_, ?_⟩
      · rw [List.length_append, List.length_singleton, Nat.add_left_comm, ← Nat.add_assoc,
          Nat.add_comm _ k, Nat.add_right_comm]
        exact hwalk.snoc hlook
      · exact ⟨hsame'.dChild.trans hsame.dChild,
          fun d => (hsame'.dSubdirs d).trans (hsame.dSubdirs d),
          fun d => (hsame'.dParent d).trans (hsame.dParent d),
          fun d => (hsame'.fname d).trans (hsame.fname d),
          fun d => (hsame'.fnameLen d).trans (hsame.fnameLen d)⟩

/-- The way up from a dentry. -/
theorem climbs (h : NameTree s root node kids nm) (hd : InTree kids nm root d names) :
    Climbs s.dentry d names := by
  induction hd with
  | root => exact .root h.self
  | @kid d c names hd hc ih =>
      have hkid := h.kid _ (h.node_of hd) _ hc
      have hname : dentryChars (s.dentry c) = nm c := by
        rw [dentryChars, hkid.fnameLen]
        exact map_range_chars fun k hk => hkid.fname k (Nat.le_of_lt hk)
      rw [← hname]
      refine .up (fun hself => hkid.ne (hself.symm.trans hkid.parent)) ?_
      rw [hkid.parent]
      exact ih

end NameTree

/-- All names of a path are names of dentries. -/
theorem DentryTree.names_ok {s : DirSys} {root d : Nat} {node : Nat → Prop} {kids : Nat → List Nat}
    {nm : Nat → List (BitVec 8)} {names : List (List (BitVec 8))}
    (h : DentryTree s root node kids nm) (hd : InTree kids nm root d names) :
    ∀ name ∈ names, NameOk name := by
  induction hd with
  | root => exact fun _ hname => absurd hname List.not_mem_nil
  | kid hd hc ih =>
      intro name hname
      rcases List.mem_append.mp hname with hname | hname
      · exact ih name hname
      · rw [List.mem_singleton.mp hname]
        exact h.names _ (h.node_of hd) _ hc

/-! ### The names of an absolute path -/

section
variable {name : List (BitVec 8)} {names : List (List (BitVec 8))}

/-- A name has no slash in it. -/
theorem notSlash_of_not_mem {c : BitVec 8} (hslash : SLASH ∉ name) (hc : c ∈ name) :
    notSlash c = true := notSlash_iff.mpr fun heq => hslash (heq ▸ hc)

/-- A name, and what is behind it. -/
theorem splitSlash_slashed (hslash : SLASH ∉ name) :
    splitSlash (name ++ slashed names) = if names
      = [] then none else some (slashed names).tail := by
  have hall : ∀ c ∈ name, notSlash c = true := fun c hc => notSlash_of_not_mem hslash hc
  rw [splitSlash, List.dropWhile_append_of_pos hall]
  cases names with
  | nil => rfl
  | cons next rest => rfl

/-- So the part in front of the first slash is the whole name. -/
theorem takeWhile_slashed (hslash : SLASH ∉ name) :
    (name ++ slashed names).takeWhile notSlash = name := by
  have hall : ∀ c ∈ name, notSlash c = true := fun c hc => notSlash_of_not_mem hslash hc
  rw [List.takeWhile_append_of_pos hall]
  cases names with
  | nil => exact List.append_nil _
  | cons next rest => exact List.append_nil _

/-- Without its first slash, the path starts with its first name. -/
theorem slashed_cons_tail (name : List (BitVec 8)) (names : List (List (BitVec 8))) :
    (slashed (name :: names)).tail = name ++ slashed names := rfl

/-- The names of a path are the names that it was made of. -/
theorem components_slashed (hok : ∀ name ∈ names, NameOk name) (hne : names ≠ []) :
    components (slashed names).tail = names ∧ (slashed names).tail.getLast? ≠ some SLASH := by
  induction names with
  | nil => exact absurd rfl hne
  | cons name rest ih =>
      have hname := hok name List.mem_cons_self
      have hcur : name ++ slashed rest ≠ [] := by
        intro hnil
        have hzero := List.length_eq_zero_iff.mpr (List.append_eq_nil_iff.mp hnil).1
        exact absurd hname.pos (by omega)
      rw [slashed_cons_tail, components_eq hcur, takeWhile_slashed hname.slash]
      have hsplit : splitSlash (name ++ slashed rest)
          = if rest = [] then none else some (slashed rest).tail := splitSlash_slashed hname.slash
      by_cases hrest : rest = []
      · rw [if_pos hrest] at hsplit
        rw [hsplit, hrest]
        exact ⟨rfl, hrest ▸ getLast_of_splitSlash_none hsplit⟩
      · rw [if_neg hrest] at hsplit
        obtain ⟨hcomp, hlast⟩ := ih (fun name' h => hok name' (List.mem_cons_of_mem _ h)) hrest
        rw [hsplit, Option.elim_some, hcomp]
        refine ⟨rfl, ?_⟩
        rw [getLast_splitSlash hsplit]
        -- the rest of the path is not empty, so its last character is the last one
        cases hget : (slashed rest).tail.getLast? with
        | none =>
            rw [List.getLast?_eq_none_iff.mp hget] at hcomp
            exact absurd hcomp.symm hrest
        | some c =>
            rw [hget] at hlast
            exact hlast

end

/-- `parse_path` finds a dentry by the path that `get_path` builds for it, from every current
directory. The path is absolute, and the walk goes down the same names that the other went up. -/
theorem getPath_parsePath {s : DirSys} {root : Nat} {node : Nat → Prop} {kids : Nat → List Nat}
    {nm : Nat → List (BitVec 8)} (h : DentryTree s root node kids nm) {d : Nat}
    {names : List (List (BitVec 8))} (hd : InTree kids nm root d names)
    (hlen : (absPath names).length ≤ MAX_PATH_LEN) {n : Nat} (hn : names.length ≤ n) {b : PathBuf}
    (hb : b.mem b.buffer = 0) :
    ∃ b' path, getPath s.dentry n d b = .ok b' ∧
      IsString (fun k => b'.mem (b'.buffer + k)) path.chars ∧ path.chars.head? = some SLASH ∧
      ∀ cwd bufs addrs, ∃ res s', parsePath s root cwd .fdcwd path bufs addrs = .ok (some res, s') ∧
        res.child = some d ∧ (res.nextdir = none ∨ d = root ∧ res.nextdir = some []) := by
  have hok := h.names_ok hd
  have hhead : (absPath names).head? = some SLASH := by
    cases names with
    | nil => rfl
    | cons name rest => rfl
  have hnul : 0 ∉ absPath names := by
    rw [absPath]
    split
    · decide
    · intro hmem
      obtain ⟨name, hname, hmem⟩ := List.mem_flatMap.mp hmem
      rcases List.mem_cons.mp hmem with hzero | hmem
      · exact absurd hzero (by decide)
      · exact (hok name hname).nul hmem
  refine ⟨_, ⟨absPath names, hnul, hlen⟩, getPath_eq (h.climbs hd) hn b, ?_, hhead, ?_⟩
  · intro k hk
    dsimp only at hk ⊢
    rw [putChars_buffer]
    rcases Nat.lt_or_ge k (absPath names).length with hlt | hge
    · exact putChars_at hlt
    · rw [putChars_of_ne (by omega), List.getD_eq_default _ _ hge,
        show b.buffer - ((absPath names).length : Int) + k = b.buffer by omega]
      exact hb
  · intro cwd bufs addrs
    rw [parsePath, pathStart_fdcwd, startOf, behindRoot, if_pos hhead, if_pos hhead]
    cases hd with
    | root =>
        -- the path `/` has no name, and the loop does not start
        dsimp only
        rw [parseLoop_stop (.inr (.inr rfl))]
        exact ⟨_, s, rfl, rfl, .inr ⟨rfl, rfl⟩⟩
    | @kid p _ before hp hc =>
        have hne : before ++ [nm d] ≠ [] := by simp
        have habs : absPath (before ++ [nm d]) = slashed (before ++ [nm d]) := if_neg hne
        obtain ⟨hcomp, hlast⟩ := components_slashed hok hne
        have hcur : (slashed (before ++ [nm d])).tail.length
            ≤ (slashed (before ++ [nm d])).length := by
          rw [List.length_tail]
          omega
        have hroom := components_length (slashed (before ++ [nm d])).tail
        rw [hcomp, List.length_append, List.length_singleton] at hroom
        obtain ⟨k, hk⟩ : ∃ k, (slashed (before ++ [nm d])).length = k + 1 + before.length :=
          ⟨(slashed (before ++ [nm d])).length - 1 - before.length, by omega⟩
        obtain ⟨s₁, hwalk, hsame⟩ := h.walks hp bufs addrs (k + 1)
        obtain ⟨s₂, hlook, -⟩ := (h.congr hsame).search_kid (h.node_of hp) hc (bufs k) (addrs k).1
          (addrs k).2
        have hshort : (nm d).length < 100 :=
          Nat.lt_of_le_of_lt (h.names p (h.node_of hp) d hc).le (by decide)
        rw [← hk] at hwalk
        dsimp only
        rw [habs] at hnul hlen ⊢
        obtain ⟨res, hloop, -, hchild, hstop⟩ := parseLoop_of_walks
          ⟨root, some root, (slashed (before ++ [nm d])).tail, 0,
          some (slashed (before ++ [nm d])).tail⟩
          (fun hmem => hnul (List.mem_of_mem_tail hmem)) (Nat.le_trans hcur hlen) hcomp hwalk
          (.inl hshort)
          hlook (.inr rfl) rfl rfl
        rw [hloop]
        exact ⟨res, s₂, rfl, hchild, .inl (hstop.nextdir.mpr ⟨rfl, hlast⟩)⟩

/-- The root with one child is a tree. -/
theorem smallTree_dentryTree (iMode : Nat) : DentryTree (smallTree iMode 1) 64
    (fun d => d = 64 ∨ d = 96) (fun d => if d = 64 then [96] else []) (fun _ => nameA) where
  top := .inl rfl
  self := rfl
  up := by
    rintro d (rfl | rfl)
    · exact .inl rfl
    · exact .inl rfl
  children := by
    rintro d (rfl | rfl)
    · exact ⟨rfl, rfl, Linked.singleton rfl⟩
    · exact IsList.init _
  kid := by
    rintro d (rfl | rfl) c hc
    · obtain rfl := List.mem_singleton.mp hc
      exact ⟨rfl, by decide, by decide, by decide, by decide, by decide,
        isString_cstring nameA, rfl⟩
    · exact absurd hc List.not_mem_nil
  below := by
    rintro d (rfl | rfl) c hc
    · exact .inr (List.mem_singleton.mp hc)
    · exact absurd hc List.not_mem_nil
  distinct := by
    rintro d (rfl | rfl) c hc c' hc' -
    · exact (List.mem_singleton.mp hc).trans (List.mem_singleton.mp hc').symm
    · exact absurd hc List.not_mem_nil
  names := fun _ _ _ _ => ⟨by decide, by decide, by decide, by decide⟩

/-- The directories `a` at 96 and `ab` at 160 in the root directory, and `b` at 224 in `ab`. -/
def siblingTree : DirSys :=
  { smallTree FT_DIR 1 with
    dentry := fun d =>
      if d = 64 then ⟨1, 16, cstring [SLASH], 1, 64, ⟨some 96, some 160⟩⟩
      else if d = 96 then ⟨1, 48, cstring nameA, 1, 64, listInit⟩
      else if d = 160 then ⟨1, 80, cstring [0x61, 0x62], 2, 64, ⟨some 224, some 224⟩⟩
      else ⟨1, 112, cstring [0x62], 1, 160, listInit⟩
    dChild := fun d =>
      if d = 96 then ⟨none, some 160⟩ else if d = 160 then ⟨some 96, none⟩ else ⟨none, none⟩ }

/-- The root has two children, and the second one has one. -/
def siblings (d : Nat) : List Nat := if d = 64 then [96, 160] else if d = 160 then [224] else []

/-- The name of one child is the start of the name of the other. -/
def siblingName (d : Nat) : List (BitVec 8) :=
  if d = 96 then nameA else if d = 160 then [0x61, 0x62] else [0x62]

/-- This is a tree: two siblings with names that start alike, and a child below. -/
theorem siblingTree_dentryTree :
    DentryTree siblingTree 64 (· ∈ [64, 96, 160, 224]) siblings siblingName where
  top := by decide
  self := rfl
  up := by decide
  children := by
    have hpair : Linked siblingTree.dChild [96, 160] :=
      (Linked.singleton rfl).cons (by decide) rfl fun y hy => by cases hy; rfl
    simp only [List.forall_mem_cons]
    exact ⟨⟨rfl, rfl, hpair⟩, IsList.init _, ⟨rfl, rfl, Linked.singleton rfl⟩, IsList.init _,
      fun _ h => absurd h List.not_mem_nil⟩
  kid := by
    have hkid : ∀ c, c ∈ [96, 160, 224] →
        Kid siblingTree siblingName (siblingTree.dentry c).dParent c := by
      intro c hc
      have hplace : c ≠ (siblingTree.dentry c).dParent ∧ c < 2 ^ 32 ∧ 0 ∉ siblingName c ∧
          siblingName c ≠ [DOT] ∧ siblingName c ≠ [DOT, DOT] ∧
          (siblingTree.dentry c).fnameLen = (siblingName c).length := by
        revert c
        decide
      obtain ⟨hne, hlt, hnul, hdot, hdots, hlen⟩ := hplace
      refine ⟨rfl, hne, hlt, hnul, hdot, hdots, ?_, hlen⟩
      simp only [List.mem_cons, List.not_mem_nil, or_false] at hc
      obtain rfl | rfl | rfl := hc
      · exact isString_cstring _
      · exact isString_cstring _
      · exact isString_cstring _
    have hkids : ∀ d ∈ [64, 96, 160, 224], ∀ c ∈ siblings d, c ∈ [96, 160, 224] ∧
        (siblingTree.dentry c).dParent = d := by decide
    intro d hd c hc
    obtain ⟨hmem, hparent⟩ := hkids d hd c hc
    exact hparent ▸ hkid c hmem
  below := by decide
  distinct := by decide
  names := by
    have hnames : ∀ d ∈ [64, 96, 160, 224], ∀ c ∈ siblings d, 1 ≤ (siblingName c).length ∧
        (siblingName c).length ≤ MAX_FILE_NAME_LEN ∧ 0 ∉ siblingName c ∧ SLASH ∉ siblingName c := by
      decide
    intro d hd c hc
    obtain ⟨hpos, hle, hnul, hslash⟩ := hnames d hd c hc
    exact ⟨hpos, hle, hnul, hslash⟩

/-- The path of `b` is `/ab/b`: the walk passes `a`, whose name is the front of `ab`. -/
theorem getPath_parsePath_siblings : ∃ b' path,
    getPath siblingTree.dentry 2 224 ⟨fun _ => 0, 127, 127⟩ = .ok b' ∧
      IsString (fun k => b'.mem (b'.buffer + k)) path.chars ∧ path.chars.head? = some SLASH ∧
      ∀ cwd bufs addrs, ∃ res s',
        parsePath siblingTree 64 cwd .fdcwd path bufs addrs = .ok (some res, s') ∧
        res.child = some 224 ∧ (res.nextdir = none ∨ 224 = 64 ∧ res.nextdir = some []) :=
  getPath_parsePath siblingTree_dentryTree
    (.kid (.kid (c := 160) .root (by decide)) (by decide)) (by decide) (by decide) rfl

/-! ### `sys_getcwd` -/

/-- What `sys_getcwd` owes to the memory around its two buffers, and to the program. -/
structure CwdInside (mem mem' : Int → BitVec 8) (user user' : Bytes) (size ret : Nat) : Prop where
  block : ∀ a : Int, a < 0 ∨ MAX_PATH_LEN + 1 ≤ a → mem' a = mem a
  fits : ret ≤ size
  user : ∀ k, ret ≤ k → user' k = user k
  stored : ∃ pbuf : Int, ∀ k < ret, user' k = mem' (pbuf + k)
  nul : 0 < size → 0 < ret ∧ user' (ret - 1) = 0

section
variable {dentry : Nat → Dentry} {n cwd : Nat} {names : List (List (BitVec 8))}

/-- The memory behind the call of `get_path`: the path and the `'\0'` at the end of the buffer. -/
def cwdBuf (mem : Int → BitVec 8) (names : List (List (BitVec 8))) : PathBuf :=
  putChars ⟨mem, MAX_PATH_LEN + 1, MAX_PATH_LEN + 1⟩ (absPath names ++ [0])

/-- The path ends at the end of the buffer, so it starts at its length in front of it. -/
theorem cwdBuf_buffer (mem : Int → BitVec 8) :
    (cwdBuf mem names).buffer = 127 - (absPath names).length := by
  rw [cwdBuf, putChars_buffer, List.length_append, List.length_singleton]
  show (127 : Int) + 1 - ((absPath names).length + 1 : Nat) = _
  omega

/-- What is in front of the path and behind the buffer is not written. -/
theorem cwdBuf_of_ne (mem : Int → BitVec 8) {a : Int}
    (ha : a < 127 - (absPath names).length ∨ 128 ≤ a) : (cwdBuf mem names).mem a = mem a := by
  refine putChars_of_ne ?_
  rw [List.length_append, List.length_singleton]
  show a < (127 : Int) + 1 - ((absPath names).length + 1 : Nat) ∨ (127 : Int) + 1 ≤ a
  omega

/-- The characters of the path, and the `'\0'` behind them. -/
theorem cwdBuf_at (mem : Int → BitVec 8) {k : Nat} (hk : k ≤ (absPath names).length) :
    (cwdBuf mem names).mem (127 - (absPath names).length + k) =
    (absPath names ++ [0]).getD k 0 := by
  have hat : (cwdBuf mem names).mem ((MAX_PATH_LEN : Int) + 1 - (absPath names ++ [0]).length + k)
      = (absPath names ++ [0]).getD k 0 :=
    putChars_at (by rw [List.length_append, List.length_singleton]; omega)
  rw [List.length_append, List.length_singleton, show (MAX_PATH_LEN : Int) = 127 from rfl,
    show (127 : Int) + 1 - ((absPath names).length + 1 : Nat) + k
      = 127 - (absPath names).length + k by omega] at hat
  exact hat

/-- The results of `sys_getcwd`. -/
theorem sysGetcwd_eq (h : Climbs dentry cwd names) (hn : names.length ≤ n) (mem : Int → BitVec 8)
    (user : Bytes) (size : Nat) :
    sysGetcwd dentry n cwd mem user size = .ok
      (if size ≤ (absPath names).length then
        (size,
          Function.update (cwdBuf mem names).mem (126 - (absPath names).length + size) 0,
          fun k => if k < size then
            Function.update (cwdBuf mem names).mem (126 - (absPath names).length + size) 0
              (127 - (absPath names).length + k)
            else user k)
      else
        ((absPath names).length + 1, (cwdBuf mem names).mem,
          fun k => if k < (absPath names).length + 1 then
            (cwdBuf mem names).mem (127 - (absPath names).length + k) else user k)) := by
  -- The 0 at the end is put in first, so the path is one more call of the same kind.
  have hzero : prepend ⟨mem, MAX_PATH_LEN + 1, MAX_PATH_LEN + 1⟩ (fun _ => 0) 1
      = putChars ⟨mem, MAX_PATH_LEN + 1, MAX_PATH_LEN + 1⟩ [0] := by
    rw [putChars]
    congr 1
    funext k
    cases k with
    | zero => rfl
    | succ k => rfl
  have hlen : ((MAX_PATH_LEN : Int) + 1 - (cwdBuf mem names).buflen).toNat
      = (absPath names).length + 1 := by
    rw [cwdBuf, putChars_buflen, List.length_append, List.length_singleton]
    show ((127 : Int) + 1 - (127 + 1 - ((absPath names).length + 1 : Nat))).toNat = _
    omega
  rw [sysGetcwd, hzero, getPath_eq h hn, putChars_putChars, ← cwdBuf, ok_bind]
  dsimp only
  rw [hlen, cwdBuf_buffer]
  -- A buffer that is too small gets the front of the path, with a 0 that cuts it.
  by_cases hsize : size ≤ (absPath names).length
  · rw [if_pos (Nat.lt_succ_of_le hsize), if_pos hsize,
      show (127 : Int) - (absPath names).length + size - 1
        = 126 - (absPath names).length + size by omega]
    rfl
  · rw [if_neg (by omega), if_neg hsize]
    rfl

/-- A path that fits stays in the buffer. -/
theorem cwdInside_of_fits (h : Climbs dentry cwd names) (hn : names.length ≤ n) {size : Nat}
    (hlen : (absPath names).length ≤ MAX_PATH_LEN)
    (hsize : size = 0 → (absPath names).length < MAX_PATH_LEN) (mem : Int → BitVec 8)
    (user : Bytes) :
    ∃ ret mem' user', sysGetcwd dentry n cwd mem user size = .ok (ret, mem', user') ∧
      CwdInside mem mem' user user' size ret := by
  have hlen' : (absPath names).length ≤ 127 := hlen
  have hsize' : size = 0 → (absPath names).length < 127 := hsize
  have hmax : MAX_PATH_LEN = 127 := rfl
  rw [sysGetcwd_eq h hn]
  by_cases hshort : size ≤ (absPath names).length
  · rw [if_pos hshort]
    refine ⟨_, _, _, rfl, ?_⟩
    refine
      { block := fun a ha => ?_
        fits := Nat.le_refl _
        user := fun k hk => if_neg (Nat.not_lt.mpr hk)
        stored := ⟨127 - (absPath names).length, fun k hk => if_pos hk⟩
        nul := fun hpos => ⟨hpos, ?_⟩ }
    · rw [Function.update_of_ne (by omega)]
      exact cwdBuf_of_ne mem (by omega)
    · -- the `'\0'` is the last byte that goes to the program
      rw [if_pos (by omega), show (127 : Int) - (absPath names).length + (size - 1 : Nat)
        = 126 - (absPath names).length + size by omega, Function.update_self]
  · rw [if_neg hshort]
    refine ⟨_, _, _, rfl, ?_⟩
    refine
      { block := fun a ha => cwdBuf_of_ne mem (by omega)
        fits := by omega
        user := fun k hk => if_neg (Nat.not_lt.mpr hk)
        stored := ⟨127 - (absPath names).length, fun k hk => if_pos hk⟩
        nul := fun _ => ⟨Nat.succ_pos _, ?_⟩ }
    rw [Nat.add_sub_cancel, if_pos (Nat.lt_succ_self _), cwdBuf_at mem (Nat.le_refl _),
      List.getD_append_right _ _ _ _ (Nat.le_refl _), Nat.sub_self]
    rfl

/-- A call that stays inside its buffers has a path that fits. -/
theorem fits_of_cwdInside (h : Climbs dentry cwd names) (hn : names.length ≤ n) {size : Nat}
    (hall : ∀ mem user, ∃ ret mem' user',
      sysGetcwd dentry n cwd mem user size = .ok (ret, mem', user') ∧
        CwdInside mem mem' user user' size ret) :
    (absPath names).length ≤ MAX_PATH_LEN ∧
      (size = 0 → (absPath names).length < MAX_PATH_LEN) := by
  have hmax : MAX_PATH_LEN = 127 := rfl
  -- memory that is neither `'/'` nor `'\0'` shows what is written
  obtain ⟨ret, mem', user', hret, hinside⟩ := hall (fun _ => 1) fun _ => 1
  have hslash : (cwdBuf (fun _ => 1) names).mem (127 - (absPath names).length) = SLASH := by
    have hat := @cwdBuf_at names (fun _ => 1) 0 (Nat.zero_le _)
    rw [Nat.cast_zero, Int.add_zero] at hat
    rw [hat, absPath]
    cases names with
    | nil => rfl
    | cons name rest => rfl
  rw [sysGetcwd_eq h hn] at hret
  constructor
  · by_contra hlong
    have hsame := hinside.block (127 - (absPath names).length) (.inl (by omega))
    split at hret
    next hshort =>
      cases hret
      by_cases hone : size = 1
      · rw [hone, show (126 : Int) - (absPath names).length + (1 : Nat)
          = 127 - (absPath names).length by omega, Function.update_self] at hsame
        exact absurd hsame (by decide)
      · rw [Function.update_of_ne (by omega), hslash] at hsame
        exact absurd hsame (by decide)
    next =>
      cases hret
      rw [hslash] at hsame
      exact absurd hsame (by decide)
  · rintro rfl
    by_contra hfull
    have hsame := hinside.block (126 - (absPath names).length + (0 : Nat)) (.inl (by omega))
    rw [if_pos (Nat.zero_le _)] at hret
    cases hret
    rw [Function.update_self] at hsame
    exact absurd hsame (by decide)

end

/-- `sys_getcwd` stays inside its buffers if and only if the path of the directory fits in 127
characters. For `size == 0` there has to be one more byte in front of it. -/
theorem getcwd_inside_iff {dentry : Nat → Dentry} {n cwd : Nat} {names : List (List (BitVec 8))}
    (h : Climbs dentry cwd names) (hn : names.length ≤ n) (size : Nat) :
    (∀ mem user, ∃ ret mem' user', sysGetcwd dentry n cwd mem user size = .ok (ret, mem', user') ∧
      CwdInside mem mem' user user' size ret) ↔
    (absPath names).length ≤ MAX_PATH_LEN ∧
      (size = 0 → (absPath names).length < MAX_PATH_LEN) := by
  constructor
  · exact fits_of_cwdInside h hn
  · rintro ⟨hlen, hsize⟩ mem user
    exact cwdInside_of_fits h hn hlen hsize mem user

/-- The directory `/a` and a buffer of 2 bytes. -/
theorem getcwd_inside_iff_small : ∃ ret mem' user',
    sysGetcwd (smallTree FT_DIR 1).dentry 1 96 (fun _ => 0) (fun _ => 0) 2
      = .ok (ret, mem', user') ∧ CwdInside (fun _ => 0) mem' (fun _ => 0) user' 2 ret := by
  have hclimb := (smallTree_dentryTree FT_DIR).climbs (.kid .root (List.mem_singleton.mpr rfl))
  exact (getcwd_inside_iff hclimb (by decide) 2).mpr ⟨by decide, by decide⟩ _ _

/-- Directories with names of 24 characters, each in the one before. -/
def deepDentry (d : Nat) : Dentry :=
  ⟨1, 16, cstring longName, 24, d - 1, ⟨some (d + 1), some (d + 1)⟩⟩

/-- The path of a directory at depth `d` has `d` names of 24 characters. -/
theorem climbs_deep (d : Nat) : Climbs deepDentry d (List.replicate d longName) := by
  induction d with
  | zero => exact .root rfl
  | succ d ih =>
      have hname : dentryChars (deepDentry (d + 1)) = longName := rfl
      rw [List.replicate_succ', ← hname]
      exact .up (Nat.ne_of_lt (Nat.lt_succ_self d)) ih

/-- The path of the sixth directory has 150 characters, and the buffer has 128 bytes. `prepend`
counts `buflen` down below 0, and nothing looks at it. -/
theorem getcwd_overruns_buffer :
    ¬∀ dentry n cwd names, Climbs dentry cwd names → (∀ name ∈ names, NameOk name) →
      names.length ≤ n → ∀ size mem user, ∃ ret mem' user',
        sysGetcwd dentry n cwd mem user size = .ok (ret, mem', user') ∧
        CwdInside mem mem' user user' size ret := by
  intro hall
  have hok : ∀ name ∈ List.replicate 6 longName, NameOk name := by
    intro name hname
    rw [(List.mem_replicate.mp hname).2]
    exact nameOk_longName
  have hlong : (absPath (List.replicate 6 longName)).length = 150 := by
    simp [absPath, slashed, longName]
  obtain ⟨hfits, -⟩ := fits_of_cwdInside (climbs_deep 6) (by decide)
    (hall deepDentry 6 6 _ (climbs_deep 6) hok (by decide) 128)
  rw [hlong] at hfits
  exact absurd hfits (by decide)

end Fizzos.Proofs
