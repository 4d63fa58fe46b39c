import Fizzos.Proofs.NewEntry
import Fizzos.Proofs.Search

/-!
# `Fizzos.Proofs.ParsePath`: a path is looked up name by name

`components` has the names of a path, without the `'/'` between them. `Walks` follows some of them
with `search_dentry`. The loop of `parse_path` is such a walk with one lookup behind it
(`parseLoop_names`), and this one either fails or is the last.

`LooksUp` says that `search_dentry` answers as a function of the parent and the name does, in all
states that the calls lead to. `parsePath_resolves` is what `parse_path` returns then.
-/

set_option autoImplicit false

namespace Fizzos.Proofs

open Fizzos.Device
open Fizzos.Fs
open Fizzos.Kernel
open Fizzos.Lib
open Fizzos.LibKernel
open Fizzos.Support

/-! ### The names of a path -/

/-- The names of a path. A `'/'` at the end has no name behind it, and two in a row have an empty
name between them. -/
def components : List (BitVec 8) → List (List (BitVec 8))
  | [] => []
  | c :: cs =>
      if c = SLASH then [] :: components cs
      else
        match components cs with
        | [] => [[c]]
        | name :: rest => (c :: name) :: rest

/-- The path behind the `'/'` of the root. -/
def behindRoot (path : List (BitVec 8)) : List (BitVec 8) :=
  if path.head? = some SLASH then path.tail else path

/-- The directory where a path starts. -/
def startOf (path : List (BitVec 8)) (root cwd : Nat) : Nat :=
  if path.head? = some SLASH then root else cwd

section
variable {cur next name : List (BitVec 8)} {c : BitVec 8}

/-- The test of the loop over the characters. -/
theorem notSlash_iff : notSlash c = true ↔ c ≠ SLASH := decide_eq_true_iff

/-- A character that is no slash stays in the name. -/
theorem splitSlash_cons_ne (hc : c ≠ SLASH) (cs : List (BitVec 8)) :
    splitSlash (c :: cs) = splitSlash cs := by
  rw [splitSlash, splitSlash, List.dropWhile_cons_of_pos (notSlash_iff.mpr hc)]

/-- The first name, and the names behind it. -/
theorem components_eq (hcur : cur ≠ []) :
    components cur = cur.takeWhile notSlash :: (splitSlash cur).elim [] components := by
  induction cur with
  | nil => exact absurd rfl hcur
  | cons c cs ih =>
      by_cases hc : c = SLASH
      · subst hc
        rfl
      · rw [components, if_neg hc, splitSlash_cons_ne hc,
          List.takeWhile_cons_of_pos (notSlash_iff.mpr hc)]
        cases cs with
        | nil => rfl
        | cons c' cs' => rw [ih (List.cons_ne_nil _ _)]

/-- Only the empty string has no names. -/
theorem components_eq_nil_iff : components cur = [] ↔ cur = [] := by
  constructor
  · intro hnil
    by_contra hcur
    rw [components_eq hcur] at hnil
    exact List.cons_ne_nil _ _ hnil
  · rintro rfl
    rfl

/-- The path ends behind the first `'/'`, or where the rest of it ends. -/
theorem getLast_splitSlash (h : splitSlash cur = some next) :
    cur.getLast? = some (next.getLast?.getD SLASH) := by
  induction cur with
  | nil => cases h
  | cons c cs ih =>
      by_cases hc : c = SLASH
      · subst hc
        obtain rfl : cs = next := Option.some.inj h
        cases cs with
        | nil => rfl
        | cons c' cs' => rw [List.getLast?_cons_cons, List.getLast?_cons, Option.getD_some]
      · rw [splitSlash_cons_ne hc] at h
        have hlast := ih h
        cases cs with
        | nil => cases hlast
        | cons c' cs' => rw [List.getLast?_cons_cons, hlast]

/-- A path without a `'/'` does not end with one. -/
theorem getLast_of_splitSlash_none (h : splitSlash cur = none) : cur.getLast? ≠ some SLASH := by
  induction cur with
  | nil => exact fun hlast => absurd hlast (by simp)
  | cons c cs ih =>
      by_cases hc : c = SLASH
      · subst hc
        cases h
      · rw [splitSlash_cons_ne hc] at h
        cases cs with
        | nil => exact fun hlast => hc (Option.some.inj hlast)
        | cons c' cs' =>
            rw [List.getLast?_cons_cons]
            exact ih h

/-- The last name ends with the string, or with one slash. -/
theorem splitSlash_of_nil (h : (splitSlash cur).elim [] components = []) :
    splitSlash cur = none ∨ splitSlash cur = some [] := by
  cases hsplit : splitSlash cur with
  | none => exact .inl rfl
  | some next =>
      rw [hsplit] at h
      exact .inr (congrArg some (components_eq_nil_iff.mp h))

/-- Nothing is left of the path: no name, and no `'/'` either. -/
theorem splitSlash_eq_none_iff : splitSlash cur = none ↔
    (splitSlash cur).elim [] components = [] ∧ cur.getLast? ≠ some SLASH := by
  constructor
  · intro h
    exact ⟨by rw [h]; rfl, getLast_of_splitSlash_none h⟩
  · rintro ⟨hnil, hlast⟩
    rcases splitSlash_of_nil hnil with hnone | hnil
    · exact hnone
    · exact absurd (getLast_splitSlash hnil) hlast

/-- The characters of a name are characters of the path, and there is no `'/'` among them. -/
theorem mem_components (hname : name ∈ components cur) : (∀ c ∈ name, c ∈ cur) ∧ SLASH ∉ name := by
  induction cur generalizing name with
  | nil => cases hname
  | cons c cs ih =>
      rw [components] at hname
      split at hname
      next =>
        rcases List.mem_cons.mp hname with rfl | hrest
        · exact ⟨fun _ h => absurd h List.not_mem_nil, List.not_mem_nil⟩
        · exact ⟨fun a ha => List.mem_cons_of_mem _ ((ih hrest).1 a ha), (ih hrest).2⟩
      next hc =>
        -- the character goes to the front of the first name
        split at hname
        next =>
          obtain rfl := List.mem_singleton.mp hname
          refine ⟨fun a ha => ?_, fun ha => hc (List.mem_singleton.mp ha).symm⟩
          rw [List.mem_singleton.mp ha]
          exact List.mem_cons_self
        next first rest hcs =>
          rw [hcs] at ih
          rcases List.mem_cons.mp hname with rfl | hrest
          · obtain ⟨hmem, hslash⟩ := ih List.mem_cons_self
            refine ⟨fun a ha => ?_, fun ha => ?_⟩
            · rcases List.mem_cons.mp ha with rfl | ha
              · exact List.mem_cons_self
              · exact List.mem_cons_of_mem _ (hmem a ha)
            · rcases List.mem_cons.mp ha with heq | ha
              · exact hc heq.symm
              · exact hslash ha
          · obtain ⟨hmem, hslash⟩ := ih (List.mem_cons_of_mem _ hrest)
            exact ⟨fun a ha => List.mem_cons_of_mem _ (hmem a ha), hslash⟩

end

/-! ### The loop -/

/-- `curlen` behind a round: the length of the first name of `cur`. -/
def curLen (cur : List (BitVec 8)) : Nat :=
  (if (splitSlash cur).isSome then (cur.takeWhile notSlash).length
    else strlen (charsAt (cur.takeWhile notSlash))) % 2 ^ 16

/-- From `d` the lookups of the names lead to `d'`. -/
inductive Walks (bufs : Nat → Bytes) (addrs : Nat → Nat × Nat) :
    Nat → DirSys → Nat → List (List (BitVec 8)) → Nat → DirSys → Nat → Prop
  | nil (n : Nat) (s : DirSys) (d : Nat) : Walks bufs addrs n s d [] n s d
  | cons {n k d c d' : Nat} {s s₁ s' : DirSys} {name : List (BitVec 8)}
      {rest : List (List (BitVec 8))}
      (look : searchDentry s d (charsAt name) name.length (bufs n) (addrs n).1 (addrs n).2
        = .ok (some c, s₁))
      (walk : Walks bufs addrs n s₁ c rest k s' d') :
      Walks bufs addrs (n + 1) s d (name :: rest) k s' d'

/-- `res` is where `parse_path` stops: at `name`, with the names `after` behind it. -/
structure StopsAt (cur name : List (BitVec 8)) (after : List (List (BitVec 8))) (res : SearchRes) :
    Prop where
  last : res.child = none ∨ after = []
  curdir : res.curdir = name
  curdirLen : name.length < 100 → res.curdirLen = name.length
  short : res.curdirLen < 100 → name.length < 100
  nextdir : res.nextdir = none ↔ after = [] ∧ cur.getLast? ≠ some SLASH

section
variable {bufs : Nat → Bytes} {addrs : Nat → Nat × Nat} {n d : Nat} {s s' : DirSys}
  {cur : List (BitVec 8)}

/-- The length of a name with a slash behind it is counted on the way to the slash. -/
theorem curLen_of_some (hle : cur.length ≤ MAX_PATH_LEN) (hsplit : (splitSlash cur).isSome) :
    curLen cur = (cur.takeWhile notSlash).length := by
  have hmax : MAX_PATH_LEN = 127 := rfl
  have hshort : (cur.takeWhile notSlash).length ≤ cur.length := (List.takeWhile_prefix _).length_le
  rw [curLen, if_pos hsplit]
  exact Nat.mod_eq_of_lt (by omega)

/-- The length of the last name comes from `strlen`, which is right below 100. -/
theorem curLen_of_lt (hnul : 0 ∉ cur) (hlt : (cur.takeWhile notSlash).length < 100) :
    curLen cur = (cur.takeWhile notSlash).length := by
  have hnul' : 0 ∉ cur.takeWhile notSlash := fun h => hnul (List.takeWhile_subset _ h)
  rw [curLen, strlen_charsAt hnul', if_pos hlt, ite_self]
  exact Nat.mod_eq_of_lt (by omega)

/-- A name of 100 characters or more has no such length. -/
theorem lt_of_curLen (hnul : 0 ∉ cur) (hle : cur.length ≤ MAX_PATH_LEN) (hlt : curLen cur < 100) :
    (cur.takeWhile notSlash).length < 100 := by
  by_cases hsplit : (splitSlash cur).isSome
  · rwa [curLen_of_some hle hsplit] at hlt
  · have hnul' : 0 ∉ cur.takeWhile notSlash := fun h => hnul (List.takeWhile_subset _ h)
    rw [curLen, if_neg hsplit, strlen_charsAt hnul'] at hlt
    split at hlt
    next hshort => exact hshort
    next => exact absurd hlt (by decide)

/-- A round of the loop. -/
theorem parseLoop_round {res : SearchRes} (hcur : cur ≠ []) (hnext : res.nextdir = some cur)
    (hchild : res.child = some d) :
    parseLoop bufs addrs (n + 1) s res =
      searchDentry s d (charsAt (cur.takeWhile notSlash)) (curLen cur) (bufs n) (addrs n).1
        (addrs n).2 >>= fun r =>
      parseLoop bufs addrs n r.2 ⟨d, r.1, cur.takeWhile notSlash, curLen cur, splitSlash cur⟩ := by
  cases cur with
  | nil => exact absurd rfl hcur
  | cons c cs =>
      rw [parseLoop, hnext, hchild]
      rfl

/-- The loop ends here. -/
theorem parseLoop_stop {res : SearchRes}
    (hstop : res.child = none ∨ res.nextdir = none ∨ res.nextdir = some []) :
    parseLoop bufs addrs n s res = .ok (res, s) := by
  cases n with
  | zero => rfl
  | succ n =>
      rw [parseLoop]
      split
      next c cs parent hnext hchild =>
        rw [hnext, hchild] at hstop
        simp at hstop
      next => rfl

/-- The loop looks up one name after the other, and stops at one that is not there or behind the
last. -/
theorem parseLoop_names {res res' : SearchRes} (hcur : cur ≠ []) (hnul : 0 ∉ cur)
    (hle : cur.length ≤ MAX_PATH_LEN) (hn : cur.length ≤ n) (hnext : res.nextdir = some cur)
      (hchild : res.child = some d)
    (hok : parseLoop bufs addrs n s res = .ok (res', s')) :
    ∃ before name after k s₁, components cur = before ++ name :: after ∧
      Walks bufs addrs n s d before (k + 1) s₁ res'.parent ∧
      searchDentry s₁ res'.parent (charsAt name) res'.curdirLen (bufs k) (addrs k).1 (addrs k).2
        = .ok (res'.child, s') ∧ StopsAt cur name after res' := by
  induction n generalizing s d cur res with
  | zero => exact absurd (List.length_eq_zero_iff.mp (Nat.le_zero.mp hn)) hcur
  | succ n ih =>
      rw [parseLoop_round hcur hnext hchild] at hok
      obtain ⟨⟨child, s₁⟩, hlook, hloop⟩ := bind_eq_ok.mp hok
      -- The first name of `cur` is not there, or is the last one, or the loop goes on behind it.
      cases child with
      | none =>
          rw [parseLoop_stop (.inl rfl)] at hloop
          cases hloop
          exact ⟨[], _, _, n, s, components_eq hcur, .nil _ _ _, hlook, .inl rfl, rfl,
            curLen_of_lt hnul, lt_of_curLen hnul hle, splitSlash_eq_none_iff⟩
      | some c =>
          by_cases hafter : (splitSlash cur).elim [] components = []
          · -- there is no name behind this one
            rw [parseLoop_stop (.inr (splitSlash_of_nil hafter))] at hloop
            cases hloop
            exact ⟨[], _, _, n, s, components_eq hcur, .nil _ _ _, hlook, .inr hafter, rfl,
              curLen_of_lt hnul, lt_of_curLen hnul hle, splitSlash_eq_none_iff⟩
          · obtain ⟨next, hsplit, hne⟩ : ∃ next, splitSlash cur = some next ∧ next ≠ [] := by
              cases hsplit : splitSlash cur with
              | none => exact absurd (by rw [hsplit]; rfl) hafter
              | some next =>
                  refine ⟨next, rfl, fun hnil => hafter ?_⟩
                  rw [hsplit, hnil]
                  rfl
            obtain ⟨hmem, hlt⟩ := splitSlash_sub hsplit
            obtain ⟨before, name, after, k, s₂, hcomp, hwalk, hlast, hstop⟩ :=
              ih hne (fun h => hnul (hmem 0 h)) (by omega) (by omega) hsplit rfl hloop
            rw [curLen_of_some hle (by rw [hsplit]; rfl)] at hlook
            refine ⟨_ :: before, name, after, k, s₂, ?_, .cons hlook hwalk, hlast, hstop.last,
              hstop.curdir, hstop.curdirLen, hstop.short, ?_⟩
            · rw [components_eq hcur, hsplit, Option.elim_some, hcomp, List.cons_append]
            · rw [hstop.nextdir, getLast_splitSlash hsplit, List.getLast?_eq_some_getLast hne]
              rfl

/-- The loop comes to the name behind a walk, and stops there when it is the last name or is not
there. -/
theorem parseLoop_of_walks (res : SearchRes) {before after : List (List (BitVec 8))}
    {name : List (BitVec 8)}
    {k p : Nat} {s₁ : DirSys} {child : Option Nat} (hnul : 0 ∉ cur)
    (hle : cur.length ≤ MAX_PATH_LEN) (hcomp : components cur = before ++ name :: after)
    (hwalk : Walks bufs addrs n s d before (k + 1) s₁ p) (hshort : name.length < 100 ∨ after ≠ [])
    (hlook : searchDentry s₁ p (charsAt name) name.length (bufs k) (addrs k).1 (addrs k).2
      = .ok (child, s')) (hlast : child = none ∨ after = []) (hnext : res.nextdir = some cur)
    (hchild : res.child = some d) :
    ∃ res', parseLoop bufs addrs n s res = .ok (res', s') ∧ res'.parent = p ∧ res'.child = child ∧
      StopsAt cur name after res' := by
  induction before generalizing n s d cur res with
  | nil =>
      have hcur : cur ≠ [] := fun hnil => by
        rw [hnil] at hcomp
        cases hcomp
      rw [List.nil_append, components_eq hcur] at hcomp
      obtain ⟨rfl, rfl⟩ := List.cons.inj hcomp
      cases hwalk
      -- `strnlen` stops at 100, which only a last name can show.
      have hlen : curLen cur = (cur.takeWhile notSlash).length := by
        rcases hshort with hlt | hafter
        · exact curLen_of_lt hnul hlt
        · refine curLen_of_some hle (Option.isSome_iff_ne_none.mpr fun hsplit => hafter ?_)
          rw [hsplit]
          rfl
      rw [parseLoop_round hcur hnext hchild, hlen, hlook, ok_bind,
        parseLoop_stop (hlast.imp_right splitSlash_of_nil)]
      exact ⟨_, rfl, rfl, rfl, hlast, rfl, fun _ => rfl, id, splitSlash_eq_none_iff⟩
  | cons first before ih =>
      have hcur : cur ≠ [] := fun hnil => by
        rw [hnil] at hcomp
        cases hcomp
      rw [components_eq hcur] at hcomp
      obtain ⟨rfl, hrest⟩ := List.cons.inj hcomp
      cases hwalk with
      | cons hfirst hwalk =>
        cases hsplit : splitSlash cur with
        | none =>
            rw [hsplit] at hrest
            exact absurd hrest.symm (by simp)
        | some next =>
            obtain ⟨hmem, hlt⟩ := splitSlash_sub hsplit
            rw [hsplit, Option.elim_some] at hrest
            rw [parseLoop_round hcur hnext hchild, curLen_of_some hle (by rw [hsplit]; rfl), hfirst,
              ok_bind]
            obtain ⟨res', hok, hparent, hchild', hstop⟩ :=
              ih ⟨d, some _, _, _, some next⟩
                (fun h => hnul (hmem 0 h)) (by omega) hrest hwalk rfl rfl
            rw [hsplit]
            refine ⟨res', hok, hparent, hchild', hstop.last, hstop.curdir, hstop.curdirLen,
              hstop.short, ?_⟩
            have hne : next ≠ [] := fun hnil => by
              rw [hnil] at hrest
              exact absurd hrest.symm (by simp [components])
            rw [hstop.nextdir, getLast_splitSlash hsplit, List.getLast?_eq_some_getLast hne]
            rfl

/-- Where `parse_path` starts on a path that is not relative to an open file. -/
theorem pathStart_fdcwd (s : DirSys) (root cwd : Nat) (path : List (BitVec 8)) :
    pathStart s root cwd .fdcwd path = some (startOf path root cwd, behindRoot path) := by
  rw [pathStart, startOf, behindRoot, show (0x2f : BitVec 8) = SLASH from rfl]
  split <;> rfl

/-- What is behind the first slash is a part of the path. -/
theorem behindRoot_sub (path : Path) :
    0 ∉ behindRoot path.chars ∧ (behindRoot path.chars).length ≤ path.chars.length := by
  rw [behindRoot]
  split
  · exact ⟨fun h => path.nul (List.mem_of_mem_tail h), by simp⟩
  · exact ⟨path.nul, Nat.le_refl _⟩

end

/-! ### Lookups that are a function -/

/-- `search_dentry` answers with `lookup`, in all states of `Inv`. A state of `Inv n` is good for
`n` more lookups, and `node` are the dentries of the tree. -/
structure LooksUp (bufs : Nat → Bytes) (addrs : Nat → Nat × Nat) (Inv : Nat → DirSys → Prop)
    (node : Nat → Prop) (lookup : Nat → List (BitVec 8) → Option Nat) : Prop where
  search : ∀ n s parent name, Inv (n + 1) s → node parent → NameOk name → ∃ s',
    searchDentry s parent (charsAt name) name.length (bufs n) (addrs n).1 (addrs n).2
      = .ok (lookup parent name, s') ∧ Inv n s'
  node : ∀ parent name d, node parent → lookup parent name = some d → node d

/-- What `parse_path` returns for the path `cur` from the directory `start`. -/
structure PathResolved (lookup : Nat → List (BitVec 8) → Option Nat) (start : Nat)
    (cur : List (BitVec 8)) (res : SearchRes) : Prop where
  empty : cur = [] → res.parent = start ∧ res.child = some start
  names : cur ≠ [] → ∃ before name after, components cur = before ++ name :: after ∧
    before.foldlM lookup start = some res.parent ∧ res.child = lookup res.parent name ∧
    (res.child = none ∨ after = []) ∧ res.curdir = name ∧ res.curdirLen = name.length ∧
    (res.nextdir = none ↔ after = [] ∧ cur.getLast? ≠ some SLASH)

section
variable {bufs : Nat → Bytes} {addrs : Nat → Nat × Nat} {Inv : Nat → DirSys → Prop}
  {node : Nat → Prop} {lookup : Nat → List (BitVec 8) → Option Nat}

/-- The lookups of some names: all but the last are found, and the last one is where they end. -/
theorem LooksUp.walks (hl : LooksUp bufs addrs Inv node lookup) {names : List (List (BitVec 8))}
    (hne : names ≠ []) (hnames : ∀ name ∈ names, NameOk name) {n d : Nat} {s : DirSys}
    (hinv : Inv n s) (hd : node d) (hn : names.length ≤ n) :
    ∃ before name after k s₁ p s', names = before ++ name :: after ∧
      Walks bufs addrs n s d before (k + 1) s₁ p ∧ before.foldlM lookup d = some p ∧
      searchDentry s₁ p (charsAt name) name.length (bufs k) (addrs k).1 (addrs k).2
        = .ok (lookup p name, s') ∧ (lookup p name = none ∨ after = []) := by
  induction names generalizing n s d with
  | nil => exact absurd rfl hne
  | cons name rest ih =>
      cases n with
      | zero => exact absurd hn (Nat.not_succ_le_zero _)
      | succ n =>
          obtain ⟨s₁, hlook, hinv₁⟩ := hl.search n s d name hinv hd (hnames _ List.mem_cons_self)
          by_cases hlast : lookup d name = none ∨ rest = []
          · exact ⟨[], name, rest, n, s, d, s₁, rfl, .nil _ _ _, rfl, hlook, hlast⟩
          · obtain ⟨hfound, hrest⟩ := not_or.mp hlast
            obtain ⟨c, hc⟩ := Option.ne_none_iff_exists'.mp hfound
            rw [hc] at hlook
            obtain ⟨before, name', after, k, s₂, p, s', hsplit, hwalk, hfold, hend⟩ :=
              ih hrest (fun name' h => hnames _ (List.mem_cons_of_mem _ h)) hinv₁
                (hl.node d name c hd hc) (Nat.le_of_succ_le_succ hn)
            refine ⟨name :: before, name', after, k, s₂, p, s', ?_, .cons hlook hwalk, ?_, hend⟩
            · rw [hsplit, List.cons_append]
            · rw [List.foldlM_cons, hc]
              exact hfold

/-- There are no more names than characters. -/
theorem components_length (cur : List (BitVec 8)) : (components cur).length ≤ cur.length := by
  induction cur with
  | nil => exact Nat.le_refl _
  | cons c cs ih =>
      rw [components]
      split
      next => exact Nat.succ_le_succ ih
      next =>
        split
        next => exact Nat.succ_le_succ (Nat.zero_le _)
        next first rest hcs =>
          rw [hcs] at ih
          exact Nat.le_succ_of_le ih

/-- `parse_path` looks up one name of a path after the other, up to the last one or the first that
is not there. -/
theorem parsePath_resolves (hl : LooksUp bufs addrs Inv node lookup) {s : DirSys} {root cwd : Nat}
    {path : Path} (hinv : Inv path.chars.length s) (hroot : node root) (hcwd : node cwd)
    (hnames : ∀ name ∈ components (behindRoot path.chars),
      1 ≤ name.length ∧ name.length ≤ MAX_FILE_NAME_LEN) :
    ∃ res s', parsePath s root cwd .fdcwd path bufs addrs = .ok (some res, s') ∧
      PathResolved lookup (startOf path.chars root cwd) (behindRoot path.chars) res := by
  obtain ⟨hnul, hlen⟩ := behindRoot_sub path
  have hle := Nat.le_trans hlen path.le
  have hstart : node (startOf path.chars root cwd) := by
    rw [startOf]
    split
    · exact hroot
    · exact hcwd
  rw [parsePath, pathStart_fdcwd]
  generalize behindRoot path.chars = cur at *
  generalize startOf path.chars root cwd = start at *
  by_cases hcur : cur = []
  · subst hcur
    dsimp only
    rw [parseLoop_stop (.inr (.inr rfl))]
    exact ⟨_, s, rfl, fun _ => ⟨rfl, rfl⟩, fun hne => absurd rfl hne⟩
  · have hok : ∀ name ∈ components cur, NameOk name := by
      intro name hname
      obtain ⟨hmem, hslash⟩ := mem_components hname
      exact ⟨(hnames name hname).1, (hnames name hname).2, fun h => hnul (hmem 0 h), hslash⟩
    obtain ⟨before, name, after, k, s₁, p, s', hcomp, hwalk, hfold, hlook, hlast⟩ :=
      hl.walks (mt components_eq_nil_iff.mp hcur) hok hinv hstart
        (Nat.le_trans (components_length cur) hlen)
    -- `strnlen` counts such a name to its end.
    have hshort : name.length < 100 := by
      have hname := (hnames name (hcomp ▸ List.mem_append_right _ List.mem_cons_self)).2
      exact Nat.lt_of_le_of_lt hname (by decide)
    obtain ⟨res, hloop, rfl, hchild, hstop⟩ := parseLoop_of_walks
      ⟨start, some start, cur, 0, some cur⟩ hnul hle hcomp hwalk (.inl hshort) hlook hlast rfl rfl
    dsimp only
    rw [hloop]
    exact ⟨res, s', rfl, fun hnil => absurd hnil hcur, fun _ => ⟨before, name, after, hcomp, hfold,
      hchild, hstop.last, hstop.curdir, hstop.curdirLen hshort, hstop.nextdir⟩⟩

end

/-! ### A small tree -/

/-- The name `a`. -/
def nameA : List (BitVec 8) := [0x61]

/-- The root directory at 64 with the entry `a` at 96, of the type `iMode`. All of it is in the
cache, with `count` references to `a`. -/
def smallTree (iMode : Nat) (count : Int) : DirSys :=
  { fs :=
      { disk := fun _ _ => 0
        part := ⟨⟨2, 1, 3, 1, 4, 516⟩, ⟨0, fun _ => 0, 512, mutexLockInit⟩,
          ⟨0, fun _ => 0, 512, mutexLockInit⟩, ⟨some 48, some 16⟩⟩
        inode := fun p => ⟨0, 0, 0, 1, rwlockInit, if p = 16 then FT_DIR else iMode, fun _ => 0⟩
        inodeTag := fun p => if p = 48 then ⟨none, some 16⟩ else ⟨some 48, none⟩ }
    dentry := Function.update (fun _ => ⟨1, 16, cstring [SLASH], 1, 64, ⟨some 96, some 96⟩⟩) 96
      ⟨count, 48, cstring nameA, 1, 64, listInit⟩
    dChild := fun _ => ⟨none, none⟩ }

/-- The answers of `search_dentry` in the small tree. -/
def smallLookup (parent : Nat) (name : List (BitVec 8)) : Option Nat :=
  if name = [DOT] then some parent
  else if name = [DOT, DOT] then some 64
  else if parent = 64 ∧ name = nameA then some 96
  else none

/-- A directory without sectors has nothing to find. -/
theorem searchSectors_unused {disk : Disk} {p : Inode} {dname buf : Bytes} {len : Nat}
    (hp : ∀ idx, p.iSectors idx = 0) (idxs : List Nat) :
    searchSectors disk p dname len idxs buf = (none, buf) := by
  induction idxs with
  | nil => rfl
  | cons idx rest ih => rw [searchSectors, if_pos (hp idx), ih]

/-- A search in the small tree gives what is there. It changes one count at most. -/
theorem smallTree_search {iMode : Nat} {count : Int} {parent i d : Nat} {name : List (BitVec 8)}
    {buf : Bytes} (hparent : parent = 64 ∨ parent = 96) (hname : NameOk name) :
    ∃ count', searchDentry (smallTree iMode count) parent (charsAt name) name.length buf i d
      = .ok (smallLookup parent name, smallTree iMode count') := by
  have hs : IsString (charsAt name) name := isString_cstring name
  by_cases hdots : name = [DOT] ∨ name = [DOT, DOT]
  · rcases hdots with rfl | rfl
    · exact ⟨count, rfl⟩
    · rcases hparent with rfl | rfl
      · exact ⟨count, rfl⟩
      · exact ⟨count, rfl⟩
  · obtain ⟨hdot, hdots'⟩ := not_or.mp hdots
    -- With nothing in the cache the search goes to the disk, where the sectors are unused.
    have hnone : findCached (smallTree iMode count).dentry (smallTree iMode count).dChild
        (charsAt name) name.length LIST_WALK
        ((smallTree iMode count).dentry parent).dSubdirs.head = .ok none →
        searchDentry (smallTree iMode count) parent (charsAt name) name.length buf i d
          = .ok (none, smallTree iMode count) := fun hcache =>
      searchDentry_missing hs hdots hcache
        (congrArg Prod.fst (searchSectors_unused (fun _ => rfl) _))
    rw [smallLookup, if_neg hdot, if_neg hdots']
    rcases hparent with rfl | rfl
    · -- the root has one entry
      have hwalk : findCached (smallTree iMode count).dentry (smallTree iMode count).dChild
          (charsAt name) name.length LIST_WALK ((smallTree iMode count).dentry 64).dSubdirs.head
          = .ok ([96].find? fun d =>
              decide (strncmp ((smallTree iMode count).dentry d).fname (charsAt name)
              name.length = 0)) :=
        findCached_spec (Linked.singleton rfl) (by decide)
      have hcmp := (isString_cstring nameA).strncmp_iff hs (by decide) hname.nul
      rw [List.find?_cons] at hwalk
      by_cases heq : name = nameA
      · have hfound : strncmp ((smallTree iMode count).dentry 96).fname (charsAt name)
            name.length = 0 :=
          hcmp.mpr heq.symm
        rw [decide_eq_true hfound] at hwalk
        obtain ⟨hno1, hno2⟩ := not_dots hs hdots
        rw [if_pos ⟨rfl, heq⟩, searchDentry, if_neg hno1, if_neg hno2, hwalk, ok_bind]
        refine ⟨atomicInc count, ?_⟩
        show Except.ok (some 96, (smallTree iMode count).setDentry 96 _) = _
        rw [DirSys.setDentry]
        exact congrArg (fun dentry => Except.ok (some 96, DirSys.mk _ dentry _))
          (Function.update_idem _ _ _)
      · have hother : strncmp ((smallTree iMode count).dentry 96).fname (charsAt name)
            name.length ≠ 0 :=
          fun hzero => heq (hcmp.mp hzero).symm
        rw [decide_eq_false hother] at hwalk
        rw [if_neg fun h => heq h.2]
        exact ⟨count, hnone hwalk⟩
    · rw [if_neg fun h => absurd h.1 (by decide)]
      exact ⟨count, hnone rfl⟩

/-- So a walk in it depends on the names only. -/
theorem smallTree_looksUp (iMode : Nat) (bufs : Nat → Bytes) (addrs : Nat → Nat × Nat) :
    LooksUp bufs addrs (fun _ s => ∃ count, s = smallTree iMode count)
      (fun d => d = 64 ∨ d = 96) smallLookup where
  search := by
    rintro n s parent name ⟨count, rfl⟩ hparent hname
    obtain ⟨count', hok⟩ := smallTree_search hparent hname
    exact ⟨_, hok, count', rfl⟩
  node := by
    intro parent name d hparent hlook
    rw [smallLookup] at hlook
    split at hlook
    next =>
      cases hlook
      exact hparent
    next =>
      split at hlook
      next =>
        cases hlook
        exact .inl rfl
      next =>
        split at hlook
        next =>
          cases hlook
          exact .inr rfl
        next => cases hlook

/-- The path `/a/b/`, where there is no `b`. -/
theorem parsePath_resolves_small : ∃ res s',
    parsePath (smallTree FT_DIR 1) 64 64 .fdcwd
      ⟨[0x2f, 0x61, 0x2f, 0x62, 0x2f], by decide, by decide⟩ (fun _ _ => 0) (fun _ => (32, 128))
      = .ok (some res, s') ∧ PathResolved smallLookup 64 [0x61, 0x2f, 0x62, 0x2f] res :=
  parsePath_resolves (smallTree_looksUp FT_DIR _ _) ⟨1, rfl⟩ (.inl rfl) (.inl rfl) (by decide)

end Fizzos.Proofs
