import Fizzos.Proofs.GetPath

/-!
# `Fizzos.Proofs.OnlyDirs`: what `parse_path` searches

`search_dentry` reads the sectors of its parent as entries of a directory. The loop of `parse_path`
passes it whatever the lookup before has found. Only the dentry of an open file, where a path may
start, is tested for `FT_DIR`.

`parseCalls` are the calls of the loop, each with the state that it finds. `mem_parseCalls` says
that these are the lookups behind the walks along the first names of the path.
-/

set_option autoImplicit false

namespace Fizzos.Proofs

open Fizzos.Fs
open Fizzos.Kernel
open Fizzos.Lib
open Fizzos.Support

/-- The calls of `search_dentry` in the loop of `parse_path`: the state and the parent. -/
def parseCalls (bufs : Nat → Bytes) (addrs : Nat → Nat × Nat) :
    Nat → DirSys → Nat → List (BitVec 8) → List (DirSys × Nat)
  | 0, _, _, _ => []
  | n + 1, s, parent, cur =>
      if cur = [] then []
      else
        (s, parent) ::
          match searchDentry s parent (charsAt (cur.takeWhile notSlash)) (curLen cur) (bufs n)
            (addrs n).1 (addrs n).2 with
          | .ok (some child, s) =>
              match splitSlash cur with
              | some next => parseCalls bufs addrs n s child next
              | none => []
          | _ => []

/-- The calls of `search_dentry` in `parse_path`. -/
def parsePathCalls (s : DirSys) (root cwd : Nat) (dirfd : DirFd) (path : Path) (bufs : Nat → Bytes)
    (addrs : Nat → Nat × Nat) : List (DirSys × Nat) :=
  match pathStart s root cwd dirfd path.chars with
  | none => []
  | some (parent, cur) => parseCalls bufs addrs path.chars.length s parent cur

/-- The inode of the dentry is a directory. -/
def IsDir (s : DirSys) (d : Nat) : Prop := (inodeOf s d).iMode &&& 0xf000 = FT_DIR

instance (s : DirSys) (d : Nat) : Decidable (IsDir s d) :=
  inferInstanceAs (Decidable ((inodeOf s d).iMode &&& 0xf000 = FT_DIR))

/-- Some names of the path lead from `start` to `p`, and there is a name behind them. -/
def LeadsTo (s : DirSys) (start : Nat) (cur : List (BitVec 8)) (n : Nat) (bufs : Nat → Bytes)
    (addrs : Nat → Nat × Nat) (s₁ : DirSys) (p : Nat) : Prop :=
  ∃ before name after k, components cur = before ++ name :: after ∧
    Walks bufs addrs n s start before (k + 1) s₁ p

section
variable {bufs : Nat → Bytes} {addrs : Nat → Nat × Nat} {n d p : Nat} {s s₁ : DirSys}
  {cur : List (BitVec 8)}

/-- The calls of the loop are where the first names of the path lead to. -/
theorem mem_parseCalls (hle : cur.length ≤ MAX_PATH_LEN) (hn : cur.length ≤ n) :
    (s₁, p) ∈ parseCalls bufs addrs n s d cur ↔ LeadsTo s d cur n bufs addrs s₁ p := by
  induction n generalizing s d cur with
  | zero =>
      obtain rfl : cur = [] := List.length_eq_zero_iff.mp (Nat.le_zero.mp hn)
      constructor
      · intro hcall
        cases hcall
      · rintro ⟨before, name, after, k, hcomp, -⟩
        exact absurd hcomp.symm (by simp [components])
  | succ n ih =>
      rw [parseCalls]
      by_cases hcur : cur = []
      · rw [if_pos hcur]
        constructor
        · intro hcall
          cases hcall
        · rintro ⟨before, name, after, k, hcomp, -⟩
          rw [hcur] at hcomp
          exact absurd hcomp.symm (by simp [components])
      · rw [if_neg hcur, List.mem_cons]
        constructor
        · rintro (hhere | hlater)
          · -- the first call
            obtain ⟨rfl, rfl⟩ := Prod.mk.inj hhere
            exact ⟨[], _, _, n, components_eq hcur, .nil _ _ _⟩
          · -- A later call is a call of the loop over the rest of the path.
            split at hlater
            next child s₂ hlook =>
              split at hlater
              next next hsplit =>
                have hlt := (splitSlash_sub hsplit).2
                obtain ⟨before, name, after, k, hcomp, hwalk⟩ :=
                  (ih (by omega) (by omega)).mp hlater
                rw [curLen_of_some hle (by rw [hsplit]; rfl)] at hlook
                refine ⟨_ :: before, name, after, k, ?_, .cons hlook hwalk⟩
                rw [components_eq hcur, hsplit, Option.elim_some, hcomp, List.cons_append]
              next => cases hlater
            next => cases hlater
        · rintro ⟨before, name, after, k, hcomp, hwalk⟩
          -- With no name before it the call is the first one.
          cases hwalk with
          | nil => exact .inl rfl
          | cons hlook hwalk =>
              right
              rw [components_eq hcur] at hcomp
              obtain ⟨rfl, hrest⟩ := List.cons.inj hcomp
              cases hsplit : splitSlash cur with
              | none =>
                  rw [hsplit] at hrest
                  exact absurd hrest.symm (by simp)
              | some next =>
                  have hlt := (splitSlash_sub hsplit).2
                  rw [hsplit, Option.elim_some] at hrest
                  rw [curLen_of_some hle (by rw [hsplit]; rfl), hlook]
                  exact (ih (by omega) (by omega)).mpr ⟨_, _, _, k, hrest, hwalk⟩

end

/-- `parse_path` searches directories only, and a path that goes through something else is not
found. -/
structure OnlyDirs (s : DirSys) (root cwd : Nat) (dirfd : DirFd) (path : Path) (bufs : Nat → Bytes)
    (addrs : Nat → Nat × Nat) : Prop where
  parents : ∀ call ∈ parsePathCalls s root cwd dirfd path bufs addrs, IsDir call.1 call.2
  reported : ∀ start cur s₁ p, pathStart s root cwd dirfd path.chars = some (start, cur) →
    LeadsTo s start cur path.chars.length bufs addrs s₁ p → ¬IsDir s₁ p →
    ∀ res s', parsePath s root cwd dirfd path bufs addrs = .ok (some res, s') → res.child = none

theorem parsePathCalls_eq {s : DirSys} {root cwd : Nat} {dirfd : DirFd} {path : Path}
    {bufs : Nat → Bytes} {addrs : Nat → Nat × Nat} {start : Nat} {cur : List (BitVec 8)}
    (hstart : pathStart s root cwd dirfd path.chars = some (start, cur)) {s₁ : DirSys} {p : Nat} :
    (s₁, p) ∈ parsePathCalls s root cwd dirfd path bufs addrs ↔
      LeadsTo s start cur path.chars.length bufs addrs s₁ p := by
  have hlen := (pathStart_sub hstart).2
  rw [parsePathCalls, hstart]
  exact mem_parseCalls (Nat.le_trans hlen path.le) hlen

/-- `parse_path` searches directories only if and only if no name of the path but the last one leads
to something else, and the path starts at a directory. -/
theorem onlyDirs_iff (s : DirSys) (root cwd : Nat) (dirfd : DirFd) (path : Path)
    (bufs : Nat → Bytes) (addrs : Nat → Nat × Nat) :
    OnlyDirs s root cwd dirfd path bufs addrs ↔
      ∀ start cur s₁ p, pathStart s root cwd dirfd path.chars = some (start, cur) →
        LeadsTo s start cur path.chars.length bufs addrs s₁ p → IsDir s₁ p := by
  constructor
  · intro honly start cur s₁ p hstart hleads
    exact honly.parents (s₁, p) ((parsePathCalls_eq hstart).mpr hleads)
  · intro hdirs
    refine ⟨?_, fun start cur s₁ p hstart hleads hfile => ?_⟩
    · rintro ⟨s₁, p⟩ hcall
      cases hstart : pathStart s root cwd dirfd path.chars with
      | none =>
          -- the path starts at a file, and nothing is searched
          rw [parsePathCalls, hstart] at hcall
          cases hcall
      | some place =>
          obtain ⟨start, cur⟩ := place
          exact hdirs start cur s₁ p hstart ((parsePathCalls_eq hstart).mp hcall)
    · exact absurd (hdirs start cur s₁ p hstart hleads) hfile

/-- The file `a` of the root directory is searched for the entry `b`: the loop passes each dentry
that it has found to `search_dentry`, and looks at no `i_mode`. -/
theorem parsePath_searches_file :
    ¬∀ s root cwd dirfd path bufs addrs, IsDir s root → IsDir s cwd →
      OnlyDirs s root cwd dirfd path bufs addrs := by
  intro hall
  have honly := hall (smallTree FT_NORMAL 1) 64 64 .fdcwd
    ⟨[0x2f, 0x61, 0x2f, 0x62], by decide, by decide⟩ (fun _ _ => 0) (fun _ => (32, 128))
    (by decide) (by decide)
  obtain ⟨count, hlook⟩ := @smallTree_search FT_NORMAL 1 64 32 128 nameA (fun _ => 0) (.inl rfl)
    ⟨by decide, by decide, by decide, by decide⟩
  have hwalk : Walks (fun _ _ => 0) (fun _ => (32, 128)) 4 (smallTree FT_NORMAL 1) 64 [nameA] 3
      (smallTree FT_NORMAL count) 96 := .cons hlook (.nil _ _ _)
  have hdir := honly.parents _ ((parsePathCalls_eq rfl).mpr ⟨_, [0x62], [], 2, rfl, hwalk⟩)
  have hmode : FT_NORMAL &&& 0xf000 = FT_DIR := hdir
  exact absurd hmode (by decide)

end Fizzos.Proofs
