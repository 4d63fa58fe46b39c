import Fizzos.Fs.UserPath
import Fizzos.Proofs.ParsePath

/-!
# `Fizzos.Proofs.UserPath`: who overwrites a path

`parseLoopIn` goes along a string in memory as `parseLoop` does along its characters, and cuts the
string at each `'/'` that it comes to (`parseLoopIn_follows`). Nothing else changes in memory.

The copy of a path is in the memory of the kernel, so the cuts do not reach the program. They do
when `parse_path` gets the pointer of the program (`caller_path_kept_iff`).
-/

set_option autoImplicit false

namespace Fizzos.Proofs

open Fizzos.Fs
open Fizzos.Kernel
open Fizzos.Lib
open Fizzos.Support

/-! ### Strings in memory -/

/-- The string `chars` is at the address `p`. -/
structure StringAt (mem : Bytes) (p : Nat) (chars : List (BitVec 8)) : Prop where
  bytes : IsString (fun k => mem (p + k)) chars
  nul : 0 ∉ chars
  lt : chars.length < 2 ^ 32

section
variable {mem mem' : Bytes} {p : Nat} {c : BitVec 8} {chars cs next : List (BitVec 8)}

/-- The string in memory is read up to its end. -/
theorem stringFrom_eq (hs : IsString (fun k => mem (p + k)) chars) (hnul : 0 ∉ chars) {n : Nat}
    (hn : chars.length < n) : stringFrom mem n p = chars := by
  induction chars generalizing p n with
  | nil =>
      cases n with
      | zero => exact absurd hn (Nat.not_lt_zero _)
      | succ n =>
          have hzero : mem p = 0 := hs 0 (Nat.le_refl _)
          rw [stringFrom, if_pos hzero]
  | cons c cs ih =>
      cases n with
      | zero => exact absurd hn (Nat.not_lt_zero _)
      | succ n =>
          have hc : mem p = c := hs 0 (Nat.zero_le _)
          have hne : mem p ≠ 0 := fun hzero => hnul (hzero ▸ hc ▸ List.mem_cons_self)
          have hrest : IsString (fun k => mem (p + 1 + k)) cs := by
            intro i hi
            have hi' := hs (i + 1) (Nat.succ_le_succ hi)
            rw [List.getD_cons_succ] at hi'
            rw [← hi']
            show mem (p + 1 + i) = mem (p + (i + 1))
            rw [Nat.add_right_comm, Nat.add_assoc]
          rw [stringFrom, if_neg hne, hc,
            ih hrest (fun h => hnul (List.mem_cons_of_mem _ h)) (Nat.lt_of_succ_lt_succ hn)]

namespace StringAt

/-- The string at an address is the one that is there. -/
theorem eq (h : StringAt mem p chars) : stringAt mem p = chars := stringFrom_eq h.bytes h.nul h.lt

/-- Its characters are in memory. -/
theorem at_lt (h : StringAt mem p chars) {k : Nat} (hk : k ≤ chars.length) :
    mem (p + k) = chars.getD k 0 := h.bytes k hk

/-- It is empty when it starts with its end. -/
theorem eq_nil_iff (h : StringAt mem p chars) : mem p = 0 ↔ chars = [] := by
  have hp : mem p = chars.getD 0 0 := h.at_lt (Nat.zero_le _)
  cases chars with
  | nil => exact ⟨fun _ => rfl, fun _ => hp⟩
  | cons c cs =>
      refine ⟨fun hzero => absurd (hzero ▸ hp) ?_, fun hnil => absurd hnil (List.cons_ne_nil _ _)⟩
      exact fun hc => h.nul (hc ▸ List.mem_cons_self)

/-- The bytes of the string settle it. -/
theorem congr (h : StringAt mem p chars)
    (hmem : ∀ a, p ≤ a → a ≤ p + chars.length → mem' a = mem a) : StringAt mem' p chars := by
  refine ⟨fun k hk => ?_, h.nul, h.lt⟩
  show mem' (p + k) = _
  rw [hmem (p + k) (Nat.le_add_right _ _) (by omega)]
  exact h.at_lt hk

/-- Behind its first character is the rest. -/
theorem tail (h : StringAt mem p (c :: cs)) : StringAt mem (p + 1) cs := by
  refine ⟨fun k hk => ?_, fun hmem => h.nul (List.mem_cons_of_mem _ hmem),
    Nat.lt_of_succ_lt h.lt⟩
  have hk' := h.at_lt (k := k + 1) (Nat.succ_le_succ hk)
  rw [List.getD_cons_succ, Nat.add_comm k, ← Nat.add_assoc] at hk'
  exact hk'

end StringAt

/-- The first `'/'` and what is around it. -/
theorem splitSlash_some (h : splitSlash chars = some next) :
    chars = chars.takeWhile notSlash ++ SLASH :: next := by
  induction chars with
  | nil => cases h
  | cons c cs ih =>
      by_cases hc : c = SLASH
      · subst hc
        obtain rfl : cs = next := Option.some.inj h
        rfl
      · rw [splitSlash_cons_ne hc] at h
        rw [List.takeWhile_cons_of_pos (notSlash_iff.mpr hc), List.cons_append, ← ih h]

/-- There is no `'/'`. -/
theorem splitSlash_none (h : splitSlash chars = none) :
    chars.takeWhile notSlash = chars ∧ SLASH ∉ chars := by
  induction chars with
  | nil => exact ⟨rfl, List.not_mem_nil⟩
  | cons c cs ih =>
      by_cases hc : c = SLASH
      · subst hc
        cases h
      · rw [splitSlash_cons_ne hc] at h
        obtain ⟨htake, hmem⟩ := ih h
        rw [List.takeWhile_cons_of_pos (notSlash_iff.mpr hc), htake]
        exact ⟨rfl, fun hslash => (List.mem_cons.mp hslash).elim (fun heq => hc heq.symm) hmem⟩

/-- A path with a `'/'` has something behind it. -/
theorem exists_splitSlash (hmem : SLASH ∈ chars) : ∃ next, splitSlash chars = some next := by
  cases hsplit : splitSlash chars with
  | none => exact absurd hmem (splitSlash_none hsplit).2
  | some next => exact ⟨next, rfl⟩

/-- The first slash is behind the characters in front of it. -/
theorem findIdx_slash (chars : List (BitVec 8)) :
    (chars.findIdx? fun a => decide (a = SLASH))
      = (splitSlash chars).map fun _ => (chars.takeWhile notSlash).length := by
  induction chars with
  | nil => rfl
  | cons c cs ih =>
      by_cases hc : c = SLASH
      · subst hc
        rfl
      · rw [List.findIdx?_cons, if_neg (by simpa using hc), ih, splitSlash_cons_ne hc,
          List.takeWhile_cons_of_pos (notSlash_iff.mpr hc), Option.map_map]
        rfl

namespace StringAt

/-- `strchr` of the `'/'`. -/
theorem strchr_slash (h : StringAt mem p chars) :
    strchr mem p 0x2f = (splitSlash chars).map fun _ => p + (chars.takeWhile notSlash).length := by
  have hidx := findIdx_slash chars
  rw [strchr, h.eq]
  show Option.map _ (chars.findIdx? fun a => decide (a = SLASH)) = _
  rw [hidx, Option.map_map]
  rfl

/-- The string is cut at the first `'/'`: the name in front of it, and the rest behind it. -/
theorem cut (h : StringAt mem p chars) (hsplit : splitSlash chars = some next) :
    StringAt (Function.update mem (p + (chars.takeWhile notSlash).length) 0) p
        (chars.takeWhile notSlash) ∧
      StringAt (Function.update mem (p + (chars.takeWhile notSlash).length) 0)
        (p + (chars.takeWhile notSlash).length + 1) next ∧
      mem (p + (chars.takeWhile notSlash).length) = SLASH ∧
      (chars.takeWhile notSlash).length < chars.length := by
  have hchars := splitSlash_some hsplit
  -- `name` is the part in front of the first slash, and only the byte at the slash changes.
  generalize chars.takeWhile notSlash = name at hchars ⊢
  subst hchars
  have hlen : (name ++ SLASH :: next).length = name.length + 1 + next.length := by
    rw [List.length_append, List.length_cons]
    omega
  have hlt := h.lt
  rw [hlen] at hlt
  have hname : ∀ k < name.length, mem (p + k) = name.getD k 0 := fun k hk => by
    rw [h.at_lt (by omega), List.getD_append _ _ _ _ hk]
  have hnext : ∀ k ≤ next.length, mem (p + name.length + 1 + k) = next.getD k 0 := fun k hk => by
    have hk' := h.at_lt (k := name.length + (k + 1)) (by omega)
    rw [List.getD_append_right _ _ _ _ (by omega), Nat.add_sub_cancel_left,
      List.getD_cons_succ] at hk'
    rw [← hk', show p + name.length + 1 + k = p + (name.length + (k + 1)) by omega]
  have hslash : mem (p + name.length) = SLASH := by
    rw [h.at_lt (by omega), List.getD_append_right _ _ _ _ (Nat.le_refl _), Nat.sub_self]
    rfl
  refine ⟨⟨fun k hk => ?_, fun hmem => h.nul (List.mem_append_left _ hmem), by omega⟩,
    ⟨fun k hk => ?_, fun hmem => h.nul (List.mem_append_right _ (List.mem_cons_of_mem _ hmem)),
      by omega⟩, hslash, by omega⟩
  · show Function.update mem (p + name.length) 0 (p + k) = _
    rcases Nat.lt_or_ge k name.length with hlt' | hge
    · rw [Function.update_of_ne (by omega)]
      exact hname k hlt'
    · rw [show k = name.length by omega, Function.update_self,
        List.getD_eq_default _ _ (Nat.le_refl _)]
  · show Function.update mem (p + name.length) 0 (p + name.length + 1 + k) = _
    rw [Function.update_of_ne (by omega)]
    exact hnext k hk

end StringAt

end

/-! ### The loop -/

/-- The memory behind a round of the loop on the string `cur` at `p`. -/
def cutAt (mem : Bytes) (p : Nat) (cur : List (BitVec 8)) : Bytes :=
  if (splitSlash cur).isSome then Function.update mem
    (p + (cur.takeWhile notSlash).length) 0 else mem

/-- The variables behind a round. -/
def cutCursor (parent : Nat) (child : Option Nat) (p : Nat) (cur : List (BitVec 8)) :
    PathCursor where
  parent := parent
  child := child
  cur := p
  curlen :=
    if (splitSlash cur).isSome then (cur.takeWhile notSlash).length
    else strlen (charsAt (cur.takeWhile notSlash))
  next := (splitSlash cur).map fun _ => p + (cur.takeWhile notSlash).length + 1

/-- The variables of `parse_path` have the addresses of the strings of `res`. -/
structure CursorOf (mem : Bytes) (c : PathCursor) (res : SearchRes) : Prop where
  parent : c.parent = res.parent
  child : c.child = res.child
  curlen : c.curlen % 2 ^ 16 = res.curdirLen
  cur : StringAt mem c.cur res.curdir
  next : c.next = none ∧ res.nextdir = none ∨
    ∃ p next, c.next = some p ∧ res.nextdir = some next ∧ StringAt mem p next

section
variable {mem mem' : Bytes} {p : Nat} {cur : List (BitVec 8)} {bufs : Nat → Bytes}
  {addrs : Nat → Nat × Nat} {n d : Nat} {s s' : DirSys} {c : PathCursor} {res : SearchRes}

/-- A round of the loop. -/
theorem parseLoopIn_round (hcur : StringAt mem p cur) (hne : cur ≠ []) (hnext : c.next = some p)
    (hchild : c.child = some d) :
    parseLoopIn bufs addrs (n + 1) s mem c =
      searchDentry s d (charsAt (cur.takeWhile notSlash)) (curLen cur) (bufs n) (addrs n).1
        (addrs n).2 >>= fun r =>
      parseLoopIn bufs addrs n r.2 (cutAt mem p cur) (cutCursor d r.1 p cur) := by
  have hmem : ¬mem p = 0 := fun hzero => hne (hcur.eq_nil_iff.mp hzero)
  rw [parseLoopIn, hnext, hchild]
  dsimp only
  rw [if_neg hmem, hcur.strchr_slash]
  simp only [cutAt, cutCursor, curLen]
  cases hsplit : splitSlash cur with
  | none =>
      rw [(splitSlash_none hsplit).1]
      dsimp only [Option.map_none, Option.isSome_none]
      rw [hcur.eq]
      rfl
  | some next =>
      obtain ⟨hname, -, -, -⟩ := hcur.cut hsplit
      dsimp only [Option.map_some, Option.isSome_some]
      rw [if_pos rfl, if_pos rfl, hname.eq, Nat.add_sub_cancel_left]

/-- A round cuts the string at a `'/'`, if anywhere. -/
theorem cutAt_only (hcur : StringAt mem p cur) {a : Nat} (ha : cutAt mem p cur a ≠ mem a) :
    p ≤ a ∧ a < p + cur.length ∧ mem a = SLASH := by
  rw [cutAt] at ha
  cases hsplit : splitSlash cur with
  | none =>
      rw [hsplit] at ha
      exact absurd rfl ha
  | some next =>
      obtain ⟨-, -, hslash, hlt⟩ := hcur.cut hsplit
      rw [hsplit] at ha
      obtain rfl : a = p + (cur.takeWhile notSlash).length := by
        by_contra hne
        exact ha (Function.update_of_ne hne _ _)
      exact ⟨by omega, by omega, hslash⟩

/-- When the string is cut, the cursors agree: the name, and the part behind the slash. -/
theorem cursorOf_cut (hcur : StringAt mem p cur) (d : Nat) (child : Option Nat) :
    CursorOf (cutAt mem p cur) (cutCursor d child p cur)
      ⟨d, child, cur.takeWhile notSlash, curLen cur, splitSlash cur⟩ := by
  refine ⟨rfl, rfl, rfl, ?_, ?_⟩
  · show StringAt (cutAt mem p cur) p (cur.takeWhile notSlash)
    cases hsplit : splitSlash cur with
    | none =>
        rw [cutAt, hsplit, (splitSlash_none hsplit).1]
        exact hcur
    | some next =>
        rw [cutAt, hsplit]
        exact (hcur.cut hsplit).1
  · show (splitSlash cur).map _ = none ∧ splitSlash cur = none ∨
      ∃ p' next, (splitSlash cur).map _ = some p' ∧ splitSlash cur = some next ∧
        StringAt (cutAt mem p cur) p' next
    cases hsplit : splitSlash cur with
    | none => exact .inl ⟨rfl, rfl⟩
    | some next =>
        refine .inr ⟨_, next, rfl, rfl, ?_⟩
        rw [cutAt, hsplit]
        exact (hcur.cut hsplit).2.1

/-- Only characters `'/'` of the string at `next` are different in `mem'`. -/
def CutsOnly (mem mem' : Bytes) (next : Option Nat) (str : Option (List (BitVec 8))) : Prop :=
  ∀ a, mem' a ≠ mem a → ∃ p cur, next = some p ∧ str = some cur ∧ p ≤ a ∧ a < p + cur.length ∧
    mem a = SLASH

/-- The walk `r'` through memory goes with the walk `r` along the characters. -/
structure Follows (mem : Bytes) (c : PathCursor) (res : SearchRes)
    (r : Except Halt (SearchRes × DirSys)) (r' : Except Halt (PathCursor × Bytes × DirSys))
      : Prop where
  error : ∀ e, r = .error e → r' = .error e
  ok : ∀ res' s', r = .ok (res', s') → ∃ c' mem', r' = .ok (c', mem', s') ∧
    CursorOf mem' c' res' ∧ CutsOnly mem mem' c.next res.nextdir

/-- The cursor in memory points at the rest that the other one has. -/
theorem CursorOf.next_iff (h : CursorOf mem c res) (hnext : c.next = some p) :
    ∃ next, res.nextdir = some next ∧ StringAt mem p next := by
  rcases h.next with ⟨hnone, -⟩ | ⟨p', next, hp', hres, hstr⟩
  · rw [hnone] at hnext
    cases hnext
  · obtain rfl : p' = p := Option.some.inj (hp'.symm.trans hnext)
    exact ⟨next, hres, hstr⟩

/-- Both stop with the same result. -/
theorem follows_stop (h : CursorOf mem c res) : Follows mem c res (.ok (res, s))
    (.ok (c, mem, s)) := by
  constructor
  · intro e he
    cases he
  · intro res' s' hok
    cases hok
    exact ⟨c, mem, rfl, h, fun a ha => absurd rfl ha⟩

/-- The loop ends here. -/
theorem parseLoopIn_stop
    (hstop : c.child = none ∨ c.next = none ∨ ∃ p, c.next = some p ∧ mem p = 0) :
    parseLoopIn bufs addrs n s mem c = .ok (c, mem, s) := by
  cases n with
  | zero => rfl
  | succ n =>
      rw [parseLoopIn]
      split
      next p parent hnext hchild =>
        rcases hstop with hnone | hnone | ⟨p', hp', hzero⟩
        · rw [hnone] at hchild
          cases hchild
        · rw [hnone] at hnext
          cases hnext
        · obtain rfl : p' = p := Option.some.inj (hp'.symm.trans hnext)
          rw [if_pos hzero]
          rfl
      next => rfl

/-- The loop of `parse_path` in memory. -/
theorem parseLoopIn_follows (bufs : Nat → Bytes) (addrs : Nat → Nat × Nat) (s : DirSys) (n : Nat)
    (h : CursorOf mem c res) :
    Follows mem c res (parseLoop bufs addrs n s res) (parseLoopIn bufs addrs n s mem c) := by
  induction n generalizing s mem c res with
  | zero => exact follows_stop h
  | succ n ih =>
      cases hchild : c.child with
      | none =>
          rw [parseLoop_stop (.inl (h.child ▸ hchild)), parseLoopIn_stop (.inl hchild)]
          exact follows_stop h
      | some d =>
        cases hnext : c.next with
        | none =>
            have hres : res.nextdir = none := by
              rcases h.next with ⟨-, hres⟩ | ⟨p, next, hp, -⟩
              · exact hres
              · rw [hnext] at hp
                cases hp
            rw [parseLoop_stop (.inr (.inl hres)), parseLoopIn_stop (.inr (.inl hnext))]
            exact follows_stop h
        | some p =>
            obtain ⟨cur, hres, hcur⟩ := h.next_iff hnext
            by_cases hne : cur = []
            · rw [parseLoop_stop (.inr (.inr (hne ▸ hres))),
                parseLoopIn_stop (.inr (.inr ⟨p, hnext, hcur.eq_nil_iff.mpr hne⟩))]
              exact follows_stop h
            · rw [parseLoop_round hne hres (h.child ▸ hchild),
                parseLoopIn_round hcur hne hnext hchild]
              cases searchDentry s d (charsAt (cur.takeWhile notSlash)) (curLen cur) (bufs n)
                  (addrs n).1 (addrs n).2 with
              | error e =>
                  refine ⟨fun e' he => ?_, fun res' s' hok => ?_⟩
                  · cases he
                    rfl
                  · cases hok
              | ok found =>
                  obtain ⟨child, s₁⟩ := found
                  rw [ok_bind, ok_bind]
                  dsimp only
                  obtain ⟨herror, hok⟩ := ih (s := s₁) (cursorOf_cut hcur d child)
                  refine ⟨herror, fun res' s' hrun => ?_⟩
                  obtain ⟨c', mem', hrun', hcursor, honly⟩ := hok res' s' hrun
                  refine ⟨c', mem', hrun', hcursor, fun a ha => ?_⟩
                  rw [hnext, hres]
                  refine ⟨p, cur, rfl, rfl, ?_⟩
                  -- the byte is cut in this round, or in a later one
                  by_cases hhere : cutAt mem p cur a = mem a
                  · rw [← hhere] at ha
                    obtain ⟨p', next, hp', hsplit, hlo, hhi, hslash⟩ := honly a ha
                    replace hsplit : splitSlash cur = some next := hsplit
                    have hchars := congrArg List.length (splitSlash_some hsplit)
                    rw [List.length_append, List.length_cons] at hchars
                    dsimp only [cutCursor] at hp'
                    rw [hsplit] at hp'
                    have hp : p + (cur.takeWhile notSlash).length + 1 = p' := Option.some.inj hp'
                    exact ⟨by omega, by omega, hhere ▸ hslash⟩
                  · exact cutAt_only hcur hhere

/-- What the loop changes in memory. -/
theorem parseLoopIn_only {c' : PathCursor} (h : CursorOf mem c res)
    (hok : parseLoopIn bufs addrs n s mem c = .ok (c', mem', s')) :
    CutsOnly mem mem' c.next res.nextdir := by
  obtain ⟨herror, hfollow⟩ := parseLoopIn_follows bufs addrs s n h
  cases hlist : parseLoop bufs addrs n s res with
  | error e =>
      rw [herror e hlist] at hok
      cases hok
  | ok found =>
      obtain ⟨c'', mem'', hrun, -, honly⟩ := hfollow _ _ hlist
      rw [hrun] at hok
      cases hok
      exact honly

end

/-! ### The path of a call -/

section
variable {mem mem' : Bytes} {path root cwd start p n : Nat} {chars cur : List (BitVec 8)}
  {bufs : Nat → Bytes} {addrs : Nat → Nat × Nat} {s s' : DirSys} {dirfd : DirFd} {c : PathCursor}
  {found : Option PathCursor}

/-- Where the walk starts, in memory and in the characters. -/
theorem pathStartIn_eq (s : DirSys) (root cwd : Nat) (dirfd : DirFd) (h : StringAt mem path chars) :
    (pathStartIn s mem root cwd dirfd path = none ∧ pathStart s root cwd dirfd chars = none) ∨
    ∃ start p cur, pathStartIn s mem root cwd dirfd path = some (start, p) ∧
      pathStart s root cwd dirfd chars = some (start, cur) ∧ StringAt mem p cur ∧
      path ≤ p ∧ p + cur.length = path + chars.length ∧ (SLASH ∈ cur ↔ SLASH ∈ chars.tail) := by
  have hhead : mem path = 0x2f ↔ chars.head? = some 0x2f := by
    have hpath : mem path = chars.getD 0 0 := h.at_lt (Nat.zero_le _)
    rw [hpath]
    cases chars with
    | nil => decide
    | cons c cs => exact ⟨fun hc => congrArg some hc, fun hc => Option.some.inj hc⟩
  unfold pathStartIn pathStart
  by_cases hroot : chars.head? = some 0x2f
  · rw [if_pos hroot, if_pos (hhead.mpr hroot)]
    cases chars with
    | nil => cases hroot
    | cons c cs =>
        refine .inr ⟨root, path + 1, cs, rfl, rfl, h.tail, Nat.le_succ _, ?_, Iff.rfl⟩
        rw [List.length_cons]
        omega
  · rw [if_neg hroot, if_neg fun hc => hroot (hhead.mp hc)]
    -- The first character is no slash here, so the tail has all of them.
    have hslash : SLASH ∈ chars ↔ SLASH ∈ chars.tail := by
      cases chars with
      | nil => exact Iff.rfl
      | cons c cs =>
          refine ⟨fun hmem => ?_, fun hmem => List.mem_cons_of_mem _ hmem⟩
          exact (List.mem_cons.mp hmem).resolve_left fun heq => hroot (congrArg some heq.symm)
    cases dirfd with
    | fdcwd => exact .inr ⟨cwd, path, chars, rfl, rfl, h, Nat.le_refl _, rfl, hslash⟩
    | file d =>
        dsimp only
        split
        · exact .inl ⟨rfl, rfl⟩
        · exact .inr ⟨d, path, chars, rfl, rfl, h, Nat.le_refl _, rfl, hslash⟩

/-- They agree at the start. -/
theorem cursorOf_start (h : StringAt mem p cur) (start : Nat) :
    CursorOf mem ⟨start, some start, p, 0, some p⟩ ⟨start, some start, cur, 0, some cur⟩ :=
  ⟨rfl, rfl, rfl, h, .inr ⟨p, cur, rfl, rfl, h⟩⟩

/-- Cursors that agree give the same result. -/
theorem CursorOf.result_eq {res : SearchRes} (h : CursorOf mem c res) : c.result mem = res := by
  have hnext : c.next.map (stringAt mem) = res.nextdir := by
    rcases h.next with ⟨hnone, hres⟩ | ⟨p, next, hp, hres, hstr⟩
    · rw [hnone, hres]
      rfl
    · rw [hp, hres, Option.map_some, hstr.eq]
  rw [PathCursor.result, h.parent, h.child, h.curlen, h.cur.eq, hnext]

/-- `parse_path` in memory finds what the walk along the characters finds. -/
theorem parsePathIn_refines {path : Path} (h : StringAt mem p path.chars) :
    (∀ e, parsePath s root cwd dirfd path bufs addrs = .error e →
      parsePathIn s mem root cwd dirfd p path.chars.length bufs addrs = .error e) ∧
    ∀ res s', parsePath s root cwd dirfd path bufs addrs = .ok (res, s') → ∃ c mem',
      parsePathIn s mem root cwd dirfd p path.chars.length bufs addrs = .ok (c, mem', s') ∧
      (c.map fun c => c.result mem') = res := by
  rw [parsePath, parsePathIn]
  -- The two start alike. Then the cursor in memory follows the one in the characters.
  rcases pathStartIn_eq s root cwd dirfd h with
    ⟨hin, hout⟩ | ⟨start, p', cur, hin, hout, hcur, -⟩
  · rw [hin, hout]
    refine ⟨fun e he => (by cases he), fun res s' hok => ?_⟩
    cases hok
    exact ⟨none, mem, rfl, rfl⟩
  · rw [hin, hout]
    dsimp only
    obtain ⟨herror, hok⟩ := parseLoopIn_follows bufs addrs s
      path.chars.length (cursorOf_start hcur start)
    constructor
    · intro e he
      cases hloop : parseLoop bufs addrs path.chars.length s
          ⟨start, some start, cur, 0, some cur⟩ with
      | error e' =>
          rw [hloop] at he
          cases he
          rw [herror e hloop]
          rfl
      | ok found =>
          rw [hloop] at he
          cases he
    · intro res s' hrun
      obtain ⟨⟨res₁, s₁⟩, hloop, hres⟩ := bind_eq_ok.mp hrun
      cases hres
      obtain ⟨c, mem', hrun', hcursor, -⟩ := hok res₁ s₁ hloop
      rw [hrun']
      exact ⟨some c, mem', rfl, congrArg some hcursor.result_eq⟩

/-- What is different behind `parse_path` is in the path, which has a `'/'` behind its first
character. -/
theorem parsePathIn_frame (h : StringAt mem path chars)
    (hok : parsePathIn s mem root cwd dirfd path n bufs addrs = .ok (found, mem', s')) {a : Nat}
    (ha : mem' a ≠ mem a) : path ≤ a ∧ a < path + chars.length ∧ SLASH ∈ chars.tail := by
  rw [parsePathIn] at hok
  rcases pathStartIn_eq s root cwd dirfd h with
    ⟨hin, -⟩ | ⟨start, p', cur, hin, -, hcur, hlo, hhi, hiff⟩
  · rw [hin] at hok
    cases hok
    exact absurd rfl ha
  · rw [hin] at hok
    obtain ⟨⟨c, mem₁, s₁⟩, hloop, hres⟩ := bind_eq_ok.mp hok
    cases hres
    obtain ⟨p, cur', hp, hstr, hlo', hhi', hslash⟩ :=
      parseLoopIn_only (cursorOf_start hcur start) hloop a ha
    cases hp
    cases hstr
    refine ⟨by omega, by omega, hiff.mp ?_⟩
    obtain ⟨k, rfl⟩ := Nat.exists_eq_add_of_le hlo'
    rw [hcur.at_lt (by omega), List.getD_eq_getElem _ _ (by omega)] at hslash
    exact hslash ▸ List.getElem_mem _

/-- A `'/'` behind the first character is overwritten. -/
theorem parsePathIn_cuts (h : StringAt mem path chars) (hn : chars.length ≤ n)
    (hslash : SLASH ∈ chars.tail)
    (hok : parsePathIn s mem root cwd .fdcwd path n bufs addrs = .ok (found, mem', s')) :
    ∃ k < chars.length, mem' (path + k) ≠ mem (path + k) := by
  rw [parsePathIn] at hok
  rcases pathStartIn_eq s root cwd .fdcwd h with ⟨-, hout⟩ | ⟨start, p', cur, hin, -, hcur,
    hlo, hhi, hiff⟩
  · rw [pathStart_fdcwd] at hout
    cases hout
  · rw [hin] at hok
    obtain ⟨⟨c, mem₁, s₁⟩, hloop, hres⟩ := bind_eq_ok.mp hok
    cases hres
    have hmem := hiff.mpr hslash
    obtain ⟨next, hsplit⟩ := exists_splitSlash hmem
    obtain ⟨-, -, hat, hlt⟩ := hcur.cut hsplit
    obtain ⟨m, rfl⟩ : ∃ m, n = m + 1 := ⟨n - 1, by omega⟩
    rw [parseLoopIn_round hcur (List.ne_nil_of_mem hmem) rfl rfl] at hloop
    obtain ⟨⟨child, s₂⟩, -, hloop⟩ := bind_eq_ok.mp hloop
    have honly := parseLoopIn_only (cursorOf_cut hcur start child) hloop
    -- the first round makes it a `'\0'`, and no later round touches it
    have hzero : cutAt mem p' cur (p' + (cur.takeWhile notSlash).length) = 0 := by
      rw [cutAt, hsplit]
      exact Function.update_self _ _ _
    have hkept : mem' (p' + (cur.takeWhile notSlash).length) = 0 := by
      by_contra hne
      rw [← hzero] at hne
      obtain ⟨-, -, -, -, -, -, hagain⟩ := honly _ hne
      rw [hzero] at hagain
      exact absurd hagain (by decide)
    refine ⟨p' - path + (cur.takeWhile notSlash).length, by omega, ?_⟩
    rw [← Nat.add_assoc, Nat.add_sub_cancel' hlo, hkept, hat]
    decide

end

/-! ### The copy of a path -/

section
variable {mem : Bytes} {tmp pathname a : Nat} {chars : List (BitVec 8)}

/-- A string of `n` characters or more is copied up to there. -/
theorem strnlen_string {src : Bytes} (h : IsString src chars) (hnul : 0 ∉ chars) (n : Nat) :
    strnlen src n = min chars.length n := by
  rcases Nat.lt_or_ge chars.length n with hlt | hge
  · have hfind : (List.range n).find? (fun i => decide (src i = 0)) = some chars.length := by
      rw [List.find?_range_eq_some]
      exact ⟨decide_eq_true h.eq_zero, List.mem_range.mpr hlt,
        fun j hj => by simpa using h.ne_zero hnul hj⟩
    rw [strnlen, hfind, Nat.min_eq_left (Nat.le_of_lt hlt)]
    rfl
  · rw [strnlen_eq fun i hi => h.ne_zero hnul (Nat.lt_of_lt_of_le hi hge), Nat.min_eq_right hge]

/-- The copy has the first 127 characters. -/
theorem copyPath_string (h : StringAt mem pathname chars) :
    StringAt (copyPath mem tmp pathname) tmp (chars.take MAX_PATH_LEN) := by
  have hmax : MAX_PATH_LEN = 127 := rfl
  have hlen : (chars.take MAX_PATH_LEN).length = min MAX_PATH_LEN chars.length := List.length_take
  refine ⟨fun k hk => ?_, fun hmem => h.nul (List.take_subset _ _ hmem), by omega⟩
  rw [hlen] at hk
  show copyPath mem tmp pathname (tmp + k) = _
  rw [copyPath]
  by_cases hend : k = MAX_PATH_LEN
  · rw [hend, Function.update_self, List.getD_eq_default _ _ (by omega)]
  · rw [Function.update_of_ne (by omega), strncpy, if_pos (by omega), Nat.add_sub_cancel_left,
      strnlen_string h.bytes h.nul]
    split
    next hlt =>
      rw [h.at_lt (by omega), List.getD_eq_getElem _ _ (by omega),
        List.getD_eq_getElem _ _ (by omega), List.getElem_take]
    next hge => rw [List.getD_eq_default _ _ (by omega)]

/-- The copy is in the memory of the kernel. -/
theorem copyPath_of_lt (ha : a < tmp) : copyPath mem tmp pathname a = mem a := by
  rw [copyPath, Function.update_of_ne (by omega)]
  exact strncpy_of_ne (.inl ha)

end

/-! ### The system calls -/

/-- A system call with a path of the program. -/
inductive PathSyscall where
  | openat (dirfd : DirFd) (flags : Nat)
  | mkdirat (dirfd : DirFd) (mode : Nat)
  | chdir
  | execve

namespace PathSyscall

/-- The memory behind the call. That of `sys_execve` is the memory that `do_exec` leaves when it
returns an error, and up to `flush_old_exec` otherwise. -/
def run (mem : Bytes) (call : PathCall) (pathname : Nat) : PathSyscall → Except Halt Bytes
  | openat dirfd flags => do
      let (_, mem) ← sysOpenatIn mem call dirfd pathname flags
      pure mem
  | mkdirat dirfd mode => do
      let (_, mem) ← sysMkdiratIn mem call dirfd pathname mode
      pure mem
  | chdir => do
      let (_, _, mem) ← sysChdirIn mem call pathname
      pure mem
  | execve => do
      let (_, mem) ← sysExecveIn mem call pathname
      pure mem

/-- The call passes the copy to `parse_path`. -/
def usesCopy : PathSyscall → Bool
  | openat _ _ | mkdirat _ _ => true
  | chdir | execve => false

end PathSyscall

section
variable {mem mem' : Bytes} {call : PathCall} {pathname : Nat} {chars : List (BitVec 8)}

/-- The calls that use the copy: `parse_path` runs on it, or is not reached. -/
theorem run_copy {sys : PathSyscall} (hcopy : sys.usesCopy = true)
    (hret : sys.run mem call pathname = .ok mem') :
    mem' = copyPath mem call.tmp pathname ∨ ∃ dirfd found s',
      parsePathIn call.table.dirs (copyPath mem call.tmp pathname) call.root call.cwd dirfd call.tmp
        call.len call.openMem.bufs call.openMem.addrs = .ok (found, mem', s') := by
  -- Only `openat` can return in front of `parse_path`, when all descriptors are taken.
  cases sys with
  | openat dirfd flags =>
      obtain ⟨⟨ret, mem₁⟩, hcall, hmem⟩ := bind_eq_ok.mp hret
      cases hmem
      rw [sysOpenatIn] at hcall
      split at hcall
      next =>
        cases hcall
        exact .inl rfl
      next =>
        obtain ⟨⟨found, mem₂, dirs⟩, hparse, hcall⟩ := bind_eq_ok.mp hcall
        obtain ⟨⟨f, t⟩, -, hcall⟩ := bind_eq_ok.mp hcall
        refine .inr ⟨dirfd, found, dirs, ?_⟩
        rw [hparse]
        cases f <;> cases hcall <;> rfl
  | mkdirat dirfd mode =>
      obtain ⟨⟨ret, mem₁⟩, hcall, hmem⟩ := bind_eq_ok.mp hret
      cases hmem
      obtain ⟨-, -, hcall⟩ := bind_eq_ok.mp hcall
      obtain ⟨⟨found, mem₂, dirs⟩, hparse, hcall⟩ := bind_eq_ok.mp hcall
      obtain ⟨⟨r, s'⟩, -, hcall⟩ := bind_eq_ok.mp hcall
      cases hcall
      exact .inr ⟨dirfd, found, dirs, hparse⟩
  | chdir => cases hcopy
  | execve => cases hcopy

/-- The copy is in the kernel, so the string of the program stays. -/
theorem copyPath_kept (huser : pathname + chars.length < KERNEL_VADDR_START)
    (htmp : KERNEL_VADDR_START ≤ call.tmp) :
    ∀ k ≤ chars.length, copyPath mem call.tmp pathname (pathname + k) = mem (pathname + k) :=
  fun _ hk => copyPath_of_lt (by omega)

/-- The others run `parse_path` on the string of the program. -/
theorem run_direct {sys : PathSyscall} (hcopy : sys.usesCopy = false)
    (hpath : StringAt mem pathname chars) (huser : pathname + chars.length < KERNEL_VADDR_START)
    (htmp : KERNEL_VADDR_START ≤ call.tmp) (hret : sys.run mem call pathname = .ok mem') :
    ∃ mem₁ found s', StringAt mem₁ pathname chars ∧
      (∀ k ≤ chars.length, mem₁ (pathname + k) = mem (pathname + k)) ∧
      parsePathIn call.table.dirs mem₁ call.root call.cwd .fdcwd pathname call.len call.openMem.bufs
        call.openMem.addrs = .ok (found, mem', s') := by
  cases sys with
  | openat dirfd flags => cases hcopy
  | mkdirat dirfd mode => cases hcopy
  | chdir =>
      obtain ⟨⟨ret, cwd, mem₁⟩, hcall, hmem⟩ := bind_eq_ok.mp hret
      cases hmem
      obtain ⟨⟨found, mem₂, dirs⟩, hparse, hcall⟩ := bind_eq_ok.mp hcall
      -- `chdir` makes a copy too, but it runs `parse_path` on the original.
      have hkept : ∀ k ≤ chars.length, copyPath mem call.tmp pathname (pathname + k)
          = mem (pathname + k) := copyPath_kept huser htmp
      refine ⟨_, found, dirs, hpath.congr fun a hlo hhi => ?_, hkept, ?_⟩
      · obtain ⟨k, rfl⟩ := Nat.exists_eq_add_of_le hlo
        exact hkept k (by omega)
      · rw [hparse]
        dsimp only at hcall
        split at hcall
        next =>
          cases hcall
          rfl
        next =>
          obtain ⟨-, -, hcall⟩ := bind_eq_ok.mp hcall
          cases hcall
          rfl
  | execve =>
      obtain ⟨⟨f, mem₁⟩, hcall, hmem⟩ := bind_eq_ok.mp hret
      cases hmem
      obtain ⟨⟨found, mem₂, dirs⟩, hparse, hcall⟩ := bind_eq_ok.mp hcall
      obtain ⟨⟨f', t⟩, -, hcall⟩ := bind_eq_ok.mp hcall
      cases hcall
      exact ⟨mem, found, dirs, hpath, fun _ _ => rfl, hparse⟩

end

/-- A system call leaves the path of its caller as it is if and only if it works on a copy, or the
path has no `'/'` behind its first character. -/
theorem caller_path_kept_iff {sys : PathSyscall} {mem mem' : Bytes} {call : PathCall}
    {pathname : Nat} {chars : List (BitVec 8)} (hpath : StringAt mem pathname chars)
    (huser : pathname + chars.length < KERNEL_VADDR_START) (htmp : KERNEL_VADDR_START ≤ call.tmp)
    (hlen : chars.length ≤ call.len) (hret : sys.run mem call pathname = .ok mem') :
    (∀ k ≤ chars.length, mem' (pathname + k) = mem (pathname + k)) ↔
      sys.usesCopy = true ∨ SLASH ∉ chars.tail := by
  cases hcopy : sys.usesCopy with
  | true =>
      refine iff_of_true (fun k hk => ?_) (.inl rfl)
      have hcopied : copyPath mem call.tmp pathname (pathname + k) = mem (pathname + k) :=
        copyPath_kept huser htmp k hk
      rw [← hcopied]
      rcases run_copy hcopy hret with rfl | ⟨dirfd, found, s', hparse⟩
      · rfl
      · -- the cuts are in the copy
        by_contra hne
        have hin := (parsePathIn_frame (copyPath_string hpath) hparse hne).1
        omega
  | false =>
      obtain ⟨mem₁, found, s', hpath₁, hsame, hparse⟩ := run_direct hcopy hpath huser htmp hret
      constructor
      · refine fun hkept => .inr fun hslash => ?_
        obtain ⟨k, hk, hne⟩ := parsePathIn_cuts hpath₁ hlen hslash hparse
        exact hne ((hkept k (Nat.le_of_lt hk)).trans (hsame k (Nat.le_of_lt hk)).symm)
      · rintro (hfalse | hslash) k hk
        · cases hfalse
        · rw [← hsame k hk]
          by_contra hne
          exact hslash (parsePathIn_frame hpath₁ hparse hne).2.2

/-- A process in the root directory of the small tree. -/
def smallCall (len : Nat) : PathCall where
  table := ⟨smallTree FT_DIR 1, fun _ => ⟨0, 0, 0⟩⟩
  files := ⟨7, fun _ => none⟩
  root := 64
  cwd := 64
  tmp := KERNEL_VADDR_START
  len := len
  openMem := ⟨fun _ _ => 0, fun _ => (32, 128), ⟨64, none, [], 0, none⟩, fun _ => 0, 32,
    128, fun _ => 0⟩
  current := 0

/-- The path `chars` at 4096. -/
def pathMem (chars : List (BitVec 8)) : Bytes := fun a => if a < 4096 then 0 else chars.getD
    (a - 4096) 0

/-- A memory with a string in it. -/
theorem pathMem_string {chars : List (BitVec 8)} (hnul : 0 ∉ chars) (hlen : chars.length < 2 ^ 32) :
    StringAt (pathMem chars) 4096 chars := by
  refine ⟨fun k _ => ?_, hnul, hlen⟩
  show pathMem chars (4096 + k) = _
  rw [pathMem, if_neg (by omega), Nat.add_sub_cancel_left]

/-- The path `/a`. -/
theorem caller_path_kept_iff_small : ∃ mem',
    PathSyscall.chdir.run (pathMem [0x2f, 0x61]) (smallCall 2) 4096 = .ok mem' ∧
      ∀ k ≤ 2, mem' (4096 + k) = pathMem [0x2f, 0x61] (4096 + k) := by
  obtain ⟨mem', hrun⟩ : ∃ mem',
      PathSyscall.chdir.run (pathMem [0x2f, 0x61]) (smallCall 2) 4096 = .ok mem' := ⟨_, rfl⟩
  exact ⟨mem', hrun, (caller_path_kept_iff (pathMem_string (by decide) (by decide)) (by decide)
    (by decide) (by decide) hrun).mpr (.inr (by decide))⟩

/-- `sys_chdir` cuts the path `/a/b` of its caller. It has made a copy, but `parse_path` gets the
pointer of the program, and puts a `'\0'` in the place of the second `'/'`. -/
theorem chdir_cuts_path :
    ¬∀ (sys : PathSyscall) mem call pathname chars, StringAt mem pathname chars →
      pathname + chars.length < KERNEL_VADDR_START → KERNEL_VADDR_START ≤ call.tmp →
      chars.length ≤ call.len → ∀ mem', sys.run mem call pathname = .ok mem' →
        ∀ k ≤ chars.length, mem' (pathname + k) = mem (pathname + k) := by
  intro hall
  have hpath : StringAt (pathMem [0x2f, 0x61, 0x2f, 0x62]) 4096 [0x2f, 0x61, 0x2f, 0x62] :=
    pathMem_string (by decide) (by decide)
  obtain ⟨mem', hrun⟩ : ∃ mem',
      PathSyscall.chdir.run (pathMem [0x2f, 0x61, 0x2f, 0x62]) (smallCall 4) 4096
      = .ok mem' := ⟨_, rfl⟩
  have hkept := hall .chdir _ _ _ _ hpath (by decide) (by decide) (by decide) mem' hrun
  obtain ⟨mem₁, found, s', hpath₁, hsame, hparse⟩ :=
    run_direct rfl hpath (by decide) (Nat.le_refl _) hrun
  obtain ⟨k, hk, hne⟩ := parsePathIn_cuts hpath₁ (by decide) (by decide) hparse
  exact hne ((hkept k (Nat.le_of_lt hk)).trans (hsame k (Nat.le_of_lt hk)).symm)

end Fizzos.Proofs
