import Fizzos.Kernel.ExecArgs
import Fizzos.Proofs.FaultRuns

/-!
# `Fizzos.Proofs.ExecArgs`: what a program finds on its stack

The loop of `do_exec` reserves `argSize` bytes for a string. This is enough for a string below 100
characters, and nothing for a longer one (`argSize_eq`). The header does not depend on the strings
(`execArgs_spec`). So the page is right exactly when all strings are below 100 characters
(`argsOk_iff`).

`arg` points into the page, and `do_exec` stores its physical address as the page-table entry, with
the offset in the flags. `page_not_present` stores the address of a page (`EntryStore.exact_iff`).
-/

set_option autoImplicit false

namespace Fizzos.Proofs

open Fizzos.Fs
open Fizzos.Kernel
open Fizzos.Lib
open Fizzos.Support

/-! ### The loop over the strings -/

/-- The size of a string with its `'\0'`, rounded up to a multiple of 4. -/
def roundedSize (str : CString) : Nat := (str.chars.length + 1 + 3) / 4 * 4

/-- The room for a string: its size rounded up, or nothing from 100 characters on. -/
theorem argSize_eq (str : CString) :
    argSize str = if str.chars.length < 100 then roundedSize str else 0 := by
  rw [argSize, strlen_eq]
  by_cases hlen : str.chars.length < 100
  · rw [if_pos hlen, if_pos hlen, wrap32_eq (by omega) (by omega), roundedSize]
    have hdiv : ((str.chars.length : Int) + 1 + 3).tdiv 4
        = (((str.chars.length + 1 + 3) / 4 : Nat) : Int) := by
      rw [Int.tdiv_eq_ediv_of_nonneg (by omega)]
      omega
    rw [hdiv]
    omega
  · rw [if_neg hlen, if_neg hlen]
    decide

/-- It is no more than the rounded size. -/
theorem argSize_le (str : CString) : argSize str ≤ roundedSize str := by
  rw [argSize_eq]
  split
  · exact Nat.le_refl _
  · exact Nat.zero_le _

/-- The bytes that the loop reserves. -/
def used (argv : List CString) : Nat := (argv.map argSize).sum

/-- The bytes that the strings need. -/
def needed (argv : List CString) : Nat := (argv.map roundedSize).sum

section
variable {argv : List CString} {c c' : ArgCursor} {k : Nat}

theorem used_nil : used [] = 0 := rfl

/-- The room for the strings, one after the other. -/
theorem used_cons (str : CString) (argv : List CString) :
    used (str :: argv) = argSize str + used argv := List.sum_cons

/-- It is no more than what they need. -/
theorem used_le_needed (argv : List CString) : used argv ≤ needed argv := by
  induction argv with
  | nil => exact Nat.le_refl 0
  | cons str rest ih =>
      have hstr := argSize_le str
      rw [used_cons, needed, List.map_cons, List.sum_cons]
      exact Nat.add_le_add hstr ih

/-- The next string takes its part. -/
theorem used_take_succ (hk : k < argv.length) :
    used (argv.take (k + 1)) = used (argv.take k) + argSize argv[k] := by
  rw [used, used, List.take_succ_eq_append_getElem hk, List.map_append, List.sum_append,
    List.map_singleton, List.sum_singleton]

/-- The first strings take no more than all of them. -/
theorem used_take_le (argv : List CString) (k : Nat) : used (argv.take k) ≤ used argv := by
  have hsplit : used argv = used (argv.take k) + used (argv.drop k) := by
    rw [used, used, used, ← List.sum_append, ← List.map_append, List.take_append_drop]
  omega

/-- The pointers of the loop, for any memory. -/
theorem argLoop_ok (hargc : c.argc + argv.length ≤ EXEC_ARGS) :
    ∃ c', argLoop argv c = .ok c' ∧ c'.arg = c.arg - used argv ∧ c'.stack = c.stack - used argv ∧
      c'.argc = c.argc + argv.length ∧ (∀ k < c.argc, c'.s k = c.s k) ∧
      ∀ k < argv.length, c'.s (c.argc + k) = c.stack - used (argv.take (k + 1)) := by
  -- By induction on the strings, from the first one: the pointer goes down by the size of each.
  induction argv generalizing c with
  | nil => exact ⟨c, rfl, rfl, rfl, rfl, fun _ _ => rfl, fun k hk => absurd hk (Nat.not_lt_zero k)⟩
  | cons str rest ih =>
      rw [List.length_cons] at hargc
      have hroom : ¬c.argc ≥ EXEC_ARGS := by omega
      obtain ⟨c₁, hstep, harg₁, hstack₁, hargc₁, hs₁⟩ : ∃ c₁, argStep c str = .ok c₁ ∧
          c₁.arg = c.arg - argSize str ∧ c₁.stack = c.stack - argSize str ∧ c₁.argc = c.argc + 1 ∧
          c₁.s = Function.update c.s c.argc (c.stack - argSize str) :=
        ⟨_, if_neg hroom, rfl, rfl, rfl, rfl⟩
      obtain ⟨c', hloop, harg, hstack, hcount, hold, hnew⟩ := ih (c := c₁) (by omega)
      rw [harg₁] at harg
      rw [hstack₁] at hstack hnew
      rw [hargc₁] at hcount hold hnew
      refine ⟨c', ?_, ?_, ?_, ?_, fun k hk => ?_, fun k hk => ?_⟩
      · rw [argLoop, List.foldlM_cons, hstep]
        exact hloop
      · rw [harg, used_cons, Nat.sub_sub]
      · rw [hstack, used_cons, Nat.sub_sub]
      · rw [hcount, List.length_cons]
        omega
      · rw [hold k (by omega), hs₁, Function.update_of_ne (by omega)]
      · rw [List.take_succ_cons, used_cons]
        cases k with
        | zero =>
            rw [Nat.add_zero, hold c.argc (Nat.lt_succ_self _), hs₁, Function.update_self,
              List.take_zero, used_nil, Nat.add_zero]
        | succ k =>
            have hk' : k < rest.length := by
              rw [List.length_cons] at hk
              omega
            rw [show c.argc + (k + 1) = c.argc + 1 + k by omega, hnew k hk', Nat.sub_sub]

/-- The loop with strings below 100 characters: each string is in its place, and nothing else is
written. -/
theorem argLoop_mem (hargc : c.argc + argv.length ≤ EXEC_ARGS) (hroom : used argv ≤ c.arg)
    (hshort : ∀ str ∈ argv, str.chars.length < 100) (hloop : argLoop argv c = .ok c') :
    (∀ a, a < c.arg - used argv ∨ c.arg ≤ a → c'.mem a = c.mem a) ∧
    ∀ k (hk : k < argv.length), ∀ j ≤ argv[k].chars.length,
      c'.mem (c.arg - used (argv.take (k + 1)) + j) = argv[k].bytes j := by
  induction argv generalizing c with
  | nil =>
      obtain rfl := Except.ok.inj hloop
      exact ⟨fun _ _ => rfl, fun k hk => absurd hk (Nat.not_lt_zero k)⟩
  | cons str rest ih =>
      rw [List.length_cons] at hargc
      rw [used_cons] at hroom
      have hfree : ¬c.argc ≥ EXEC_ARGS := by omega
      obtain ⟨c₁, hstep, harg₁, hargc₁, hmem₁⟩ : ∃ c₁, argStep c str = .ok c₁ ∧
          c₁.arg = c.arg - argSize str ∧ c₁.argc = c.argc + 1 ∧
          c₁.mem = strcpy c.mem (c.arg - argSize str) str.chars :=
        ⟨_, if_neg hfree, rfl, rfl, rfl⟩
      rw [argLoop, List.foldlM_cons, hstep] at hloop
      obtain ⟨hframe, hcopy⟩ := ih (c := c₁) (by omega) (by omega)
        (fun s hs => hshort s (List.mem_cons_of_mem _ hs)) hloop
      rw [harg₁, hmem₁] at hframe
      rw [harg₁] at hcopy
      -- the string fits into what the loop reserves for it
      have hsize : str.chars.length + 1 ≤ argSize str := by
        rw [argSize_eq, if_pos (hshort str List.mem_cons_self), roundedSize]
        omega
      refine ⟨fun a ha => ?_, fun k hk j hj => ?_⟩
      · rw [used_cons] at ha
        rw [hframe a (by omega), strcpy_apply, if_neg (by omega)]
      · cases k with
        | zero =>
            rw [List.getElem_cons_zero] at hj ⊢
            rw [List.take_succ_cons, List.take_zero, used_cons, used_nil, Nat.add_zero,
              hframe _ (.inr (Nat.le_add_right _ _)), strcpy_apply, if_pos (by omega),
              Nat.add_sub_cancel_left]
            rfl
        | succ k =>
            have hk' : k < rest.length := Nat.lt_of_succ_lt_succ hk
            rw [List.getElem_cons_succ] at hj ⊢
            rw [List.take_succ_cons, used_cons, ← Nat.sub_sub]
            exact hcopy k hk' j hj

/-! ### The header -/

/-- `memcpy` of the pointers writes the ten words. -/
theorem storePtrs_of_ne (mem : Bytes) (dest : Nat) (s : Nat → Nat) {a : Nat}
    (ha : a < dest ∨ dest + 4 * EXEC_ARGS ≤ a) : storePtrs mem dest s a = mem a := by
  have hloop : ∀ n ≤ EXEC_ARGS,
      (List.range n).foldl (fun mem k => storeLE 4 mem (dest + 4 * k) (s k)) mem a = mem a := by
    intro n
    induction n with
    | zero => exact fun _ => rfl
    | succ n ih =>
        intro hn
        rw [List.range_succ, List.foldl_append, List.foldl_cons, List.foldl_nil,
          storeLE_of_ne (by omega)]
        exact ih (Nat.le_of_succ_le hn)
  exact hloop EXEC_ARGS (Nat.le_refl _)

/-- A pointer of the array is where it was stored. -/
theorem storePtrs_load (mem : Bytes) (dest : Nat) (s : Nat → Nat) (hk : k < EXEC_ARGS)
    (hs : s k < 2 ^ 32) : load32 (storePtrs mem dest s) (dest + 4 * k) = s k := by
  have hloop : ∀ n, k < n →
      load32 ((List.range n).foldl (fun mem k => storeLE 4 mem (dest + 4 * k) (s k)) mem)
        (dest + 4 * k) = s k := by
    intro n
    induction n with
    | zero => exact fun hlt => absurd hlt (Nat.not_lt_zero k)
    | succ n ih =>
        intro hlt
        rw [List.range_succ, List.foldl_append, List.foldl_cons, List.foldl_nil]
        rcases Nat.lt_succ_iff_lt_or_eq.mp hlt with hlt | rfl
        · exact (loadLE_storeLE_of_ne (by omega)).trans (ih hlt)
        · exact loadLE_storeLE hs
  exact hloop EXEC_ARGS hk

end

/-! ### The page of the arguments -/

/-- What the program sees: the memory that the entry for the page maps. -/
def argView (c : ArgCursor) : Bytes := fun v =>
  c.mem (entryAddr (argEntry c.arg) + v % PG_SIZE)

/-- The pointer `argv[k]` of the program. -/
def argPtr (c : ArgCursor) (k : Nat) : Nat := load32 (argView c) (c.stack + 4 + 4 * k)

/-- What `do_exec` should leave in the page at `page`. The 44 bytes at `stack` are `argc` and the
pointers. -/
structure ArgsOk (mem : Bytes) (page : Nat) (argv : List CString) (c : ArgCursor) : Prop where
  header : TASK_SIZE - PG_SIZE ≤ c.stack ∧ c.stack + 44 ≤ TASK_SIZE
  argc : load32 (argView c) c.stack = argv.length
  range : ∀ k (hk : k < argv.length), TASK_SIZE - PG_SIZE ≤ argPtr c k ∧
    argPtr c k + (argv[k].chars.length + 1) ≤ TASK_SIZE
  copy : ∀ k (hk : k < argv.length), ∀ j ≤ argv[k].chars.length,
    argView c (argPtr c k + j) = argv[k].bytes j
  apart : ∀ k (hk : k < argv.length) l (hl : l < argv.length), k ≠ l →
    argPtr c k + (argv[k].chars.length + 1) ≤ argPtr c l ∨
    argPtr c l + (argv[l].chars.length + 1) ≤ argPtr c k
  above : ∀ k (hk : k < argv.length), c.stack + 44 ≤ argPtr c k ∨
    argPtr c k + (argv[k].chars.length + 1) ≤ c.stack
  frame : ∀ a, a < page ∨ page + PG_SIZE ≤ a → c.mem a = mem a

section
variable {mem : Bytes} {argv : List CString} {c : ArgCursor} {idx arg k : Nat}

/-- The entry for a place in a page maps the page. -/
theorem entryAddr_argEntry (hidx : idx < MAX_PAGES) (hlo : pageAddr idx ≤ arg)
    (hhi : arg < pageAddr idx + PG_SIZE) : entryAddr (argEntry arg) = pageAddr idx := by
  have hflags : (PG_P ||| PG_RWE ||| PG_USER : Word) >>> 12 = 0 := by decide
  have hword : argEntry arg = paddrWord arg ||| (PG_P ||| PG_RWE ||| PG_USER) := by
    rw [argEntry, BitVec.or_assoc, BitVec.or_assoc, BitVec.or_assoc]
  rw [pageAddr, PG_SIZE, KERNEL_VADDR_START] at hlo hhi
  rw [MAX_PAGES] at hidx
  rw [entryAddr_eq, hword, entryPage_or _ hflags, entryPage_eq, paddrWord, getPaddr,
    KERNEL_VADDR_START, BitVec.toNat_ushiftRight, BitVec.toNat_ofNat, Nat.shiftRight_eq_div_pow,
    Nat.mod_eq_of_lt (by omega)]
  congr 1
  omega

/-- The loop starts at the end of the zeroed page. -/
def argStart (mem : Bytes) (page : Nat) : ArgCursor where
  mem := memsetZero mem page PG_SIZE
  arg := page + PG_SIZE
  stack := TASK_SIZE
  s := fun _ => 0
  argc := 0

/-- A place of the page, as the program sees it. -/
theorem argView_at (hidx : idx < MAX_PAGES) (hlo : pageAddr idx ≤ c.arg)
    (hhi : c.arg < pageAddr idx + PG_SIZE) {d : Nat} (hd : d < PG_SIZE) :
    argView c (TASK_SIZE - PG_SIZE + d) = c.mem (pageAddr idx + d) := by
  have hpage : PG_SIZE = 4096 := rfl
  have htask : TASK_SIZE = 0xc0000000 := rfl
  have hmod : (TASK_SIZE - PG_SIZE + d) % PG_SIZE = d := by
    rw [htask, hpage]
    omega
  rw [argView, entryAddr_argEntry hidx hlo hhi, hmod]

/-- The header, behind the loop. -/
theorem execArgs_eq {page : Nat} (hloop : argLoop argv (argStart mem page) = .ok c) :
    ∃ c', execArgs mem page argv = .ok c' ∧ c'.arg = c.arg - 44 ∧ c'.stack = c.stack - 44 ∧
      c'.mem = storePtrs (storeLE 4 c.mem (c.arg - 44) c.argc) (c.arg - 44 + 4) c.s := by
  have hstart : argStart mem page
      = { mem := memsetZero mem page PG_SIZE, arg := page + PG_SIZE, stack := TASK_SIZE
          s := fun _ => 0, argc := 0 } := rfl
  rw [hstart] at hloop
  rw [execArgs]
  dsimp only
  rw [hloop]
  exact ⟨_, rfl, rfl, rfl, rfl⟩

/-- What `do_exec` makes of any strings. Only the strings themselves depend on their lengths. -/
theorem execArgs_spec (mem : Bytes) (hidx : idx < MAX_PAGES) (hargc : argv.length ≤ EXEC_ARGS)
    (hfit : needed argv + 44 ≤ PG_SIZE) :
    ∃ c', execArgs mem (pageAddr idx) argv = .ok c' ∧
      c'.arg = pageAddr idx + (PG_SIZE - used argv - 44) ∧
      c'.stack = TASK_SIZE - PG_SIZE + (PG_SIZE - used argv - 44) ∧
      load32 (argView c') c'.stack = argv.length ∧
      (∀ k < argv.length, argPtr c' k = TASK_SIZE - used (argv.take (k + 1))) ∧
      ∃ c, argLoop argv (argStart mem (pageAddr idx)) = .ok c ∧
        ∀ a, a < c'.arg ∨ c'.arg + 44 ≤ a → c'.mem a = c.mem a := by
  have hused := used_le_needed argv
  have hlen : (argStart mem (pageAddr idx)).argc + argv.length ≤ EXEC_ARGS := by
    show 0 + argv.length ≤ _
    omega
  obtain ⟨c, hloop, harg, hstack, hcount, -, hs⟩ := argLoop_ok hlen
  have hten : EXEC_ARGS = 10 := rfl
  have hpage : PG_SIZE = 4096 := rfl
  have htask : TASK_SIZE = 0xc0000000 := rfl
  have harg₀ : (argStart mem (pageAddr idx)).arg = pageAddr idx + PG_SIZE := rfl
  have hstack₀ : (argStart mem (pageAddr idx)).stack = TASK_SIZE := rfl
  have hcount₀ : (argStart mem (pageAddr idx)).argc = 0 := rfl
  rw [harg₀] at harg
  rw [hstack₀] at hstack hs
  rw [hcount₀, Nat.zero_add] at hcount
  obtain ⟨d, hd⟩ : ∃ d, d = PG_SIZE - used argv - 44 := ⟨_, rfl⟩
  obtain ⟨c', hret, hc'arg, hc'stack, hmem'⟩ := execArgs_eq hloop
  have harg' : c.arg - 44 = pageAddr idx + d := by omega
  have hstack' : c.stack - 44 = TASK_SIZE - PG_SIZE + d := by omega
  rw [harg'] at hc'arg hmem'
  rw [hstack'] at hc'stack
  rw [hcount] at hmem'
  -- a word of the header, as the program sees it
  have hview : ∀ i, i + 4 ≤ 44 →
      load32 (argView c') (c'.stack + i) = load32 c'.mem (pageAddr idx + d + i) := by
    intro i hi
    refine loadLE_shift _ fun j hj => ?_
    rw [hc'stack, Nat.add_assoc, Nat.add_assoc,
      argView_at hidx (by omega) (by omega) (by omega), Nat.add_assoc, Nat.add_assoc]
  rw [← hd]
  refine ⟨c', hret, hc'arg, hc'stack, ?_, fun k hk => ?_, c, hloop, fun a ha => ?_⟩
  · have hload := hview 0 (by omega)
    rw [Nat.add_zero, Nat.add_zero, hmem'] at hload
    rw [hload]
    have hptrs : ∀ m : Bytes, load32 (storePtrs m (pageAddr idx + d + 4) c.s) (pageAddr idx + d)
        = load32 m (pageAddr idx + d) :=
      fun m => loadLE_congr fun a _ hhi => storePtrs_of_ne m _ _ (.inl hhi)
    have hargc32 : argv.length < 256 ^ 4 := by omega
    rw [hptrs]
    exact loadLE_storeLE hargc32
  · have hword : c.s k = TASK_SIZE - used (argv.take (k + 1)) := by
      have hsk := hs k hk
      rwa [hcount₀, Nat.zero_add] at hsk
    rw [argPtr, Nat.add_assoc, hview (4 + 4 * k) (by omega), hmem', ← Nat.add_assoc,
      storePtrs_load _ _ _ (by omega) (by omega), hword]
  · rw [hc'arg] at ha
    rw [hmem', storePtrs_of_ne _ _ _ (by omega), storeLE_of_ne (by omega)]

/-- The page of the arguments is right exactly when `strlen` is right for every string. It returns
-1 from 100 characters on, and a string of this kind gets no room and is copied all the same. -/
theorem argsOk_iff (mem : Bytes) (hidx : idx < MAX_PAGES) (hargc : argv.length ≤ EXEC_ARGS)
    (hfit : needed argv + 44 ≤ PG_SIZE) :
    ∃ c, execArgs mem (pageAddr idx) argv = .ok c ∧
      (ArgsOk mem (pageAddr idx) argv c ↔ ∀ str ∈ argv, str.chars.length < 100) := by
  obtain ⟨c', hret, harg, hstack, hhead, hptr, c, hloop, hmem⟩ := execArgs_spec mem hidx hargc hfit
  have hused := used_le_needed argv
  have hpage : PG_SIZE = 4096 := rfl
  have htask : TASK_SIZE = 0xc0000000 := rfl
  refine ⟨c', hret, ?_⟩
  constructor
  · intro hok str hstr
    by_contra hlong
    obtain ⟨k, hk, rfl⟩ := List.getElem_of_mem hstr
    -- nothing is reserved for the string, so it begins where the one before it does
    have hnone : argSize argv[k] = 0 := by rw [argSize_eq, if_neg hlong]
    have hsame : used (argv.take (k + 1)) = used (argv.take k) := by
      rw [used_take_succ hk, hnone, Nat.add_zero]
    have hstart := hptr k hk
    rw [hsame] at hstart
    cases k with
    | zero =>
        have hrange := (hok.range 0 hk).2
        rw [hstart, List.take_zero, used_nil] at hrange
        omega
    | succ k =>
        have hk' : k < argv.length := Nat.lt_of_succ_lt hk
        have happart := hok.apart (k + 1) hk k hk' (Nat.succ_ne_self k)
        rw [hstart, hptr k hk'] at happart
        omega
  · intro hshort
    have hlen : (argStart mem (pageAddr idx)).argc + argv.length ≤ EXEC_ARGS := by
      show 0 + argv.length ≤ _
      omega
    have harg₀ : (argStart mem (pageAddr idx)).arg = pageAddr idx + PG_SIZE := rfl
    have hroom : used argv ≤ (argStart mem (pageAddr idx)).arg := by omega
    obtain ⟨hframe, hcopy⟩ := argLoop_mem hlen hroom hshort hloop
    rw [harg₀] at hframe hcopy
    -- where the strings are
    have hplace : ∀ k (hk : k < argv.length), used (argv.take (k + 1)) ≤ used argv ∧
        argv[k].chars.length + 1 + used (argv.take k) ≤ used (argv.take (k + 1)) := by
      intro k hk
      have hsize : argv[k].chars.length + 1 ≤ argSize argv[k] := by
        rw [argSize_eq, if_pos (hshort _ (List.getElem_mem hk)), roundedSize]
        omega
      rw [used_take_succ hk]
      refine ⟨?_, by omega⟩
      rw [← used_take_succ hk]
      exact used_take_le argv (k + 1)
    have horder : ∀ k (hk : k < argv.length), ∀ l < k,
        used (argv.take (l + 1)) ≤ used (argv.take k) := by
      intro k hk l hl
      have htake : (argv.take k).take (l + 1) = argv.take (l + 1) := by
        rw [List.take_take, Nat.min_eq_left hl]
      rw [← htake]
      exact used_take_le _ _
    refine ⟨by omega, hhead, fun k hk => ?_, fun k hk j hj => ?_, fun k hk l hl hne => ?_,
      fun k hk => .inl ?_, fun a ha => ?_⟩
    · have hk' := hplace k hk
      rw [hptr k hk]
      omega
    · have hk' := hplace k hk
      have hcopied := hcopy k hk j hj
      have hview : argPtr c' k + j
          = TASK_SIZE - PG_SIZE + (PG_SIZE - used (argv.take (k + 1)) + j) := by
        rw [hptr k hk]
        omega
      rw [hview, argView_at hidx (by omega) (by omega) (by omega), hmem _ (by omega), ← hcopied]
      congr 1
      omega
    · have hk' := hplace k hk
      have hl' := hplace l hl
      rw [hptr k hk, hptr l hl]
      rcases Nat.lt_or_gt_of_ne hne with hlt | hgt
      · have hle := horder l hl k hlt
        omega
      · have hle := horder k hk l hgt
        omega
    · have hk' := hplace k hk
      rw [hptr k hk]
      omega
    · rw [hmem a (by omega), hframe a (by omega)]
      exact if_neg (by omega)

end

/-- A string of `n` letters. -/
def letters (n : Nat) : CString where
  chars := List.replicate n 0x61
  nonzero c hc := by
    rw [List.eq_of_mem_replicate hc]
    decide

/-- Two short strings. -/
theorem argsOk_iff_short : ∃ c,
    execArgs (fun _ => 0) (pageAddr 5) [letters 2, letters 99] = .ok c ∧
      ArgsOk (fun _ => 0) (pageAddr 5) [letters 2, letters 99] c := by
  have hidx : 5 < MAX_PAGES := by decide
  have hargc : [letters 2, letters 99].length ≤ EXEC_ARGS := by decide
  obtain ⟨c, hret, hiff⟩ := argsOk_iff (fun _ => 0) hidx hargc (by decide)
  exact ⟨c, hret, hiff.mpr (by decide)⟩

/-- A string of 100 letters gets no room, and its pointer is the end of user memory. `strlen` gives
up at 100 characters and returns -1. -/
theorem execArgs_long :
    ¬∀ (mem : Bytes) (idx : Nat) (argv : List CString), idx < MAX_PAGES → argv.length ≤ EXEC_ARGS →
      needed argv + 44 ≤ PG_SIZE →
      ∃ c, execArgs mem (pageAddr idx) argv = .ok c ∧ ArgsOk mem (pageAddr idx) argv c := by
  intro hall
  have hidx : 5 < MAX_PAGES := by decide
  have hargc : [letters 100].length ≤ EXEC_ARGS := by decide
  have hfit : needed [letters 100] + 44 ≤ PG_SIZE := by decide
  obtain ⟨c, hret, hok⟩ := hall (fun _ => 0) 5 [letters 100] hidx hargc hfit
  obtain ⟨c', hret', -, -, -, hptr, -⟩ := execArgs_spec (fun _ => 0) hidx hargc hfit
  obtain rfl := Except.ok.inj (hret'.symm.trans hret)
  have hrange := (hok.range 0 Nat.one_pos).2
  have hused : used ([letters 100].take (0 + 1)) = 0 := by decide
  rw [hptr 0 Nat.one_pos, hused, Nat.sub_zero] at hrange
  exact absurd hrange (Nat.not_le_of_lt (Nat.lt_add_of_pos_right (Nat.succ_pos _)))

/-! ### The page-table entries -/

/-- The entry of a frame for a user: its address, and the three flags. -/
structure ExactEntry (w : Word) (page : Nat) : Prop where
  addr : w &&& 0xfffff000 = BitVec.ofNat 32 (getPaddr page)
  flags : w &&& 0x00000fff = PG_P ||| PG_RWE ||| PG_USER

/-- The two functions that store an entry for a user page. `do_exec` takes the page at its start,
and stores the entry at its end. -/
inductive EntryStore
  | exec (vm vm' : Vm) (mem : Bytes) (argv : List CString) (pgDir : Nat) (current : Tid)
  | fault (f : Files) (vm : Vm) (mm : MmStruct) (addr : Nat) (ioBuf : Bytes) (current : Tid)

/-- The new page, and the entry that is stored for it. -/
def EntryStore.run : EntryStore → Except Halt (Nat × Word)
  | .exec vm vm' mem argv pgDir current => do
      let (page, _) ← vm.getZeroedPage USER_POOL current
      let c ← execArgs mem page argv
      let vm₁ ← vm'.openTable pgDir (TASK_SIZE - PG_SIZE) current
      let vm₂ ← vm'.mapArgs pgDir c.arg current
      let (pt, j) := vm₁.getPte pgDir (TASK_SIZE - PG_SIZE)
      pure (page, vm₂.table pt j)
  | .fault f vm mm addr ioBuf current => do
      let (page, vm₁) ← vm.notPresentAlloc mm addr current
      let vm₂ ← f.pageNotPresent vm mm addr ioBuf current
      let (pt, j) := vm₁.getPte mm.pgDir addr
      pure (page, vm₂.table pt j)

/-- The store is the one of `page_not_present`. -/
def EntryStore.IsFault : EntryStore → Prop
  | .exec .. => False
  | .fault .. => True

/-- The lower 12 bits are the place in the page. -/
theorem toNat_and_offset (w : Word) : (w &&& 0x00000fff).toNat = w.toNat % 4096 := by
  rw [BitVec.toNat_and]
  exact Nat.and_two_pow_sub_one_eq_mod w.toNat 12

/-- A page-aligned address with the three flags. -/
theorem exactEntry_page (idx : Nat) {w : Word}
    (hw : w = paddrWord (pageAddr idx) ||| (PG_P ||| PG_RWE ||| PG_USER)) :
    ExactEntry w (pageAddr idx) := by
  have hpaddr : getPaddr (pageAddr idx) = idx * 4096 := Nat.add_sub_cancel _ _
  have hlow : paddrWord (pageAddr idx) &&& 0x00000fff = 0#32 := by
    refine BitVec.eq_of_toNat_eq ?_
    rw [toNat_and_offset, paddrWord, BitVec.toNat_ofNat, hpaddr]
    show idx * 4096 % 2 ^ 32 % 4096 = 0
    omega
  have hhigh : paddrWord (pageAddr idx) &&& 0xfffff000 = paddrWord (pageAddr idx) := by
    have hall : (0xffffffff : Word) = 0xfffff000 ||| 0x00000fff := by decide
    have hself : paddrWord (pageAddr idx) &&& 0xffffffff = paddrWord (pageAddr idx) :=
      BitVec.and_allOnes
    rw [hall, BitVec.and_or_distrib_left, hlow, BitVec.or_zero] at hself
    exact hself
  constructor
  · have hflags : (PG_P ||| PG_RWE ||| PG_USER) &&& 0xfffff000 = 0#32 := by decide
    rw [hw, BitVec.and_or_distrib_right, hhigh, hflags, BitVec.or_zero]
    rfl
  · rw [hw, BitVec.and_or_distrib_right, hlow, BitVec.zero_or]
    decide

/-- An address that is not page-aligned, with the three flags. -/
theorem not_exactEntry {arg page : Nat} (harg : 8 ≤ getPaddr arg % 4096) :
    ¬ExactEntry (argEntry arg) page := by
  intro h
  have hflags := congrArg BitVec.toNat h.flags
  rw [argEntry, BitVec.or_assoc, BitVec.or_assoc, BitVec.and_or_distrib_right, BitVec.toNat_or,
    toNat_and_offset, paddrWord, BitVec.toNat_ofNat] at hflags
  have hle : getPaddr arg % 2 ^ 32 % 4096 ≤ 7 := by
    refine (Nat.left_le_or).trans (hflags.trans_le ?_)
    decide
  omega

section
variable {argv : List CString} {c c' : ArgCursor} {page : Nat} {mem : Bytes} {vm vm' : Vm}
  {mm : MmStruct} {pgDir addr buf : Nat} {current : Tid} {fileRead : Nat → Nat → Nat → UInt8}

/-- The loop returns for at most ten strings. -/
theorem argLoop_length (hloop : argLoop argv c = .ok c') (hc : c.argc ≤ EXEC_ARGS) :
    c.argc + argv.length ≤ EXEC_ARGS := by
  induction argv generalizing c with
  | nil => exact hc
  | cons str rest ih =>
      rw [argLoop, List.foldlM_cons] at hloop
      obtain ⟨c₁, hstep, hloop⟩ := bind_eq_ok.mp hloop
      rw [argStep] at hstep
      split at hstep
      · cases hstep
      · rename_i hroom
        have hargc₁ : c₁.argc = c.argc + 1 := by rw [← Except.ok.inj hstep]
        have hrest := ih hloop (by omega)
        rw [List.length_cons]
        omega

/-- A string gets at most 100 bytes. -/
theorem used_le (argv : List CString) : used argv ≤ 100 * argv.length := by
  induction argv with
  | nil => exact Nat.le_refl 0
  | cons str rest ih =>
      have hstr : argSize str ≤ 100 := by
        rw [argSize_eq]
        split
        · rw [roundedSize]
          omega
        · exact Nat.zero_le _
      rw [used_cons, List.length_cons]
      omega

/-- The header lies inside the page, for any strings. -/
theorem execArgs_arg (hret : execArgs mem page argv = .ok c') :
    ∃ d, c'.arg = page + d ∧ 8 ≤ d ∧ d < 4096 := by
  obtain ⟨c, hloop⟩ : ∃ c, argLoop argv (argStart mem page) = .ok c := by
    obtain ⟨c, hloop, -⟩ := bind_eq_ok.mp hret
    exact ⟨c, hloop⟩
  have hlen := argLoop_length hloop (Nat.zero_le EXEC_ARGS)
  have hten : EXEC_ARGS = 10 := rfl
  have hcount : (argStart mem page).argc = 0 := rfl
  obtain ⟨c₁, hloop₁, harg, -⟩ := argLoop_ok hlen
  obtain rfl := Except.ok.inj (hloop₁.symm.trans hloop)
  obtain ⟨c₂, hret₂, harg₂, -⟩ := execArgs_eq hloop
  obtain rfl := Except.ok.inj (hret₂.symm.trans hret)
  have hstart : (argStart mem page).arg = page + 4096 := rfl
  have hused := used_le argv
  exact ⟨4096 - used argv - 44, by omega, by omega, by omega⟩

/-- The entry is the word that was stored. -/
theorem setEntry_entry (vm : Vm) (pt j : Nat) (w : Word) : (vm.setEntry pt j w).table pt j = w := by
  rw [Vm.setEntry_self, Function.update_self]

/-- The entry that a fault stores. -/
theorem notPresentMap_entry (hmap : vm.notPresentMap mm addr buf fileRead = .ok vm') :
    vm'.table (vm.getPte mm.pgDir addr).1 (vm.getPte mm.pgDir addr).2
      = paddrWord buf ||| (PG_P ||| PG_RWE ||| PG_USER) := by
  obtain ⟨u, -, hret⟩ := bind_eq_ok.mp hmap
  have hflags : PG_USER ||| (PG_P ||| PG_RWE) = PG_P ||| PG_RWE ||| PG_USER := by decide
  rw [← Except.ok.inj hret, ← hflags, ← BitVec.or_assoc, ← BitVec.or_assoc]
  exact setEntry_entry _ _ _ _

/-- A new page has an address in the direct mapping. -/
theorem getZeroedPage_page {flag : Nat} (h : vm.getZeroedPage flag current = .ok (buf, vm')) :
    ∃ idx, buf = pageAddr idx := by
  obtain ⟨⟨a, vm₁⟩, hfree, hret⟩ := bind_eq_ok.mp h
  obtain ⟨rfl, -⟩ : a = buf ∧ vm₁.zeroPage a = vm' := by simpa using hret
  obtain ⟨b, hget, -⟩ := getFreePage_ok hfree
  obtain ⟨⟨idx, b'⟩, -, hret⟩ := bind_eq_ok.mp hget
  obtain ⟨rfl, -⟩ : pageAddr idx = a ∧ b' = b := by simpa using hret
  exact ⟨idx, rfl⟩

end

namespace EntryStore

/-- The entry of `do_exec` holds the place of the header in the page. -/
theorem exec_not_exact {vm vm' : Vm} {mem : Bytes} {argv : List CString} {pgDir page : Nat}
    {current : Tid} {w : Word} (h : (exec vm vm' mem argv pgDir current).run = .ok (page, w)) :
    ¬ExactEntry w page := by
  obtain ⟨⟨page', vm₀⟩, hpage, h⟩ := bind_eq_ok.mp h
  obtain ⟨c, hargs, h⟩ := bind_eq_ok.mp h
  obtain ⟨vm₁, htable, h⟩ := bind_eq_ok.mp h
  obtain ⟨vm₂, hmap, hret⟩ := bind_eq_ok.mp h
  obtain ⟨idx, rfl⟩ := getZeroedPage_page hpage
  obtain ⟨d, harg, hlo, hhi⟩ := execArgs_arg hargs
  have hentry : vm₂.table (vm₁.getPte pgDir (TASK_SIZE - PG_SIZE)).1
      (vm₁.getPte pgDir (TASK_SIZE - PG_SIZE)).2 = argEntry c.arg := by
    rw [Vm.mapArgs, htable] at hmap
    rw [← Except.ok.inj hmap]
    exact setEntry_entry _ _ _ _
  obtain ⟨-, rfl⟩ : pageAddr idx = page ∧ _ = w := by simpa using hret
  rw [hentry]
  have hpaddr : getPaddr c.arg = idx * 4096 + d := by
    rw [harg, getPaddr, pageAddr, PG_SIZE]
    omega
  exact not_exactEntry (by omega)

/-- The entry of `page_not_present` is for the page that it has taken. -/
theorem fault_exact {f : Files} {vm : Vm} {mm : MmStruct} {addr page : Nat} {ioBuf : Bytes}
    {current : Tid} {w : Word} (h : (fault f vm mm addr ioBuf current).run = .ok (page, w)) :
    ExactEntry w page := by
  obtain ⟨⟨page', vm₁⟩, halloc, h⟩ := bind_eq_ok.mp h
  obtain ⟨vm₂, hfault, hret⟩ := bind_eq_ok.mp h
  obtain ⟨hlo, hhi, vas, buf, vm₁', content, hvas, halloc', -, hmap⟩ := pageNotPresent_parts hfault
  obtain ⟨rfl, rfl⟩ : page' = buf ∧ vm₁ = vm₁' := by simpa using halloc.symm.trans halloc'
  rw [notPresentAlloc_eq hlo hhi hvas] at halloc
  obtain ⟨vm₀, -, hpage⟩ := bind_eq_ok.mp halloc
  obtain ⟨idx, rfl⟩ := getZeroedPage_page hpage
  obtain ⟨rfl, rfl⟩ : pageAddr idx = page ∧ _ = w := by simpa using hret
  exact exactEntry_page idx (notPresentMap_entry hmap)

/-- An entry is exact exactly when it is one of `page_not_present`. -/
theorem exact_iff {e : EntryStore} {page : Nat} {w : Word} (h : e.run = .ok (page, w)) :
    ExactEntry w page ↔ e.IsFault := by
  cases e with
  | exec vm vm' mem argv pgDir current => exact iff_of_false (exec_not_exact h) id
  | fault f vm mm addr ioBuf current => exact iff_of_true (fault_exact h) trivial

end EntryStore

/-- The two pages of the stack. -/
def stackArea : VmAreaStruct where
  vmStart := TASK_SIZE - PG_SIZE * 2
  vmEnd := TASK_SIZE
  vmPageProt := 0
  vmFlags := VM_READ ||| VM_WRITE ||| VM_EXEC
  vmPgoff := 0
  vmFile := none

/-- A fault on the stack of a process without pages. -/
theorem entryStore_fault_32M : ∃ f vm mm page w,
    (EntryStore.fault f vm mm (TASK_SIZE - PG_SIZE) (fun _ => 0) 0).run = .ok (page, w) ∧
      ExactEntry w page := by
  obtain ⟨s, hs, hruns, hmmap, hwalk, hkernel, huser⟩ := exists_process [stackArea]
  have hlo : USER_VADDR_START ≤ TASK_SIZE - PG_SIZE := by decide
  have hhi : TASK_SIZE - PG_SIZE < TASK_SIZE := by decide
  have hvas : findVma (s.proc 0).mm (TASK_SIZE - PG_SIZE) = some stackArea := by
    rw [findVma, hmmap]
    decide
  obtain ⟨vm', hret⟩ : ∃ vm', noFiles.pageNotPresent s.vm (s.proc 0).mm (TASK_SIZE - PG_SIZE)
      (fun _ => 0) 0 = .ok vm' :=
    pageNotPresent_returns hs hruns (hwalk _ hhi) hlo hhi hvas hkernel huser rfl
  obtain ⟨-, -, vas, buf, vm₁, content, -, halloc, -⟩ := pageNotPresent_parts hret
  obtain ⟨w, hrun⟩ : ∃ w, (EntryStore.fault noFiles s.vm (s.proc 0).mm (TASK_SIZE - PG_SIZE)
      (fun _ => 0) 0).run = .ok (buf, w) := by
    rw [EntryStore.run, halloc, ok_bind]
    dsimp only
    rw [hret, ok_bind]
    exact ⟨_, rfl⟩
  exact ⟨_, _, _, _, _, hrun, (EntryStore.exact_iff hrun).mpr trivial⟩

/-- A program without arguments, on a machine with 32 MiB. `arg` is below the end of its page by
then, and its offset in the page ends up in the flags of the entry. -/
theorem entryStore_exec_32M :
    ¬∀ (e : EntryStore) (page : Nat) (w : Word), e.run = .ok (page, w) → ExactEntry w page := by
  intro hall
  obtain ⟨s, hs, hruns, hmmap, -, hkernel, huser⟩ := exists_process [stackArea]
  obtain ⟨own, h⟩ := exists_cowInv hs
  have hlo : USER_VADDR_START ≤ TASK_SIZE - PG_SIZE := by decide
  have hhi : TASK_SIZE - PG_SIZE < TASK_SIZE := by decide
  have hvas : findVma (s.proc 0).mm (TASK_SIZE - PG_SIZE) = some stackArea := by
    rw [findVma, hmmap]
    decide
  -- a page, and a page table for the stack
  obtain ⟨r, halloc⟩ := h.notPresentAlloc_returns (by decide) hruns.1 hlo hhi hvas hkernel huser 0
  rw [notPresentAlloc_eq hlo hhi hvas] at halloc
  obtain ⟨vm₁, htable, hpage⟩ := bind_eq_ok.mp halloc
  obtain ⟨c, hargs⟩ : ∃ c, execArgs (fun _ => 0) r.1 [] = .ok c := ⟨_, rfl⟩
  obtain ⟨vm₂, hmap⟩ : ∃ vm₂, s.vm.mapArgs (s.proc 0).mm.pgDir c.arg 0 = .ok vm₂ := by
    rw [Vm.mapArgs, htable]
    exact ⟨_, rfl⟩
  obtain ⟨w, hrun⟩ : ∃ w, (EntryStore.exec vm₁ s.vm (fun _ => 0) [] (s.proc 0).mm.pgDir 0).run
      = .ok (r.1, w) := by
    rw [EntryStore.run, hpage, ok_bind]
    dsimp only
    rw [hargs, ok_bind, htable, ok_bind, hmap, ok_bind]
    exact ⟨_, rfl⟩
  exact EntryStore.exec_not_exact hrun (hall _ _ _ hrun)

end Fizzos.Proofs
