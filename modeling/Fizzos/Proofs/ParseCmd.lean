import Fizzos.Proofs.UserPath
import Fizzos.Support.Runs
import Fizzos.User.Shell

/-!
# `Fizzos.Proofs.ParseCmd`: the arguments of a command line

Behind each argument `parse_cmd` skips the spaces, so from an argument on the loop finds all others
(`splitLoop_spec`). At the start of the line it does not skip them: a line with a space in front
gets an empty first argument. `argv` has no room for more than ten arguments and the 0 behind them,
and an empty line leaves `argv` as it is. In all other cases the arguments are the words of the line
(`parseCmd_splits_iff`).
-/

set_option autoImplicit false

namespace Fizzos.Proofs

open Fizzos.Fs
open Fizzos.Support
open Fizzos.User

/-- A space between arguments. -/
def isSpace (c : BitVec 8) : Bool := c == SPACE

/-- The arguments `rs` are in place: `argv` points to them, each of them ends, and `argv` ends. -/
structure ArgvIs (s : Shell) (rs : List (Nat × List (BitVec 8))) : Prop where
  argv : ∀ j (hj : j < rs.length), s.argv j = some rs[j].1
  ends : ∀ r ∈ rs, StringAt s.cmdBuf r.1 r.2
  last : s.argv rs.length = none

/-- `parse_cmd` splits the line `cs` into its maximal runs of other characters than spaces, with no
store behind `argv`. -/
def Splits (s : Shell) (cs : List (BitVec 8)) : Prop :=
  ∃ s', parseCmd s = .ok s' ∧ ArgvIs s' (runs isSpace 0 cs)

namespace StringAt

variable {m : Bytes} {off : Nat} {c : BitVec 8} {w rest : List (BitVec 8)}

theorem head (h : StringAt m off (c :: rest)) : m off = c ∧ c ≠ 0 :=
  ⟨h.at_lt (Nat.zero_le _), fun hc => h.nul (hc ▸ List.mem_cons_self)⟩

/-- The rest of a string. -/
theorem drop (h : StringAt m off (w ++ rest)) : StringAt m (off + w.length) rest := by
  induction w generalizing off with
  | nil => exact h
  | cons c w ih =>
      have hrest := ih h.tail
      rwa [Nat.add_assoc, Nat.add_comm 1] at hrest

/-- A `'\0'` cuts a string. -/
theorem cutAt (h : StringAt m off (w ++ rest)) :
    StringAt (Function.update m (off + w.length) 0) off w := by
  have hlt := h.lt
  rw [List.length_append] at hlt
  refine ⟨fun k hk => ?_, fun hmem => h.nul (List.mem_append_left _ hmem), by omega⟩
  show Function.update m (off + w.length) 0 (off + k) = _
  rcases Nat.lt_or_eq_of_le hk with hk | rfl
  · rw [Function.update_of_ne (by omega), h.at_lt (by rw [List.length_append]; omega),
      List.getD_append _ _ _ _ hk]
  · rw [Function.update_self, List.getD_eq_default _ _ (Nat.le_refl _)]

/-- The rest behind a `'\0'` that cuts. -/
theorem behind (h : StringAt m off (w ++ c :: rest)) :
    StringAt (Function.update m (off + w.length) 0) (off + w.length + 1) rest :=
  h.drop.tail.congr fun k hlo _ => Function.update_of_ne (by omega) _ _

/-- `strchr` in a string without the character. -/
theorem strchr_none (h : StringAt m off w) (hw : c ∉ w) : strchr m off c = none := by
  have hidx : (w.findIdx? fun a => decide (a = c)) = none := by
    rw [List.findIdx?_eq_none_iff]
    intro a ha
    exact decide_eq_false fun heq => hw (heq ▸ ha)
  rw [strchr, h.eq, hidx]
  rfl

/-- `strchr` finds the first place of the character. -/
theorem strchr_some (h : StringAt m off (w ++ c :: rest)) (hw : c ∉ w) :
    strchr m off c = some (off + w.length) := by
  have hidx : ((w ++ c :: rest).findIdx? fun a => decide (a = c)) = some w.length := by
    rw [List.findIdx?_append, List.findIdx?_cons, if_pos (decide_eq_true rfl)]
    have hnone : (w.findIdx? fun a => decide (a = c)) = none :=
      List.findIdx?_eq_none_iff.mpr fun a ha => decide_eq_false fun heq => hw (heq ▸ ha)
    rw [hnone]
    simp
  rw [strchr, h.eq, hidx]
  rfl

/-- The spaces in front of a string are skipped. -/
theorem skipSpaces_eq {fuel : Nat} (h : StringAt m off (w ++ rest)) (hfuel : w.length < fuel)
    (hw : ∀ c ∈ w, isSpace c = true) (hrest : ∀ c ∈ rest.head?, isSpace c = false) :
    skipSpaces m fuel off = .ok (off + w.length) := by
  induction w generalizing off fuel with
  | nil =>
      obtain ⟨fuel, rfl⟩ := Nat.exists_eq_add_one_of_ne_zero (Nat.ne_of_gt hfuel)
      have hstop : ¬(m off ≠ 0 ∧ m off = SPACE) := by
        rintro ⟨hne, hspace⟩
        cases rest with
        | nil => exact hne (h.eq_nil_iff.mpr rfl)
        | cons d rest =>
            have hd := hrest d rfl
            rw [← h.head.1, hspace] at hd
            exact absurd hd (by decide)
      rw [skipSpaces, if_neg hstop]
      rfl
  | cons d w ih =>
      obtain ⟨fuel, rfl⟩ :=
        Nat.exists_eq_add_one_of_ne_zero (Nat.ne_of_gt (Nat.zero_lt_of_lt hfuel))
      obtain ⟨hat, hne⟩ := h.head
      have hd : d = SPACE := by simpa [isSpace] using hw d List.mem_cons_self
      rw [skipSpaces, if_pos ⟨by rw [hat]; exact hne, by rw [hat]; exact hd⟩,
        ih h.tail (Nat.lt_of_succ_lt_succ hfuel) fun c hc => hw c (List.mem_cons_of_mem _ hc),
        List.length_cons]
      congr 1
      omega

end StringAt

/-! ### The loop of `parse_cmd` -/

theorem setArgv_ok {s s' : Shell} {idx : Nat} {arg : Option Nat} :
    s.setArgv idx arg = .ok s' ↔
      idx < ARGV_SIZE ∧ s' = { s with argv := Function.update s.argv idx arg } := by
  unfold Shell.setArgv
  by_cases hidx : idx < ARGV_SIZE
  · simp [hidx, eq_comm]
  · simp [hidx]

/-- What the loop leaves behind, from the line at `arg` on: `rs` are the arguments in it. -/
structure SplitFrom (s s' : Shell) (arg idx : Nat) (rs : List (Nat × List (BitVec 8))) : Prop where
  argv : ∀ j (hj : j < rs.length), s'.argv (idx + j) = some rs[j].1
  before : ∀ i < idx, s'.argv i = s.argv i
  ends : ∀ r ∈ rs, StringAt s'.cmdBuf r.1 r.2
  line : ∀ k < arg, s'.cmdBuf k = s.cmdBuf k

/-- The shell behind one turn: `idx` points to `arg`, and the line is cut at `cutAt`. -/
def splitTurn (s : Shell) (arg idx cutAt : Nat) : Shell :=
  { cmdBuf := Function.update s.cmdBuf cutAt 0, argv := Function.update s.argv idx (some arg) }

section
variable {s s' : Shell} {arg idx fuel : Nat} {cs w rest : List (BitVec 8)}

/-- A text that starts with an argument. -/
theorem exists_word {c : BitVec 8} (hc : isSpace c = false) (cs : List (BitVec 8)) :
    ∃ w rest, c :: cs = w ++ rest ∧ w ≠ [] ∧ (∀ d ∈ w, isSpace d = false) ∧
      ∀ d ∈ rest.head?, isSpace d = true := by
  refine ⟨(c :: cs).takeWhile fun d => !isSpace d, (c :: cs).dropWhile fun d => !isSpace d,
    List.takeWhile_append_dropWhile.symm, ?_, fun d hd => ?_, fun d hd => ?_⟩
  · rw [List.takeWhile_cons_of_pos (by simp [hc])]
    exact List.cons_ne_nil _ _
  · simpa using List.mem_takeWhile_imp hd
  · have hhead := List.head?_dropWhile_not (fun d => !isSpace d) (c :: cs)
    rw [Option.mem_def.mp hd] at hhead
    simpa using hhead

/-- The spaces in front of a text. -/
theorem exists_spaces (cs : List (BitVec 8)) :
    ∃ w rest, cs = w ++ rest ∧ (∀ d ∈ w, isSpace d = true) ∧
      ∀ d ∈ rest.head?, isSpace d = false := by
  refine ⟨cs.takeWhile isSpace, cs.dropWhile isSpace, List.takeWhile_append_dropWhile.symm,
    fun d hd => List.mem_takeWhile_imp hd, fun d hd => ?_⟩
  have hhead := List.head?_dropWhile_not isSpace cs
  rw [Option.mem_def.mp hd] at hhead
  simpa using hhead

/-- The last argument. -/
theorem SplitFrom.last (h : StringAt s.cmdBuf arg w) :
    SplitFrom s { s with argv := Function.update s.argv idx (some arg) } arg idx [(arg, w)] := by
  refine ⟨fun j hj => ?_, fun i hi => Function.update_of_ne (Nat.ne_of_lt hi) _ _, fun r hr => ?_,
    fun _ _ => rfl⟩
  · obtain rfl : j = 0 := Nat.lt_one_iff.mp hj
    exact Function.update_self _ _ _
  · rw [List.mem_singleton.mp hr]
    exact h

/-- An argument, and the others behind it. -/
theorem SplitFrom.cons {next : Nat} {rs : List (Nat × List (BitVec 8))}
    (h : SplitFrom (splitTurn s arg idx (arg + w.length)) s' next (idx + 1) rs)
    (hw : StringAt (Function.update s.cmdBuf (arg + w.length) 0) arg w)
    (hnext : arg + w.length < next) : SplitFrom s s' arg idx ((arg, w) :: rs) := by
  refine ⟨fun j hj => ?_, fun i hi => ?_, fun r hr => ?_, fun k hk => ?_⟩
  · cases j with
    | zero => exact (h.before idx (Nat.lt_succ_self idx)).trans (Function.update_self _ _ _)
    | succ j =>
        have hj' := h.argv j (Nat.lt_of_succ_lt_succ hj)
        rwa [Nat.add_assoc, Nat.add_comm 1] at hj'
  · rw [h.before i (Nat.lt_succ_of_lt hi)]
    exact Function.update_of_ne (Nat.ne_of_lt hi) _ _
  · rcases List.mem_cons.mp hr with rfl | hr
    · exact hw.congr fun k _ hk => h.line k (by omega)
    · exact h.ends r hr
  · rw [h.line k (by omega)]
    exact Function.update_of_ne (by omega) _ _

/-- One turn of the loop: the argument `w`, and the spaces `sp` behind the first one. -/
theorem splitLoop_turn {sp : List (BitVec 8)}
    (h : StringAt s.cmdBuf arg (w ++ SPACE :: (sp ++ rest)))
    (hw : SPACE ∉ w) (hsp : ∀ d ∈ sp, isSpace d = true)
    (hrest : ∀ d ∈ rest.head?, isSpace d = false)
    (hidx : idx < ARGV_SIZE) (hsize : sp.length ≤ MAX_CMD_LEN) :
    splitLoop (fuel + 1) arg idx s = splitLoop fuel (arg + w.length + 1 + sp.length) (idx + 1)
      (splitTurn s arg idx (arg + w.length)) := by
  have hat : s.cmdBuf arg ≠ 0 := fun hzero => by simpa using h.eq_nil_iff.mp hzero
  have hskip := h.behind.skipSpaces_eq (Nat.lt_succ_of_le hsize) hsp hrest
  rw [splitLoop, if_pos hat, Shell.setArgv, if_pos hidx, pure_eq_ok, ok_bind]
  simp only [h.strchr_some hw, hskip, ok_bind]
  rfl

/-- The loop, when an argument starts at `arg` or the line ends there. -/
theorem splitLoop_spec (h : StringAt s.cmdBuf arg cs) (hfirst : ∀ c ∈ cs.head?, isSpace c = false)
    (hidx : idx ≤ ARGV_SIZE) (hfuel : cs.length < fuel) (hsize : cs.length ≤ MAX_CMD_LEN) :
    if idx + (runs isSpace arg cs).length ≤ ARGV_SIZE then
      ∃ s', splitLoop fuel arg idx s = .ok (idx + (runs isSpace arg cs).length, s') ∧
        SplitFrom s s' arg idx (runs isSpace arg cs)
    else splitLoop fuel arg idx s = .error .outOfBounds := by
  -- by induction on the length: a turn takes an argument and the spaces behind it
  induction hlen : cs.length using Nat.strongRecOn generalizing cs s arg idx fuel with
  | ind n ih =>
    obtain ⟨fuel, rfl⟩ := Nat.exists_eq_add_one_of_ne_zero (Nat.ne_of_gt (Nat.zero_lt_of_lt hfuel))
    cases cs with
    | nil =>
        -- the end of the line
        have hend : s.cmdBuf arg = 0 := h.eq_nil_iff.mpr rfl
        rw [runs_nil, List.length_nil, Nat.add_zero, if_pos hidx, splitLoop,
          if_neg (by simp [hend])]
        exact ⟨s, rfl, ⟨fun j hj => absurd hj (Nat.not_lt_zero j), fun _ _ => rfl,
          fun r hr => absurd hr List.not_mem_nil, fun _ _ => rfl⟩⟩
    | cons c cs =>
        have hat : s.cmdBuf arg ≠ 0 := by
          rw [h.head.1]
          exact h.head.2
        obtain ⟨w, rest, hcs, hne, hw, hrest⟩ := exists_word (hfirst c rfl) cs
        rw [hcs] at h hlen hsize hfuel ⊢
        rw [runs_run hne hw hrest]
        have hspace : SPACE ∉ w := fun hmem => absurd (hw SPACE hmem) (by decide)
        rcases Nat.lt_or_eq_of_le hidx with hlt | rfl
        · cases rest with
          | nil =>
              -- the last argument: there is no space behind it
              rw [List.append_nil] at h
              rw [splitLoop, if_pos hat, Shell.setArgv, if_pos hlt, pure_eq_ok, ok_bind]
              simp only [h.strchr_none hspace, runs_nil, List.length_singleton]
              rw [if_pos (show idx + 1 ≤ ARGV_SIZE from hlt)]
              exact ⟨_, rfl, SplitFrom.last h⟩
          | cons d rest =>
              have hd : d = SPACE := by simpa [isSpace] using hrest d rfl
              subst hd
              obtain ⟨sp, rest, rfl, hsp, hrest'⟩ := exists_spaces rest
              simp only [List.length_append, List.length_cons] at hlen hsize hfuel
              have hih := ih rest.length (by omega) (s := splitTurn s arg idx (arg + w.length))
                h.behind.drop hrest' (show idx + 1 ≤ ARGV_SIZE from hlt)
                (show rest.length < fuel by omega) (by omega) rfl
              rw [splitLoop_turn h hspace hsp hrest' hlt (by omega), runs_sep (hrest SPACE rfl),
                runs_append_sep hsp, List.length_cons, Nat.add_comm (List.length _) 1,
                ← Nat.add_assoc]
              by_cases hroom : idx + 1 +
                  (runs isSpace (arg + w.length + 1 + sp.length) rest).length ≤ ARGV_SIZE
              · rw [if_pos hroom] at hih ⊢
                obtain ⟨s', hok, hsplit⟩ := hih
                exact ⟨s', hok, hsplit.cons h.cutAt (by omega)⟩
              · rw [if_neg hroom] at hih ⊢
                exact hih
        · -- `argv` is full
          rw [splitLoop, if_pos hat, Shell.setArgv, if_neg (Nat.lt_irrefl _),
            if_neg (by rw [List.length_cons]; omega)]
          rfl

/-- An empty line leaves `argv` as it is. -/
theorem parseCmd_empty (h : StringAt s.cmdBuf 0 []) : parseCmd s = .ok s := by
  have hend : s.cmdBuf 0 = 0 := h.eq_nil_iff.mpr rfl
  simp [parseCmd, splitLoop, hend]

/-- Behind the loop, with some arguments. -/
theorem parseCmd_of_loop (hidx : idx ≠ 0)
    (h : splitLoop (MAX_CMD_LEN + 1) 0 0 s = .ok (idx, s')) : parseCmd s = s'.setArgv idx none := by
  rw [parseCmd, h, ok_bind]
  exact if_neg hidx

/-- A space in front of the line gives an empty argument. -/
theorem parseCmd_leading (h : StringAt s.cmdBuf 0 (SPACE :: cs)) (hlen : cs.length < MAX_CMD_LEN)
    (hok : parseCmd s = .ok s') : s'.argv 0 = some 0 := by
  obtain ⟨sp, rest, rfl, hsp, hrest⟩ := exists_spaces cs
  rw [List.length_append] at hlen
  -- the first turn takes the empty argument in front of the space
  have hturn : splitLoop (MAX_CMD_LEN + 1) 0 0 s =
      splitLoop MAX_CMD_LEN (1 + sp.length) 1 (splitTurn s 0 0 0) :=
    splitLoop_turn (w := []) h List.not_mem_nil hsp hrest (by decide) (by omega)
  have hbehind : StringAt (splitTurn s 0 0 0).cmdBuf (1 + sp.length) rest :=
    (StringAt.behind (w := []) h).drop
  have hspec := splitLoop_spec hbehind hrest (show 1 ≤ ARGV_SIZE by decide)
    (show rest.length < MAX_CMD_LEN by omega) (by omega)
  split at hspec
  · obtain ⟨s₁, hloop, hsplit⟩ := hspec
    have hne : 1 + (runs isSpace (1 + sp.length) rest).length ≠ 0 := by omega
    rw [parseCmd_of_loop hne (hturn.trans hloop)] at hok
    obtain ⟨-, rfl⟩ := setArgv_ok.mp hok
    exact (Function.update_of_ne hne.symm _ _).trans (hsplit.before 0 Nat.zero_lt_one)
  · rw [parseCmd, hturn, hspec] at hok
    cases hok

/-- A line that starts with an argument. -/
theorem parseCmd_words (h : StringAt s.cmdBuf 0 cs) (hne : cs ≠ [])
    (hfirst : ∀ c ∈ cs.head?, isSpace c = false) (hlen : cs.length ≤ MAX_CMD_LEN) :
    if (runs isSpace 0 cs).length ≤ 10 then
      ∃ s', parseCmd s = .ok s' ∧ ArgvIs s' (runs isSpace 0 cs)
    else parseCmd s = .error .outOfBounds := by
  have hspec := splitLoop_spec h hfirst (Nat.zero_le ARGV_SIZE)
    (show cs.length < MAX_CMD_LEN + 1 from Nat.lt_succ_of_le hlen) hlen
  rw [Nat.zero_add] at hspec
  have hruns : (runs isSpace 0 cs).length ≠ 0 := by
    obtain ⟨c, cs, rfl⟩ := List.exists_cons_of_ne_nil hne
    obtain ⟨w, rest, hcs, hw, hword, hrest⟩ := exists_word (hfirst c rfl) cs
    rw [hcs, runs_run hw hword hrest]
    exact Nat.succ_ne_zero _
  by_cases hten : (runs isSpace 0 cs).length ≤ 10
  · have hroom : (runs isSpace 0 cs).length ≤ ARGV_SIZE := Nat.le_succ_of_le hten
    rw [if_pos hten]
    rw [if_pos hroom] at hspec
    obtain ⟨s₁, hloop, hsplit⟩ := hspec
    have hlast : (runs isSpace 0 cs).length < ARGV_SIZE := Nat.lt_succ_of_le hten
    refine ⟨_, (parseCmd_of_loop hruns hloop).trans (setArgv_ok.mpr ⟨hlast, rfl⟩),
      fun j hj => ?_, hsplit.ends, Function.update_self _ _ _⟩
    have hargv := hsplit.argv j hj
    rw [Nat.zero_add] at hargv
    exact (Function.update_of_ne (Nat.ne_of_lt hj) _ _).trans hargv
  · rw [if_neg hten]
    by_cases hroom : (runs isSpace 0 cs).length ≤ ARGV_SIZE
    · rw [if_pos hroom] at hspec
      obtain ⟨s₁, hloop, -⟩ := hspec
      -- eleven arguments fit, and the 0 behind them does not
      have hfull : ¬(runs isSpace 0 cs).length < ARGV_SIZE :=
        fun hlt => hten (Nat.le_of_lt_succ hlt)
      rw [parseCmd_of_loop hruns hloop, Shell.setArgv, if_neg hfull]
    · rw [if_neg hroom] at hspec
      rw [parseCmd, hspec]
      rfl

/-- `parse_cmd` splits a line into its words exactly when it starts with a word and has at most ten,
or when it is empty and `argv` is empty from before. -/
theorem parseCmd_splits_iff (h : StringAt s.cmdBuf 0 cs) (hlen : cs.length ≤ MAX_CMD_LEN) :
    Splits s cs ↔ (cs = [] ∧ s.argv 0 = none) ∨
      (cs ≠ [] ∧ cs.head? ≠ some SPACE ∧ (runs isSpace 0 cs).length ≤ 10) := by
  by_cases hnil : cs = []
  · subst hnil
    have hok := parseCmd_empty h
    constructor
    · rintro ⟨s', hok', hargv⟩
      cases hok.symm.trans hok'
      have hlast := hargv.last
      rw [runs_nil] at hlast
      exact .inl ⟨rfl, hlast⟩
    · rintro (⟨-, hnone⟩ | ⟨hne, -⟩)
      · refine ⟨s, hok, fun j hj => ?_, fun r hr => ?_, ?_⟩
        · rw [runs_nil] at hj
          exact absurd hj (Nat.not_lt_zero j)
        · rw [runs_nil] at hr
          exact absurd hr List.not_mem_nil
        · rw [runs_nil]
          exact hnone
      · exact absurd rfl hne
  by_cases hspace : cs.head? = some SPACE
  · -- the empty argument is no word
    refine iff_of_false ?_ ?_
    · rintro ⟨s', hok, hargv⟩
      obtain ⟨cs, rfl⟩ := List.head?_eq_some_iff.mp hspace
      have hzero := parseCmd_leading h (Nat.lt_of_succ_le hlen) hok
      have hruns : ∀ r ∈ runs isSpace 0 (SPACE :: cs), 1 ≤ r.1 := by
        rw [runs_sep (by decide)]
        exact fun r hr => le_of_mem_runs hr
      -- `argv[0]` is the start of the line, and no word starts there
      cases hlist : runs isSpace 0 (SPACE :: cs) with
      | nil =>
          have hlast := hargv.last
          rw [hlist] at hlast
          exact absurd (hzero.symm.trans hlast) (by simp)
      | cons r rs =>
          have hfirst := hargv.argv 0 (by rw [hlist]; exact Nat.succ_pos _)
          have hplace := hruns r (by rw [hlist]; exact List.mem_cons_self)
          simp only [hlist, List.getElem_cons_zero] at hfirst
          have heq := Option.some.inj (hzero.symm.trans hfirst)
          omega
    · rintro (⟨hcs, -⟩ | ⟨-, hhead, -⟩)
      · exact hnil hcs
      · exact hhead hspace
  · have hfirst : ∀ c ∈ cs.head?, isSpace c = false := by
      intro c hc
      have hne : c ≠ SPACE := fun heq => hspace (heq ▸ hc)
      simpa [isSpace] using hne
    have hwords := parseCmd_words h hnil hfirst hlen
    by_cases hten : (runs isSpace 0 cs).length ≤ 10
    · rw [if_pos hten] at hwords
      exact iff_of_true hwords (.inr ⟨hnil, hspace, hten⟩)
    · rw [if_neg hten] at hwords
      refine iff_of_false ?_ ?_
      · rintro ⟨s', hok, -⟩
        exact absurd (hwords.symm.trans hok) (by simp)
      · rintro (⟨hcs, -⟩ | ⟨-, -, hle⟩)
        · exact hnil hcs
        · exact hten hle

end

/-- `ls /bin`, in `cmd_buf`. -/
def lsBin : List (BitVec 8) := [0x6c, 0x73, 0x20, 0x2f, 0x62, 0x69, 0x6e]

/-- A shell with a line in `cmd_buf`. -/
def shellWith (cs : List (BitVec 8)) : Shell := ⟨fun k => cs.getD k 0, fun _ => none⟩

example : runs isSpace 0 lsBin = [(0, [0x6c, 0x73]), (3, [0x2f, 0x62, 0x69, 0x6e])] := by
  simp [lsBin, runs, isSpace, SPACE]

theorem parseCmd_splits_iff_ls : Splits (shellWith lsBin) lsBin ↔
    (lsBin = [] ∧ (shellWith lsBin).argv 0 = none) ∨
      (lsBin ≠ [] ∧ lsBin.head? ≠ some SPACE ∧ (runs isSpace 0 lsBin).length ≤ 10) :=
  parseCmd_splits_iff (s := shellWith lsBin) ⟨fun k _ => by simp [shellWith], by decide, by decide⟩
    (by decide)

/-- A space and `ls`: the first argument is empty, and the command is the second one. Spaces are
skipped behind an argument only. -/
theorem leading_space_is_argument : ¬Splits (shellWith [0x20, 0x6c, 0x73]) [0x20, 0x6c, 0x73] := by
  rintro ⟨s', hok, hargv⟩
  have hline : StringAt (shellWith [0x20, 0x6c, 0x73]).cmdBuf 0 [0x20, 0x6c, 0x73] :=
    ⟨fun k _ => by simp [shellWith], by decide, by decide⟩
  have hzero := parseCmd_leading hline (by decide) hok
  have hruns : runs isSpace 0 [0x20, 0x6c, 0x73] = [(1, [0x6c, 0x73])] := by
    simp [runs, isSpace, SPACE]
  have hfirst := hargv.argv 0 (by rw [hruns]; decide)
  simp only [hruns, List.getElem_cons_zero] at hfirst
  exact absurd (hzero.symm.trans hfirst) (by decide)

end Fizzos.Proofs
