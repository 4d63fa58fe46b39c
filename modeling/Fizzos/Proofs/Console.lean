import Fizzos.Device.Console
import Fizzos.Proofs.Descriptors
import Fizzos.Proofs.Printk
import Fizzos.Proofs.Transfers

/-!
# `Fizzos.Proofs.Console`: which buffers come to the screen

The buffer is the format of `snprintk`. Without a `'%'`, its characters are copied, and the loop
ends at the count (`loop_plain`): the buffer comes to the screen. `console_buf` has room for 499
characters and the `'\0'`, so a longer buffer is written behind it. A `'%'` itself is never stored:
when the words on the stack are 0, there is no `'%'` on the screen (`vsnprintLoop_noPercent`). These
are the only two reasons (`sysWrite_prints_iff`).
-/

set_option autoImplicit false

namespace Fizzos.Proofs

open Fizzos.Device
open Fizzos.Fs
open Fizzos.Lib
open Fizzos.LibKernel
open Fizzos.Support

/-- The buffer comes to the screen: `put_str` gets its characters, the count is returned, and all
stores are in `console_buf`. -/
def PrintsBytes (a : Around) (io : Io) (fd : Int) (buf : List (BitVec 8)) (ioBuf pad : Bytes)
    (current : Kernel.Tid) : Prop :=
  ∃ r, sysWriteScreen a io fd buf ioBuf pad current = .ok r ∧ r.ret = buf.length ∧ r.shown = buf ∧
    r.consoleBuf.InRange (fun o : Int => 0 ≤ o ∧ o < CONSOLE_BUF_SIZE) ∧ r.io = io

/-- The same, for `console_print`. -/
def ConsolePrints (a : Around) (buf : List (BitVec 8)) : Prop :=
  ∃ m, consolePrint a buf (BitVec.ofNat 32 buf.length) = .ok ((buf.length : Int), buf, m) ∧
    m.InRange fun o : Int => 0 ≤ o ∧ o < CONSOLE_BUF_SIZE

/-! ### `put_str` -/

section
variable {mem : Int → BitVec 8} {fuel : Nat} {ebx : Int} {t : List (BitVec 8)}

/-- `put_str` of a string. -/
theorem putStr_eq (htext : ∀ k (hk : k < t.length), mem (ebx + k) = t[k]) (hnul : ∀ c ∈ t, c ≠ 0)
    (hend : mem (ebx + t.length) = 0) (hfuel : t.length ≤ fuel) : putStr mem fuel ebx = .ok t := by
  induction t generalizing fuel ebx with
  | nil =>
      have hzero : mem ebx = 0 := by simpa using hend
      cases fuel <;> exact if_pos hzero
  | cons c t ih =>
      obtain ⟨fuel, rfl⟩ :=
        Nat.exists_eq_add_one_of_ne_zero (Nat.ne_of_gt (Nat.zero_lt_of_lt hfuel))
      have hfirst : mem ebx = c := by simpa using htext 0 (Nat.succ_pos _)
      have hrest := @ih fuel (ebx + 1)
        (fun k hk => by
          have hk' := htext (k + 1) (Nat.succ_lt_succ hk)
          rwa [Nat.cast_succ, add_comm (k : Int), ← add_assoc] at hk')
        (fun d hd => hnul d (List.mem_cons_of_mem _ hd))
        (by rwa [List.length_cons, Nat.cast_succ, add_comm (t.length : Int), ← add_assoc] at hend)
        (Nat.le_of_succ_le_succ hfuel)
      rw [putStr, hfirst, if_neg (hnul c List.mem_cons_self)]
      simp only [hrest, ok_bind]
      rfl

/-- `put_str` gives characters of the memory only. -/
theorem putStr_mem (hok : putStr mem fuel ebx = .ok t) {c : BitVec 8} (hc : c ∈ t) :
    ∃ a, mem a = c := by
  induction fuel generalizing ebx t with
  | zero =>
      rw [putStr] at hok
      split at hok
      · cases hok
        exact absurd hc List.not_mem_nil
      · cases hok
  | succ fuel ih =>
      rw [putStr] at hok
      split at hok
      · cases hok
        exact absurd hc List.not_mem_nil
      · obtain ⟨rest, hrest, htail⟩ := bind_eq_ok.mp hok
        cases htail
        rcases List.mem_cons.mp hc with rfl | hc
        · exact ⟨ebx, rfl⟩
        · exact ih hrest hc

end

/-! ### Buffers without a `'%'` -/

section
variable {va : VaList} {size : Nat} {s : PrintState} {kept cs rest : List (BitVec 8)}

/-- The loop copies characters. -/
theorem loop_plain (va : VaList) (rest : List (BitVec 8)) (h : Keeps size kept s)
    (hcs : ∀ c ∈ cs, c ≠ PERCENT ∧ c ≠ 0)
    (hroom : kept.length + cs.length ≤ size) (hsmall : kept.length + cs.length < 2 ^ 31) :
    ∃ s', vsnprintLoop size va (cs ++ rest) s = vsnprintLoop size va rest s' ∧
      Keeps size (kept ++ cs) s' := by
  induction cs generalizing kept s with
  | nil => exact ⟨s, rfl, (List.append_nil kept).symm ▸ h⟩
  | cons c cs ih =>
      rw [List.length_cons] at hroom hsmall
      have hidx := h.idx
      have hbelow : below s.destIdx size := (below_iff (by omega) (by omega)).mpr (by omega)
      obtain ⟨m, hwrote, hloop⟩ :=
        loop_piece va hbelow h.flag (.plain c (hcs c List.mem_cons_self)) (cs ++ rest)
      have hafter : (Piece.plain c (hcs c List.mem_cons_self)).after va s.ap kept = kept ++ [c] :=
        after_of_not_long id
      have hlen : (kept ++ [c]).length = kept.length + 1 := List.length_append
      have hfits : (Piece.plain c (hcs c List.mem_cons_self)).Fits va s.ap size kept :=
        ⟨show kept.length + 1 ≤ size by omega, False.elim,
          by rw [hafter, hlen]; exact show kept.length + 1 < 2 ^ 31 by omega⟩
      obtain ⟨hadv, hkeeps⟩ := h.step hfits hwrote
      rw [hadv, if_pos (Int.ofNat_lt.mpr hfits.2.2)] at hloop
      rw [hafter] at hkeeps hloop
      obtain ⟨s', hrest, hkeeps'⟩ := ih hkeeps (fun d hd => hcs d (List.mem_cons_of_mem _ hd))
        (by rw [hlen]; omega) (by rw [hlen]; omega)
      exact ⟨s', hloop.trans hrest, List.append_cons kept c cs ▸ hkeeps'⟩

/-- A text of plain characters is a format. -/
theorem exists_formatOf (hcs : ∀ c ∈ cs, c ≠ PERCENT ∧ c ≠ 0) : ∃ ps, formatOf ps = cs := by
  induction cs with
  | nil => exact ⟨[], rfl⟩
  | cons c cs ih =>
      obtain ⟨ps, hps⟩ := ih fun d hd => hcs d (List.mem_cons_of_mem _ hd)
      exact ⟨.plain c (hcs c List.mem_cons_self) :: ps, congrArg (c :: ·) hps⟩

end

/-! ### A `'%'` -/

/-- Words of 0 on the stack, and nothing behind the buffer or in `console_buf`. -/
def blankAround : Around where
  behind := []
  stack := ⟨fun _ => 0, fun _ => emptyString⟩
  consoleBuf _ := 0

/-- No `'%'` in a memory. -/
def NoPercent (m : CharMem) : Prop := ∀ a, m.mem a ≠ PERCENT

section
variable {size : Nat} {s s' : PrintState} {format : List (BitVec 8)} {m : CharMem}

theorem NoPercent.store (h : NoPercent m) (off : Int) {b : BitVec 8} (hb : b ≠ PERCENT) :
    NoPercent (m.store off b) := by
  intro a
  by_cases ha : a = off
  · rw [ha, Stored.store_mem_self]
    exact hb
  · rw [Stored.store_mem_of_ne ha]
    exact h a

/-- A conversion of a word of 0 stores no `'%'`. -/
theorem convert_noPercent {c : BitVec 8} (h : NoPercent s.dest)
    (hok : convert blankAround.stack c s = .ok s') : NoPercent s'.dest := by
  unfold convert at hok
  split at hok
  · obtain ⟨x, hx, hpure⟩ := bind_eq_ok.mp hok
    cases hx
    cases hpure
    exact h.store _ (by decide)
  split at hok
  · cases hok
    exact h.store _ (by decide)
  split at hok
  · cases hok
    exact h.store _ (show (BitVec.setWidth 8 (0 : BitVec 32)) ≠ PERCENT by decide)
  split at hok
  · obtain ⟨x, hx, hpure⟩ := bind_eq_ok.mp hok
    cases hx
    cases hpure
    exact h.store _ (by decide)
  · cases hok

/-- The run lemma: the loop stores no `'%'`. -/
theorem vsnprintLoop_noPercent (h : NoPercent s.dest)
    (hok : vsnprintLoop size blankAround.stack format s = .ok s') : NoPercent s'.dest := by
  induction format generalizing s with
  | nil =>
      cases hok
      exact h
  | cons c format ih =>
      rw [vsnprintLoop] at hok
      split at hok
      · split at hok
        next hplain => exact ih (h.store _ hplain.1) hok
        split at hok
        · exact ih (s := { s with flag := true }) h hok
        · -- a conversion, and the test of `dest_idx`
          obtain ⟨_, -, hok⟩ := bind_eq_ok.mp hok
          obtain ⟨s₁, hconvert, hok⟩ := bind_eq_ok.mp hok
          dsimp only at hok
          split at hok
          · cases hok
          · have hnext := convert_noPercent h hconvert
            exact ih (s := { s₁ with flag := false }) hnext hok
      · cases hok
        exact h

end

/-! ### The buffer -/

section
variable {a : Around} {buf : List (BitVec 8)} {m : CharMem} {c : Int} {shown : List (BitVec 8)}

theorem consolePrint_eq_ok {count : BitVec 32} :
    consolePrint a buf count = .ok (c, shown, m) ↔
      vsnprint ⟨a.consoleBuf, []⟩ count.toNat (buf ++ a.behind) a.stack = .ok (c, m) ∧
        putStr m.mem (2 ^ 32) 0 = .ok shown := by
  rw [consolePrint, bind_eq_ok]
  constructor
  · rintro ⟨⟨c', m'⟩, hprint, hrest⟩
    obtain ⟨shown', hshown, hpure⟩ := bind_eq_ok.mp hrest
    cases hpure
    exact ⟨hprint, hshown⟩
  · rintro ⟨hprint, hshown⟩
    exact ⟨(c, m), hprint, bind_eq_ok.mpr ⟨shown, hshown, rfl⟩⟩

theorem count_toNat (hlen : buf.length < 2 ^ 32) :
    (BitVec.ofNat 32 buf.length).toNat = buf.length := by
  rw [BitVec.toNat_ofNat, Nat.mod_eq_of_lt hlen]

theorem plain_chars (hnul : ∀ c ∈ buf, c ≠ 0) (hpercent : PERCENT ∉ buf) :
    ∀ c ∈ buf, c ≠ PERCENT ∧ c ≠ 0 :=
  fun c hc => ⟨fun heq => hpercent (heq ▸ hc), hnul c hc⟩

/-- A short buffer without a `'%'` comes to the screen, whatever is around. -/
theorem consolePrints_of_plain (a : Around) (hnul : ∀ c ∈ buf, c ≠ 0) (hpercent : PERCENT ∉ buf)
    (hroom : buf.length < CONSOLE_BUF_SIZE) : ConsolePrints a buf := by
  have hsize : CONSOLE_BUF_SIZE = 500 := rfl
  obtain ⟨s, hloop, hkeeps⟩ := loop_plain a.stack a.behind
    (Keeps.start buf.length a.consoleBuf) (plain_chars hnul hpercent)
    (Nat.le_of_eq (Nat.zero_add _)) (by rw [List.length_nil]; omega)
  rw [List.nil_append] at hkeeps
  have hidx := hkeeps.idx
  -- at the count the loop ends, and does not look at what is behind the buffer
  have hstop : ¬below s.destIdx buf.length := by
    rw [below_iff (by omega) (by omega)]
    omega
  refine ⟨s.dest.store s.destIdx 0, consolePrint_eq_ok.mpr ⟨?_, ?_⟩, ?_⟩
  · rw [count_toNat (by omega)]
    exact vsnprint_eq_ok.mpr ⟨s, hloop.trans (loop_stop hstop), hidx.symm, rfl⟩
  · refine putStr_eq (fun k hk => ?_) hnul ?_ (by omega)
    · rw [zero_add, Stored.store_mem_of_ne (by omega)]
      exact hkeeps.text k hk
    · rw [zero_add, hidx]
      exact Stored.store_mem_self
  · refine Stored.inRange_store.mpr ⟨fun o ho => ?_, by omega⟩
    have hin := hkeeps.stores o ho
    omega

/-- A `'%'` does not come to the screen when nothing is around. -/
theorem not_consolePrints_percent (hpercent : PERCENT ∈ buf) : ¬ConsolePrints blankAround buf := by
  rintro ⟨m, hok, -⟩
  obtain ⟨hprint, hshown⟩ := consolePrint_eq_ok.mp hok
  obtain ⟨s, hloop, -, rfl⟩ := vsnprint_eq_ok.mp hprint
  have hblank : NoPercent (⟨blankAround.consoleBuf, []⟩ : CharMem) :=
    fun _ => show (0 : BitVec 8) ≠ PERCENT by decide
  -- what is shown has been in `console_buf`
  obtain ⟨o, ho⟩ := putStr_mem hshown hpercent
  exact (vsnprintLoop_noPercent hblank hloop).store _ (by decide) o ho

/-- A long buffer is written behind `console_buf`. -/
theorem not_consolePrints_long (hnul : ∀ c ∈ buf, c ≠ 0) (hpercent : PERCENT ∉ buf)
    (hlen : buf.length < 2 ^ 32) (hlong : CONSOLE_BUF_SIZE ≤ buf.length) :
    ¬ConsolePrints blankAround buf := by
  have hsize : CONSOLE_BUF_SIZE = 500 := rfl
  rintro ⟨m, hok, hrange⟩
  obtain ⟨hprint, -⟩ := consolePrint_eq_ok.mp hok
  rw [count_toNat hlen] at hprint
  obtain ⟨s, hloop, -, rfl⟩ := vsnprint_eq_ok.mp hprint
  have hplain := plain_chars hnul hpercent
  -- behind 500 characters, `dest_idx` is behind the buffer
  obtain ⟨ps, hps⟩ := exists_formatOf fun c hc => hplain c (List.mem_of_mem_drop (i := 500) hc)
  have htake : (buf.take 500).length = 500 := List.length_take_of_le (by omega)
  obtain ⟨s₁, hcopied, hkeeps⟩ := loop_plain blankAround.stack (buf.drop 500)
    (Keeps.start buf.length blankAround.consoleBuf) (fun c hc => hplain c (List.mem_of_mem_take hc))
    (by rw [htake, List.length_nil]; omega) (by rw [htake]; decide)
  have hbehind : (499 : Nat) < s₁.destIdx := by
    rw [hkeeps.idx, List.nil_append, htake]
    decide
  have hsplit : buf ++ blankAround.behind = buf.take 500 ++ buf.drop 500 := by
    rw [List.take_append_drop]
    exact List.append_nil buf
  rw [hsplit, hcopied, ← hps] at hloop
  have hleft : LeftBuffer 499 s := LeftBuffer.loop (.inr (.inl hbehind)) hkeeps.flag hloop
  refine hleft.not_inBuffer fun o ho => ?_
  have hin := hrange o ho
  omega

/-- `console_print` brings a buffer to the screen in all surroundings exactly when it is short and
has no `'%'`. -/
theorem consolePrints_iff (hnul : ∀ c ∈ buf, c ≠ 0) (hlen : buf.length < 2 ^ 32) :
    (∀ a, ConsolePrints a buf) ↔ PERCENT ∉ buf ∧ buf.length < CONSOLE_BUF_SIZE := by
  constructor
  · intro h
    have hpercent : PERCENT ∉ buf := fun hmem => not_consolePrints_percent hmem (h blankAround)
    exact ⟨hpercent, Nat.not_le.mp fun hlong =>
      not_consolePrints_long hnul hpercent hlen hlong (h blankAround)⟩
  · rintro ⟨hpercent, hroom⟩ a
    exact consolePrints_of_plain a hnul hpercent hroom

/-- `sys_write` on an open descriptor of the screen. -/
theorem sysWrite_screen {io : Io} {fd : Int} {f : Nat} (hopen : IsOpenFd io.files fd)
    (hfile : io.files.fdArray fd.toNat = some f) (hscreen : io.fMode f &&& 0xf000 = FT_SCREEN)
    (src : Bytes) (count : Nat) (ioBuf pad : Bytes) (printed : Int) (current : Kernel.Tid) :
    sysWrite io fd src count ioBuf pad printed current = .ok (printed, io) := by
  obtain ⟨hindex, hat⟩ := hopen.at
  have htarget : fileTarget io.table io.fMode FT_SCREEN f = .ok .device := if_pos hscreen
  rw [sysWrite, hindex, ok_bind]
  dsimp only
  rw [hat, ok_bind, hfile]
  dsimp only
  rw [htarget, ok_bind]
  rfl

/-- `sys_write` brings a buffer to the screen, whatever is around, exactly when it is shorter than
`console_buf` and has no `'%'`. -/
theorem sysWrite_prints_iff {io : Io} {fd : Int} {f : Nat} (hopen : IsOpenFd io.files fd)
    (hfile : io.files.fdArray fd.toNat = some f) (hscreen : io.fMode f &&& 0xf000 = FT_SCREEN)
    (hnul : ∀ c ∈ buf, c ≠ 0) (hlen : buf.length < 2 ^ 32) (ioBuf pad : Bytes)
    (current : Kernel.Tid) :
    (∀ a, PrintsBytes a io fd buf ioBuf pad current) ↔
      PERCENT ∉ buf ∧ buf.length < CONSOLE_BUF_SIZE := by
  refine Iff.trans (forall_congr' fun a => ?_) (consolePrints_iff hnul hlen)
  -- `sys_write` adds nothing to `console_print`
  constructor
  · rintro ⟨r, hok, hret, hshown, hrange, -⟩
    obtain ⟨⟨c, shown, m⟩, hprint, hrest⟩ := bind_eq_ok.mp hok
    obtain ⟨⟨ret, io'⟩, hwrite, hpure⟩ := bind_eq_ok.mp hrest
    have hsame := hwrite.symm.trans (sysWrite_screen hopen hfile hscreen _ _ _ _ _ _)
    cases hsame
    cases hpure
    obtain rfl : c = buf.length := hret
    obtain rfl : shown = buf := hshown
    exact ⟨m, hprint, hrange⟩
  · rintro ⟨m, hprint, hrange⟩
    refine ⟨⟨buf.length, buf, m, io⟩, bind_eq_ok.mpr ⟨(buf.length, buf, m), hprint,
      bind_eq_ok.mpr ⟨(buf.length, io), ?_, rfl⟩⟩, rfl, rfl, hrange, rfl⟩
    exact sysWrite_screen hopen hfile hscreen _ _ _ _ _ _

end

/-- A process whose descriptor 0 is the screen. -/
def onlyScreen : Io := { onlyStdin with fMode := fun _ => FT_SCREEN }

/-- The text `"hi"`. -/
theorem sysWrite_prints_iff_hi :
    PrintsBytes blankAround onlyScreen 0 [0x68, 0x69] (fun _ => 0) (fun _ => 0) 0 :=
  (sysWrite_prints_iff (f := 0) ⟨by decide, by decide, by decide⟩ rfl rfl (by decide) (by decide)
    _ _ _).mpr (by decide) blankAround

/-- The text `"%d"` is one digit on the screen: `console_print` takes the buffer of the program for
a format, and there is a word on the stack to print. -/
theorem percent_not_printed :
    ¬PrintsBytes blankAround onlyScreen 0 [0x25, 0x64] (fun _ => 0) (fun _ => 0) 0 := by
  rintro ⟨r, hok, hret, -⟩
  have hone : (sysWriteScreen blankAround onlyScreen 0 [0x25, 0x64] (fun _ => 0) (fun _ => 0) 0).map
      Printed.ret = .ok 1 := rfl
  rw [hok] at hone
  exact absurd (hret.symm.trans (Except.ok.inj hone)) (by decide)

end Fizzos.Proofs
