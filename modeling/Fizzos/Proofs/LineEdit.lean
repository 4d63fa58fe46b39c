import Fizzos.Proofs.Keyboard
import Fizzos.Proofs.PutChar

/-!
# `Fizzos.Proofs.LineEdit`: text that is typed, and a line that is edited

Every ASCII text can be typed: the queue gets it, character by character (`typeText_roundtrip`).
While a line is edited, the screen shows what the queue has, and the cursor is behind it
(`editSystem_shows`).
-/

set_option autoImplicit false

namespace Fizzos.Proofs

open Fizzos.Device
open Fizzos.Kernel
open Fizzos.LibKernel
open Fizzos.Support

/-! ### Keys and characters -/

/-- A key with a character types it when it goes down, and moves no other key. -/
theorem charCode_spec : ∀ code ∈ charCodes, IsChar code ∧ ¬Beyond code ∧ ¬IsChar (code ||| 0x80) ∧
    ¬Beyond (code ||| 0x80) ∧ code ≠ CAPS_MAKE ∧ code ||| 0x80 ≠ CAPS_MAKE ∧
    code ∉ [L_SHFT_MAKE, R_SHFT_MAKE] ∧ code ∉ [L_SHFT_BREAK, R_SHFT_BREAK] ∧
    code ||| 0x80 ∉ [L_SHFT_MAKE, R_SHFT_MAKE] ∧ code ||| 0x80 ∉ [L_SHFT_BREAK, R_SHFT_BREAK] := by
  decide +kernel

/-- Every ASCII character is on the keyboard. -/
theorem exists_charCode : ∀ c : Byte, Printable c → c ≠ BACKSPACE ∧
    ((charCodes.find? fun code => keymapAt code false = c).isSome ∨
      (charCodes.find? fun code => keymapAt code true = c).isSome) := by
  decide +kernel

/-- The log behind the scan codes `cs`. -/
def logOf (log : List KeyAct) (cs : List Byte) (current : Tid) : List KeyAct :=
  (cs.map (.key · current)).reverse ++ log

section
variable {log : List KeyAct} {current : Tid} {code c : Byte} {cs : List Byte}

theorem logOf_cons : logOf log (code :: cs) current = logOf
    (.key code current :: log) cs current := by
  rw [logOf, List.map_cons, List.reverse_cons, List.append_assoc]
  rfl

theorem logOf_append (cs cs' : List Byte) :
    logOf log (cs ++ cs') current = logOf (logOf log cs current) cs' current := by
  rw [logOf, List.map_append, List.reverse_append, List.append_assoc]
  rfl

/-- The keys are in the state in which text can be typed. -/
structure Lower (log : List KeyAct) : Prop where
  shift : shiftHeld (codes log) = false
  caps : capsOn (codes log) = false

theorem shiftHeld_cons (codes : List Byte) (code : Byte) : shiftHeld (code :: codes)
    = afterKey [L_SHFT_MAKE, R_SHFT_MAKE] [L_SHFT_BREAK, R_SHFT_BREAK] (shiftHeld codes) code :=
  held_cons _ _ _ _

/-- A key goes down and up. -/
theorem press_spec (hcode : code ∈ charCodes) :
    typedLine (logOf log (press code) current) = typeChar (typedLine log) (typed (codes log) code) ∧
      shiftHeld (codes (logOf log (press code) current)) = shiftHeld (codes log) ∧
      capsOn (codes (logOf log (press code) current)) = capsOn (codes log) := by
  obtain ⟨hchar, -, hup, -, hcaps, hcapsUp, hmake, hbreak, hmakeUp,
      hbreakUp⟩ := charCode_spec code hcode
  have hlog : logOf log (press code) current = .key (code ||| 0x80) current :: .key code current ::
      log := rfl
  have hcodes : codes (logOf log (press code) current) = (code ||| 0x80) :: code :: codes log := rfl
  rw [hcodes, shiftHeld_cons, shiftHeld_cons, capsOn_cons, capsOn_cons, if_neg hcaps,
    if_neg hcapsUp, hlog,
    typedLine, if_neg hup, typedLine, if_pos hchar]
  refine ⟨rfl, ?_, rfl⟩
  simp only [afterKey, if_neg hmake, if_neg hbreak, if_neg hmakeUp, if_neg hbreakUp]

theorem typed_lower (h : Lower log) (code : Byte) : typed
    (codes log) code = keymapAt code false := by
  rw [typed, h.shift, h.caps]
  rfl

/-- Only one key types backspace. -/
theorem backspace_code {shift : Bool} (hc : keymapAt code shift = c) (hne : c ≠ BACKSPACE) :
    code ≠ 0x0e := by
  rintro rfl
  refine hne (hc.symm.trans ?_)
  cases shift <;> rfl

theorem release_ne : ∀ code : Byte, code ||| 0x80 ≠ 0x0e := by
  decide +kernel

/-- The strokes for a character type it. -/
theorem strokes_spec (hprint : Printable c) (h : Lower log) (hroom : (typedLine log).length < 100) :
    typedLine (logOf log (strokes c) current) = typedLine log ++ [c] ∧
      Lower (logOf log (strokes c) current) ∧ ∀ code ∈ strokes c, ¬Beyond code ∧ code ≠ 0x0e := by
  obtain ⟨hne, hkey⟩ := exists_charCode c hprint
  have htype : typeChar (typedLine log) c = typedLine log ++ [c] := by
    rw [typeChar, if_neg hne, if_pos hroom]
  unfold strokes
  cases hlower : charCodes.find? fun code => keymapAt code false = c with
  | some code =>
      have hcode : code ∈ charCodes := List.mem_of_find?_eq_some hlower
      have hc : keymapAt code false = c := by simpa using List.find?_some hlower
      obtain ⟨hline, hshift, hcaps⟩ := @press_spec log current code hcode
      obtain ⟨-, hin, -, hinUp, -⟩ := charCode_spec code hcode
      have hne₁ := backspace_code hc hne
      refine ⟨?_, ⟨hshift.trans h.shift, hcaps.trans h.caps⟩, ?_⟩
      · rw [hline, typed_lower h, hc, htype]
      · simpa [press] using ⟨⟨hin, hne₁⟩, hinUp, release_ne code⟩
  | none =>
      rw [hlower] at hkey
      obtain ⟨code, hupper⟩ := Option.isSome_iff_exists.mp (hkey.resolve_left (by simp))
      have hcode : code ∈ charCodes := List.mem_of_find?_eq_some hupper
      have hc : keymapAt code true = c := by simpa using List.find?_some hupper
      obtain ⟨-, hin, -, hinUp, -⟩ := charCode_spec code hcode
      -- Shift goes down, the key types the character of the second column, and shift comes up.
      have hdown : shiftHeld (codes (.key L_SHFT_MAKE current :: log)) = true := by
        rw [show codes (.key L_SHFT_MAKE current :: log) = L_SHFT_MAKE :: codes log from rfl,
          shiftHeld_cons]
        rfl
      have hcapsDown : capsOn (codes (.key L_SHFT_MAKE current :: log)) = false := by
        rw [show codes (.key L_SHFT_MAKE current :: log) = L_SHFT_MAKE :: codes log from rfl,
          capsOn_cons,
          if_neg (by decide), h.caps]
      obtain ⟨hline, -, hcaps⟩ := @press_spec (.key L_SHFT_MAKE current :: log) current code hcode
      have hmake : typedLine (.key L_SHFT_MAKE current :: log) = typedLine log := if_neg (by decide)
      have htyped : typed (codes (.key L_SHFT_MAKE current :: log)) code = c := by
        rw [typed, hdown, hcapsDown]
        exact hc
      simp only [hupper]
      rw [List.cons_append, logOf_cons, logOf_append]
      refine ⟨?_, ⟨?_, ?_⟩, ?_⟩
      · exact (if_neg (by decide)).trans (hline.trans (by rw [hmake, htyped, htype]))
      · exact (shiftHeld_cons _ _).trans rfl
      · exact (capsOn_cons _ _).trans ((if_neg (by decide)).trans (hcaps.trans hcapsDown))
      · simp only [press, List.cons_append, List.nil_append, List.mem_cons,
          List.not_mem_nil, or_false]
        rintro _ (rfl | rfl | rfl | rfl)
        · decide
        · exact ⟨hin, backspace_code hc hne⟩
        · exact ⟨hinUp, release_ne code⟩
        · decide

/-- All characters of a text. -/
theorem text_spec (text : List Byte) (hprint : ∀ c ∈ text, Printable c) (h : Lower log)
    (hroom : (typedLine log).length + text.length ≤ 100) :
    typedLine (logOf log (text.flatMap strokes) current) = typedLine log ++ text ∧
      Lower (logOf log (text.flatMap strokes) current) ∧ ∀ code ∈ text.flatMap strokes,
        ¬Beyond code ∧ code ≠ 0x0e := by
  induction text generalizing log with
  | nil => exact ⟨(List.append_nil _).symm, h, by simp⟩
  | cons c text ih =>
      rw [List.length_cons] at hroom
      obtain ⟨hline, hlower, hin⟩ := @strokes_spec log current c (hprint c List.mem_cons_self) h
        (by omega)
      obtain ⟨hrest, hlower', hin'⟩ := @ih (logOf log (strokes c) current)
        (fun d hd => hprint d (List.mem_cons_of_mem _ hd)) hlower (by
          rw [hline, List.length_append, List.length_singleton]
          omega)
      rw [List.flatMap_cons, logOf_append]
      refine ⟨?_, hlower', fun code hcode => ?_⟩
      · rw [hrest, hline, List.append_assoc]
        rfl
      · exact (List.mem_append.mp hcode).elim (hin code) (hin' code)

end

/-! ### Text -/

section
variable {s : KeyRun} {current : Tid}

/-- Every ASCII text can be typed, with new lines and tabs, in every state in which shift and caps
are off and the queue has room. The handler returns for each scan code, and the queue gets the
text. -/
theorem typeText_roundtrip (hs : keyboardSystem.Reachable s) (hshift : s.kbd.shiftStatus = false)
    (hcaps : s.kbd.capsStatus = false) {text : List Byte} (hprint : ∀ c ∈ text, Printable c)
    (hroom : s.kbd.queue.content.length + text.length ≤ 100) :
    keyboardSystem.Runs s (typeText text current) ∧
      ((typeText text current).foldl keyboardSystem.after s).kbd.queue.content
        = s.kbd.queue.content ++ text := by
  have h := keyboardSystem_inductive.reachable hs
  have hlower : Lower s.log := ⟨h.shift ▸ hshift, h.caps ▸ hcaps⟩
  rw [h.content] at hroom
  obtain ⟨hline, -, hin⟩ := @text_spec s.log current text hprint hlower hroom
  obtain ⟨hruns, hinv, hlog⟩ := @runs_keys s current h (text.flatMap strokes) hin
  refine ⟨hruns, ?_⟩
  rw [h.content, ← hline]
  exact hinv.content.trans (congrArg typedLine hlog)

end

theorem typeText_roundtrip_hi : ∃ s, keyboardSystem.Reachable s ∧
    s.kbd.queue.content = [ascii 'H', ascii 'i', NEWLINE] := by
  obtain ⟨s, hinit, -⟩ := exists_keyRun
  have h := keyboardSystem_inductive.init hinit
  have hempty : s.kbd.queue.content = [] := by rw [h.content, hinit.1]; rfl
  have hshift : s.kbd.shiftStatus = false := by rw [h.shift, hinit.1]; rfl
  have hcaps : s.kbd.capsStatus = false := by rw [h.caps, hinit.1]; rfl
  have htext : ∀ c ∈ [ascii 'H', ascii 'i', NEWLINE], Printable c := by decide
  obtain ⟨hruns, hcontent⟩ := @typeText_roundtrip s 0 (.init hinit) hshift hcaps _ htext
      (by rw [hempty]; decide)
  rw [hempty] at hcontent
  exact ⟨_, System.Reachable.runs (.init hinit) hruns, hcontent⟩

/-! ### The screen -/

/-- A line on the screen, from the cell `p` on, with the cursor behind it. The cells in front of it
have what they had on `t`. -/
structure Shows (p : Nat) (text : List Byte) (t u : Screen) : Prop where
  cursor : u.cursor.toNat = p + text.length
  cells : ∀ i c, text[i]? = some c → u.video.mem (2 * (p + i)) = c
  before : ∀ a < 2 * p, u.video.mem a = t.video.mem a

section
variable {p : Nat} {line : List Byte} {t u u' : Screen} {c : Byte}

/-- A character goes behind the line. -/
theorem Shows.push (h : Shows p line t u) (hroom : p + line.length + 1 < 2000) (hcr : c ≠ 0xd)
    (hlf : c ≠ NEWLINE) (hbs : c ≠ BACKSPACE) (hnul : c ≠ 0) (hecho : echo u c = .ok u') :
    Shows p (line ++ [c]) t u' := by
  have hcursor := h.cursor
  have hnext : (u.cursor + 1).toNat = u.cursor.toNat + 1 := toNat_succ (by omega)
  have hput : echo u c = .ok ⟨u.cursor + 1,
      (u.video.store (2 * u.cursor.toNat) c).store (2 * u.cursor.toNat + 1) 0x07⟩ := by
    rw [echo, if_neg hnul, putChar, if_neg hcr]
    refine (if_neg hlf).trans ((if_neg hbs).trans ((putOther_eq (by omega) c).trans ?_))
    rw [hcursor, if_pos hroom]
  obtain rfl := Except.ok.inj (hput.symm.trans hecho)
  refine ⟨?_, fun i d hi => ?_, fun a ha => ?_⟩
  · rw [hnext, hcursor, List.length_append, List.length_singleton, Nat.add_assoc]
  · show ((u.video.store _ c).store _ 0x07).mem _ = d
    rw [Stored.store_mem_of_ne (by omega), hcursor]
    by_cases hlast : i = line.length
    · subst hlast
      rw [Stored.store_mem_self]
      simpa using hi
    · rw [Stored.store_mem_of_ne (by omega)]
      refine h.cells i d ?_
      have hlt : i < (line ++ [c]).length := (List.getElem?_eq_some_iff.mp hi).1
      rw [List.length_append, List.length_singleton] at hlt
      rwa [List.getElem?_append_left (by omega)] at hi
  · show ((u.video.store _ c).store _ 0x07).mem a = _
    rw [Stored.store_mem_of_ne (by omega), Stored.store_mem_of_ne (by omega), h.before a ha]

/-- Backspace takes the last character. -/
theorem Shows.pop (h : Shows p line t u) (hne : line ≠ []) (hroom : p + line.length < 2000)
    (hecho : echo u BACKSPACE = .ok u') : Shows p line.dropLast t u' := by
  have hcursor := h.cursor
  have hlen : 0 < line.length := List.length_pos_of_ne_nil hne
  have hdec : (u.cursor - 1).toNat = u.cursor.toNat - 1 := by bv_omega
  obtain rfl := Except.ok.inj ((backspace_eq (by omega) (by omega)).symm.trans hecho)
  refine ⟨?_, fun i d hi => ?_, fun a ha => ?_⟩
  · rw [hdec, List.length_dropLast, hcursor]
    omega
  · show ((u.video.store _ 0x20).store _ 0x07).mem _ = d
    have hlt : i < line.dropLast.length := (List.getElem?_eq_some_iff.mp hi).1
    rw [List.length_dropLast] at hlt
    rw [Stored.store_mem_of_ne (by omega), Stored.store_mem_of_ne (by omega)]
    refine h.cells i d ?_
    rwa [List.getElem?_dropLast, if_pos hlt] at hi
  · show ((u.video.store _ 0x20).store _ 0x07).mem a = _
    rw [Stored.store_mem_of_ne (by omega), Stored.store_mem_of_ne (by omega), h.before a ha]

end

/-- No key types a carriage return. -/
theorem keyChar_ne : ∀ code : Byte, IsChar code → ∀ shift caps : Bool,
    (if caps then swapCase (keymapAt code shift) else keymapAt code shift) ≠ 0xd := by
  decide +kernel

/-- What the queue has is on the screen. -/
structure EditInv (s₀ s : KeyRun) : Prop where
  key : KeyInv s
  shows : Shows s₀.cursor s.kbd.queue.content s₀.kbd.console.screen s.kbd.console.screen
  room : s₀.cursor + s.kbd.queue.content.length < 2000

theorem EditInv.key_step {s₀ s s' : KeyRun} (h : EditInv s₀ s) {code : Byte} {current : Tid}
    (ha : Edits s₀.cursor s (.key code current)) (hok : s.next (.key code current) = .ok s') :
    EditInv s₀ s' := by
  obtain ⟨k, hk, hret⟩ := bind_eq_ok.mp hok
  obtain rfl := Except.ok.inj hret
  have hk : s.kbd.keyboardHandler code current = .ok k := hk
  obtain ⟨hin, hfirst⟩ := h.key.of_returns hk
  obtain ⟨k', hok', h'⟩ := h.key.key hin hfirst current
  obtain rfl := Except.ok.inj (hok'.symm.trans hk)
  have hshows := h.shows
  have hroom := h.room
  by_cases hchar : IsChar code
  · -- the queue has the line with this character, and the screen its echo
    obtain ⟨k₁, hok₁, -, -, -, -, -, hecho⟩ := handler_echo h.key.ok hchar hfirst current
    obtain rfl := Except.ok.inj (hok₁.symm.trans hk)
    have hline : k₁.queue.content = typeChar s.kbd.queue.content (s.kbd.keyChar code) := by
      rw [h'.content, h.key.content, h.key.keyChar]
      exact if_pos hchar
    have hedit := ha hchar
    refine ⟨h', ?_, ?_⟩
    · show Shows _ k₁.queue.content _ k₁.console.screen
      rw [hline]
      by_cases hbs : s.kbd.keyChar code = BACKSPACE
      · rw [if_pos hbs] at hedit
        rw [hbs] at hecho ⊢
        exact hshows.pop hedit hroom hecho
      · rw [if_neg hbs] at hedit
        obtain ⟨hnul, hlf, hlen, hfits⟩ := hedit
        rw [typeChar, if_neg hbs, if_pos hlen]
        exact hshows.push hfits (keyChar_ne code hchar _ _) hlf hbs hnul hecho
    · show _ + k₁.queue.content.length < 2000
      rw [hline]
      by_cases hbs : s.kbd.keyChar code = BACKSPACE
      · rw [hbs, typeChar, if_pos rfl, List.length_dropLast]
        omega
      · rw [if_neg hbs] at hedit
        rw [typeChar, if_neg hbs, if_pos hedit.2.2.1, List.length_append, List.length_singleton]
        exact hedit.2.2.2
  · -- a key without a character changes neither the queue nor the screen
    obtain rfl := Except.ok.inj ((handler_other hchar hin current).symm.trans hk)
    exact ⟨h', hshows, hroom⟩

/-- While a line is edited, the screen shows it: from a state with an empty queue on, and for any
order of keys that stays on the screen and in the queue, each character of the queue is in its cell,
the cursor is behind the last one, and what was in front of the line is still there. -/
theorem editSystem_shows {s₀ s : KeyRun} (hs₀ : keyboardSystem.Reachable s₀)
    (hempty : s₀.kbd.queue.content = []) (hcursor : s₀.cursor < 2000)
    (hs : (editSystem s₀).Reachable s) :
    Shows s₀.cursor s.kbd.queue.content s₀.kbd.console.screen s.kbd.console.screen := by
  have hinductive : (editSystem s₀).Inductive (EditInv s₀) := by
    constructor
    · rintro s rfl
      refine ⟨keyboardSystem_inductive.reachable hs₀, ⟨?_, ?_, fun _ _ => rfl⟩, ?_⟩
      · rw [hempty]
        rfl
      · rw [hempty]
        simp
      · rw [hempty]
        exact hcursor
    · rintro s s' (⟨code, current⟩ | current | ⟨count, current⟩) h ha hok
      · exact h.key_step ha hok
      · exact ha.elim
      · exact ha.elim
  exact (hinductive.reachable hs).shows

/-- A key in a run of edits. -/
theorem editSystem_key {s₀ s : KeyRun} (code : Byte) (current : Tid)
    (hs : (editSystem s₀).Reachable s) (h : KeyInv s) (hin : ¬Beyond code)
    (hfirst : ¬(code = 0x0e ∧ s.cursor = 0)) (hedit : Edits s₀.cursor s (.key code current)) : ∃ k,
    (editSystem s₀).Reachable ⟨k, .key code current :: s.log⟩ ∧
      KeyInv ⟨k, .key code current :: s.log⟩ := by
  obtain ⟨k, hok, hk⟩ := h.key hin hfirst current
  have henabled : (editSystem s₀).enabled s (.key code current) := hedit
  have hnext : (editSystem s₀).next s (.key code current)
      = .ok ⟨k, .key code current :: s.log⟩ := by
    show KeyRun.next s _ = _
    rw [KeyRun.next, KeyRun.kbdAfter, hok]
    rfl
  exact ⟨k, hs.step henabled hnext, hk⟩

/-- Which keys edit the line, by the log. -/
theorem edits_iff {s : KeyRun} {p : Nat} {code : Byte} {current : Tid} {log : List KeyAct}
    (h : KeyInv s) (hlog : s.log = log) : Edits p s (.key code current) ↔
      (IsChar code → if typed (codes log) code = BACKSPACE then typedLine log ≠ []
        else typed (codes log) code ≠ 0 ∧ typed (codes log) code ≠ NEWLINE ∧
          (typedLine log).length < 100 ∧ p + (typedLine log).length + 1 < 2000) := by
  subst hlog
  rw [← h.keyChar, ← h.content]
  rfl

/-- The keys `a` and `b` on an empty screen, and a backspace. -/
theorem editSystem_shows_a : ∃ s₀ s, keyboardSystem.Reachable s₀ ∧ (editSystem s₀).Reachable s ∧
    s.kbd.queue.content = [ascii 'a'] ∧ s.cursor = 1 ∧
    s.kbd.console.screen.video.mem 0 = ascii 'a' := by
  obtain ⟨s₀, hinit, hcursor⟩ := exists_keyRun
  have h := keyboardSystem_inductive.init hinit
  have hempty : s₀.kbd.queue.content = [] := by rw [h.content, hinit.1]; rfl
  have hlog := hinit.1
  have hshows {s : KeyRun} (hs : (editSystem s₀).Reachable s) :=
    editSystem_shows (.init hinit) hempty (by rw [hcursor]; decide) hs
  -- each key is the right one by the log
  obtain ⟨k₁, hs₁, h₁⟩ := editSystem_key 0x1E 0 (.init rfl) h (by decide)
    (fun hfirst => absurd hfirst.1 (by decide)) ((edits_iff h hlog).mpr (by rw [hcursor]; decide))
  have hlog₁ : KeyAct.key 0x1E 0 :: s₀.log = [.key 0x1E 0] := by rw [hlog]
  obtain ⟨k₂, hs₂, h₂⟩ := editSystem_key 0x30 0 hs₁ h₁ (by decide)
    (fun hfirst => absurd hfirst.1 (by decide)) ((edits_iff h₁ hlog₁).mpr (by rw [hcursor]; decide))
  have hlog₂ : KeyAct.key 0x30 0 :: KeyAct.key 0x1E 0 :: s₀.log = [.key 0x30 0, .key 0x1E 0] := by
    rw [hlog]
  have htwo : typedLine (.key 0x30 0 :: .key 0x1E 0 :: s₀.log) = [ascii 'a', ascii 'b'] := by
    rw [hlog]
    decide
  have hbehind := (hshows hs₂).cursor
  rw [h₂.content, htwo, hcursor] at hbehind
  obtain ⟨k₃, hs₃, h₃⟩ := editSystem_key 0x0e 0 hs₂ h₂ (by decide)
    (fun hfirst => absurd (hbehind.symm.trans hfirst.2) (by decide))
    ((edits_iff h₂ hlog₂).mpr (by rw [hcursor]; decide))
  have hcontent : k₃.queue.content = [ascii 'a'] := by
    refine h₃.content.trans ?_
    dsimp only
    rw [hlog]
    decide
  have hlast := (hshows hs₃).cursor
  have hcell := (hshows hs₃).cells 0 (ascii 'a') (by rw [hcontent]; rfl)
  rw [hcursor] at hcell hlast
  rw [hcontent] at hlast
  exact ⟨s₀, _, .init hinit, hs₃, hcontent, hlast, hcell⟩

end Fizzos.Proofs
