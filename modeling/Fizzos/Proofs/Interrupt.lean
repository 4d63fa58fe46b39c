import Fizzos.Kernel.Interrupt
import Fizzos.Proofs.IdeChannel
import Fizzos.Proofs.Trap
import Fizzos.Support.Stores

/-!
# `Fizzos.Proofs.Interrupt`: device interrupts reach their drivers

Behind `pic_init` at most one line of each controller is in service, and only while the entry runs
(`PicInv`). So the end of interrupt that goes to both controllers, also for an interrupt of the
first one, for a spurious one, and for an exception, never ends another interrupt. Only the timer,
the keyboard and the first disk channel get through (`irq_delivered`).
-/

set_option autoImplicit false

namespace Fizzos.Proofs

open Fizzos.Device
open Fizzos.Kernel
open Fizzos.Support
open Fizzos.Support.X86

/-! ### The controllers -/

/-- What `pic_init` leaves, with the lines in service and the requests. -/
def masterPic (isr irr : BitVec 8) : Pic := ⟨0x20, 0xf8, isr, irr, 0x04, false, []⟩

/-- The second controller, on line 2 of the first. -/
def slavePic (isr irr : BitVec 8) : Pic := ⟨0x28, 0xbf, isr, irr, 0x02, false, []⟩

/-- The first controller lets the lines 0, 1 and 2 through, in this order. -/
theorem pending_master (irr : BitVec 8) :
    Pic.pending irr 0xf8 0 = if irr.getLsbD 0 then some 0 else if irr.getLsbD 1 then some 1
      else if irr.getLsbD 2 then some 2 else none := by
  revert irr
  decide +kernel

/-- The second one lets its line 6 through, which is the line of the first disk channel. -/
theorem pending_slave (irr : BitVec 8) :
    Pic.pending irr 0xbf 0 = if irr.getLsbD 6 then some 6 else none := by
  revert irr
  decide +kernel

/-- A line in service blocks itself. -/
theorem pending_slave_served (irr : BitVec 8) : Pic.pending irr 0xbf (0 ||| Pic.line 6) = none := by
  revert irr
  decide +kernel

/-- A request of the second controller is a request on line 2. -/
theorem getLsbD_or_line (irr : BitVec 8) : (irr ||| Pic.line 2).getLsbD 2 = true := by
  revert irr
  decide +kernel

/-- An answer to the timer or the keyboard leaves the request on line 2. -/
theorem getLsbD_and_line (irr : BitVec 8) (h : irr.getLsbD 2 = true) :
    (irr &&& ~~~Pic.line 0).getLsbD 2 = true ∧ (irr &&& ~~~Pic.line 1).getLsbD 2 = true := by
  revert irr
  decide +kernel

/-- The second controller is linked to the first one. -/
theorem linked_spec (isr irr isr' irr' : BitVec 8) :
    ∃ x, Pics.linked ⟨masterPic isr irr, slavePic isr' irr'⟩
      = ⟨masterPic isr x, slavePic isr' irr'⟩ ∧
      ((slavePic isr' irr').request.isSome → x.getLsbD 2 = true) := by
  unfold Pics.linked
  split
  · exact ⟨_, rfl, fun _ => getLsbD_or_line irr⟩
  · next hnone => exact ⟨irr, rfl, fun h => absurd h hnone⟩

/-- The wire between the controllers changes the requests of the first one, and nothing else. -/
theorem linked_eq (c : Pics) : ∃ x, c.linked = ⟨{ c.master with irr := x }, c.slave⟩ := by
  unfold Pics.linked
  split
  · exact ⟨_, rfl⟩
  · exact ⟨c.master.irr, rfl⟩

/-- The four words for the first controller. -/
theorem outs_master (c : Pics) :
    ∃ x, c.outs [(PIC_M_CTRL, 0x11), (PIC_M_DATA, 0x20), (PIC_M_DATA, 0x04), (PIC_M_DATA, 0x01)] =
      ⟨⟨0x20, 0, 0, x, 0x04, false, []⟩, c.slave⟩ := by
  obtain ⟨x₁, h₁⟩ : ∃ x, c.out (PIC_M_CTRL, 0x11) =
      ⟨⟨c.master.base, 0, 0, x, 0, false, [.icw2, .icw3, .icw4]⟩, c.slave⟩ := linked_eq _
  obtain ⟨x₂, h₂⟩ : ∃ x,
    Pics.out ⟨⟨c.master.base, 0, 0, x₁, 0, false, [.icw2, .icw3, .icw4]⟩, c.slave⟩
      (PIC_M_DATA, 0x20) = ⟨⟨0x20, 0, 0, x, 0, false, [.icw3, .icw4]⟩, c.slave⟩ := linked_eq _
  obtain ⟨x₃, h₃⟩ : ∃ x, Pics.out ⟨⟨0x20, 0, 0, x₂, 0, false, [.icw3, .icw4]⟩, c.slave⟩
      (PIC_M_DATA, 0x04) = ⟨⟨0x20, 0, 0, x, 0x04, false, [.icw4]⟩, c.slave⟩ := linked_eq _
  obtain ⟨x₄, h₄⟩ : ∃ x, Pics.out ⟨⟨0x20, 0, 0, x₃, 0x04, false, [.icw4]⟩, c.slave⟩
      (PIC_M_DATA, 0x01) = ⟨⟨0x20, 0, 0, x, 0x04, false, []⟩, c.slave⟩ := linked_eq _
  refine ⟨x₄, ?_⟩
  rw [Pics.outs_cons, h₁, Pics.outs_cons, h₂, Pics.outs_cons, h₃, Pics.outs_cons, h₄, Pics.outs_nil]

/-- The four words for the second one. -/
theorem outs_slave (c : Pics) :
    ∃ x, c.outs [(PIC_S_CTRL, 0x11), (PIC_S_DATA, 0x28), (PIC_S_DATA, 0x02), (PIC_S_DATA, 0x01)] =
      ⟨{ c.master with irr := x }, ⟨0x28, 0, 0, 0, 0x02, false, []⟩⟩ := by
  obtain ⟨x₁, h₁⟩ : ∃ x, c.out (PIC_S_CTRL, 0x11) = ⟨{ c.master with irr := x },
      ⟨c.slave.base, 0, 0, 0, 0, false, [.icw2, .icw3, .icw4]⟩⟩ := linked_eq _
  obtain ⟨x₂, h₂⟩ : ∃ x, Pics.out ⟨{ c.master with irr := x₁ },
      ⟨c.slave.base, 0, 0, 0, 0, false, [.icw2, .icw3, .icw4]⟩⟩ (PIC_S_DATA, 0x28) =
        ⟨{ c.master with irr := x }, ⟨0x28, 0, 0, 0, 0, false, [.icw3, .icw4]⟩⟩ := linked_eq _
  obtain ⟨x₃, h₃⟩ : ∃ x, Pics.out ⟨{ c.master with irr := x₂ },
      ⟨0x28, 0, 0, 0, 0, false, [.icw3, .icw4]⟩⟩ (PIC_S_DATA, 0x02) =
        ⟨{ c.master with irr := x }, ⟨0x28, 0, 0, 0, 0x02, false, [.icw4]⟩⟩ := linked_eq _
  obtain ⟨x₄, h₄⟩ : ∃ x, Pics.out ⟨{ c.master with irr := x₃ },
      ⟨0x28, 0, 0, 0, 0x02, false, [.icw4]⟩⟩ (PIC_S_DATA, 0x01) =
        ⟨{ c.master with irr := x }, ⟨0x28, 0, 0, 0, 0x02, false, []⟩⟩ := linked_eq _
  refine ⟨x₄, ?_⟩
  rw [Pics.outs_cons, h₁, Pics.outs_cons, h₂, Pics.outs_cons, h₃, Pics.outs_cons, h₄, Pics.outs_nil]

/-- `pic_init` works from every state. -/
theorem outs_picInit (c : Pics) : ∃ irr, c.outs picInit = ⟨masterPic 0 irr, slavePic 0 0⟩ := by
  obtain ⟨x₁, h₁⟩ := outs_master c
  obtain ⟨x₂, h₂⟩ := outs_slave ⟨⟨0x20, 0, 0, x₁, 0x04, false, []⟩, c.slave⟩
  obtain ⟨x₃, h₃⟩ : ∃ x,
    Pics.out ⟨⟨0x20, 0, 0, x₂, 0x04, false, []⟩, ⟨0x28, 0, 0, 0, 0x02, false, []⟩⟩
      (PIC_M_DATA, 0xf8) = ⟨masterPic 0 x, ⟨0x28, 0, 0, 0, 0x02, false, []⟩⟩ := linked_eq _
  obtain ⟨x₄, h₄⟩ : ∃ x,
    Pics.out ⟨masterPic 0 x₃, ⟨0x28, 0, 0, 0, 0x02, false, []⟩⟩ (PIC_S_DATA, 0xbf) =
      ⟨masterPic 0 x, slavePic 0 0⟩ := linked_eq _
  refine ⟨x₄, ?_⟩
  calc c.outs picInit
      = ((c.outs [(PIC_M_CTRL, 0x11), (PIC_M_DATA, 0x20), (PIC_M_DATA, 0x04),
        (PIC_M_DATA, 0x01)]).outs
          [(PIC_S_CTRL, 0x11), (PIC_S_DATA, 0x28), (PIC_S_DATA, 0x02), (PIC_S_DATA, 0x01)]).outs
            [(PIC_M_DATA, 0xf8), (PIC_S_DATA, 0xbf)] := rfl
    _ = Pics.outs ⟨⟨0x20, 0, 0, x₂, 0x04, false, []⟩, ⟨0x28, 0, 0, 0, 0x02, false, []⟩⟩
          [(PIC_M_DATA, 0xf8), (PIC_S_DATA, 0xbf)] := by rw [h₁, h₂]
    _ = ⟨masterPic 0 x₄, slavePic 0 0⟩ := by
        rw [Pics.outs_cons, h₃, Pics.outs_cons, h₄, Pics.outs_nil]

/-! ### Runs -/

/-- A vector with its line: one of the three drivers, or a spurious interrupt. -/
def Routed (d : BitVec 8 × Option Nat) : Prop :=
  (∃ line, (line = 0 ∨ line = 1 ∨ line = 14) ∧ d = (0x20 + BitVec.ofNat 8 line, some line)) ∨
    d = (0x27, none) ∨ d = (0x2f, none)

/-- One line in service, or none. -/
def OneLine (isr : BitVec 8) : Prop := isr &&& (isr - 1) = 0

instance (isr : BitVec 8) : Decidable (OneLine isr) := inferInstanceAs (Decidable (_ = _))

/-- The controllers have at most one line in service each, and none outside of an entry. -/
structure PicInv (s : PicState) : Prop where
  pics : ∃ isr irr isr' irr', s.pics = ⟨masterPic isr irr, slavePic isr' irr'⟩ ∧
    OneLine isr ∧ OneLine isr' ∧ (s.entering = false → isr = 0 ∧ isr' = 0) ∧
    ((slavePic isr' irr').request.isSome → irr.getLsbD 2 = true)
  delivered : ∀ d ∈ s.delivered, Routed d

/-- What the processor gets with no line in service, and what the controllers have then. -/
theorem ack_spec (irr irr' : BitVec 8)
    (hlink : (slavePic 0 irr').request.isSome → irr.getLsbD 2 = true) :
    ∃ v line isr x isr' x', Pics.ack ⟨masterPic 0 irr, slavePic 0 irr'⟩ =
        (v, line, ⟨masterPic isr x, slavePic isr' x'⟩) ∧ Routed (v, line) ∧
      OneLine isr ∧ OneLine isr' ∧ ((slavePic isr' x').request.isSome → x.getLsbD 2 = true) := by
  have hmaster : (masterPic 0 irr).request = _ := pending_master irr
  have hslave : (slavePic 0 irr').request = _ := pending_slave irr'
  unfold Pics.ack
  rw [hmaster]
  -- The lines are asked for in the order of their priority: timer, keyboard, second controller.
  by_cases h₀ : irr.getLsbD 0 = true
  · rw [if_pos h₀]
    refine ⟨0x20 + BitVec.ofNat 8 0, some 0, 0 ||| Pic.line 0, irr &&& ~~~Pic.line 0, 0, irr', ?_,
      .inl ⟨0, .inl rfl, rfl⟩, by decide, by decide, fun h => (getLsbD_and_line irr (hlink h)).1⟩
    exact if_neg (show ¬(0x04 : BitVec 8).getLsbD 0 = true by decide)
  rw [if_neg h₀]
  by_cases h₁ : irr.getLsbD 1 = true
  · rw [if_pos h₁]
    refine ⟨0x20 + BitVec.ofNat 8 1, some 1, 0 ||| Pic.line 1, irr &&& ~~~Pic.line 1, 0, irr', ?_,
      .inl ⟨1, .inr (.inl rfl), rfl⟩, by decide, by decide, fun h =>
        (getLsbD_and_line irr (hlink h)).2⟩
    exact if_neg (show ¬(0x04 : BitVec 8).getLsbD 1 = true by decide)
  rw [if_neg h₁]
  by_cases h₂ : irr.getLsbD 2 = true
  · -- the line of the second controller
    rw [if_pos h₂]
    have hcascade : (0x04 : BitVec 8).getLsbD 2 = true := by decide
    by_cases h₆ : irr'.getLsbD 6 = true
    · rw [if_pos h₆] at hslave
      have hserved : (slavePic (0 ||| Pic.line 6) (irr' &&& ~~~Pic.line 6)).request = none :=
        pending_slave_served _
      refine ⟨0x28 + BitVec.ofNat 8 6, some (8 + 6), 0 ||| Pic.line 2, irr &&& ~~~Pic.line 2,
        0 ||| Pic.line 6, irr' &&& ~~~Pic.line 6, ?_,
          .inl ⟨14, .inr (.inr rfl), by decide⟩, by decide,
        by decide, fun h => ?_⟩
      · simp only [hslave]
        exact if_pos hcascade
      · rw [hserved] at h
        cases h
    · -- the disk has withdrawn its request, and the second controller gives its line 7
      rw [if_neg h₆] at hslave
      refine ⟨0x28 + 7, none, 0 ||| Pic.line 2, irr &&& ~~~Pic.line 2, 0, irr', ?_,
        .inr (.inr (by decide)), by decide, by decide, fun h => ?_⟩
      · simp only [hslave]
        exact if_pos hcascade
      · rw [hslave] at h
        cases h
  · rw [if_neg h₂]
    exact ⟨0x20 + 7, none, 0, irr, 0, irr', rfl,
      .inr (.inl (by decide)), by decide, by decide, hlink⟩

/-- A change of the requests of one controller. -/
theorem change_spec (f : BitVec 8 → Nat → BitVec 8) (isr irr isr' irr' : BitVec 8) (i : Nat) :
    ∃ x x', Pics.linked (if i < 8 then ⟨masterPic isr (f irr i), slavePic isr' irr'⟩
        else ⟨masterPic isr irr, slavePic isr' (f irr' (i - 8))⟩)
          = ⟨masterPic isr x, slavePic isr' x'⟩ ∧
      ((slavePic isr' x').request.isSome → x.getLsbD 2 = true) := by
  split
  · obtain ⟨x, hx, hlink⟩ := linked_spec isr (f irr i) isr' irr'
    exact ⟨x, irr', hx, hlink⟩
  · obtain ⟨x, hx, hlink⟩ := linked_spec isr irr isr' (f irr' (i - 8))
    exact ⟨x, _, hx, hlink⟩

/-- A device that raises a request changes requests only, and a request of the second controller
shows at the first. -/
theorem raise_spec (isr irr isr' irr' : BitVec 8) (i : Nat) :
    ∃ x x', Pics.raise ⟨masterPic isr irr, slavePic isr' irr'⟩ i
      = ⟨masterPic isr x, slavePic isr' x'⟩ ∧
      ((slavePic isr' x').request.isSome → x.getLsbD 2 = true) :=
  change_spec (fun irr i => irr ||| Pic.line i) isr irr isr' irr' i

/-- A device that takes its request back, in the same way. The first controller may be left with a
request that nothing stands behind. -/
theorem withdraw_spec (isr irr isr' irr' : BitVec 8) (i : Nat) :
    ∃ x x', Pics.withdraw ⟨masterPic isr irr, slavePic isr' irr'⟩ i
      = ⟨masterPic isr x, slavePic isr' x'⟩ ∧
      ((slavePic isr' x').request.isSome → x.getLsbD 2 = true) :=
  change_spec (fun irr i => irr &&& ~~~Pic.line i) isr irr isr' irr' i

/-- The end of interrupt for both controllers. -/
theorem outs_eoi {isr isr' : BitVec 8} (irr irr' : BitVec 8) (hone : OneLine isr)
    (hone' : OneLine isr') :
    ∃ x, Pics.outs ⟨masterPic isr irr, slavePic isr' irr'⟩ eoiBytes
      = ⟨masterPic 0 x, slavePic 0 irr'⟩ ∧
      ((slavePic 0 irr').request.isSome → x.getLsbD 2 = true) := by
  obtain ⟨x₁, h₁, -⟩ := linked_spec isr irr (isr' &&& (isr' - 1)) irr'
  obtain ⟨x₂, h₂, hlink⟩ := linked_spec (isr &&& (isr - 1)) x₁ (isr' &&& (isr' - 1)) irr'
  have hslave : Pics.out ⟨masterPic isr irr, slavePic isr' irr'⟩ (0xa0, 0x20) =
      ⟨masterPic isr x₁, slavePic (isr' &&& (isr' - 1)) irr'⟩ := h₁
  have hmaster : Pics.out ⟨masterPic isr x₁, slavePic (isr' &&& (isr' - 1)) irr'⟩ (0x20, 0x20) =
      ⟨masterPic (isr &&& (isr - 1)) x₂, slavePic (isr' &&& (isr' - 1)) irr'⟩ := h₂
  have hzero : isr &&& (isr - 1) = 0 := hone
  have hzero' : isr' &&& (isr' - 1) = 0 := hone'
  refine ⟨x₂, ?_, hzero' ▸ hlink⟩
  rw [eoiBytes, Pics.outs_cons, hslave, Pics.outs_cons, hmaster, Pics.outs_nil, hzero, hzero']

section
variable {s s' : PicState}

/-- Each action keeps the invariant: a request, an interrupt that the processor takes, and the bytes
of an entry. -/
theorem PicInv.next (h : PicInv s) {a : PicAct} (ha : s.Enabled a) (hok : s.next a = .ok s') :
    PicInv s' := by
  obtain ⟨isr, irr, isr', irr', hpics, hone, hone', hidle, hlink⟩ := h.pics
  cases a with
  | raise i =>
      obtain rfl := Except.ok.inj hok
      obtain ⟨x, x', hraise, hlink⟩ := raise_spec isr irr isr' irr' i
      rw [← hpics] at hraise
      exact ⟨⟨isr, x, isr', x', hraise, hone, hone', hidle, hlink⟩, h.delivered⟩
  | withdraw i =>
      obtain rfl := Except.ok.inj hok
      obtain ⟨x, x', hwithdraw, hlink⟩ := withdraw_spec isr irr isr' irr' i
      rw [← hpics] at hwithdraw
      exact ⟨⟨isr, x, isr', x', hwithdraw, hone, hone', hidle, hlink⟩, h.delivered⟩
  | accept =>
      -- Interrupts are on, so no line is in service.
      obtain ⟨rfl, rfl⟩ := hidle ha
      obtain ⟨v, l, isr, x, isr', x', hack, hrouted, hone, hone', hlink⟩ := ack_spec irr irr' hlink
      rw [← hpics] at hack
      rw [PicState.next, hack] at hok
      obtain rfl := Except.ok.inj hok
      refine ⟨⟨isr, x, isr', x', rfl, hone, hone', fun h => Bool.noConfusion h, hlink⟩,
        fun d hd => ?_⟩
      obtain hd | hd := List.mem_append.mp hd
      · exact h.delivered d hd
      · obtain rfl := List.mem_singleton.mp hd
        exact hrouted
  | eoi =>
      obtain rfl := Except.ok.inj hok
      obtain ⟨x, heoi, hlink⟩ := outs_eoi irr irr' hone hone'
      rw [← hpics] at heoi
      exact ⟨⟨0, x, 0, irr', heoi, by decide, by decide, fun _ => ⟨rfl, rfl⟩, hlink⟩, h.delivered⟩

/-- So it holds in every run behind `pic_init`. -/
theorem picInv_inductive : picSystem.Inductive PicInv where
  init := by
    intro s hinit
    obtain ⟨⟨c, hc⟩, -, hnil⟩ := hinit
    obtain ⟨irr, hirr⟩ := outs_picInit c
    refine ⟨⟨0, irr, 0, 0, hc.trans hirr, by decide, by decide, fun _ =>
      ⟨rfl, rfl⟩, fun h => ?_⟩, ?_⟩
    · exact absurd h (by decide)
    · rw [hnil]
      simp
  step h ha hok := h.next ha hok

/-- A request of the timer, the keyboard or the first disk channel gets to the processor. -/
theorem request_spec (irr irr' : BitVec 8)
    (hlink : (slavePic 0 irr').request.isSome → irr.getLsbD 2 = true)
    {line : Nat} (hline : line = 0 ∨ line = 1 ∨ line = 14)
    (hreq : Pics.requested ⟨masterPic 0 irr, slavePic 0 irr'⟩ line = true) :
    (masterPic 0 irr).request.isSome := by
  have hmaster : (masterPic 0 irr).request = _ := pending_master irr
  rw [hmaster]
  obtain rfl | rfl | rfl := hline
  · have hbit : irr.getLsbD 0 = true := hreq
    rw [if_pos hbit]
    rfl
  · have hbit : irr.getLsbD 1 = true := hreq
    rw [if_pos hbit]
    split <;> rfl
  · have hslave : (slavePic 0 irr').request = _ := pending_slave irr'
    have hbit' : irr'.getLsbD 6 = true := hreq
    have hbit : irr.getLsbD 2 = true := hlink (by rw [hslave, if_pos hbit']; rfl)
    rw [if_pos hbit]
    split
    · rfl
    · split <;> rfl

/-- The bytes of the entries. -/
theorem eoi_sent (c : Cpu) : (c.run eoi).sent = c.sent ++ eoiBytes := by
  show c.sent ++ [(0xa0, ((c.toCore.movAl 0x20).reg .eax).setWidth 8)]
    ++ [(0x20, ((c.toCore.movAl 0x20).reg .eax).setWidth 8)] = _
  rw [movAl_al, List.append_assoc]
  rfl

end

/-! ### Handlers -/

/-- `exception_init` gives each vector the general handler. -/
theorem exceptionInit_apply (table : Nat → IntrHandler) {n : Nat} (hn : n < IDT_DESC_CNT) :
    exceptionInit table n = .general_intr_handler := by
  rw [exceptionInit, foldl_fill, if_pos hn]

/-- `idt_table` behind `init_all`. -/
theorem initHandlers_spec {channelCnt : Nat} (hcnt : channelCnt = 1 ∨ channelCnt = 2)
    (table : Nat → IntrHandler) :
    initHandlers channelCnt table 0x20 = .intr_timer_handler ∧
      initHandlers channelCnt table 0x21 = .keyboard_handler ∧
      initHandlers channelCnt table 0x2e = .intr_hd_handler ∧
      initHandlers channelCnt table 0x27 = .general_intr_handler ∧
      (initHandlers channelCnt table 0x2f = .general_intr_handler ∨
        initHandlers channelCnt table 0x2f = .intr_hd_handler) := by
  have h₂₇ := exceptionInit_apply table (show 0x27 < IDT_DESC_CNT by decide)
  have h₂f := exceptionInit_apply table (show 0x2f < IDT_DESC_CNT by decide)
  obtain rfl | rfl := hcnt
  · simp [initHandlers, registerHandler, List.range_succ, h₂₇, h₂f]
  · simp [initHandlers, registerHandler, List.range_succ, h₂₇]

/-- The handler of a delivered interrupt: the driver of its line. A spurious one goes to
`general_intr_handler`, which returns for it, or to the driver of the second disk channel, which
returns wherever the tasks of that channel are. -/
def Serves (handler : IntrHandler) : BitVec 8 × Option Nat → Prop
  | (v, some line) => v = 0x20 + BitVec.ofNat 8 line ∧
      (line = 0 ∧ handler = .intr_timer_handler ∨ line = 1 ∧ handler = .keyboard_handler ∨
        line = 14 ∧ handler = .intr_hd_handler)
  | (v, none) => handler = .general_intr_handler ∧ generalIntrHandler v = .ok () ∨
      v = 0x2f ∧ handler = .intr_hd_handler ∧ ∀ fuel c,
        (channelSystem 0x170 fuel).Reachable c → ∃ c', c.intrHdHandler = .ok c'

/-- A vector that a controller sends has the right handler in `idt_table`. -/
theorem Routed.serves {d : BitVec 8 × Option Nat} (h : Routed d) {channelCnt : Nat}
    (hcnt : channelCnt = 1 ∨ channelCnt = 2) (table : Nat → IntrHandler) :
    Serves (initHandlers channelCnt table d.1.toNat) d := by
  obtain ⟨h₂₀, h₂₁, h₂e, h₂₇, h₂f⟩ := initHandlers_spec hcnt table
  obtain ⟨line, hline, rfl⟩ | rfl | rfl := h
  · obtain rfl | rfl | rfl := hline
    · exact ⟨rfl, .inl ⟨rfl, h₂₀⟩⟩
    · exact ⟨rfl, .inr (.inl ⟨rfl, h₂₁⟩)⟩
    · exact ⟨rfl, .inr (.inr ⟨rfl, h₂e⟩)⟩
  · exact .inl ⟨h₂₇, rfl⟩
  · obtain h₂f | h₂f := h₂f
    · exact .inl ⟨h₂f, rfl⟩
    · refine .inr ⟨rfl, h₂f, fun fuel c hc => ?_⟩
      obtain ⟨c', hok, -⟩ := ((channelSystem_inductive 0x170 fuel).reachable hc).intr
      exact ⟨c', hok⟩

/-- Device interrupts behind `pic_init` and `init_all`, for every order in which devices raise and
withdraw requests and the processor accepts them. Each interrupt gets to the driver of its line, and
only the timer, the keyboard and the first disk channel get through; a spurious interrupt never
stops the kernel. Between two entries no line is in service, and a request of these devices reaches
the processor, so no end of interrupt is missing. The bytes of an entry are the ones that the code
of `VECTOR` sends. -/
theorem irq_delivered {s : PicState} (hs : picSystem.Reachable s) {channelCnt : Nat}
    (hcnt : channelCnt = 1 ∨ channelCnt = 2) (table : Nat → IntrHandler) :
    (∀ d ∈ s.delivered, Serves (initHandlers channelCnt table d.1.toNat) d) ∧
      (s.entering = false → s.pics.master.isr = 0 ∧ s.pics.slave.isr = 0 ∧
        ∀ line, line = 0 ∨ line = 1 ∨ line = 14 → s.pics.requested line = true →
          s.pics.master.request.isSome) ∧
      ∀ c : Cpu, (c.run eoi).sent = c.sent ++ eoiBytes := by
  have h := picInv_inductive.reachable hs
  refine ⟨fun d hd => (h.delivered d hd).serves hcnt table, fun hidle => ?_, eoi_sent⟩
  obtain ⟨isr, irr, isr', irr', hpics, -, -, hnone, hlink⟩ := h.pics
  obtain ⟨rfl, rfl⟩ := hnone hidle
  rw [hpics]
  exact ⟨rfl, rfl, fun line hline hreq => request_spec irr irr' hlink hline hreq⟩

/-- The controllers after a reset. -/
private def picReset : Pics := ⟨⟨0, 0, 0, 0, 0, false, []⟩, ⟨0, 0, 0, 0, 0, false, []⟩⟩

/-- The controllers behind `pic_init`, with no request. -/
private def picStart : PicState where
  pics := picReset.outs picInit
  entering := false
  delivered := []

/-- The disk and the timer, with the timer in the entry of the disk. -/
private def diskRun : List PicAct := [.raise 14, .accept, .raise 0, .eoi]

/-- The disk is served first. Then the timer, which has come in between, is signalled to the
processor. -/
theorem irq_delivered_disk :
    (diskRun.foldl picSystem.after picStart).delivered = [(0x2e, some 14)] ∧
      initHandlers 1 (fun _ => .general_intr_handler) 0x2e = .intr_hd_handler ∧
      (diskRun.foldl picSystem.after picStart).pics.master.request.isSome := by
  have hinit : picSystem.init picStart := ⟨⟨picReset, rfl⟩, rfl, rfl⟩
  have hreach : picSystem.Reachable (diskRun.foldl picSystem.after picStart) :=
    (System.Reachable.init hinit).runs (by decide +kernel)
  have hdelivered : (diskRun.foldl picSystem.after picStart).delivered = [(0x2e, some 14)] := by
    decide +kernel
  obtain ⟨hserves, hidle, -⟩ := irq_delivered hreach (.inl rfl) fun _ => .general_intr_handler
  have hdisk := hserves (0x2e, some 14) (by rw [hdelivered]; exact List.mem_singleton.mpr rfl)
  obtain ⟨h, -⟩ | ⟨h, -⟩ | ⟨-, hhandler⟩ := hdisk.2
  · cases h
  · cases h
  · exact ⟨hdelivered, hhandler, (hidle (by decide +kernel)).2.2 0 (.inl rfl) (by decide +kernel)⟩

end Fizzos.Proofs
