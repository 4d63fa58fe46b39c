import Mathlib.Data.Finset.Card
import Mathlib.Data.Finset.Image

/-!
# `Fizzos.Support.Sharing`: frames with reference counts

Slots map frames, and several slots can map one frame. A slot may be written only while it is
the only one that maps its frame, so a write is seen through no other slot. This is the
bookkeeping behind copy-on-write: `map` lets a slot map a frame, and `fork` gives new slots
the frames of old ones, all of them read-only from then on.

`Counted` says that a count per frame is the number of slots that map it, and that slots with
a shared frame are read-only.
-/

set_option autoImplicit false

namespace Fizzos.Support

/-- The slots of a domain, the frames that they map, and the slots that may be written. -/
structure Sharing (σ φ : Type*) where
  dom : Finset σ
  frame : σ → Option φ
  writable : σ → Prop

namespace Sharing

variable {σ φ β : Type*} [DecidableEq φ]

/-- The slots that map a frame. -/
def users (m : Sharing σ φ) (f : φ) : Finset σ := m.dom.filter fun s => m.frame s = some f

/-- The number of slots that map a frame. -/
def refs (m : Sharing σ φ) (f : φ) : Nat := (m.users f).card

/-- Let a slot map a frame, and write to it. -/
def map [DecidableEq σ] (m : Sharing σ φ) (s : σ) (f : φ) : Sharing σ φ :=
  { m with frame := Function.update m.frame s (some f), writable := fun t => t = s ∨ m.writable t }

/-- The slots `T` map what their originals map, and nobody writes to these frames. -/
def fork [DecidableEq σ] (m : Sharing σ φ) (T : Finset σ) (orig : σ → σ) : Sharing σ φ where
  dom := m.dom ∪ T
  frame s := if s ∈ T then m.frame (orig s) else m.frame s
  writable s := s ∉ T ∧ s ∉ T.image orig ∧ m.writable s

/-- What is read through a slot. -/
def view (m : Sharing σ φ) (content : φ → β) (s : σ) : Option β := (m.frame s).map content

/-- Each mapped frame has the number of its slots as its count, and a writable slot maps a
frame with one reference. -/
structure Counted (m : Sharing σ φ) (count : φ → Int) : Prop where
  eq_refs : ∀ s ∈ m.dom, ∀ f, m.frame s = some f → count f = m.refs f
  eq_one : ∀ s ∈ m.dom, ∀ f, m.frame s = some f → m.writable s → count f = 1

variable {m m' : Sharing σ φ} {count count' : φ → Int} {s t : σ} {f g : φ}

theorem mem_users : s ∈ m.users f ↔ s ∈ m.dom ∧ m.frame s = some f := Finset.mem_filter

/-- A frame with one reference has one slot. -/
theorem eq_of_refs_eq_one (h : m.refs f = 1) (hs : s ∈ m.dom) (hsf : m.frame s = some f)
    (ht : t ∈ m.dom) (htf : m.frame t = some f) : s = t :=
  Finset.card_le_one.mp (Nat.le_of_eq h) s (mem_users.mpr ⟨hs, hsf⟩) t (mem_users.mpr ⟨ht, htf⟩)

/-- The users of a frame in another picture of the same slots. -/
theorem refs_congr (hdom : m'.dom = m.dom)
    (hframe : ∀ s ∈ m.dom, m'.frame s = some f ↔ m.frame s = some f) : m'.refs f = m.refs f := by
  unfold refs users
  rw [hdom, Finset.filter_congr hframe]

/-- A frame has no more references than there are slots. -/
theorem refs_le (m : Sharing σ φ) (f : φ) : m.refs f ≤ m.dom.card := Finset.card_filter_le _ _

/-- Without the slot `s` its reference to a frame is gone. -/
theorem card_erase_users [DecidableEq σ] (hs : s ∈ m.dom) :
    ((m.users f).erase s).card + (if m.frame s = some f then 1 else 0) = m.refs f := by
  by_cases hsf : m.frame s = some f
  · rw [if_pos hsf, Finset.card_erase_add_one (mem_users.mpr ⟨hs, hsf⟩), refs]
  · have hno : s ∉ m.users f := fun hmem => hsf (mem_users.mp hmem).2
    rw [if_neg hsf, Finset.erase_eq_of_notMem hno, refs, Nat.add_zero]

/-- One slot changes: the references of a frame change with it. -/
theorem refs_change [DecidableEq σ] (hdom : m'.dom = m.dom) (hs : s ∈ m.dom)
    (hother : ∀ t, t ≠ s → m'.frame t = m.frame t) (f : φ) :
    m'.refs f + (if m.frame s = some f then 1 else 0)
      = m.refs f + (if m'.frame s = some f then 1 else 0) := by
  have hrest : (m'.users f).erase s = (m.users f).erase s := by
    ext t
    rw [Finset.mem_erase, Finset.mem_erase, mem_users, mem_users, hdom]
    exact and_congr_right fun hts => by rw [hother t hts]
  have hold := card_erase_users (f := f) hs
  have hnew := card_erase_users (m := m') (f := f) (hdom ▸ hs)
  rw [hrest] at hnew
  omega

/-- `Counted` depends on the slots of the domain only. -/
theorem Counted.congr (h : m.Counted count) (hdom : m'.dom = m.dom)
    (hframe : ∀ s ∈ m.dom, m'.frame s = m.frame s)
    (hwritable : ∀ s ∈ m.dom, m'.writable s → m.writable s)
    (hcount : ∀ s ∈ m.dom, ∀ f, m.frame s = some f → count' f = count f) :
    m'.Counted count' where
  eq_refs s hs f hf := by
    rw [hdom] at hs
    have hf' : m.frame s = some f := (hframe s hs).symm.trans hf
    rw [hcount s hs f hf', h.eq_refs s hs f hf', refs_congr hdom fun t ht => by rw [hframe t ht]]
  eq_one s hs f hf hw := by
    rw [hdom] at hs
    have hf' : m.frame s = some f := (hframe s hs).symm.trans hf
    rw [hcount s hs f hf', h.eq_one s hs f hf' (hwritable s hs hw)]

/-! ### A slot maps a frame -/

variable [DecidableEq σ]

omit [DecidableEq φ] in
@[simp] theorem map_frame_self : (m.map s f).frame s = some f := Function.update_self _ _ _

omit [DecidableEq φ] in
theorem map_frame_of_ne (h : t ≠ s) : (m.map s f).frame t = m.frame t :=
  Function.update_of_ne h _ _

omit [DecidableEq φ] in
theorem map_view_self (content : φ → β) : (m.map s f).view content s = some (content f) := by
  rw [view, map_frame_self]
  rfl

omit [DecidableEq φ] in
theorem map_view_of_ne (content : φ → β) (h : t ≠ s) :
    (m.map s f).view content t = m.view content t := by
  rw [view, map_frame_of_ne h]
  rfl

/-- The users of a frame behind `map`. -/
theorem users_map_self (hs : s ∈ m.dom) : (m.map s f).users f = insert s (m.users f) := by
  ext t
  by_cases hts : t = s
  · subst hts
    simp [mem_users, map, hs]
  · simp [mem_users, map, hts]

theorem users_map_of_ne (hne : g ≠ f) : (m.map s f).users g = (m.users g).erase s := by
  ext t
  by_cases hts : t = s
  · subst hts
    simp [mem_users, map, hne.symm]
  · simp [mem_users, map, hts]

/-- A slot maps a frame that nobody maps. A frame that the slot mapped before loses a
reference. -/
theorem Counted.map_fresh (h : m.Counted count) (hs : s ∈ m.dom)
    (hfresh : ∀ t ∈ m.dom, m.frame t ≠ some f) (hone : count' f = 1)
    (hold : ∀ g, m.frame s = some g → 1 < count g ∧ count' g = count g - 1)
    (hother : ∀ t ∈ m.dom, ∀ g, m.frame t = some g → m.frame s ≠ some g → count' g = count g) :
    (m.map s f).Counted count' := by
  have hself : (m.map s f).refs f = 1 := by
    have hnone : m.users f = ∅ :=
      Finset.eq_empty_of_forall_notMem fun t ht => hfresh t (mem_users.mp ht).1 (mem_users.mp ht).2
    rw [refs, users_map_self hs, hnone]
    rfl
  -- what another slot maps is not the fresh frame
  have hback : ∀ t ∈ m.dom, t ≠ s → ∀ g, (m.map s f).frame t = some g →
      m.frame t = some g ∧ g ≠ f := by
    intro t ht hts g hg
    have hg' : m.frame t = some g := by simpa [map, hts] using hg
    exact ⟨hg', fun heq => hfresh t ht (heq ▸ hg')⟩
  constructor
  · intro t ht g hg
    by_cases hts : t = s
    · have hgf : f = g := by simpa [map, hts] using hg
      rw [← hgf, hself, hone]
      rfl
    · obtain ⟨hg', hgf⟩ := hback t ht hts g hg
      have hcount := h.eq_refs t ht g hg'
      rw [refs, users_map_of_ne hgf]
      by_cases hsg : m.frame s = some g
      · have hmem : s ∈ m.users g := mem_users.mpr ⟨hs, hsg⟩
        have hpos : 0 < (m.users g).card := Finset.card_pos.mpr ⟨s, hmem⟩
        rw [(hold g hsg).2, hcount, refs, Finset.card_erase_of_mem hmem]
        omega
      · have hmem : s ∉ m.users g := fun hmem => hsg (mem_users.mp hmem).2
        rw [hother t ht g hg' hsg, hcount, refs, Finset.erase_eq_of_notMem hmem]
  · intro t ht g hg hw
    by_cases hts : t = s
    · have hgf : f = g := by simpa [map, hts] using hg
      rw [← hgf, hone]
    · obtain ⟨hg', -⟩ := hback t ht hts g hg
      have hone' : count g = 1 := h.eq_one t ht g hg' (hw.resolve_left hts)
      -- a frame with one reference is not the one that `s` mapped
      have hsg : m.frame s ≠ some g := fun hsg => by
        have hgt := (hold g hsg).1
        omega
      rw [hother t ht g hg' hsg, hone']

/-- The only slot of a frame becomes writable. -/
theorem Counted.map_self (h : m.Counted count) (hsf : m.frame s = some f)
    (hone : count f = 1) : (m.map s f).Counted count := by
  have hframe : (m.map s f).frame = m.frame := by
    show Function.update m.frame s (some f) = m.frame
    rw [← hsf, Function.update_eq_self]
  constructor
  · intro t ht g hg
    rw [hframe] at hg
    have hrefs : (m.map s f).refs g = m.refs g := refs_congr rfl fun u _ => by rw [hframe]
    rw [h.eq_refs t ht g hg, hrefs]
  · intro t ht g hg hw
    rw [hframe] at hg
    by_cases hts : t = s
    · rw [hts, hsf] at hg
      rw [← Option.some.inj hg, hone]
    · exact h.eq_one t ht g hg (hw.resolve_left hts)

/-! ### Fork -/

omit [DecidableEq φ] in
theorem fork_frame_mem {T : Finset σ} (orig : σ → σ) {s : σ} (hs : s ∈ T) :
    (m.fork T orig).frame s = m.frame (orig s) := if_pos hs

omit [DecidableEq φ] in
theorem fork_frame_notMem {T : Finset σ} (orig : σ → σ) {s : σ} (hs : s ∉ T) :
    (m.fork T orig).frame s = m.frame s := if_neg hs

/-- Each frame gets as many references as it has originals. -/
theorem refs_fork {T : Finset σ} (orig : σ → σ) (hT : Disjoint m.dom T) (f : φ) :
    (m.fork T orig).refs f
      = m.refs f + (T.filter fun t => m.frame (orig t) = some f).card := by
  have hdom : (m.dom.filter fun s => (m.fork T orig).frame s = some f) = m.users f := by
    refine Finset.filter_congr fun s hs => ?_
    have hsT : s ∉ T := Finset.disjoint_left.mp hT hs
    simp [fork, hsT]
  have hnew : (T.filter fun s => (m.fork T orig).frame s = some f)
      = T.filter fun t => m.frame (orig t) = some f := by
    refine Finset.filter_congr fun t ht => ?_
    simp [fork, ht]
  have hdisj : Disjoint (m.users f) (T.filter fun t => m.frame (orig t) = some f) :=
    Finset.disjoint_filter_filter hT
  rw [refs, users, show (m.fork T orig).dom = m.dom ∪ T from rfl, Finset.filter_union, hdom, hnew,
    Finset.card_union_of_disjoint hdisj]
  rfl

/-- A fork that counts the new references keeps `Counted`. -/
theorem Counted.fork (h : m.Counted count) {T : Finset σ} {orig : σ → σ}
    (hT : Disjoint m.dom T) (horig : ∀ t ∈ T, orig t ∈ m.dom)
    (hcount : ∀ s ∈ m.dom, ∀ f, m.frame s = some f →
      count' f = count f + (T.filter fun t => m.frame (orig t) = some f).card) :
    (m.fork T orig).Counted count' := by
  -- every slot of the fork maps the frame of an old slot
  have hback : ∀ s ∈ (m.fork T orig).dom, ∀ f, (m.fork T orig).frame s = some f →
      ∃ u ∈ m.dom, m.frame u = some f := by
    intro s hs f hf
    by_cases hsT : s ∈ T
    · exact ⟨orig s, horig s hsT, by simpa [Sharing.fork, hsT] using hf⟩
    · refine ⟨s, ?_, by simpa [Sharing.fork, hsT] using hf⟩
      exact (Finset.mem_union.mp hs).resolve_right hsT
  constructor
  · intro s hs f hf
    obtain ⟨u, hu, huf⟩ := hback s hs f hf
    rw [hcount u hu f huf, h.eq_refs u hu f huf, refs_fork orig hT]
    push_cast
    rfl
  · intro s hs f hf hw
    obtain ⟨hsT, hnot, hwritable⟩ := hw
    have hs' : s ∈ m.dom := (Finset.mem_union.mp hs).resolve_right hsT
    have hf' : m.frame s = some f := by simpa [Sharing.fork, hsT] using hf
    have hone : count f = 1 := h.eq_one s hs' f hf' hwritable
    have hrefs : m.refs f = 1 := by
      have hc := h.eq_refs s hs' f hf'
      omega
    -- the only slot of the frame is no original
    have hnone : (T.filter fun t => m.frame (orig t) = some f) = ∅ := by
      refine Finset.eq_empty_of_forall_notMem fun t ht => hnot ?_
      obtain ⟨htT, htf⟩ := Finset.mem_filter.mp ht
      rw [← eq_of_refs_eq_one hrefs (horig t htT) htf hs' hf']
      exact Finset.mem_image_of_mem orig htT
    rw [hcount s hs' f hf', hone, hnone]
    rfl

/-! ### What is read -/

/-- A write through a writable slot is seen through this slot only. -/
theorem view_write (h : m.Counted count) (content : φ → β) (hs : s ∈ m.dom)
    (hsf : m.frame s = some f) (hw : m.writable s) (x : β) (ht : t ∈ m.dom) :
    m.view (Function.update content f x) t = if t = s then some x else m.view content t := by
  have hrefs : m.refs f = 1 := by
    have hcount := h.eq_refs s hs f hsf
    have hone := h.eq_one s hs f hsf hw
    omega
  by_cases hts : t = s
  · subst hts
    simp [view, hsf]
  · have hne : ∀ g, m.frame t = some g → g ≠ f := fun g hg heq =>
      hts (eq_of_refs_eq_one hrefs ht (heq ▸ hg) hs hsf)
    rw [if_neg hts, view, view]
    cases hg : m.frame t with
    | none => rfl
    | some g => simp [Function.update_of_ne (hne g hg)]

end Sharing

end Fizzos.Support
