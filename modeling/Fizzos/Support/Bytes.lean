import Mathlib.Algebra.Group.Nat.Defs

/-!
# `Fizzos.Support.Bytes`: memory as a function from offsets to bytes

`Bytes` is the memory behind a pointer. `loadLE n m off` is the unsigned integer in the `n` bytes
at `off`, least significant byte first, and `storeLE` writes one. `copyBytes` copies a block.

Each write has two rules: what a load at the written place gives, and that bytes outside of it are
as before (`storeLE_of_ne`, `copyBytes_of_ne`). A load depends on its own bytes only
(`loadLE_congr`).
-/

set_option autoImplicit false

namespace Fizzos.Support

/-- Memory behind a pointer. -/
abbrev Bytes := Nat → BitVec 8

/-- The `n` bytes at `off`, as a number. -/
def loadLE : Nat → Bytes → Nat → Nat
  | 0, _, _ => 0
  | n + 1, m, off => (m off).toNat + 256 * loadLE n m (off + 1)

/-- Byte `j` of a number. -/
def byteLE (v j : Nat) : BitVec 8 := BitVec.ofNat 8 (v / 256 ^ j)

/-- Write a number to the `n` bytes at `off`. -/
def storeLE (n : Nat) (m : Bytes) (off v : Nat) : Bytes := fun k =>
  if off ≤ k ∧ k < off + n then byteLE v (k - off) else m k

/-- Copy `n` bytes from `src` at `so` to `dest` at `off`. -/
def copyBytes (dest : Bytes) (off : Nat) (src : Bytes) (so n : Nat) : Bytes := fun k =>
  if off ≤ k ∧ k < off + n then src (so + (k - off)) else dest k

section
variable {n off v k : Nat} {m m' : Bytes}

theorem loadLE_lt (n : Nat) (m : Bytes) (off : Nat) : loadLE n m off < 256 ^ n := by
  induction n generalizing off with
  | zero => exact Nat.one_pos
  | succ n ih =>
      have hb := (m off).isLt
      have hrest := ih (off + 1)
      rw [loadLE, Nat.pow_succ]
      omega

/-- A load depends on its own bytes only. -/
theorem loadLE_congr (h : ∀ k, off ≤ k → k < off + n → m' k = m k) :
    loadLE n m' off = loadLE n m off := by
  induction n generalizing off with
  | zero => rfl
  | succ n ih =>
      rw [loadLE, loadLE, h off (Nat.le_refl _) (by omega)]
      congr 2
      exact ih fun k hlo hhi => h k (by omega) (by omega)

/-- A load tells its bytes. -/
theorem loadLE_inj (h : loadLE n m' off = loadLE n m off) :
    ∀ k, off ≤ k → k < off + n → m' k = m k := by
  induction n generalizing off with
  | zero => exact fun k hlo hhi => absurd hhi (Nat.not_lt.mpr hlo)
  | succ n ih =>
      rw [loadLE, loadLE] at h
      have hb := (m off).isLt
      have hb' := (m' off).isLt
      have hrest : loadLE n m' (off + 1) = loadLE n m (off + 1) := by omega
      have hfirst : (m' off).toNat = (m off).toNat := by omega
      intro k hlo hhi
      rcases Nat.eq_or_lt_of_le hlo with rfl | hlt
      · exact BitVec.eq_of_toNat_eq hfirst
      · exact ih hrest k hlt (by omega)

/-- A load at a shifted place. -/
theorem loadLE_shift (d : Nat) (h : ∀ j, j < n → m' (off + j) = m (d + j)) :
    loadLE n m' off = loadLE n m d := by
  induction n generalizing off d with
  | zero => rfl
  | succ n ih =>
      rw [loadLE, loadLE, show m' off = m d from h 0 (Nat.succ_pos n)]
      congr 2
      refine ih (d + 1) fun j hj => ?_
      have hstep := h (j + 1) (Nat.succ_lt_succ hj)
      rwa [Nat.add_comm j 1, ← Nat.add_assoc, ← Nat.add_assoc] at hstep

/-- Zero bytes are the number zero. -/
theorem loadLE_eq_zero (h : ∀ k, off ≤ k → k < off + n → m k = 0#8) : loadLE n m off = 0 := by
  induction n generalizing off with
  | zero => rfl
  | succ n ih =>
      rw [loadLE, h off (Nat.le_refl _) (by omega), ih fun k hlo hhi => h k (by omega) (by omega)]
      rfl

/-- Bytes that spell a number. -/
theorem loadLE_eq_mod (h : ∀ j, j < n → m (off + j) = byteLE v j) :
    loadLE n m off = v % 256 ^ n := by
  induction n generalizing off v with
  | zero => rw [loadLE, Nat.pow_zero, Nat.mod_one]
  | succ n ih =>
      have hfirst : (m off).toNat = v % 256 := by
        rw [show m off = byteLE v 0 from h 0 (Nat.succ_pos n), byteLE, Nat.pow_zero, Nat.div_one,
          BitVec.toNat_ofNat]
      have hrest : loadLE n m (off + 1) = v / 256 % 256 ^ n := by
        refine ih fun j hj => ?_
        have hstep := h (j + 1) (Nat.succ_lt_succ hj)
        rw [Nat.add_assoc, Nat.add_comm 1 j, hstep, byteLE, byteLE, Nat.div_div_eq_div_mul,
          Nat.pow_succ']
      rw [loadLE, hfirst, hrest, Nat.pow_succ', Nat.mod_mul]

/-- A load gives back what was stored. -/
theorem loadLE_storeLE (hv : v < 256 ^ n) : loadLE n (storeLE n m off v) off = v := by
  rw [loadLE_eq_mod (v := v), Nat.mod_eq_of_lt hv]
  intro j hj
  rw [storeLE, if_pos (by omega), Nat.add_sub_cancel_left]

/-- A store leaves the other bytes alone. -/
theorem storeLE_of_ne (h : k < off ∨ off + n ≤ k) : storeLE n m off v k = m k :=
  if_neg (by omega)

/-- The bytes of a loaded number. -/
theorem byteLE_loadLE (hk : k < n) : byteLE (loadLE n m off) k = m (off + k) := by
  -- the store of the number changes nothing
  have hstore : loadLE n (storeLE n m off (loadLE n m off)) off = loadLE n m off :=
    loadLE_storeLE (loadLE_lt n m off)
  have hsame := loadLE_inj hstore (off + k) (Nat.le_add_right _ _) (by omega)
  rwa [storeLE, if_pos (by omega), Nat.add_sub_cancel_left] at hsame

/-- A load next to a store. -/
theorem loadLE_storeLE_of_ne {o : Nat} {l : Nat} (h : o + l ≤ off ∨ off + n ≤ o) :
    loadLE l (storeLE n m off v) o = loadLE l m o :=
  loadLE_congr fun _ hlo hhi => storeLE_of_ne (by omega)

/-- A copied byte. -/
theorem copyBytes_at {src : Bytes} {so : Nat} (hlo : off ≤ k) (hhi : k < off + n) :
    copyBytes m off src so n k = src (so + (k - off)) := if_pos ⟨hlo, hhi⟩

/-- A copy leaves the other bytes alone. -/
theorem copyBytes_of_ne {src : Bytes} {so : Nat} (h : k < off ∨ off + n ≤ k) :
    copyBytes m off src so n k = m k := if_neg (by omega)

end

end Fizzos.Support
