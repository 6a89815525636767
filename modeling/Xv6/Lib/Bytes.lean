import Mathlib.Algebra.Order.Ring.Nat
import Mathlib.Data.Nat.ModEq
import Mathlib.Tactic.Ring

/-!
# Little-endian numbers in byte memories

A memory is a function from addresses to bytes.  Fixed-width numbers are stored
little-endian, as the compiler for this machine lays out C integers.

Main results:

- Theorem {lit}`getLE_putLE_same`: reading back a stored number gives its value
  modulo the width.
- Theorem {lit}`getLE_putLE_of_disjoint`: a store leaves every disjoint number
  unchanged.
-/

namespace Xv6
namespace Lib

/-- The number stored in the `width` bytes from address `off` on. -/
def getLE (m : Nat → UInt8) (off : Nat) : Nat → Nat
  | 0 => 0
  | width + 1 => (m off).toNat + 256 * getLE m (off + 1) width

/-- Store `value` in the `width` bytes from address `off` on. -/
def putLE (m : Nat → UInt8) (off width value : Nat) : Nat → UInt8 := fun i =>
  if off ≤ i ∧ i < off + width then UInt8.ofNat (value / 256 ^ (i - off)) else m i

/-- A stored number is below the bound of its width. -/
theorem getLE_lt (m : Nat → UInt8) (off width : Nat) : getLE m off width < 256 ^ width := by
  induction width generalizing off with
  | zero => simp [getLE]
  | succ width ih =>
    have hbyte : (m off).toNat < 256 := (m off).toNat_lt
    have hrest := ih (off + 1)
    rw [getLE, pow_succ]
    omega

/-- A number only depends on its own bytes. -/
theorem getLE_congr {m m' : Nat → UInt8} {off width : Nat}
    (hbytes : ∀ i, off ≤ i → i < off + width → m i = m' i) :
    getLE m off width = getLE m' off width := by
  induction width generalizing off with
  | zero => rfl
  | succ width ih =>
    rw [getLE, getLE, hbytes off (by omega) (by omega),
      ih (fun i h₁ h₂ => hbytes i (by omega) (by omega))]

/-- Bytes outside the stored range are unchanged. -/
theorem putLE_of_outside {m : Nat → UInt8} {off width value i : Nat}
    (hout : i < off ∨ off + width ≤ i) : putLE m off width value i = m i := by
  unfold putLE
  rw [if_neg (by omega)]

/-- The bytes of a stored number are its base-256 digits. -/
theorem getLE_of_digits {m : Nat → UInt8} {off width value : Nat}
    (hdigits : ∀ i < width, (m (off + i)).toNat = value / 256 ^ i % 256) :
    getLE m off width = value % 256 ^ width := by
  induction width generalizing off value with
  | zero => simp [getLE, Nat.mod_one]
  | succ width ih =>
    have hfirst : (m off).toNat = value % 256 := by simpa using hdigits 0 (by omega)
    have hrest : getLE m (off + 1) width = value / 256 % 256 ^ width := by
      apply ih
      intro i hi
      have hdigit := hdigits (i + 1) (by omega)
      rw [show off + 1 + i = off + (i + 1) by omega, hdigit, Nat.div_div_eq_div_mul, pow_succ,
        Nat.mul_comm]
    rw [getLE, hfirst, hrest, pow_succ, Nat.mul_comm (256 ^ width) 256, Nat.mod_mul]

/-- Reading back a stored number. -/
theorem getLE_putLE_same (m : Nat → UInt8) (off width value : Nat) :
    getLE (putLE m off width value) off width = value % 256 ^ width := by
  apply getLE_of_digits
  intro i hi
  unfold putLE
  rw [if_pos (by omega), show off + i - off = i by omega]
  simp

/-- A store leaves a disjoint number unchanged. -/
theorem getLE_putLE_of_disjoint {m : Nat → UInt8} {off width value off' width' : Nat}
    (hdisj : off' + width' ≤ off ∨ off + width ≤ off') :
    getLE (putLE m off width value) off' width' = getLE m off' width' := by
  apply getLE_congr
  intro i h₁ h₂
  exact putLE_of_outside (by omega)

end Lib
end Xv6
