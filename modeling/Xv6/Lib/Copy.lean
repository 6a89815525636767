import Mathlib.Tactic.Push
import Mathlib.Logic.Function.Basic

/-!
# Copying a range of memory onto another

Two loops that copy a range cell by cell, one upwards and one downwards, in a memory whose
addresses wrap around at `m`.  The ranges may overlap; each loop is right as long as it does
not overwrite a cell of the source before it has read it.

Main results:

- Theorem {lit}`copyUp_eq`: the upward loop, if the target does not begin inside the source.
- Theorem {lit}`copyDown_eq`: the downward loop, if the source does not begin inside the
  target.
-/

namespace Xv6
namespace Lib

open Function

variable {α : Type*}

/-- `while (n-- > 0) *d++ = *s++`. -/
def copyUp (m : Nat) : (n : Nat) → (Nat → α) → (d s : Nat) → (Nat → α)
  | 0, mem, _, _ => mem
  | n + 1, mem, d, s => copyUp m n (update mem d (mem s)) ((d + 1) % m) ((s + 1) % m)

/-- `while (n-- > 0) *--d = *--s`. -/
def copyDown (m : Nat) : (n : Nat) → (Nat → α) → (d s : Nat) → (Nat → α)
  | 0, mem, _, _ => mem
  | n + 1, mem, d, s =>
    let d := (d + m - 1) % m
    let s := (s + m - 1) % m
    copyDown m n (update mem d (mem s)) d s

/-- The memory after the `n` cells at `s` have been copied to `d`. -/
def moved (mem : Nat → α) (d s n : Nat) : Nat → α := fun a =>
  if d ≤ a ∧ a < d + n then mem (s + (a - d)) else mem a

/-- Nothing is moved. -/
theorem moved_zero (mem : Nat → α) (d s : Nat) : moved mem d s 0 = mem := by
  funext a
  exact if_neg (by omega)

section Ranges

variable {m n d s : Nat}

/-- Copying the first cell before the others. -/
theorem moved_first (mem : Nat → α) (hsafe : d ≤ s ∨ s + (n + 1) ≤ d) :
    moved (update mem d (mem s)) (d + 1) (s + 1) n = moved mem d s (n + 1) := by
  funext a
  unfold moved
  obtain rfl | hfirst := eq_or_ne a d
  · rw [if_neg (by omega), if_pos (by omega), update_self, Nat.sub_self, Nat.add_zero]
  · by_cases hrest : d ≤ a ∧ a < d + (n + 1)
    · have hread : s + 1 + (a - (d + 1)) = s + (a - d) := by omega
      have hunread : s + (a - d) ≠ d := by omega
      rw [if_pos (by omega), if_pos hrest, hread, update_of_ne hunread]
    · rw [if_neg (by omega), if_neg hrest, update_of_ne hfirst]

/-- Copying the last cell before the others. -/
theorem moved_last (mem : Nat → α) (hsafe : s ≤ d ∨ d + (n + 1) ≤ s) :
    moved (update mem (d + n) (mem (s + n))) d s n = moved mem d s (n + 1) := by
  funext a
  unfold moved
  by_cases hlast : a = d + n
  · have hread : s + (a - d) = s + n := by omega
    rw [if_neg (by omega), if_pos (by omega), hread, hlast, update_self]
  · by_cases hrest : d ≤ a ∧ a < d + n
    · have hunread : s + (a - d) ≠ d + n := by omega
      rw [if_pos hrest, if_pos (by omega), update_of_ne hunread]
    · rw [if_neg hrest, if_neg (by omega), update_of_ne hlast]

/-- Only the end of a range can wrap around, and nothing is read there. -/
theorem copyUp_eq (mem : Nat → α) (hd : d + n ≤ m) (hs : s + n ≤ m)
    (hsafe : d ≤ s ∨ s + n ≤ d) : copyUp m n mem d s = moved mem d s n := by
  induction n generalizing mem d s with
  | zero => exact (moved_zero mem d s).symm
  | succ n ih =>
    rw [copyUp, ← moved_first mem hsafe]
    cases n with
    | zero => exact (moved_zero _ _ _).symm
    | succ n =>
      rw [Nat.mod_eq_of_lt (by omega : d + 1 < m), Nat.mod_eq_of_lt (by omega : s + 1 < m)]
      exact ih _ (by omega) (by omega) (by omega)

/-- The previous address. -/
theorem pred_mod {a : Nat} (ha : a + 1 ≤ m) : ((a + 1) % m + m - 1) % m = a := by
  rcases Nat.lt_or_eq_of_le ha with hlt | heq
  · rw [Nat.mod_eq_of_lt hlt, show a + 1 + m - 1 = a + m by omega, Nat.add_mod_right,
      Nat.mod_eq_of_lt (by omega)]
  · rw [heq, Nat.mod_self, Nat.zero_add, Nat.mod_eq_of_lt (by omega)]
    omega

/-- Copying from the end. -/
theorem copyDown_eq (mem : Nat → α) (hd : d + n ≤ m) (hs : s + n ≤ m)
    (hsafe : s ≤ d ∨ d + n ≤ s) :
    copyDown m n mem ((d + n) % m) ((s + n) % m) = moved mem d s n := by
  induction n generalizing mem with
  | zero => exact (moved_zero mem d s).symm
  | succ n ih =>
    have hdpred : ((d + (n + 1)) % m + m - 1) % m = d + n := pred_mod (by omega)
    have hspred : ((s + (n + 1)) % m + m - 1) % m = s + n := pred_mod (by omega)
    have hrest := ih (update mem (d + n) (mem (s + n))) (by omega) (by omega) (by omega)
    rw [Nat.mod_eq_of_lt (by omega), Nat.mod_eq_of_lt (by omega)] at hrest
    rw [copyDown, hdpred, hspred, hrest, moved_last mem hsafe]

end Ranges

end Lib
end Xv6
