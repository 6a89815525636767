import Mathlib.Tactic
import Xv6.Lib.Copy

/-!
# `memmove`, twice

The kernel and the user library have a `memmove` each.  They decide by different tests in
which direction they copy.

Main result:

- Theorem {lit}`memmove_overlap`: both copy the bytes that the source held before the call,
  however the ranges overlap.
-/

namespace Xv6

open Lib

/-- The size of the address space. -/
def addrSpace : Nat := 2 ^ 64

namespace KernelString

/-- `memmove` of `string.c`, where `n` is a `uint`. -/
def memmove (mem : Nat → UInt8) (dst src n : Nat) : Nat → UInt8 :=
  if src < dst ∧ (src + n) % addrSpace > dst then
    copyDown addrSpace n mem ((dst + n) % addrSpace) ((src + n) % addrSpace)
  else copyUp addrSpace n mem dst src

theorem memmove_eq {mem : Nat → UInt8} {dst src n : Nat} (hsrc : src + n ≤ addrSpace)
    (hdst : dst + n ≤ addrSpace) : memmove mem dst src n = moved mem dst src n := by
  unfold memmove
  split
  next hover => exact copyDown_eq mem hdst hsrc (Or.inl hover.1.le)
  next hsafe =>
    refine copyUp_eq mem hdst hsrc ?_
    by_contra hunsafe
    -- the source begins below the target, so its end does not wrap around
    have hend : (src + n) % addrSpace = src + n := Nat.mod_eq_of_lt (by omega)
    omega

end KernelString

namespace Ulib

/-- `memmove` of `ulib.c`, where `n` is an `int`. -/
def memmove (mem : Nat → UInt8) (dst src : Nat) (n : Int) : Nat → UInt8 :=
  if src > dst then copyUp addrSpace n.toNat mem dst src
  else
    copyDown addrSpace n.toNat mem ((dst + n) % addrSpace).toNat ((src + n) % addrSpace).toNat

theorem memmove_eq {mem : Nat → UInt8} {dst src n : Nat} (hsrc : src + n ≤ addrSpace)
    (hdst : dst + n ≤ addrSpace) : memmove mem dst src n = moved mem dst src n := by
  unfold memmove
  split
  next hup => exact copyUp_eq mem hdst hsrc (Or.inl hup.le)
  next hdown => exact copyDown_eq mem hdst hsrc (Or.inl (Nat.not_lt.mp hdown))

end Ulib

/-- Both versions of `memmove` leave in `[dst, dst + n)` what `[src, src + n)` held and leave
every other byte alone, if the ranges do not wrap around the address space. -/
theorem memmove_overlap (mem : Nat → UInt8) (dst src n : Nat) (hsrc : src + n ≤ addrSpace)
    (hdst : dst + n ≤ addrSpace) :
    (∀ i < n, KernelString.memmove mem dst src n (dst + i) = mem (src + i) ∧
      Ulib.memmove mem dst src n (dst + i) = mem (src + i)) ∧
    (∀ a, ¬(dst ≤ a ∧ a < dst + n) → KernelString.memmove mem dst src n a = mem a ∧
      Ulib.memmove mem dst src n a = mem a) ∧
    KernelString.memmove mem dst src n = Ulib.memmove mem dst src n := by
  rw [KernelString.memmove_eq hsrc hdst, Ulib.memmove_eq hsrc hdst]
  refine ⟨fun i hi => ?_, fun a ha => ?_, rfl⟩
  · have hin : moved mem dst src n (dst + i) = mem (src + i) := by
      unfold moved
      rw [if_pos (by omega), Nat.add_sub_cancel_left]
    exact ⟨hin, hin⟩
  · exact ⟨if_neg ha, if_neg ha⟩

/-- Three bytes are moved up by one. -/
theorem memmove_overlap_by_one :
    KernelString.memmove (fun a => .ofNat a) 1 0 3 =
      Ulib.memmove (fun a => .ofNat a) 1 0 3 ∧
    Ulib.memmove (fun a => .ofNat a) 1 0 3 (1 + 2) = 2 := by
  have hmove := memmove_overlap (fun a => .ofNat a) 1 0 3 (by decide) (by decide)
  exact ⟨hmove.2.2, (hmove.1 2 (by decide)).2⟩

end Xv6
