import Mathlib.Data.Set.Insert
import Mathlib.Logic.Function.Basic

/-!
# Exact allocation

A resource is handed out to holders.  The bookkeeping is exact if what is marked
in use is what is reserved once and for all together with what some holder has,
and no two holders have the same thing.

Main results:

- Theorem {lit}`Exact.claim`: marking something free and giving it to a holder.
- Theorem {lit}`Exact.release`: taking it back.
-/

namespace Xv6
namespace Lib

open Function

variable {ι β : Type}

/-- The set `used` consists of `fixed` and of the things that the holders have by
the partial map `A`. -/
structure Exact (used fixed : Set β) (A : ι → Option β) : Prop where
  used_iff : ∀ b, b ∈ used ↔ b ∈ fixed ∨ ∃ i, A i = some b
  inj : ∀ i j b, A i = some b → A j = some b → i = j
  apart : ∀ i b, A i = some b → b ∉ fixed

namespace Exact

variable {used fixed : Set β} {A : ι → Option β} {i : ι} {b : β}

/-- An owned block is in use. -/
theorem mem_used (h : Exact used fixed A) (hi : A i = some b) : b ∈ used :=
  (h.used_iff b).mpr (Or.inr ⟨i, hi⟩)

/-- A free block is not owned. -/
theorem ne_of_free (h : Exact used fixed A) (hb : b ∉ used) : A i ≠ some b :=
  fun hi => hb (h.mem_used hi)

/-- Something free is given to a holder. -/
theorem claim [DecidableEq ι] (h : Exact used fixed A) (hb : b ∉ used) (hi : A i = none) :
    Exact (insert b used) fixed (update A i (some b)) := by
  constructor
  · intro c
    rw [Set.mem_insert_iff, h.used_iff c]
    constructor
    · rintro (rfl | hfixed | ⟨j, hj⟩)
      · exact Or.inr ⟨i, update_self _ _ _⟩
      · exact Or.inl hfixed
      · refine Or.inr ⟨j, ?_⟩
        rw [update_of_ne, hj]
        rintro rfl
        simp [hi] at hj
    · rintro (hfixed | ⟨j, hj⟩)
      · exact Or.inr (Or.inl hfixed)
      · by_cases hji : j = i
        · rw [hji, update_self, Option.some.injEq] at hj
          exact Or.inl hj.symm
        · rw [update_of_ne hji] at hj
          exact Or.inr (Or.inr ⟨j, hj⟩)
  · intro j k c hj hk
    by_cases hji : j = i
    · by_cases hki : k = i
      · rw [hji, hki]
      · rw [hji, update_self, Option.some.injEq] at hj
        rw [update_of_ne hki, ← hj] at hk
        exact (h.ne_of_free hb hk).elim
    · rw [update_of_ne hji] at hj
      by_cases hki : k = i
      · rw [hki, update_self, Option.some.injEq] at hk
        rw [← hk] at hj
        exact (h.ne_of_free hb hj).elim
      · rw [update_of_ne hki] at hk
        exact h.inj j k c hj hk
  · intro j c hj
    by_cases hji : j = i
    · rw [hji, update_self, Option.some.injEq] at hj
      rw [← hj]
      exact fun hfixed => hb ((h.used_iff b).mpr (Or.inl hfixed))
    · rw [update_of_ne hji] at hj
      exact h.apart j c hj

/-- A holder gives back what it has. -/
theorem release [DecidableEq ι] (h : Exact used fixed A) (hi : A i = some b) :
    Exact (used \ {b}) fixed (update A i none) := by
  constructor
  · intro c
    rw [Set.mem_sdiff, Set.mem_singleton_iff, h.used_iff c]
    constructor
    · rintro ⟨hfixed | ⟨j, hj⟩, hne⟩
      · exact Or.inl hfixed
      · refine Or.inr ⟨j, ?_⟩
        rw [update_of_ne, hj]
        rintro rfl
        rw [hi, Option.some.injEq] at hj
        exact hne hj.symm
    · rintro (hfixed | ⟨j, hj⟩)
      · refine ⟨Or.inl hfixed, ?_⟩
        rintro rfl
        exact h.apart i c hi hfixed
      · by_cases hji : j = i
        · simp [hji] at hj
        · rw [update_of_ne hji] at hj
          refine ⟨Or.inr ⟨j, hj⟩, ?_⟩
          rintro rfl
          exact hji (h.inj j i c hj hi)
  · intro j k c hj hk
    by_cases hji : j = i
    · simp [hji] at hj
    · by_cases hki : k = i
      · simp [hki] at hk
      · rw [update_of_ne hji] at hj
        rw [update_of_ne hki] at hk
        exact h.inj j k c hj hk
  · intro j c hj
    by_cases hji : j = i
    · simp [hji] at hj
    · rw [update_of_ne hji] at hj
      exact h.apart j c hj

end Exact

end Lib
end Xv6
