import Mathlib.Data.Set.Insert
import Mathlib.Data.List.Nodup
import Mathlib.Logic.Function.Basic
import Mathlib.Tactic

/-!
# A pool of pages

Pages have contents and are free or belong to somebody.  Whoever owns the pages `A` may
take pages from the free list, give pages back to it and write to its own ones; all this
trades the set `A` for another one and is not noticed by the owners of other pages.

Main results:

- Theorem {lit}`Trade.trans`: trades compose.
- Theorem {lit}`Trade.widen`: a trade with part of one's pages.
- Theorem {lit}`Trade.owns`: what an owner has after a trade.
-/

namespace Xv6
namespace Lib

open Function

variable {P V : Type}

/-- Contents of all pages, and the list of the free ones. -/
structure Pool (P V : Type) where
  mem : P → V
  free : List P

/-- The pages of `A` are not free, no page is free twice, and all of these are pages of
the pool. -/
structure Owns (ok : P → Prop) (s : Pool P V) (A : Set P) : Prop where
  nodup : s.free.Nodup
  sep : ∀ p ∈ s.free, p ∉ A
  ok : ∀ p, p ∈ A ∨ p ∈ s.free → ok p

/-- An owner of `A` has traded pages with the free list and owns `A'` afterwards. -/
structure Trade (s s' : Pool P V) (A A' : Set P) : Prop where
  nodup : s'.free.Nodup
  sep : ∀ p ∈ s'.free, p ∉ A'
  pages : ∀ p, p ∈ A' ∨ p ∈ s'.free ↔ p ∈ A ∨ p ∈ s.free
  frame : ∀ p, p ∉ A → p ∉ s.free → s'.mem p = s.mem p

section Trade

variable {ok : P → Prop} {s s' s'' : Pool P V} {A A' A'' B : Set P} {p : P}

/-- Nothing has been traded. -/
theorem Owns.refl (h : Owns ok s A) : Trade s s A A :=
  ⟨h.nodup, h.sep, fun _ => Iff.rfl, fun _ _ _ => rfl⟩

/-- A part of what is owned. -/
theorem Owns.subset (h : Owns ok s A) (hB : B ⊆ A) : Owns ok s B :=
  ⟨h.nodup, fun p hp hpB => h.sep p hp (hB hpB), fun p hp => h.ok p (hp.imp_left fun hpB => hB hpB)⟩

/-- What is owned after a trade. -/
theorem Trade.owns (ht : Trade s s' A A') (h : Owns ok s A) : Owns ok s' A' :=
  ⟨ht.nodup, ht.sep, fun p hp => h.ok p ((ht.pages p).mp hp)⟩

/-- One trade after another. -/
theorem Trade.trans (h : Trade s s' A A') (h' : Trade s' s'' A' A'') : Trade s s'' A A'' where
  nodup := h'.nodup
  sep := h'.sep
  pages p := (h'.pages p).trans (h.pages p)
  frame p hA hfree := by
    have hout : ¬(p ∈ A' ∨ p ∈ s'.free) := fun hp => ((h.pages p).mp hp).elim hA hfree
    rw [h'.frame p (fun hp => hout (Or.inl hp)) fun hp => hout (Or.inr hp), h.frame p hA hfree]

/-- Other pages of the same owner are not touched. -/
theorem Trade.widen (h : Trade s s' A A') (hA : ∀ p ∈ B, p ∉ A) (hfree : ∀ p ∈ B, p ∉ s.free) :
    Trade s s' (A ∪ B) (A' ∪ B) where
  nodup := h.nodup
  sep p hp := by
    rintro (hA' | hB)
    · exact h.sep p hp hA'
    · exact ((h.pages p).mp (Or.inr hp)).elim (hA p hB) (hfree p hB)
  pages p := by
    have := h.pages p
    simp only [Set.mem_union]
    tauto
  frame p hp hf := h.frame p (fun hA => hp (Or.inl hA)) hf

/-- An owner may forget that a set is written in another way. -/
theorem Trade.congr {C C' : Set P} (h : Trade s s' A A') (hA : C = A) (hA' : C' = A') :
    Trade s s' C C' := by
  rw [hA, hA']
  exact h

/-- The pages of others stay apart. -/
theorem Trade.apart (h : Trade s s' A A') (hA : p ∉ A) (hfree : p ∉ s.free) :
    p ∉ A' ∧ p ∉ s'.free :=
  ⟨fun hp => ((h.pages p).mp (Or.inl hp)).elim hA hfree,
    fun hp => ((h.pages p).mp (Or.inr hp)).elim hA hfree⟩

variable [DecidableEq P]

/-- Write to a page. -/
def Pool.write (s : Pool P V) (p : P) (v : V) : Pool P V :=
  { s with mem := update s.mem p v }

/-- The cell itself. -/
@[simp]
theorem mem_write_same (s : Pool P V) (p : P) (v : V) : (s.write p v).mem p = v :=
  update_self ..

/-- The other cells. -/
theorem mem_write_of_ne {q : P} (s : Pool P V) (v : V) (h : q ≠ p) :
    (s.write p v).mem q = s.mem q :=
  update_of_ne h ..

@[simp]
theorem free_write (s : Pool P V) (p : P) (v : V) : (s.write p v).free = s.free := rfl

/-- An owner writes to a page of its own. -/
theorem Owns.write {v : V} (h : Owns ok s A) (hp : p ∈ A) : Trade s (s.write p v) A A where
  nodup := h.nodup
  sep := h.sep
  pages _ := Iff.rfl
  frame _ hq _ := mem_write_of_ne s v fun heq => hq (heq ▸ hp)

/-- An owner takes the first free page. -/
theorem Owns.take {rest : List P} {v : V} (h : Owns ok s A) (hfree : s.free = p :: rest) :
    Trade s { mem := update s.mem p v, free := rest } A (insert p A) where
  nodup := (List.nodup_cons.mp (hfree ▸ h.nodup)).2
  sep q hq := by
    have hnodup := List.nodup_cons.mp (hfree ▸ h.nodup)
    rintro (rfl | hA)
    · exact hnodup.1 hq
    · exact h.sep q (hfree ▸ List.mem_cons_of_mem _ hq) hA
  pages q := by
    simp only [hfree, List.mem_cons, Set.mem_insert_iff]
    tauto
  frame q _ hq := by
    rw [hfree, List.mem_cons, not_or] at hq
    exact update_of_ne hq.1 ..

/-- An owner gives a page back. -/
theorem Owns.give {v : V} (h : Owns ok s (insert p A)) (hp : p ∉ A) :
    Trade s { mem := update s.mem p v, free := p :: s.free } (insert p A) A where
  nodup := List.nodup_cons.mpr
    ⟨fun hfree => h.sep p hfree (Set.mem_insert ..), h.nodup⟩
  sep q hq := by
    rcases List.mem_cons.mp hq with rfl | hq
    · exact hp
    · exact fun hA => h.sep q hq (Set.mem_insert_of_mem _ hA)
  pages q := by
    simp only [List.mem_cons, Set.mem_insert_iff]
    tauto
  frame q hq _ := update_of_ne (fun heq => hq (Set.mem_insert_iff.mpr (Or.inl heq))) ..

end Trade

end Lib
end Xv6
