import Xv6.Lib.Ring

/-!
# Searching and extending circular lists

A circular list that is linked in one direction only, as a path from a node back to
itself.

Main results:

- Theorem {lit}`Path.rotate`: the circle can be entered at any of its nodes.
- Theorem {lit}`follow_of_mem`: a search along a path ends at a node with the property.
- Theorem {lit}`Path.insert`: insertion behind a node.
-/

namespace Xv6
namespace Lib

open Function

variable {α : Type*}

/-- Follow `next` to the first node at which to stop. -/
def follow (stop : α → Bool) (next : α → α) : Nat → α → Option α
  | 0, _ => none
  | fuel + 1, a => if stop a = true then some a else follow stop next fuel (next a)

/-- More fuel gives the same result. -/
theorem follow_mono {stop : α → Bool} {next : α → α} {fuel fuel' : Nat} {a y : α}
    (h : follow stop next fuel a = some y) (hle : fuel ≤ fuel') :
    follow stop next fuel' a = some y := by
  induction fuel generalizing a fuel' with
  | zero => exact absurd h (by simp [follow])
  | succ fuel ih =>
    obtain ⟨n, rfl⟩ : ∃ n, fuel' = n + 1 := ⟨fuel' - 1, by omega⟩
    by_cases ha : stop a = true
    · simpa [follow, ha] using h
    · simp only [follow, if_neg ha] at h ⊢
      exact ih h (by omega)

/-- A search along a path that has a node to stop at. -/
theorem follow_of_mem {stop : α → Bool} {next : α → α} {a z : α} {l : List α}
    (hpath : Path next a l z) (hex : ∃ x ∈ a :: l, stop x = true) :
    ∃ y ∈ a :: l, stop y = true ∧ ∀ fuel, l.length < fuel → follow stop next fuel a = some y := by
  induction l generalizing a with
  | nil =>
    obtain ⟨x, hx, hstop⟩ := hex
    rw [List.mem_singleton] at hx
    subst hx
    refine ⟨x, List.mem_singleton_self x, hstop, ?_⟩
    intro fuel hfuel
    obtain ⟨n, rfl⟩ : ∃ n, fuel = n + 1 := ⟨fuel - 1, by simp at hfuel; omega⟩
    simp [follow, hstop]
  | cons b l ih =>
    obtain ⟨rfl, hrest⟩ := hpath
    by_cases ha : stop a = true
    · refine ⟨a, List.mem_cons_self, ha, ?_⟩
      intro fuel hfuel
      obtain ⟨n, rfl⟩ : ∃ n, fuel = n + 1 := ⟨fuel - 1, by simp at hfuel; omega⟩
      simp [follow, ha]
    · have hex' : ∃ x ∈ next a :: l, stop x = true := by
        obtain ⟨x, hx, hstop⟩ := hex
        obtain rfl | hx := List.mem_cons.mp hx
        · exact absurd hstop ha
        · exact ⟨x, hx, hstop⟩
      obtain ⟨y, hy, hstop, hwalk⟩ := ih hrest hex'
      refine ⟨y, List.mem_cons_of_mem _ hy, hstop, ?_⟩
      intro fuel hfuel
      obtain ⟨n, rfl⟩ : ∃ n, fuel = n + 1 := ⟨fuel - 1, by simp at hfuel; omega⟩
      rw [List.length_cons] at hfuel
      simp only [follow, if_neg ha]
      exact hwalk n (by omega)

/-- A circle can be entered at any of its nodes. -/
theorem Path.rotate {next : α → α} {a x : α} {l : List α} (h : Path next a l a)
    (hx : x ∈ a :: l) : ∃ l', Path next x l' x ∧ (x :: l').Perm (a :: l) := by
  obtain rfl | hx := List.mem_cons.mp hx
  · exact ⟨l, h, .refl _⟩
  · obtain ⟨l₁, l₂, rfl⟩ := List.append_of_mem hx
    obtain ⟨h₁, h₂⟩ := path_append.mp h
    refine ⟨l₂ ++ a :: l₁, path_append.mpr ⟨h₂, h₁⟩, ?_⟩
    rw [← List.cons_append, ← List.cons_append]
    exact List.perm_append_comm

/-- The successor of a node within a path. -/
theorem Path.next_getLast {next : α → α} {a z : α} {l₁ l₂ : List α}
    (h : Path next a (l₁ ++ l₂) z) :
    next ((a :: l₁).getLast (by simp)) = (l₂ ++ [z]).head (by simp) := by
  induction l₁ generalizing a with
  | nil => exact h.link_eq
  | cons b l₁ ih =>
    rw [List.getLast_cons (by simp)]
    exact ih h.2

variable [DecidableEq α]

/-- Insertion of a new node behind the node `p` of a path. -/
theorem Path.insert {next : α → α} {a p x z : α} {l₁ l₂ : List α}
    (h : Path next a (l₁ ++ l₂) z) (hp : p = (a :: l₁).getLast (by simp))
    (hnodup : (a :: (l₁ ++ l₂)).Nodup) (hx : x ∉ a :: (l₁ ++ l₂)) :
    Path (update (update next x (next p)) p x) a (l₁ ++ x :: l₂) z := by
  induction l₁ generalizing a with
  | nil =>
    rw [List.getLast_singleton] at hp
    subst hp
    have hxp : x ≠ p := fun heq => hx (heq ▸ List.mem_cons_self)
    refine ⟨update_self _ _ _, ?_⟩
    apply h.of_start
    · rw [update_of_ne hxp, update_self]
    · intro y hy
      have hyp : y ≠ p := fun heq => (List.nodup_cons.mp hnodup).1 (heq ▸ hy)
      have hyx : y ≠ x := fun heq => hx (heq ▸ List.mem_cons_of_mem _ hy)
      rw [update_of_ne hyp, update_of_ne hyx]
  | cons b l₁ ih =>
    rw [List.getLast_cons (by simp)] at hp
    have hnodup' := List.nodup_cons.mp hnodup
    have hpa : a ≠ p := by
      intro heq
      have hmem := List.getLast_mem (l := b :: l₁) (by simp)
      rw [← hp, ← heq] at hmem
      exact hnodup'.1 (by rw [List.cons_append]; exact List.mem_append_left l₂ hmem)
    have hax : a ≠ x := fun heq => hx (heq ▸ List.mem_cons_self)
    refine ⟨?_, ih h.2 hp hnodup'.2 (fun hmem => hx (List.mem_cons_of_mem _ hmem))⟩
    rw [update_of_ne hpa, update_of_ne hax]
    exact h.1

end Lib
end Xv6
