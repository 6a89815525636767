import Mathlib.Algebra.Ring.Nat
import Mathlib.Data.List.Nodup
import Mathlib.Data.List.Range

/-!
# Extents of a linear memory

Blocks of consecutive cells.  A list of extents stands for the list of its cells, so that
two divisions of one memory into blocks are permutations of each other.

Main results:

- Theorem {lit}`cells_merge`: two adjacent extents are one.
- Theorem {lit}`le_or_le_of_nodup`: extents without a common cell lie one after the other.
-/

namespace Xv6
namespace Lib

/-- A block of consecutive cells. -/
structure Extent where
  addr : Nat
  len : Nat
deriving DecidableEq

/-- The cells of a list of extents. -/
def cells (xs : List Extent) : List Nat :=
  xs.flatMap fun x => List.range' x.addr x.len

@[simp]
theorem cells_nil : cells [] = [] :=
  rfl

@[simp]
theorem cells_cons (x : Extent) (xs : List Extent) :
    cells (x :: xs) = List.range' x.addr x.len ++ cells xs :=
  List.flatMap_cons

@[simp]
theorem cells_append (xs ys : List Extent) : cells (xs ++ ys) = cells xs ++ cells ys :=
  List.flatMap_append

/-- The cells of the extents. -/
theorem mem_cells {xs : List Extent} {i : Nat} :
    i ∈ cells xs ↔ ∃ x ∈ xs, x.addr ≤ i ∧ i < x.addr + x.len := by
  simp [cells, List.mem_flatMap, List.mem_range'_1]

/-- The number of cells. -/
theorem length_cells (xs : List Extent) : (cells xs).length = (xs.map Extent.len).sum := by
  induction xs with
  | nil => rfl
  | cons x xs ih => simp [ih]

/-- The cells do not depend on the order of the extents. -/
theorem cells_perm {xs ys : List Extent} (h : xs.Perm ys) : (cells xs).Perm (cells ys) :=
  h.flatMap_right _

/-- Two adjacent extents are one. -/
theorem cells_merge (a u v : Nat) (xs : List Extent) :
    cells (⟨a, u⟩ :: ⟨a + u, v⟩ :: xs) = cells (⟨a, u + v⟩ :: xs) := by
  simp [← List.append_assoc, List.range'_append_1]

/-- Extents without a common cell lie one after the other. -/
theorem le_or_le_of_nodup {x y : Extent} {xs : List Extent} (h : (cells (x :: y :: xs)).Nodup)
    (hx : 0 < x.len) (hy : 0 < y.len) :
    x.addr + x.len ≤ y.addr ∨ y.addr + y.len ≤ x.addr := by
  rw [cells_cons, cells_cons, ← List.append_assoc] at h
  have hdisj := (List.nodup_append'.mp (List.nodup_append'.mp h).1).2.2
  by_contra hnot
  rw [not_or] at hnot
  have hmem : max x.addr y.addr ∈ List.range' x.addr x.len := by
    rw [List.mem_range'_1]
    omega
  have hmem' : max x.addr y.addr ∈ List.range' y.addr y.len := by
    rw [List.mem_range'_1]
    omega
  exact hdisj hmem hmem'

/-- Extents in ascending order, with a gap between any two of them. -/
def Spaced (xs : List Extent) : Prop :=
  xs.Pairwise fun x y => x.addr + x.len < y.addr

/-- The addresses are distinct. -/
theorem Spaced.nodup {xs : List Extent} (h : Spaced xs) : (xs.map Extent.addr).Nodup := by
  rw [List.nodup_iff_pairwise_ne, List.pairwise_map]
  refine List.Pairwise.imp ?_ h
  intro x y hlt heq
  omega

/-- Extents that touch are the same. -/
theorem Spaced.eq_of_touch {xs : List Extent} {x y : Extent} (h : Spaced xs) (hx : x ∈ xs)
    (hy : y ∈ xs) (hxy : y.addr ≤ x.addr + x.len) (hyx : x.addr ≤ y.addr + y.len) : x = y := by
  by_contra hne
  have hsymm : xs.Pairwise fun x y => x.addr + x.len < y.addr ∨ y.addr + y.len < x.addr :=
    List.Pairwise.imp Or.inl h
  have : Std.Symm fun x y : Extent => x.addr + x.len < y.addr ∨ y.addr + y.len < x.addr :=
    ⟨fun _ _ => Or.symm⟩
  obtain hlt | hlt := hsymm.forall hx hy hne
  · omega
  · omega

/-- Consecutive cells of extents with gaps between them lie in one extent. -/
theorem Spaced.exists_cover {xs : List Extent} (h : Spaced xs) {a n : Nat} (hn : 0 < n)
    (hmem : ∀ i, a ≤ i → i < a + n → i ∈ cells xs) :
    ∃ x ∈ xs, x.addr ≤ a ∧ a + n ≤ x.addr + x.len := by
  induction n with
  | zero => exact absurd hn (Nat.lt_irrefl 0)
  | succ n ih =>
    obtain ⟨y, hy, hle, hlt⟩ := mem_cells.mp (hmem (a + n) (by omega) (by omega))
    obtain rfl | hpos := Nat.eq_zero_or_pos n
    · exact ⟨y, hy, hle, hlt⟩
    · obtain ⟨x, hx, hstart, hend⟩ := ih hpos fun i hi hi' => hmem i hi (by omega)
      -- The next cell is in the same extent, since the next extent starts later.
      obtain rfl := h.eq_of_touch hx hy (by omega) (by omega)
      exact ⟨x, hx, hstart, hlt⟩

end Lib
end Xv6
