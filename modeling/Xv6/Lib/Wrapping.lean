import Mathlib.Data.List.Basic
import Mathlib.Data.Nat.ModEq
import Mathlib.Logic.Function.Basic

/-!
# Circular buffers with wrapping counters

A buffer of `c` cells is indexed by two counters that are only ever incremented
and wrap around at `m`.  If `c` divides `m`, the cells between the counters form
a queue, and comparing the counters tells whether it is empty or full.

Main results:

- Theorems {lit}`ahead_eq_zero` and {lit}`eq_add_iff_ahead`: the tests for an
  empty and for a full buffer.
- Theorems {lit}`buffered_push` and {lit}`buffered_pop`: what the two operations
  do to the queue.
-/

namespace Xv6
namespace Lib

open Function

/-- How far the counter `w` is ahead of the counter `r`. -/
def ahead (m r w : Nat) : Nat := (w + m - r) % m

/-- The counter before `w`.  The sum has `w` on the right and is irreducible, since
otherwise a check for equality would count down from `m`. -/
@[irreducible]
def prev (m w : Nat) : Nat := (m - 1 + w) % m

/-- The elements between the counters, oldest first. -/
def buffered {α : Type*} (m c : Nat) (data : Nat → α) (r w : Nat) : List α :=
  (List.range (ahead m r w)).map fun k => data ((r + k) % m % c)

section Counters

variable {m c r w : Nat}

/-- The distance by cases. -/
theorem ahead_eq (hr : r < m) (hw : w < m) :
    ahead m r w = if r ≤ w then w - r else w + m - r := by
  unfold ahead
  split
  · rw [Nat.add_comm w m, Nat.add_sub_assoc (by assumption), Nat.add_mod_left,
      Nat.mod_eq_of_lt (by omega)]
  · exact Nat.mod_eq_of_lt (by omega)

/-- The counters meet. -/
theorem ahead_eq_zero (hr : r < m) (hw : w < m) : ahead m r w = 0 ↔ r = w := by
  rw [ahead_eq hr hw]
  split <;> omega

/-- The next value. -/
theorem succ_mod (hw : w < m) : (w + 1) % m = if w + 1 = m then 0 else w + 1 := by
  split
  · simp [*]
  · exact Nat.mod_eq_of_lt (by omega)

/-- The test for a full buffer. -/
theorem eq_add_iff_ahead (hr : r < m) (hw : w < m) (hc : c < m) :
    w = (r + c) % m ↔ ahead m r w = c := by
  have hsum : (r + c) % m = if r + c < m then r + c else r + c - m := by
    split
    · exact Nat.mod_eq_of_lt (by assumption)
    · rw [Nat.mod_eq_sub_mod (by omega), Nat.mod_eq_of_lt (by omega)]
  rw [ahead_eq hr hw, hsum]
  split <;> split <;> omega

/-- The test for a full buffer in which one cell stays empty. -/
theorem succ_eq_iff_ahead (hr : r < m) (hw : w < m) :
    (w + 1) % m = r ↔ ahead m r w + 1 = m := by
  rw [ahead_eq hr hw, succ_mod hw]
  split <;> split <;> omega

/-- One step of the writer. -/
theorem ahead_push (hr : r < m) (hw : w < m) (hroom : ahead m r w + 1 < m) :
    ahead m r ((w + 1) % m) = ahead m r w + 1 := by
  have hlt : (w + 1) % m < m := Nat.mod_lt _ (by omega)
  rw [ahead_eq hr hw] at hroom ⊢
  rw [ahead_eq hr hlt, succ_mod hw]
  split at hroom <;> split <;> split <;> omega

/-- One step of the reader. -/
theorem ahead_pop (hr : r < m) (hw : w < m) (hne : r ≠ w) :
    ahead m ((r + 1) % m) w + 1 = ahead m r w := by
  have hlt : (r + 1) % m < m := Nat.mod_lt _ (by omega)
  rw [ahead_eq hr hw, ahead_eq hlt hw, succ_mod hr]
  split <;> split <;> split <;> omega

theorem prev_lt (hm : 0 < m) (w : Nat) : prev m w < m := by
  unfold prev
  exact Nat.mod_lt _ hm

/-- An increment undoes a decrement. -/
theorem succ_prev (hw : w < m) : (prev m w + 1) % m = w := by
  unfold prev
  rw [Nat.mod_add_mod, show m - 1 + w + 1 = w + m by omega, Nat.add_mod_right,
    Nat.mod_eq_of_lt hw]

/-- A decrement undoes an increment. -/
theorem prev_succ (hw : w < m) : prev m ((w + 1) % m) = w := by
  unfold prev
  rw [Nat.add_mod_mod, show m - 1 + (w + 1) = w + m by omega, Nat.add_mod_right,
    Nat.mod_eq_of_lt hw]

/-- Taking the writing counter back. -/
theorem ahead_prev (hr : r < m) (hw : w < m) (hne : r ≠ w) :
    ahead m r (prev m w) + 1 = ahead m r w := by
  have hlt : prev m w < m := prev_lt (by omega) w
  have hbound : ahead m r (prev m w) < m := Nat.mod_lt _ (by omega)
  have hfull : ahead m r (prev m w) + 1 ≠ m := by
    rw [Ne, ← succ_eq_iff_ahead hr hlt, succ_prev hw]
    exact hne.symm
  rw [← ahead_push hr hlt (by omega), succ_prev hw]

/-- Three counters in a row. -/
theorem ahead_add_ahead {e : Nat} (hr : r < m) (hw : w < m) (he : e < m)
    (hle : ahead m r w ≤ ahead m r e) : ahead m r w + ahead m w e = ahead m r e := by
  rw [ahead_eq hr hw, ahead_eq hr he] at hle
  rw [ahead_eq hr hw, ahead_eq hr he, ahead_eq hw he]
  split_ifs at hle ⊢ <;> omega

/-- The writing counter, from the reading counter and their distance. -/
theorem add_ahead_mod (hr : r < m) (hw : w < m) : (r + ahead m r w) % m = w := by
  rw [ahead_eq hr hw]
  split
  · rw [Nat.add_sub_cancel' (by assumption), Nat.mod_eq_of_lt hw]
  · rw [Nat.add_sub_cancel' (by omega), Nat.add_mod_right, Nat.mod_eq_of_lt hw]

end Counters

section Buffer

variable {α : Type*} {m c r w : Nat} {data : Nat → α}

/-- Two distances below the capacity that lead to one cell are equal. -/
theorem eq_of_same_cell {j k : Nat} (hj : j < c) (hk : k < c) (h : (r + j) % c = (r + k) % c) :
    j = k := by
  have hmod : j ≡ k [MOD c] := Nat.ModEq.add_left_cancel' r h
  exact Nat.ModEq.eq_of_lt_of_lt hmod hj hk

/-- Moving the writing counter over a cell. -/
theorem buffered_succ (hr : r < m) (hw : w < m) (hwrap : ahead m r w + 1 < m) :
    buffered m c data r ((w + 1) % m) = buffered m c data r w ++ [data (w % c)] := by
  unfold buffered
  rw [ahead_push hr hw hwrap, List.range_succ, List.map_append, List.map_singleton,
    add_ahead_mod hr hw]

/-- The newest element. -/
theorem buffered_prev (hr : r < m) (hw : w < m) (hne : r ≠ w) :
    buffered m c data r w = buffered m c data r (prev m w) ++ [data (prev m w % c)] := by
  have hlt : prev m w < m := prev_lt (by omega) w
  have hprev := ahead_prev hr hw hne
  have hbound : ahead m r w < m := Nat.mod_lt _ (by omega)
  rw [← buffered_succ hr hlt (by omega), succ_prev hw]

/-- A cell beyond the writing counter can be changed. -/
theorem buffered_update {e : Nat} (hdvd : c ∣ m) (hr : r < m) (he : e < m)
    (hle : ahead m r w ≤ ahead m r e) (hroom : ahead m r e < c) (x : α) :
    buffered m c (update data (e % c) x) r w = buffered m c data r w := by
  unfold buffered
  apply List.map_congr_left
  intro k hk
  rw [List.mem_range] at hk
  apply update_of_ne
  intro hsame
  rw [← add_ahead_mod hr he, Nat.mod_mod_of_dvd _ hdvd, Nat.mod_mod_of_dvd _ hdvd] at hsame
  have := eq_of_same_cell (by omega) hroom hsame
  omega

/-- Storing an element at the writing counter, where one cell may have to stay empty. -/
theorem buffered_push_of_room (hdvd : c ∣ m) (hr : r < m) (hw : w < m) (hroom : ahead m r w < c)
    (hwrap : ahead m r w + 1 < m) (x : α) :
    buffered m c (update data (w % c) x) r ((w + 1) % m) =
      buffered m c data r w ++ [x] := by
  rw [buffered_succ hr hw hwrap, buffered_update hdvd hr hw (Nat.le_refl _) hroom,
    update_self]

/-- The queue up to the second of two counters ahead. -/
theorem buffered_append {e : Nat} (hr : r < m) (hw : w < m) (he : e < m)
    (hle : ahead m r w ≤ ahead m r e) :
    buffered m c data r e = buffered m c data r w ++ buffered m c data w e := by
  have hsum : ahead m r e = ahead m r w + ahead m w e := by
    rw [ahead_add_ahead hr hw he hle]
  unfold buffered
  rw [hsum, List.range_add, List.map_append, List.map_map]
  congr 1
  apply List.map_congr_left
  intro k _
  have hstep : (w + k) % m = (r + (ahead m r w + k)) % m := by
    rw [← Nat.add_assoc, ← Nat.mod_add_mod (r + ahead m r w), add_ahead_mod hr hw]
  rw [hstep, Function.comp_apply]

/-- Storing an element at the writing counter. -/
theorem buffered_push (hdvd : c ∣ m) (hr : r < m) (hw : w < m) (hroom : ahead m r w < c)
    (hc : c < m) (x : α) :
    buffered m c (update data (w % c) x) r ((w + 1) % m) =
      buffered m c data r w ++ [x] :=
  buffered_push_of_room hdvd hr hw hroom (by omega) x

/-- The element at the reading counter is the oldest. -/
theorem buffered_pop (hr : r < m) (hw : w < m) (hne : r ≠ w) :
    buffered m c data r w = data (r % c) :: buffered m c data ((r + 1) % m) w := by
  unfold buffered
  rw [← ahead_pop hr hw hne, List.range_succ_eq_map, List.map_cons, List.map_map, Nat.add_zero,
    Nat.mod_eq_of_lt hr]
  congr 1
  apply List.map_congr_left
  intro k _
  rw [Function.comp_apply, Nat.mod_add_mod, Nat.succ_eq_add_one, Nat.add_right_comm, Nat.add_assoc]

/-- The number of elements. -/
@[simp]
theorem length_buffered : (buffered m c data r w).length = ahead m r w := by
  simp [buffered]

/-- An empty buffer. -/
theorem buffered_empty (data : Nat → α) (hr : r < m) : buffered m c data r r = [] := by
  unfold buffered
  rw [(ahead_eq_zero hr hr).mpr rfl, List.range_zero, List.map_nil]

end Buffer

end Lib
end Xv6
