import Mathlib.Tactic
import Xv6.Lib.Copy

/-!
# C strings in a memory

A memory is a function from addresses to bytes.  `Holds mem a bs` says which bytes stand at an
address; the functions that search for the end of a string look at a bounded number of bytes
and fail if they do not find it there.

Main results:

- Theorem {lit}`holds_append`: the bytes at an address, piece by piece.
- Theorem {lit}`cstr_eq_iff`: a string is read up to its terminator.
- Theorem {lit}`strchr_found` and Theorem {lit}`strchr_absent`: the first occurrence of a byte
  in a string.
-/

namespace Xv6
namespace Lib

open Function

/-- The bytes `bs` stand in the memory from address `a` on. -/
def Holds (mem : Nat → UInt8) : Nat → List UInt8 → Prop
  | _, [] => True
  | a, b :: bs => mem a = b ∧ Holds mem (a + 1) bs

/-- The memory after the bytes `bs` have been written at `a`. -/
def store (mem : Nat → UInt8) : Nat → List UInt8 → (Nat → UInt8)
  | _, [] => mem
  | a, b :: bs => store (update mem a b) (a + 1) bs

/-- The `n` bytes at address `a`. -/
def bytesAt (mem : Nat → UInt8) (a n : Nat) : List UInt8 := (List.range n).map fun i => mem (a + i)

/-- The string at address `a`, if it ends within `room` bytes. -/
def cstr (mem : Nat → UInt8) : (room a : Nat) → Option (List UInt8)
  | 0, _ => none
  | room + 1, a => if mem a = 0 then some [] else (cstr mem room (a + 1)).map (mem a :: ·)

/-- `strchr`: the address of the first `c` in the string at `a`, if the string has one.  The
search fails if it comes to neither within `room` bytes. -/
def strchr (mem : Nat → UInt8) (c : UInt8) : (room a : Nat) → Option (Option Nat)
  | 0, _ => none
  | room + 1, a =>
    if mem a = 0 then some none
    else if mem a = c then some (some a)
    else strchr mem c room (a + 1)

section Holds

variable {mem mem' : Nat → UInt8} {a : Nat} {bs u v : List UInt8}

@[simp] theorem holds_nil : Holds mem a [] := trivial

@[simp] theorem holds_cons {b : UInt8} :
    Holds mem a (b :: bs) ↔ mem a = b ∧ Holds mem (a + 1) bs := Iff.rfl

/-- Bytes in two parts. -/
theorem holds_append : Holds mem a (u ++ v) ↔ Holds mem a u ∧ Holds mem (a + u.length) v := by
  induction u generalizing a with
  | nil => simp
  | cons b u ih =>
    rw [List.cons_append, holds_cons, holds_cons, ih, List.length_cons, and_assoc,
      Nat.add_right_comm, Nat.add_assoc]

/-- Only the bytes in the range matter. -/
theorem Holds.congr (hmem : Holds mem a bs)
    (hsame : ∀ x, a ≤ x → x < a + bs.length → mem' x = mem x) : Holds mem' a bs := by
  induction bs generalizing a with
  | nil => trivial
  | cons b bs ih =>
    have hfirst : mem' a = mem a := hsame a le_rfl (by simp)
    refine ⟨hfirst.trans hmem.1, ih hmem.2 fun x hge hlt => hsame x (by omega) ?_⟩
    rw [List.length_cons]
    omega

/-- A write outside the range does not matter. -/
theorem Holds.update (hmem : Holds mem a bs) {x : Nat} (hx : x < a ∨ a + bs.length ≤ x)
    (b : UInt8) : Holds (update mem x b) a bs :=
  hmem.congr fun _ _ _ => update_of_ne (by omega) _ _

/-- There is no NUL byte inside. -/
theorem Holds.ne_zero (hmem : Holds mem a bs) (hnul : 0 ∉ bs) {x : Nat} (hge : a ≤ x)
    (hlt : x < a + bs.length) : mem x ≠ 0 := by
  induction bs generalizing a with
  | nil =>
    rw [List.length_nil] at hlt
    omega
  | cons b bs ih =>
    obtain ⟨hb, hbs⟩ := not_or.mp (mt List.mem_cons.mpr hnul)
    rw [List.length_cons] at hlt
    by_cases hfirst : x = a
    · rw [hfirst, hmem.1]
      exact Ne.symm hb
    · exact ih hmem.2 hbs (by omega) (by omega)

/-- The first byte. -/
theorem bytesAt_succ (n : Nat) : bytesAt mem a (n + 1) = mem a :: bytesAt mem (a + 1) n := by
  unfold bytesAt
  rw [List.range_succ_eq_map, List.map_cons, List.map_map]
  refine congrArg (List.cons _) (List.map_congr_left fun i _ => ?_)
  exact congrArg mem (by omega : a + (i + 1) = a + 1 + i)

/-- Reading the bytes back. -/
theorem Holds.bytesAt_eq (hmem : Holds mem a bs) : bytesAt mem a bs.length = bs := by
  induction bs generalizing a with
  | nil => rfl
  | cons b bs ih => rw [List.length_cons, bytesAt_succ, ih hmem.2, hmem.1]

/-- Below. -/
theorem store_of_lt {x : Nat} (hx : x < a) : store mem a bs x = mem x := by
  induction bs generalizing mem a with
  | nil => rfl
  | cons b bs ih => rw [store, ih (by omega), update_of_ne (by omega)]

/-- Above. -/
theorem store_of_ge {x : Nat} (hx : a + bs.length ≤ x) : store mem a bs x = mem x := by
  induction bs generalizing mem a with
  | nil => rfl
  | cons b bs ih =>
    rw [List.length_cons] at hx
    rw [store, ih (by omega), update_of_ne (by omega)]

/-- The bytes that have been stored. -/
theorem holds_store : Holds (store mem a bs) a bs := by
  induction bs generalizing mem a with
  | nil => trivial
  | cons b bs ih =>
    refine ⟨?_, ih⟩
    rw [store, store_of_lt (Nat.lt_succ_self a), update_self]

/-- The bytes below a write stay. -/
theorem Holds.store (hmem : Holds mem a bs) {x : Nat} (hx : a + bs.length ≤ x) :
    Holds (store mem x u) a bs :=
  hmem.congr fun _ _ hlt => store_of_lt (by omega)

/-- A part of what has been moved. -/
theorem holds_moved_part {d s k n : Nat} (hn : k + bs.length ≤ n) (hmem : Holds mem (s + k) bs) :
    Holds (moved mem d s n) (d + k) bs := by
  induction bs generalizing k with
  | nil => trivial
  | cons b bs ih =>
    rw [List.length_cons] at hn
    refine ⟨?_, ih (by omega : k + 1 + bs.length ≤ n) hmem.2⟩
    rw [← hmem.1]
    unfold moved
    rw [if_pos (by omega), Nat.add_sub_cancel_left]

/-- Copied bytes stand at the target. -/
theorem Holds.moved {d s : Nat} (hmem : Holds mem s bs) :
    Holds (moved mem d s bs.length) d bs :=
  holds_moved_part (k := 0) (by omega) hmem

end Holds

section Strings

variable {mem : Nat → UInt8} {a room : Nat} {s : List UInt8}

/-- Bytes other than the terminator are read one after the other. -/
theorem cstr_skip (hnul : 0 ∉ s) (hmem : Holds mem a s) :
    cstr mem (s.length + room) a = (cstr mem room (a + s.length)).map (s ++ ·) := by
  induction s generalizing a with
  | nil => simp
  | cons b s ih =>
    obtain ⟨hb, hs⟩ := not_or.mp (mt List.mem_cons.mpr hnul)
    have hfirst : mem a ≠ 0 := fun h0 => hb (h0.symm.trans hmem.1)
    rw [List.length_cons, Nat.add_right_comm, cstr, if_neg hfirst, ih hs hmem.2, hmem.1,
      Option.map_map, Nat.add_right_comm, Nat.add_assoc]
    rfl

/-- Without a terminator there is no string. -/
theorem cstr_eq_none (hmem : ∀ x, a ≤ x → x < a + room → mem x ≠ 0) : cstr mem room a = none := by
  induction room generalizing a with
  | zero => rfl
  | succ room ih =>
    rw [cstr, if_neg (hmem a le_rfl (by omega)), ih fun x hge hlt => hmem x (by omega) (by omega)]
    rfl

/-- The string at `a` is `s` if the byte after `s` is the terminator. -/
theorem cstr_eq_iff (hnul : 0 ∉ s) (hroom : s.length < room) (hmem : Holds mem a s) :
    cstr mem room a = some s ↔ mem (a + s.length) = 0 := by
  obtain ⟨more, rfl⟩ := Nat.exists_eq_add_of_lt hroom
  rw [Nat.add_assoc, cstr_skip hnul hmem, cstr]
  constructor
  · intro hread
    by_contra hend
    rw [if_neg hend, Option.map_map] at hread
    obtain ⟨t, -, ht⟩ := Option.map_eq_some_iff.mp hread
    simp at ht
  · intro hend
    rw [if_pos hend, Option.map_some, List.append_nil]

/-- The string up to its NUL byte. -/
theorem cstr_of_holds (hnul : 0 ∉ s) (hroom : s.length < room) (hmem : Holds mem a (s ++ [0])) :
    cstr mem room a = some s := by
  obtain ⟨hs, hend, _⟩ := holds_append.mp hmem
  exact (cstr_eq_iff hnul hroom hs).mpr hend

variable {c : UInt8}

/-- The search passes over bytes that are neither what it looks for nor the end. -/
theorem strchr_skip (hnul : 0 ∉ s) (hnone : c ∉ s) (hmem : Holds mem a s) :
    strchr mem c (s.length + room) a = strchr mem c room (a + s.length) := by
  induction s generalizing a with
  | nil => rw [List.length_nil, Nat.zero_add, Nat.add_zero]
  | cons b s ih =>
    obtain ⟨hb, hs⟩ := not_or.mp (mt List.mem_cons.mpr hnul)
    obtain ⟨hbc, hsc⟩ := not_or.mp (mt List.mem_cons.mpr hnone)
    have hfirst : mem a ≠ 0 := fun h0 => hb (h0.symm.trans hmem.1)
    have hother : mem a ≠ c := fun h0 => hbc (h0.symm.trans hmem.1)
    rw [List.length_cons, Nat.add_right_comm, strchr, if_neg hfirst, if_neg hother,
      ih hs hsc hmem.2, Nat.add_right_comm, Nat.add_assoc]

/-- The first such byte. -/
theorem strchr_found (hc : c ≠ 0) (hnul : 0 ∉ s) (hnone : c ∉ s) (hroom : s.length < room)
    (hmem : Holds mem a (s ++ [c])) : strchr mem c room a = some (some (a + s.length)) := by
  obtain ⟨more, rfl⟩ := Nat.exists_eq_add_of_lt hroom
  obtain ⟨hs, hfound, _⟩ := holds_append.mp hmem
  have hfirst : mem (a + s.length) ≠ 0 := fun h0 => hc (hfound.symm.trans h0)
  rw [Nat.add_assoc, strchr_skip hnul hnone hs, strchr, if_neg hfirst, if_pos hfound]

/-- There is no such byte. -/
theorem strchr_absent (hnul : 0 ∉ s) (hnone : c ∉ s) (hroom : s.length < room)
    (hmem : Holds mem a (s ++ [0])) : strchr mem c room a = some none := by
  obtain ⟨more, rfl⟩ := Nat.exists_eq_add_of_lt hroom
  obtain ⟨hs, hend, _⟩ := holds_append.mp hmem
  rw [Nat.add_assoc, strchr_skip hnul hnone hs, strchr, if_pos hend]

end Strings

end Lib
end Xv6
