import Mathlib.Tactic

/-!
# Tables of slots

A finite map kept in numbered slots: a slot is empty or holds a key with a value,
a key is looked up from the first slot on, and a new key goes into the first empty
slot or behind the last one.

Main results:

- Theorem {lit}`lookup_set_some`: filling an empty slot adds one key to the map.
- Theorem {lit}`lookup_set_none`: emptying a slot removes one key.
-/

namespace Xv6
namespace Lib

/-- Slots `0, …, len - 1`. -/
@[ext]
structure Slots (κ ν : Type) where
  len : Nat
  slot : Nat → Option (κ × ν)

namespace Slots

variable {κ ν : Type} {t : Slots κ ν} {a b : κ} {v w : ν} {k : Nat}

/-- Slot `k` holds the key `a` with the value `v`. -/
def Holds (t : Slots κ ν) (k : Nat) (a : κ) (v : ν) : Prop :=
  k < t.len ∧ t.slot k = some (a, v)

/-- No key is in two slots. -/
def Distinct (t : Slots κ ν) : Prop :=
  ∀ j k a v w, t.Holds j a v → t.Holds k a w → j = k

/-- The first slot with a key, and its value. -/
def lookup [DecidableEq κ] (t : Slots κ ν) (a : κ) : Option (Nat × ν) :=
  (List.range t.len).findSome? fun k =>
    (t.slot k).bind fun e => if e.1 = a then some (k, e.2) else none

/-- The first empty slot, or the end. -/
def free (t : Slots κ ν) : Nat :=
  ((List.range t.len).find? fun k => (t.slot k).isNone).getD t.len

/-- Replace a slot, or append one. -/
def set (t : Slots κ ν) (k : Nat) (e : Option (κ × ν)) : Slots κ ν :=
  ⟨max t.len (k + 1), Function.update t.slot k e⟩

/-- A search that passes the numbers below `k` arrives at `k`. -/
theorem range_split {n : Nat} (hk : k < n) :
    List.range n = List.range k ++ k :: List.range' (k + 1) (n - k - 1) := by
  have hcons : k :: List.range' (k + 1) (n - k - 1) = List.range' (0 + k) (n - k) := by
    have hpos : n - k = n - k - 1 + 1 := by omega
    rw [hpos, List.range'_succ, Nat.zero_add]
    rfl
  have hsum : k + (n - k) = n := by omega
  rw [hcons, List.range_eq_range', List.range_eq_range', List.range'_append_1, hsum]

/-! ## Looking up -/

/-- A slot has one entry. -/
theorem Holds.unique (h : t.Holds k a v) (h' : t.Holds k b w) : a = b ∧ v = w := by
  have heq := h.2.symm.trans h'.2
  rw [Option.some.injEq, Prod.mk.injEq] at heq
  exact heq

section Lookup

variable [DecidableEq κ]

/-- A key that is not there. -/
theorem lookup_eq_none : t.lookup a = none ↔ ∀ k v, ¬t.Holds k a v := by
  unfold lookup
  rw [List.findSome?_eq_none_iff]
  constructor
  · rintro hnone k v ⟨hk, hslot⟩
    have hk' := hnone k (List.mem_range.mpr hk)
    simp [hslot] at hk'
  · intro hnone k hk
    cases hslot : t.slot k with
    | none => rfl
    | some e =>
      have hne : e.1 ≠ a := fun heq => hnone k e.2 ⟨List.mem_range.mp hk, by rw [hslot, ← heq]⟩
      simp [hne]

/-- What a lookup finds. -/
theorem Holds.of_lookup (h : t.lookup a = some (k, v)) : t.Holds k a v := by
  obtain ⟨j, hj, hfound⟩ := List.exists_of_findSome?_eq_some h
  cases hslot : t.slot j with
  | none => simp [hslot] at hfound
  | some e =>
    simp only [hslot, Option.bind_some] at hfound
    obtain ⟨heq, hfound⟩ := Option.ite_none_right_eq_some.mp hfound
    rw [Option.some.injEq, Prod.mk.injEq] at hfound
    obtain ⟨rfl, rfl⟩ := hfound
    exact ⟨List.mem_range.mp hj, by rw [hslot, ← heq]⟩

/-- The entry found is the first one. -/
theorem lookup_eq_some_of_first (h : t.Holds k a v) (hfirst : ∀ j < k, ∀ w, ¬t.Holds j a w) :
    t.lookup a = some (k, v) := by
  cases hfound : t.lookup a with
  | none => exact absurd h (lookup_eq_none.mp hfound k v)
  | some e =>
    obtain ⟨j, w⟩ := e
    have hnone : (List.range k).findSome? (fun k =>
        (t.slot k).bind fun e => if e.1 = a then some (k, e.2) else none) = none :=
      (lookup_eq_none (t := ⟨k, t.slot⟩)).mpr fun i w hi =>
        hfirst i hi.1 w ⟨hi.1.trans h.1, hi.2⟩
    rw [lookup, range_split h.1, List.findSome?_append, hnone, List.findSome?_cons, h.2] at hfound
    simp only [Option.bind_some, if_true, Option.none_or, Option.some.injEq] at hfound
    rw [hfound]

/-- Keys are found where they are. -/
theorem lookup_eq_some (hd : t.Distinct) : t.lookup a = some (k, v) ↔ t.Holds k a v := by
  refine ⟨Holds.of_lookup, fun h => lookup_eq_some_of_first h fun j hj w hw => ?_⟩
  have heq := hd j k a w v hw h
  omega

end Lookup

/-! ## The first empty slot -/

/-- The first free slot. -/
theorem free_le : t.free ≤ t.len := by
  unfold free
  cases hfind : (List.range t.len).find? fun k => (t.slot k).isNone with
  | none => exact le_rfl
  | some k => exact (List.mem_range.mp (List.mem_of_find?_eq_some hfind)).le

/-- It is free. -/
theorem slot_free (h : t.free < t.len) : t.slot t.free = none := by
  unfold free at h ⊢
  cases hfind : (List.range t.len).find? fun k => (t.slot k).isNone with
  | none =>
    rw [hfind] at h
    exact absurd h (lt_irrefl _)
  | some k =>
    have hk := List.find?_some hfind
    simpa using hk

/-- Slots before the first empty one are in use. -/
theorem free_eq_of_first (hk : k ≤ t.len) (hused : ∀ j < k, t.slot j ≠ none)
    (hend : k < t.len → t.slot k = none) : t.free = k := by
  have hnone : (List.range k).find? (fun k => (t.slot k).isNone) = none := by
    rw [List.find?_eq_none]
    intro j hj
    simpa using hused j (List.mem_range.mp hj)
  rcases hk.lt_or_eq with hlt | rfl
  · rw [free, range_split hlt, List.find?_append, hnone, Option.none_or,
      List.find?_cons_of_pos (by simp [hend hlt])]
    rfl
  · rw [free, hnone]
    rfl

/-- It is the first. -/
theorem free_le_of_empty (hk : k < t.len) (hempty : t.slot k = none) : t.free ≤ k := by
  unfold free
  cases hfind : (List.range t.len).find? fun k => (t.slot k).isNone with
  | none =>
    have hused := List.find?_eq_none.mp hfind k (List.mem_range.mpr hk)
    simp [hempty] at hused
  | some j =>
    by_contra hlt
    rw [Option.getD_some, Nat.not_le] at hlt
    rw [range_split hk, List.find?_append] at hfind
    cases hfirst : (List.range k).find? fun k => (t.slot k).isNone with
    | none =>
      rw [hfirst, Option.none_or, List.find?_cons_of_pos (by simp [hempty]), Option.some.injEq]
        at hfind
      omega
    | some i =>
      rw [hfirst, Option.some_or, Option.some.injEq] at hfind
      have hi := List.mem_range.mp (List.mem_of_find?_eq_some hfirst)
      omega

/-! ## Changing one slot -/

/-- The other slots. -/
theorem holds_set_of_ne {j : Nat} {e : Option (κ × ν)} (hk : k ≤ t.len) (hj : j ≠ k) :
    (t.set k e).Holds j a v ↔ t.Holds j a v := by
  simp only [Holds, set, Function.update_of_ne hj]
  constructor
  · rintro ⟨hlt, hslot⟩
    exact ⟨by rw [lt_max_iff] at hlt; omega, hslot⟩
  · rintro ⟨hlt, hslot⟩
    exact ⟨lt_max_of_lt_left hlt, hslot⟩

/-- The slot itself. -/
theorem holds_set_self {e : Option (κ × ν)} : (t.set k e).Holds k a v ↔ e = some (a, v) := by
  simp [Holds, set]

/-- Filling an empty slot adds exactly one entry. -/
theorem holds_set_some {j : Nat} (hk : k ≤ t.len) (hempty : k < t.len → t.slot k = none) :
    (t.set k (some (a, v))).Holds j b w ↔ t.Holds j b w ∨ j = k ∧ b = a ∧ w = v := by
  obtain rfl | hj := eq_or_ne j k
  · rw [holds_set_self, Option.some.injEq, Prod.mk.injEq]
    constructor
    · rintro ⟨rfl, rfl⟩
      exact Or.inr ⟨rfl, rfl, rfl⟩
    · rintro (⟨hlt, hslot⟩ | ⟨-, rfl, rfl⟩)
      · rw [hempty hlt] at hslot
        cases hslot
      · exact ⟨rfl, rfl⟩
  · rw [holds_set_of_ne hk hj]
    simp [hj]

/-- Emptying a slot removes exactly one entry. -/
theorem holds_set_none {j : Nat} (hk : k ≤ t.len) :
    (t.set k none).Holds j b w ↔ t.Holds j b w ∧ j ≠ k := by
  obtain rfl | hj := eq_or_ne j k
  · rw [holds_set_self]
    simp
  · rw [holds_set_of_ne hk hj]
    simp [hj]

/-- A new key. -/
theorem Distinct.set_some (hd : t.Distinct) (hk : k ≤ t.len) (hempty : k < t.len → t.slot k = none)
    (hnew : ∀ j w, ¬t.Holds j a w) : (t.set k (some (a, v))).Distinct := by
  intro i j b w w' hi hj
  rw [holds_set_some hk hempty] at hi hj
  rcases hi with hi | ⟨rfl, rfl, rfl⟩
  · rcases hj with hj | ⟨rfl, rfl, rfl⟩
    · exact hd i j b w w' hi hj
    · exact absurd hi (hnew i w)
  · rcases hj with hj | ⟨rfl, -, rfl⟩
    · exact absurd hj (hnew j w')
    · rfl

/-- A key less. -/
theorem Distinct.set_none (hd : t.Distinct) (hk : k ≤ t.len) : (t.set k none).Distinct := by
  intro i j b w w' hi hj
  rw [holds_set_none hk] at hi hj
  exact hd i j b w w' hi.1 hj.1

section Lookup

variable [DecidableEq κ]

/-- Filling an empty slot adds one key to the map. -/
theorem lookup_set_some (hd : t.Distinct) (hk : k ≤ t.len) (hempty : k < t.len → t.slot k = none)
    (hnew : t.lookup a = none) (b : κ) :
    (t.set k (some (a, v))).lookup b = if b = a then some (k, v) else t.lookup b := by
  have hd' := hd.set_some (v := v) hk hempty (lookup_eq_none.mp hnew)
  by_cases hb : b = a
  · rw [if_pos hb, hb, lookup_eq_some hd', holds_set_self]
  · rw [if_neg hb]
    cases hold : t.lookup b with
    | none =>
      rw [lookup_eq_none] at hold ⊢
      intro j w hw
      rcases (holds_set_some hk hempty).mp hw with hw | ⟨-, hba, -⟩
      · exact hold j w hw
      · exact hb hba
    | some e =>
      obtain ⟨j, w⟩ := e
      rw [lookup_eq_some hd', holds_set_some hk hempty]
      exact Or.inl (Holds.of_lookup hold)

/-- Emptying a slot removes one key. -/
theorem lookup_set_none (hd : t.Distinct) (h : t.Holds k a v) (b : κ) :
    (t.set k none).lookup b = if b = a then none else t.lookup b := by
  have hd' := hd.set_none (k := k) h.1.le
  by_cases hb : b = a
  · rw [if_pos hb, lookup_eq_none]
    intro j w hw
    obtain ⟨hw, hj⟩ := (holds_set_none h.1.le).mp hw
    exact hj (hd j k a w v (hb ▸ hw) h)
  · rw [if_neg hb]
    cases hold : t.lookup b with
    | none =>
      rw [lookup_eq_none] at hold ⊢
      exact fun j w hw => hold j w ((holds_set_none h.1.le).mp hw).1
    | some e =>
      obtain ⟨j, w⟩ := e
      have hw := Holds.of_lookup hold
      rw [lookup_eq_some hd', holds_set_none h.1.le]
      refine ⟨hw, ?_⟩
      rintro rfl
      exact hb (hw.unique h).1

end Lookup

end Slots
end Lib
end Xv6
