import Mathlib.Tactic

/-!
# The pattern matcher of `grep`

C strings are lists of bytes without their terminator, so the end of a list is the `'\0'`
that the matcher tests for.  A pattern is read as a list of items, each of which spells some
words, and two anchors; the three functions of the matcher find a place where the items spell
consecutive pieces of the text.

Main results:

- Theorem {lit}`matchhere_iff`: `matchhere` finds the items of the pattern at the beginning of
  the text.
- Theorem {lit}`match_iff_accepts`: `match` returns 1 exactly for the texts that the pattern
  accepts.
-/

namespace Xv6
namespace Grep

/-- `'^'`. -/
def caret : UInt8 := 94
/-- `'$'`. -/
def dollar : UInt8 := 36
/-- `'.'`. -/
def dot : UInt8 := 46
/-- `'*'`. -/
def star : UInt8 := 42

/-! ## The matcher -/

/-- `matchstar(c, re, text)`, where `here` is `matchhere` for `re`. -/
def matchstar (here : List UInt8 → Bool) (c : UInt8) : List UInt8 → Bool
  | [] => here []
  | x :: text => here (x :: text) || ((x == c || c == dot) && matchstar here c text)

/-- `matchhere`: search for `re` at the beginning of `text`. -/
def matchhere : (re text : List UInt8) → Bool
  | [], _ => true
  | [c], text =>
    if c = dollar then text.isEmpty
    else
      match text with
      | [] => false
      | x :: text => (c == dot || c == x) && matchhere [] text
  | c :: d :: re, text =>
    if d = star then matchstar (matchhere re) c text
    else
      match text with
      | [] => false
      | x :: text => (c == dot || c == x) && matchhere (d :: re) text

/-- The loop of `match`, which looks at the empty rest of the text too. -/
def matchAnywhere (re : List UInt8) : List UInt8 → Bool
  | [] => matchhere re []
  | x :: text => matchhere re (x :: text) || matchAnywhere re text

/-- The function `match` of `grep.c`. -/
def matchText (re text : List UInt8) : Bool :=
  match re with
  | [] => matchAnywhere [] text
  | c :: re => if c = caret then matchhere re text else matchAnywhere (c :: re) text

/-! ## What a pattern means -/

/-- The pattern byte `c` stands for the byte `x` of the text. -/
def Stands (c x : UInt8) : Prop := c = dot ∨ c = x

/-- An item of a pattern: one byte, or zero or more of it. -/
inductive Item where
  | one (c : UInt8)
  | many (c : UInt8)

/-- The words that an item spells. -/
def Item.Means : Item → List UInt8 → Prop
  | .one c, w => ∃ x, w = [x] ∧ Stands c x
  | .many c, w => ∀ x ∈ w, Stands c x

/-- A word is made of one piece for each item, in order. -/
inductive Spells : List Item → List UInt8 → Prop
  | nil : Spells [] []
  | cons {item : Item} {items : List Item} {u v : List UInt8} (hitem : item.Means u)
      (hitems : Spells items v) : Spells (item :: items) (u ++ v)

/-- A pattern: does it begin with `'^'`, its items, and does it end with `'$'`. -/
structure Pattern where
  front : Bool
  items : List Item
  back : Bool

/-- The text has a part that the items spell, at the beginning or at the end if the pattern
says so. -/
def Pattern.Accepts (p : Pattern) (text : List UInt8) : Prop :=
  ∃ pre mid post, text = pre ++ mid ++ post ∧ Spells p.items mid ∧
    (p.front = true → pre = []) ∧ (p.back = true → post = [])

/-- The items of a pattern and whether a `'$'` comes last.  A `'*'` belongs to the byte before
it, whichever that is, and is an ordinary byte where no byte is left to its left. -/
def readItems : List UInt8 → List Item × Bool
  | [] => ([], false)
  | [c] => if c = dollar then ([], true) else ([.one c], false)
  | c :: d :: re =>
    if d = star then (.many c :: (readItems re).1, (readItems re).2)
    else (.one c :: (readItems (d :: re)).1, (readItems (d :: re)).2)

/-- The pattern that a string is read as. -/
def readPattern : List UInt8 → Pattern
  | [] => ⟨false, [], false⟩
  | c :: re =>
    if c = caret then ⟨true, (readItems re).1, (readItems re).2⟩
    else ⟨false, (readItems (c :: re)).1, (readItems (c :: re)).2⟩

/-! ## The matcher finds what the pattern means -/

theorem spells_nil {w : List UInt8} : Spells [] w ↔ w = [] := by
  constructor
  · intro h
    cases h
    rfl
  · rintro rfl
    exact .nil

theorem spells_cons {item : Item} {items : List Item} {w : List UInt8} :
    Spells (item :: items) w ↔ ∃ u v, w = u ++ v ∧ item.Means u ∧ Spells items v := by
  constructor
  · intro h
    cases h with
    | cons hitem hitems => exact ⟨_, _, rfl, hitem, hitems⟩
  · rintro ⟨u, v, rfl, hitem, hitems⟩
    exact .cons hitem hitems

/-- The text begins with what the items spell, and ends there if `back` is set. -/
def Begins (p : List Item × Bool) (text : List UInt8) : Prop :=
  ∃ mid post, text = mid ++ post ∧ Spells p.1 mid ∧ (p.2 = true → post = [])

theorem begins_cons {item : Item} {items : List Item} {back : Bool} {text : List UInt8} :
    Begins (item :: items, back) text ↔
      ∃ u v, text = u ++ v ∧ item.Means u ∧ Begins (items, back) v := by
  constructor
  · rintro ⟨mid, post, rfl, hspells, hback⟩
    obtain ⟨u, v, rfl, hitem, hitems⟩ := spells_cons.mp hspells
    exact ⟨u, v ++ post, List.append_assoc .., hitem, v, post, rfl, hitems, hback⟩
  · rintro ⟨u, v, rfl, hitem, mid, post, rfl, hspells, hback⟩
    exact ⟨u ++ mid, post, (List.append_assoc ..).symm, .cons hitem hspells, hback⟩

theorem begins_nil {back : Bool} {text : List UInt8} :
    Begins ([], back) text ↔ (back = true → text = []) := by
  constructor
  · rintro ⟨mid, post, rfl, hspells, hback⟩ hset
    rw [spells_nil.mp hspells, hback hset]
    rfl
  · intro hback
    exact ⟨[], text, rfl, .nil, hback⟩

/-- An item for one byte takes the first byte of the text. -/
theorem begins_one {c : UInt8} {items : List Item} {back : Bool} {text : List UInt8} :
    Begins (.one c :: items, back) text ↔
      ∃ x rest, text = x :: rest ∧ Stands c x ∧ Begins (items, back) rest := by
  rw [begins_cons]
  constructor
  · rintro ⟨u, v, rfl, ⟨x, rfl, hstands⟩, hbegins⟩
    exact ⟨x, v, rfl, hstands, hbegins⟩
  · rintro ⟨x, rest, rfl, hstands, hbegins⟩
    exact ⟨[x], rest, rfl, ⟨x, rfl, hstands⟩, hbegins⟩

/-- The test of `matchstar` for one more `c`. -/
theorem stands_iff {c x : UInt8} : (x == c || c == dot) = true ↔ Stands c x := by
  rw [Bool.or_eq_true, beq_iff_eq, beq_iff_eq, or_comm, eq_comm (a := x)]
  rfl

/-- The loop of `matchstar` tries every run of `c` at the beginning of the text, the empty one
first. -/
theorem matchstar_iff (here : List UInt8 → Bool) (c : UInt8) (text : List UInt8) :
    matchstar here c text = true ↔
      ∃ u v, text = u ++ v ∧ (Item.many c).Means u ∧ here v = true := by
  induction text with
  | nil =>
    constructor
    · intro hhere
      exact ⟨[], [], rfl, fun _ hx => absurd hx List.not_mem_nil, hhere⟩
    · rintro ⟨u, v, htext, _, hhere⟩
      obtain ⟨rfl, rfl⟩ := List.append_eq_nil_iff.mp htext.symm
      exact hhere
  | cons x text ih =>
    rw [matchstar, Bool.or_eq_true, Bool.and_eq_true, ih]
    constructor
    · rintro (hhere | ⟨hx, u, v, rfl, hmany, hhere⟩)
      · exact ⟨[], x :: text, rfl, fun _ hx => absurd hx List.not_mem_nil, hhere⟩
      · refine ⟨x :: u, v, rfl, ?_, hhere⟩
        exact List.forall_mem_cons.mpr ⟨stands_iff.mp hx, hmany⟩
    · rintro ⟨u, v, htext, hmany, hhere⟩
      cases u with
      | nil =>
        left
        rw [htext]
        exact hhere
      | cons y u =>
        obtain ⟨rfl, rfl⟩ := List.cons.inj htext
        obtain ⟨hfirst, hrest⟩ := List.forall_mem_cons.mp hmany
        exact Or.inr ⟨stands_iff.mpr hfirst, u, v, rfl, hrest, hhere⟩

theorem matchhere_star (c : UInt8) (re text : List UInt8) :
    matchhere (c :: star :: re) text = matchstar (matchhere re) c text := by
  rw [matchhere.eq_def]
  exact if_pos rfl

/-- `matchhere` succeeds exactly if the text begins with what the pattern spells. -/
theorem matchhere_iff (re text : List UInt8) :
    matchhere re text = true ↔ Begins (readItems re) text := by
  -- the recursion of `readItems` over the pattern, one case for each test of `matchhere`
  induction re using readItems.induct generalizing text with
  | case1 =>
    rw [matchhere, readItems, begins_nil]
    simp
  | case2 =>
    rw [matchhere.eq_def, readItems, if_pos rfl, begins_nil]
    simp
  | case3 c hc =>
    rw [matchhere.eq_def, readItems, if_neg hc, begins_one]
    cases text with
    | nil => simp [hc]
    | cons x text => simp [hc, matchhere, begins_nil, Stands]
  | case4 c re ih =>
    rw [matchhere_star, readItems, if_pos rfl, matchstar_iff, begins_cons]
    simp only [ih]
  | case5 c d re hd ih =>
    rw [readItems, if_neg hd, begins_one]
    cases text with
    | nil => simp [matchhere, hd]
    | cons x text => simp [matchhere, hd, ih, Stands]

/-- Without a `'^'` every end of the text is tried, the empty one last. -/
theorem matchAnywhere_iff (re text : List UInt8) :
    matchAnywhere re text = true ↔
      ∃ pre rest, text = pre ++ rest ∧ Begins (readItems re) rest := by
  induction text with
  | nil =>
    rw [matchAnywhere, matchhere_iff]
    constructor
    · intro hbegins
      exact ⟨[], [], rfl, hbegins⟩
    · rintro ⟨pre, rest, htext, hbegins⟩
      obtain ⟨rfl, rfl⟩ := List.append_eq_nil_iff.mp htext.symm
      exact hbegins
  | cons x text ih =>
    rw [matchAnywhere, Bool.or_eq_true, matchhere_iff, ih]
    constructor
    · rintro (hbegins | ⟨pre, rest, rfl, hbegins⟩)
      · exact ⟨[], x :: text, rfl, hbegins⟩
      · exact ⟨x :: pre, rest, rfl, hbegins⟩
    · rintro ⟨pre, rest, htext, hbegins⟩
      cases pre with
      | nil =>
        left
        rw [htext]
        exact hbegins
      | cons y pre =>
        obtain ⟨rfl, rfl⟩ := List.cons.inj htext
        exact Or.inr ⟨pre, rest, rfl, hbegins⟩

/-- Unanchored at the front, a pattern accepts the texts with an end that it begins. -/
theorem accepts_anywhere {items : List Item} {back : Bool} {text : List UInt8} :
    Pattern.Accepts ⟨false, items, back⟩ text ↔
      ∃ pre rest, text = pre ++ rest ∧ Begins (items, back) rest := by
  constructor
  · rintro ⟨pre, mid, post, rfl, hspells, _, hback⟩
    exact ⟨pre, mid ++ post, List.append_assoc .., mid, post, rfl, hspells, hback⟩
  · rintro ⟨pre, rest, rfl, mid, post, rfl, hspells, hback⟩
    exact ⟨pre, mid, post, (List.append_assoc ..).symm, hspells, Bool.noConfusion, hback⟩

/-- Anchored at the front, it accepts the texts that it begins. -/
theorem accepts_front {items : List Item} {back : Bool} {text : List UInt8} :
    Pattern.Accepts ⟨true, items, back⟩ text ↔ Begins (items, back) text := by
  constructor
  · rintro ⟨pre, mid, post, rfl, hspells, hfront, hback⟩
    rw [hfront rfl]
    exact ⟨mid, post, rfl, hspells, hback⟩
  · rintro ⟨mid, post, rfl, hspells, hback⟩
    exact ⟨[], mid, post, rfl, hspells, fun _ => rfl, hback⟩

/-- `match` returns 1 exactly if the text is one that the pattern accepts. -/
theorem match_iff_accepts (re text : List UInt8) :
    matchText re text = true ↔ (readPattern re).Accepts text := by
  cases re with
  | nil =>
    change matchAnywhere [] text = true ↔ _
    rw [matchAnywhere_iff, readPattern, accepts_anywhere]
    rfl
  | cons c re =>
    change (if c = caret then matchhere re text else matchAnywhere (c :: re) text) = true ↔ _
    by_cases hfront : c = caret
    · rw [readPattern, if_pos hfront, if_pos hfront, matchhere_iff, accepts_front]
    · rw [readPattern, if_neg hfront, if_neg hfront, matchAnywhere_iff, accepts_anywhere]

-- `".*$"` matches everything, `"$*"` any number of dollar signs, `"^*"` a star in front
example : matchText [dot, star, dollar] [97, 98] = true := by decide

example : matchText [97, dollar, star, 98] [97, 36, 36, 98] = true := by decide

example : matchText [caret, star] [97] = false := by decide

end Grep
end Xv6
