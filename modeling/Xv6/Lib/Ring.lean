import Mathlib.Data.List.Induction
import Mathlib.Data.List.Nodup
import Mathlib.Logic.Function.Basic

/-!
# Circular doubly linked lists

A ring of nodes is stored as two link functions, `next` and `prev`, together
with a distinguished head node that carries no payload.  This module says when
the links represent a list, and gives the two pointer operations from which
every relinking is built: unlinking one node and inserting one node after the
head.

Main results:

- Theorem {lit}`Ring.unlink`: unlinking a member leaves a ring of the other
  members, in the same order.
- Theorem {lit}`Ring.insertHead`: inserting a fresh node after the head adds it
  at the front.
- Theorems {lit}`Ring.scan_next` and {lit}`Ring.scan_prev`: a search along the
  links is a search of the represented list, from its front or from its back.
-/

namespace Xv6
namespace Lib

open Function

variable {α : Type*}

/-! ## Link paths -/

/-- Following `link` from `a` visits exactly the nodes of the list, in order,
and then arrives at `z`. -/
def Path (link : α → α) : α → List α → α → Prop
  | a, [], z => link a = z
  | a, x :: l, z => link a = x ∧ Path link x l z

/-- A path only depends on the links of the nodes it leaves. -/
theorem Path.congr {link link' : α → α} {a z : α} {l : List α}
    (h : Path link a l z) (hlink : ∀ x ∈ a :: l, link' x = link x) :
    Path link' a l z := by
  induction l generalizing a with
  | nil => simpa [Path, hlink a] using h
  | cons x l ih =>
    refine ⟨by rw [hlink a (by simp)]; exact h.1, ih h.2 ?_⟩
    intro y hy
    exact hlink y (List.mem_cons_of_mem a hy)

/-- A path through a list with a marked node is a path to that node followed by
a path from it. -/
theorem path_append {link : α → α} {a x z : α} {l₁ l₂ : List α} :
    Path link a (l₁ ++ x :: l₂) z ↔ Path link a l₁ x ∧ Path link x l₂ z := by
  induction l₁ generalizing a with
  | nil => simp [Path]
  | cons y l₁ ih => simp [Path, ih, and_assoc]

/-- The first node that a path visits, its target included. -/
theorem Path.link_eq {link : α → α} {a z : α} {l : List α} (h : Path link a l z) :
    link a = (l ++ [z]).head (by simp) := by
  cases l with
  | nil => simpa [Path] using h
  | cons x l => simpa using h.1

/-- A path can start at any node whose link agrees with the old start. -/
theorem Path.of_start {link link' : α → α} {a b z : α} {l : List α}
    (h : Path link a l z) (hstart : link' b = link a)
    (hlink : ∀ x ∈ l, link' x = link x) : Path link' b l z := by
  cases l with
  | nil => exact hstart.trans h
  | cons x l => exact ⟨hstart.trans h.1, h.2.congr hlink⟩

/-! ## Rings -/

/-- The links represent the list `l` around the head `h`: forwards through
`next` and backwards through `prev`. -/
structure Ring (next prev : α → α) (h : α) (l : List α) : Prop where
  nodup : (h :: l).Nodup
  forward : Path next h l h
  backward : Path prev h l.reverse h

namespace Ring

variable {next prev : α → α} {h : α} {l : List α}

/-- The head alone is a ring. -/
theorem empty (hnext : next h = h) (hprev : prev h = h) : Ring next prev h [] :=
  ⟨by simp, hnext, hprev⟩

/-- A ring read backwards. -/
theorem symm (hring : Ring next prev h l) : Ring prev next h l.reverse where
  nodup := by simpa using hring.nodup
  forward := hring.backward
  backward := by simpa using hring.forward

/-- The successor of the head is the last node of the backward walk. -/
theorem next_head (hring : Ring next prev h l) :
    next h = (h :: l.reverse).getLast (by simp) := by
  rw [hring.forward.link_eq]
  cases l with
  | nil => simp
  | cons x l => simp

/-- The predecessor of a member is the node before it. -/
theorem prev_mem {x : α} {l₁ l₂ : List α} (hring : Ring next prev h (l₁ ++ x :: l₂)) :
    prev x = (h :: l₁).getLast (by simp) := by
  have hback := hring.backward
  rw [List.reverse_append, List.reverse_cons, List.append_assoc, List.singleton_append,
    path_append] at hback
  rw [hback.2.link_eq]
  induction l₁ using List.reverseRecOn with
  | nil => simp
  | append_singleton l₁ y ih => simp

/-- The successor of a member is the node after it. -/
theorem next_mem {x : α} {l₁ l₂ : List α} (hring : Ring next prev h (l₁ ++ x :: l₂)) :
    next x = (h :: l₂.reverse).getLast (by simp) := by
  have hsymm := hring.symm
  rw [List.reverse_append, List.reverse_cons, List.append_assoc, List.singleton_append] at hsymm
  exact hsymm.prev_mem

end Ring

/-! ## Relinking -/

variable [DecidableEq α]

/-- Redirecting the last link of a path changes only the node it arrives at. -/
theorem Path.redirect {link : α → α} {a z y : α} {l : List α}
    (h : Path link a l z) (hnodup : (a :: l).Nodup) :
    Path (update link ((a :: l).getLast (by simp)) y) a l y := by
  induction l generalizing a with
  | nil => simp [Path]
  | cons x l ih =>
    rw [List.nodup_cons] at hnodup
    have hlast : a ≠ (x :: l).getLast (by simp) := by
      intro heq
      exact hnodup.1 (heq ▸ List.getLast_mem (by simp))
    refine ⟨?_, ?_⟩
    · rw [List.getLast_cons (by simp), update_of_ne hlast]
      exact h.1
    · rw [List.getLast_cons (by simp)]
      exact ih h.2 hnodup.2

/-- Bypassing a node of a path: its predecessor is linked to its successor. -/
theorem Path.bypass {link : α → α} {a x z : α} {l₁ l₂ : List α}
    (h : Path link a (l₁ ++ x :: l₂) z) (hnodup : (a :: (l₁ ++ x :: l₂)).Nodup) :
    Path (update link ((a :: l₁).getLast (by simp)) (link x)) a (l₁ ++ l₂) z := by
  obtain ⟨hleft, hright⟩ := path_append.mp h
  rw [← List.cons_append, List.nodup_append'] at hnodup
  obtain ⟨hnodup₁, -, hdisj⟩ := hnodup
  have hredirect := hleft.redirect (y := link x) hnodup₁
  -- The redirected node lies before `x`, so the rest of the path is unchanged.
  have hlast : ∀ y ∈ x :: l₂, y ≠ (a :: l₁).getLast (by simp) := by
    intro y hy heq
    exact hdisj (heq ▸ List.getLast_mem (by simp)) hy
  have hrest : Path (update link ((a :: l₁).getLast (by simp)) (link x)) x l₂ z := by
    refine hright.congr ?_
    intro y hy
    exact update_of_ne (hlast y hy) _ _
  cases l₂ with
  | nil =>
    have hxz : link x = z := hright
    rw [List.append_nil, ← hxz]
    exact hredirect
  | cons y l₂ =>
    rw [hright.1] at hredirect hrest ⊢
    exact path_append.mpr ⟨hredirect, hrest.2⟩

namespace Ring

variable {next prev : α → α} {h : α} {l : List α}

/-- Unlinking a member leaves the ring of the other members. -/
theorem unlink {x : α} {l₁ l₂ : List α} (hring : Ring next prev h (l₁ ++ x :: l₂)) :
    Ring (update next (prev x) (next x)) (update prev (next x) (prev x)) h
      (l₁ ++ l₂) := by
  have hsub : (h :: (l₁ ++ l₂)).Sublist (h :: (l₁ ++ x :: l₂)) := by simp
  refine ⟨hsub.nodup hring.nodup, ?_, ?_⟩
  · rw [hring.prev_mem]
    exact hring.forward.bypass hring.nodup
  · have hback := hring.backward
    have hnodup := hring.symm.nodup
    rw [List.reverse_append, List.reverse_cons, List.append_assoc, List.singleton_append]
      at hback hnodup
    rw [hring.next_mem, List.reverse_append]
    exact hback.bypass hnodup

/-- Inserting a fresh node after the head puts it at the front of the ring. -/
theorem insertHead {x : α} (hring : Ring next prev h l) (hfresh : x ∉ h :: l) :
    Ring (update (update next x (next h)) h x)
      (update (update prev x h) (next h) x) h (x :: l) := by
  have hxh : x ≠ h := fun heq => hfresh (heq ▸ List.mem_cons_self)
  have hxl : x ∉ l := fun hmem => hfresh (List.mem_cons_of_mem h hmem)
  have hhl : h ∉ l := (List.nodup_cons.mp hring.nodup).1
  refine ⟨?_, ⟨by simp, ?_⟩, ?_⟩
  · simp only [List.nodup_cons, List.mem_cons, not_or]
    exact ⟨⟨hxh.symm, hhl⟩, hxl, (List.nodup_cons.mp hring.nodup).2⟩
  · refine hring.forward.of_start (by simp [hxh]) ?_
    intro y hy
    have hyh : y ≠ h := fun heq => hhl (heq ▸ hy)
    have hyx : y ≠ x := fun heq => hxl (heq ▸ hy)
    simp [hyh, hyx]
  · rw [List.reverse_cons, path_append]
    have hback : Path (update prev x h) h l.reverse h := by
      refine hring.backward.congr ?_
      intro y hy
      have hyx : y ≠ x := by
        rintro rfl
        exact hfresh (by simpa using hy)
      simp [hyx]
    constructor
    · rw [hring.next_head]
      exact hback.redirect hring.symm.nodup
    · have hnh : x ≠ next h := by
        rw [hring.next_head]
        intro heq
        have hmem := List.getLast_mem (l := h :: l.reverse) (by simp)
        rw [← heq] at hmem
        exact hfresh (by simpa using hmem)
      simp [Path, hnh]

end Ring

/-! ## Searching a ring -/

/-- Search the nodes that `link` visits from `a`, until the head `h` comes up. -/
def scan (link : α → α) (h : α) (p : α → Bool) : Nat → α → Option α
  | 0, _ => none
  | fuel + 1, a =>
      if a = h then none
      else if p a then some a
      else scan link h p fuel (link a)

/-- A search along a path that returns to the head is a search of its list. -/
theorem scan_eq_find? {link : α → α} {h a : α} {l : List α} (p : α → Bool)
    (hpath : Path link a l h) (hl : h ∉ l) (fuel : Nat) (hfuel : l.length ≤ fuel) :
    scan link h p fuel (link a) = l.find? p := by
  induction l generalizing a fuel with
  | nil =>
    have hah : link a = h := hpath
    cases fuel <;> simp [scan, hah]
  | cons x l ih =>
    obtain ⟨fuel, rfl⟩ : ∃ n, fuel = n + 1 := ⟨fuel - 1, by simp at hfuel; omega⟩
    have hxh : x ≠ h := fun heq => hl (heq ▸ List.mem_cons_self)
    have hrest := ih hpath.2 (fun hmem => hl (List.mem_cons_of_mem x hmem)) fuel
      (by simpa using hfuel)
    rw [hpath.1, scan, if_neg hxh, List.find?_cons, hrest]
    cases p x <;> simp

namespace Ring

variable {next prev : α → α} {h : α} {l : List α}

/-- A forward search of a ring examines its nodes from the front. -/
theorem scan_next (hring : Ring next prev h l) (p : α → Bool) {fuel : Nat}
    (hfuel : l.length ≤ fuel) : scan next h p fuel (next h) = l.find? p :=
  scan_eq_find? p hring.forward (List.nodup_cons.mp hring.nodup).1 fuel hfuel

/-- A backward search of a ring examines its nodes from the back. -/
theorem scan_prev (hring : Ring next prev h l) (p : α → Bool) {fuel : Nat}
    (hfuel : l.length ≤ fuel) : scan prev h p fuel (prev h) = l.reverse.find? p := by
  refine hring.symm.scan_next p ?_
  simpa using hfuel

end Ring

end Lib
end Xv6
