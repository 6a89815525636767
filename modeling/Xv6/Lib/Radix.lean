import Mathlib.Data.List.Induction
import Mathlib.Data.Set.Insert
import Mathlib.Logic.Function.Basic

/-!
# Radix trees in a store of pages

A page has numbered children.  A radix tree of some depth is given by its root: the nodes
are the pages at the ends of the paths from it.  In a tree different paths end in
different pages, so a page can be linked in, or a page outside be changed, without any
other path noticing.

Main results:

- Theorem {lit}`node_congr`: the nodes depend on the inner pages only.
- Theorem {lit}`node_link`: linking in a fresh empty page adds one path.
- Theorem {lit}`Radix.link`: and leaves a tree.
-/

namespace Xv6
namespace Lib

variable {P ι : Type}

/-- The page at the end of a path. -/
def node (child : P → ι → Option P) : P → List ι → Option P
  | r, [] => some r
  | r, i :: path => (child r i).bind fun q => node child q path

/-- The pages at the ends of the paths of at most `d` steps. -/
def nodes (child : P → ι → Option P) (r : P) (d : Nat) : Set P :=
  {p | ∃ path, path.length ≤ d ∧ node child r path = some p}

/-- Different paths of at most `d` steps end in different pages. -/
def Radix (child : P → ι → Option P) (r : P) (d : Nat) : Prop :=
  ∀ path path' p, path.length ≤ d → path'.length ≤ d → node child r path = some p →
    node child r path' = some p → path = path'

section Nodes

variable {child child' : P → ι → Option P} {r p q : P} {i : ι} {path : List ι} {d : Nat}

/-- A path in two parts. -/
theorem node_append (path path' : List ι) :
    node child r (path ++ path') = (node child r path).bind fun q => node child q path' := by
  induction path generalizing r with
  | nil => rfl
  | cons i path ih =>
    simp only [List.cons_append, node]
    cases child r i with
    | none => rfl
    | some q => exact ih

/-- One more step. -/
theorem node_concat (path : List ι) (i : ι) :
    node child r (path ++ [i]) = (node child r path).bind fun q => child q i := by
  rw [node_append]
  congr
  funext q
  simp only [node]
  cases child q i <;> rfl

/-- The root is a node. -/
theorem root_mem_nodes : r ∈ nodes child r d :=
  ⟨[], Nat.zero_le d, rfl⟩

/-- The nodes depend on the pages on the way to them. -/
theorem node_congr (hsame : ∀ path p, path.length < d → node child r path = some p →
    child' p = child p) (hpath : path.length ≤ d) : node child' r path = node child r path := by
  induction path using List.reverseRecOn with
  | nil => rfl
  | append_singleton path i ih =>
    rw [List.length_append, List.length_singleton] at hpath
    rw [node_concat, node_concat, ih (by omega)]
    cases hnode : node child r path with
    | none => rfl
    | some p =>
      change child' p i = child p i
      rw [hsame path p hpath hnode]

/-- The nodes depend on the inner nodes. -/
theorem nodes_congr (hsame : ∀ path p, path.length < d → node child r path = some p →
    child' p = child p) : nodes child' r d = nodes child r d := by
  ext p
  constructor
  · rintro ⟨path, hpath, hnode⟩
    exact ⟨path, hpath, by rw [← node_congr hsame hpath, hnode]⟩
  · rintro ⟨path, hpath, hnode⟩
    exact ⟨path, hpath, by rw [node_congr hsame hpath, hnode]⟩

/-- Only the inner nodes matter. -/
theorem Radix.congr (h : Radix child r d) (hsame : ∀ path p, path.length < d →
    node child r path = some p → child' p = child p) : Radix child' r d := by
  intro path path' p hpath hpath' hnode hnode'
  rw [node_congr hsame hpath] at hnode
  rw [node_congr hsame hpath'] at hnode'
  exact h path path' p hpath hpath' hnode hnode'

/-- The nodes below a child. -/
theorem mem_nodes_child (hchild : child r i = some p) (hq : q ∈ nodes child p d) :
    q ∈ nodes child r (d + 1) := by
  obtain ⟨path, hpath, hnode⟩ := hq
  exact ⟨i :: path, Nat.succ_le_succ hpath, by rw [node, hchild]; exact hnode⟩

/-- A node is the root or below a child of it. -/
theorem mem_nodes_cases (hq : q ∈ nodes child r (d + 1)) :
    q = r ∨ ∃ i p, child r i = some p ∧ q ∈ nodes child p d := by
  obtain ⟨path, hpath, hnode⟩ := hq
  cases path with
  | nil => exact Or.inl (Option.some.inj hnode).symm
  | cons i path =>
    obtain ⟨p, hchild, hrest⟩ := Option.bind_eq_some_iff.mp hnode
    exact Or.inr ⟨i, p, hchild, path, Nat.le_of_succ_le_succ hpath, hrest⟩

/-- A child is the root of a tree. -/
theorem Radix.sub (h : Radix child r (d + 1)) (hchild : child r i = some p) :
    Radix child p d := by
  intro path path' q hpath hpath' hq hq'
  have heq := h (i :: path) (i :: path') q (Nat.succ_le_succ hpath) (Nat.succ_le_succ hpath')
    (by rw [node, hchild]; exact hq) (by rw [node, hchild]; exact hq')
  exact (List.cons.inj heq).2

/-- The root is not below a child. -/
theorem Radix.root_notMem (h : Radix child r (d + 1)) (hchild : child r i = some p) :
    r ∉ nodes child p d := by
  rintro ⟨path, hpath, hnode⟩
  have heq := h [] (i :: path) r (Nat.zero_le _) (Nat.succ_le_succ hpath) rfl
    (by rw [node, hchild]; exact hnode)
  cases heq

/-- Different children have different nodes below them. -/
theorem Radix.child_disjoint {j : ι} {p' : P} (h : Radix child r (d + 1)) (hij : i ≠ j)
    (hchild : child r i = some p) (hchild' : child r j = some p') (hq : q ∈ nodes child p d) :
    q ∉ nodes child p' d := by
  rintro ⟨path', hpath', hnode'⟩
  obtain ⟨path, hpath, hnode⟩ := hq
  have heq := h (i :: path) (j :: path') q (Nat.succ_le_succ hpath) (Nat.succ_le_succ hpath')
    (by rw [node, hchild]; exact hnode) (by rw [node, hchild']; exact hnode')
  exact hij (List.cons.inj heq).1

end Nodes

/-- Page `q`, which is empty, is linked in as child `i` of page `p`. -/
structure Link (child child' : P → ι → Option P) (r : P) (d : Nat) (p : P) (i : ι) (q : P) :
    Prop where
  before : child p i = none
  fresh : q ∉ nodes child r d
  here : child' p i = some q
  beside : ∀ j, j ≠ i → child' p j = child p j
  empty : ∀ j, child' q j = none
  others : ∀ p' ∈ nodes child r d, p' ≠ p → child' p' = child p'

section Link

variable {child child' : P → ι → Option P} {r p q : P} {i : ι} {path path' : List ι} {d : Nat}

/-- The paths after a page is linked in at the end of `path`. -/
theorem node_link (h : Radix child r d) (hl : Link child child' r d p i q)
    (hpath : path.length < d) (hp : node child r path = some p) (hpath' : path'.length ≤ d) :
    (path' = path ++ [i] → node child' r path' = some q) ∧
      (path' ≠ path ++ [i] → node child' r path' = node child r path') := by
  induction path' using List.reverseRecOn with
  | nil => exact ⟨fun heq => by simp at heq, fun _ => rfl⟩
  | append_singleton path' j ih =>
    rw [List.length_append, List.length_singleton] at hpath'
    obtain ⟨hnew, hold⟩ := ih (by omega)
    rw [node_concat, node_concat]
    by_cases hparent : path' = path ++ [i]
    · -- below the new page there is nothing, before and after
      have hbefore : node child r path' = none := by
        rw [hparent, node_concat, hp]
        exact hl.before
      have hne : path' ++ [j] ≠ path ++ [i] := by
        intro heq
        have hlen := congrArg List.length heq
        simp [hparent] at hlen
      rw [hnew hparent, hbefore]
      exact ⟨fun heq => absurd heq hne, fun _ => hl.empty j⟩
    · rw [hold hparent]
      cases hnode : node child r path' with
      | none =>
        refine ⟨fun heq => ?_, fun _ => rfl⟩
        obtain ⟨rfl, -⟩ := List.append_inj' heq rfl
        simp [hnode] at hp
      | some p' =>
        change (_ → child' p' j = some q) ∧ (_ → child' p' j = child p' j)
        obtain rfl | hsame := eq_or_ne p' p
        · obtain rfl : path' = path := h path' path p' (by omega) (by omega) hnode hp
          refine ⟨fun heq => ?_, fun hne => hl.beside j fun hji => hne (by rw [hji])⟩
          obtain rfl : j = i := by simpa using heq
          exact hl.here
        · have hothers := hl.others p' ⟨path', by omega, hnode⟩ hsame
          refine ⟨fun heq => ?_, fun _ => by rw [hothers]⟩
          obtain ⟨rfl, -⟩ := List.append_inj' heq rfl
          exact absurd (Option.some.inj (hnode.symm.trans hp)) hsame

/-- A tree with a fresh page linked in is a tree. -/
theorem Radix.link (h : Radix child r d) (hl : Link child child' r d p i q)
    (hpath : path.length < d) (hp : node child r path = some p) : Radix child' r d := by
  intro path₁ path₂ x hlen₁ hlen₂ hnode₁ hnode₂
  obtain ⟨hnew₁, hold₁⟩ := node_link h hl hpath hp hlen₁
  obtain ⟨hnew₂, hold₂⟩ := node_link h hl hpath hp hlen₂
  by_cases h₁ : path₁ = path ++ [i] <;> by_cases h₂ : path₂ = path ++ [i]
  · rw [h₁, h₂]
  · rw [hnew₁ h₁] at hnode₁
    rw [hold₂ h₂, ← hnode₁] at hnode₂
    exact absurd ⟨path₂, hlen₂, hnode₂⟩ hl.fresh
  · rw [hnew₂ h₂] at hnode₂
    rw [hold₁ h₁, ← hnode₂] at hnode₁
    exact absurd ⟨path₁, hlen₁, hnode₁⟩ hl.fresh
  · rw [hold₁ h₁] at hnode₁
    rw [hold₂ h₂] at hnode₂
    exact h path₁ path₂ x hlen₁ hlen₂ hnode₁ hnode₂

/-- The pages of a tree with a fresh page linked in. -/
theorem nodes_link (h : Radix child r d) (hl : Link child child' r d p i q)
    (hpath : path.length < d) (hp : node child r path = some p) :
    nodes child' r d = insert q (nodes child r d) := by
  ext x
  constructor
  · rintro ⟨path', hlen, hnode⟩
    obtain ⟨hnew, hold⟩ := node_link h hl hpath hp hlen
    by_cases heq : path' = path ++ [i]
    · rw [hnew heq] at hnode
      exact Set.mem_insert_iff.mpr (Or.inl (Option.some.inj hnode).symm)
    · rw [hold heq] at hnode
      exact Set.mem_insert_of_mem _ ⟨path', hlen, hnode⟩
  · rintro (rfl | ⟨path', hlen, hnode⟩)
    · have hlen : (path ++ [i]).length ≤ d := by simpa using Nat.succ_le_of_lt hpath
      exact ⟨path ++ [i], hlen, (node_link h hl hpath hp hlen).1 rfl⟩
    · obtain ⟨-, hold⟩ := node_link h hl hpath hp hlen
      refine ⟨path', hlen, ?_⟩
      rw [hold, hnode]
      rintro rfl
      rw [node_concat, hp] at hnode
      exact absurd (hl.before.symm.trans hnode) (by simp)

end Link

end Lib
end Xv6
