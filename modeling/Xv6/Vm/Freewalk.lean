import Mathlib.Tactic
import Xv6.Vm.Pagetable

/-!
# Freeing a page table

`freewalk` gives back the pages of a page table without leaves, children first.

Main results:

- Theorem {lit}`wp_freewalkFrom`: the recursion frees every page of a tree exactly once.
- Theorem {lit}`wp_freewalk`: the same for a page table.
-/

namespace Xv6
namespace Vm

open Lib

/-- In the tree of depth `d` below page `p` the inner entries are plain, and there is no
valid entry in the last level. -/
def Bare (mem : Nat → Page) (p d : Nat) : Prop :=
  ∀ π q i, π.length ≤ d → node (child mem) p π = some q → i < 512 → word (mem q) i % 2 = 1 →
    π.length < d ∧ pteFlags (word (mem q) i) = pteV

/-- The pages below entry `i` of page `p`. -/
def below (mem : Nat → Page) (p d i : Nat) : Set Nat :=
  {q | ∃ c d', d = d' + 1 ∧ child mem p i = some c ∧ q ∈ nodes (child mem) c d'}

/-- What `freewalk` still owns when its loop is at entry `i`. -/
def remaining (mem : Nat → Page) (p d i : Nat) : Set Nat :=
  {q | q = p ∨ ∃ j, i ≤ j ∧ j < 512 ∧ q ∈ below mem p d j}

section Freewalk

variable {K : Image} {s : Phys} {p d i q : Nat} {Q : Unit → Phys → Prop}
variable {E : String → Phys → Prop} {mem : Nat → Page}

/-- The index of a child. -/
theorem child_lt {c : Nat} (h : child mem p i = some c) : i < 512 := by
  unfold child at h
  split at h
  next hcond => exact hcond.1
  next => cases h

/-- All tables are left at the start. -/
theorem remaining_zero : remaining mem p d 0 = nodes (child mem) p d := by
  ext q
  constructor
  · rintro (rfl | ⟨j, -, -, c, d', rfl, hchild, hq⟩)
    · exact root_mem_nodes
    · exact mem_nodes_child hchild hq
  · intro hq
    cases d with
    | zero =>
      obtain ⟨π, hπ, hnode⟩ := hq
      obtain rfl := List.length_eq_zero_iff.mp (Nat.le_zero.mp hπ)
      exact Or.inl (Option.some.inj hnode).symm
    | succ d =>
      rcases mem_nodes_cases hq with rfl | ⟨j, c, hchild, hq⟩
      · exact Or.inl rfl
      · exact Or.inr ⟨j, Nat.zero_le j, child_lt hchild, c, d, rfl, hchild, hq⟩

/-- What the next round frees. -/
theorem remaining_succ (hi : i < 512) :
    remaining mem p d i = below mem p d i ∪ remaining mem p d (i + 1) := by
  ext q
  constructor
  · rintro (rfl | ⟨j, hij, hj, hq⟩)
    · exact Or.inr (Or.inl rfl)
    · rcases Nat.eq_or_lt_of_le hij with rfl | hlt
      · exact Or.inl hq
      · exact Or.inr (Or.inr ⟨j, hlt, hj, hq⟩)
  · rintro (hq | rfl | ⟨j, hij, hj, hq⟩)
    · exact Or.inr ⟨i, Nat.le_refl i, hi, hq⟩
    · exact Or.inl rfl
    · exact Or.inr ⟨j, by omega, hj, hq⟩

/-- The table itself is left at the end. -/
theorem remaining_end : remaining mem p d 512 = insert p ∅ := by
  ext q
  constructor
  · rintro (rfl | ⟨j, hij, hj, -⟩)
    · exact Or.inl rfl
    · omega
  · rintro (rfl | hq)
    · exact Or.inl rfl
    · exact hq.elim

/-- The subtree of an entry is apart from what `freewalk` frees later. -/
theorem below_disjoint (h : Radix (child mem) p d) (hq : q ∈ below mem p d i) :
    q ∉ remaining mem p d (i + 1) := by
  obtain ⟨c, d', rfl, hchild, hq⟩ := hq
  rintro (rfl | ⟨j, hij, -, c', d'', heq, hchild', hq'⟩)
  · exact h.root_notMem hchild hq
  · obtain rfl : d' = d'' := Nat.succ.inj heq
    exact h.child_disjoint (by omega) hchild hchild' hq hq'

/-- There is nothing below an invalid entry. -/
theorem below_of_invalid (hinvalid : ¬word (mem p) i % 2 = 1) : below mem p d i = ∅ := by
  refine Set.eq_empty_of_forall_notMem ?_
  rintro q ⟨c, d', rfl, hchild, -⟩
  rw [child, if_neg fun h => hinvalid h.2] at hchild
  cases hchild

/-- The tree of a child. -/
theorem Bare.sub {c : Nat} (h : Bare mem p (d + 1)) (hchild : child mem p i = some c) :
    Bare mem c d := by
  intro π q j hπ hnode hj hvalid
  have := h (i :: π) q j (Nat.succ_le_succ hπ) (by rw [node, hchild]; exact hnode) hj hvalid
  exact ⟨Nat.lt_of_succ_lt_succ this.1, this.2⟩

/-- An entry that leads to a table. -/
theorem and_rwx_of_plain {pte : Nat} (hplain : pteFlags pte = pteV) :
    pte &&& (pteR ||| pteW ||| pteX) = 0 := by
  have hmask : pte &&& (pteR ||| pteW ||| pteX) = pteFlags pte &&& 14 := by
    rw [pteFlags, Nat.and_assoc]
    rfl
  rw [hmask, hplain]
  rfl

/-- The trees of the entries that are left depend on pages that are left. -/
structure Left (s₀ s : Phys) (p d i : Nat) : Prop where
  trade : Trade s₀ s (nodes (child s₀.mem) p d) (remaining s₀.mem p d i)
  words : ∀ j, i ≤ j → word (s.mem p) j = word (s₀.mem p) j
  mem : ∀ j q, i ≤ j → q ∈ below s₀.mem p d j → s.mem q = s₀.mem q

/-- Only the tables matter. -/
theorem Bare.congr {mem' : Nat → Page} (h : Bare mem p d)
    (hmem : ∀ q ∈ nodes (child mem) p d, mem' q = mem q) : Bare mem' p d := by
  intro π q i hπ hnode hi hvalid
  rw [node_congr (fun π' q' hπ' hq' => child_congr (hmem q' ⟨π', hπ'.le, hq'⟩)) hπ] at hnode
  rw [hmem q ⟨π, hπ, hnode⟩] at hvalid ⊢
  exact h π q i hπ hnode hi hvalid

/-- The loop goes on from an entry that is not valid. -/
theorem Left.skip {s₁ : Phys} (h : Left s s₁ p d i) (hi : i < 512)
    (hinvalid : ¬word (s.mem p) i % 2 = 1) : Left s s₁ p d (i + 1) where
  trade := by
    have htrade := h.trade
    rwa [remaining_succ hi, below_of_invalid hinvalid, Set.empty_union] at htrade
  words j hj := h.words j (by omega)
  mem j q hj := h.mem j q (by omega)

/-- The loop goes on after the tree below an entry has been freed. -/
theorem Left.freed {s₁ s₂ : Phys} {c : Nat} (h : Left s s₁ p (d + 1) i) (hi : i < 512)
    (hradix : Radix (child s.mem) p (d + 1)) (ho : Owns K.Ram s (nodes (child s.mem) p (d + 1)))
    (hchild : child s.mem p i = some c) (ht : Trade s₁ s₂ (nodes (child s.mem) c d) ∅) :
    Left s (s₂.write p (putLE (s₂.mem p) (8 * i) 8 0)) p (d + 1) (i + 1) := by
  have hbelow : below s.mem p (d + 1) i = nodes (child s.mem) c d := by
    ext q
    constructor
    · rintro ⟨c', d', heq, hchild', hq⟩
      obtain rfl : d = d' := Nat.succ.inj heq
      cases hchild.symm.trans hchild'
      exact hq
    · exact fun hq => ⟨c, d, rfl, hchild, hq⟩
  have hapart : ∀ q ∈ remaining s.mem p (d + 1) (i + 1), q ∉ nodes (child s.mem) c d := by
    intro q hq hq'
    rw [← hbelow] at hq'
    exact below_disjoint hradix hq' hq
  have hfree : ∀ q ∈ remaining s.mem p (d + 1) (i + 1), q ∉ s₁.free := by
    intro q hq hf
    refine h.trade.sep q hf ?_
    rw [remaining_succ hi]
    exact Or.inr hq
  have hsame : ∀ q ∈ remaining s.mem p (d + 1) (i + 1), s₂.mem q = s₁.mem q := fun q hq =>
    ht.frame q (hapart q hq) (hfree q hq)
  have hp : p ∈ remaining s.mem p (d + 1) (i + 1) := Or.inl rfl
  have htrade : Trade s s₂ (nodes (child s.mem) p (d + 1)) (remaining s.mem p (d + 1) (i + 1)) := by
    have hwide := ht.widen hapart hfree
    rw [Set.empty_union, ← hbelow, ← remaining_succ hi] at hwide
    exact h.trade.trans hwide
  refine ⟨htrade.trans ((htrade.owns ho).write hp), fun j hj => ?_, fun j q hj hq => ?_⟩
  · rw [mem_write_same, word_putLE_of_ne _ (by omega), hsame p hp, h.words j (by omega)]
  · have hj' : j < 512 := by
      obtain ⟨c', d', -, hchild', -⟩ := hq
      exact child_lt hchild'
    have hne : q ≠ p := by
      rintro rfl
      obtain ⟨c', d', heq, hchild', hq⟩ := hq
      obtain rfl : d = d' := Nat.succ.inj heq
      exact hradix.root_notMem hchild' hq
    rw [mem_write_of_ne _ _ hne, hsame q (Or.inr ⟨j, hj, hj', hq⟩), h.mem j q (by omega) hq]

/-- `freewalk` frees every page of a tree without leaves. -/
theorem wp_freewalkFrom {n : Nat} (hn : d < n) (h : Radix (child s.mem) p d)
    (hbare : Bare s.mem p d) (ho : Owns K.Ram s (nodes (child s.mem) p d))
    (hQ : ∀ s', Trade s s' (nodes (child s.mem) p d) ∅ → Q () s') :
    Wp (freewalkFrom K n p) s Q E := by
  induction n generalizing d s p Q with
  | zero => omega
  | succ n ih =>
    unfold freewalkFrom
    refine Wp.bind (wp_forUpto (fun i s' => Left s s' p d i) ?_ fun i hi s₁ hleft => ?_) ?_
    · exact ⟨remaining_zero ▸ ho.refl, fun _ _ => rfl, fun _ _ _ _ => rfl⟩
    · rw [wp_bind, wp_load, hleft.words i (Nat.le_refl i)]
      by_cases hvalid : word (s.mem p) i % 2 = 1
      · obtain ⟨hd, hplain⟩ := hbare [] p i (Nat.zero_le d) rfl hi hvalid
        obtain ⟨d, rfl⟩ := Nat.exists_eq_add_one_of_ne_zero (by exact Nat.ne_of_gt hd)
        have hchild : child s.mem p i = some (pte2pa (word (s.mem p) i)) := if_pos ⟨hi, hvalid⟩
        have hsame : ∀ q ∈ nodes (child s.mem) (pte2pa (word (s.mem p) i)) d,
            s₁.mem q = s.mem q := fun q hq =>
          hleft.mem i q (Nat.le_refl i) ⟨_, d, rfl, hchild, hq⟩
        have hcongr : ∀ π q, π.length < d →
            node (child s.mem) (pte2pa (word (s.mem p) i)) π = some q →
            child s₁.mem q = child s.mem q :=
          fun π q hπ hq => child_congr (hsame q ⟨π, hπ.le, hq⟩)
        rw [if_pos ⟨by rw [and_pteV]; omega, and_rwx_of_plain hplain⟩, wp_bind]
        refine ih (by omega) ((h.sub hchild).congr hcongr) ((hbare.sub hchild).congr hsame) ?_ ?_
        · rw [nodes_congr hcongr]
          refine (hleft.trade.owns ho).subset fun q hq => ?_
          exact Or.inr ⟨i, Nat.le_refl i, hi, _, d, rfl, hchild, hq⟩
        · intro s₂ ht
          rw [nodes_congr hcongr] at ht
          rw [wp_store]
          exact hleft.freed hi h ho hchild ht
      · have hzero : ¬(word (s.mem p) i &&& pteV ≠ 0) := by
          rw [and_pteV]
          omega
        rw [if_neg fun hcond => hzero hcond.1, if_neg hzero, wp_pure]
        exact hleft.skip hi hvalid
    · intro _ s₁ hleft
      have htrade := hleft.trade
      rw [remaining_end] at htrade
      refine wp_kfree (htrade.owns ho) (Set.notMem_empty p) fun s₂ _ _ hgive => ?_
      exact hQ s₂ (htrade.trans hgive)

variable {t : Nat} {M : Nat → Option Nat}

/-- A page table without leaves. -/
theorem Table.bare (h : Table s t M) (hM : ∀ v < npages, M v = none) : Bare s.mem t 2 := by
  intro π q i hπ hnode hi hvalid
  rcases Nat.lt_or_eq_of_le hπ with hlt | heq
  · exact ⟨hlt, h.plain π q i hlt hnode hi hvalid⟩
  · -- an entry of the last level is that of some virtual page
    exfalso
    obtain ⟨i₂, i₁, rfl⟩ := List.length_eq_two.mp heq
    obtain ⟨c, hc, hrest⟩ := Option.bind_eq_some_iff.mp hnode
    have hi₂ : i₂ < 256 := by
      by_contra hge
      rw [h.low i₂ (by omega)] at hc
      cases hc
    have hi₁ : i₁ < 512 := by
      obtain ⟨c', hc', -⟩ := Option.bind_eq_some_iff.mp hrest
      exact child_lt hc'
    have hpath : path (i₂ * 2 ^ 18 + i₁ * 2 ^ 9 + i) = [i₂, i₁] := by
      simp only [path, List.cons.injEq, and_true]
      omega
    have hv : i₂ * 2 ^ 18 + i₁ * 2 ^ 9 + i < npages := by
      unfold npages maxva pgsize
      omega
    have hmap := h.map _ hv
    rw [hM _ hv, lookup_of_node (hpath ▸ hnode),
      show (i₂ * 2 ^ 18 + i₁ * 2 ^ 9 + i) % 512 = i by omega,
      entry_of_valid hvalid] at hmap
    cases hmap

/-- `freewalk` frees a page table without leaves. -/
theorem wp_freewalk (h : Table s t M) (hM : ∀ v < npages, M v = none)
    (ho : Owns K.Ram s (pages s.mem t)) (hQ : ∀ s', Trade s s' (pages s.mem t) ∅ → Q () s') :
    Wp (freewalk K t) s Q E :=
  wp_freewalkFrom (by unfold rounds; norm_num) h.radix (h.bare hM) ho hQ

end Freewalk

end Vm
end Xv6
